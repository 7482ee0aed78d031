import Schematic.KeyedList

/-!
# What a keyed list holds

Looking a key up finds its entry, writing changes one value and at most appends one key, and a list
of entries whose keys are distinct is its own keyed list.
-/

namespace Schematic

universe u v

namespace KeyedList

variable {κ : Type u} {β : Type v} {m : KeyedList κ β} {k j : κ} {x : β}

theorem ext_entries {m n : KeyedList κ β} (h : m.entries = n.entries) : m = n := by
  cases m; cases n; cases h; rfl

theorem nodup_keys (m : KeyedList κ β) : m.keys.Nodup := m.distinct

theorem keys_mapValues {γ : Type v} (f : κ → β → γ) (m : KeyedList κ β) :
    (m.mapValues f).keys = m.keys := by simp [mapValues, keys]

theorem values_mapValues {γ : Type v} (f : β → γ) (m : KeyedList κ β) :
    (m.mapValues fun _ => f).values = m.values.map f := by simp [mapValues, values]

variable [DecidableEq κ]

/-! ## Looking up -/

theorem lookup_cons_eq (k' : κ) (x' : β) (es : List (κ × β)) :
    ((k', x') :: es).lookup k = if k = k' then some x' else es.lookup k := by
  by_cases h : k = k'
  · simp [h]
  · have hk : (k == k') = false := by simpa using h
    simp [List.lookup_cons, h, hk]

theorem lookup_eq_some_iff_mem {es : List (κ × β)} (h : (es.map Prod.fst).Nodup) :
    es.lookup k = some x ↔ (k, x) ∈ es := by
  induction es with
  | nil => simp
  | cons e es ih =>
      rw [List.map_cons, List.nodup_cons] at h
      obtain ⟨hnot, hes⟩ := h
      obtain ⟨k', x'⟩ := e
      rw [lookup_cons_eq, List.mem_cons, Prod.mk.injEq]
      by_cases hk : k = k'
      · have hno : (k, x) ∉ es := fun hm => hnot (List.mem_map.mpr ⟨(k, x), hm, hk⟩)
        rw [if_pos hk, Option.some.injEq]
        constructor
        · rintro rfl
          exact Or.inl ⟨hk, rfl⟩
        · rintro (⟨-, rfl⟩ | hm)
          · rfl
          · exact absurd hm hno
      · simp [hk, ih hes]

theorem get?_eq_some_iff : m.get? k = some x ↔ (k, x) ∈ m.entries :=
  lookup_eq_some_iff_mem m.distinct

theorem mem_keys_iff : k ∈ m.keys ↔ ∃ x, m.get? k = some x := by
  simp only [keys, List.mem_map, get?_eq_some_iff]
  constructor
  · rintro ⟨⟨_, x⟩, hm, rfl⟩
    exact ⟨x, hm⟩
  · rintro ⟨x, hm⟩
    exact ⟨(k, x), hm, rfl⟩

theorem mem_values_iff : x ∈ m.values ↔ ∃ k, m.get? k = some x := by
  simp only [values, List.mem_map, get?_eq_some_iff]
  constructor
  · rintro ⟨⟨k, _⟩, hm, rfl⟩
    exact ⟨k, hm⟩
  · rintro ⟨k, hm⟩
    exact ⟨(k, x), hm, rfl⟩

theorem mem_values_of_get? (h : m.get? k = some x) : x ∈ m.values := mem_values_iff.mpr ⟨k, h⟩

/-- Entries with the same keys in the same order are shown alike if the values under each key
are. -/
theorem map_entries_eq {γ : Type v} {δ : Type u} {ys : List (κ × γ)} {f : κ → β → δ} {g : κ → γ → δ}
    (hkeys : m.keys = ys.map Prod.fst)
    (h : ∀ k x y, m.get? k = some x → (k, y) ∈ ys → f k x = g k y) :
    (m.entries.map fun e => f e.1 e.2) = ys.map fun e => g e.1 e.2 := by
  have hlength : m.entries.length = ys.length := by
    have := congrArg List.length hkeys
    rwa [keys, List.length_map, List.length_map] at this
  refine List.ext_getElem (by rw [List.length_map, List.length_map, hlength]) fun i hi hi' => ?_
  rw [List.length_map] at hi hi'
  have hkey : (m.entries[i]).1 = (ys[i]).1 := by
    have hget := congrArg (fun ks => ks[i]?) hkeys
    simpa [keys, List.getElem?_map, hi, hi'] using hget
  have hx : m.get? (m.entries[i]).1 = some (m.entries[i]).2 :=
    get?_eq_some_iff.mpr (List.getElem_mem hi)
  have hy : ((m.entries[i]).1, (ys[i]).2) ∈ ys := by
    rw [hkey]
    exact List.getElem_mem hi'
  rw [List.getElem_map, List.getElem_map, h _ _ _ hx hy, hkey]

theorem get?_eq_none_iff : m.get? k = none ↔ k ∉ m.keys := by
  rw [mem_keys_iff, Option.eq_none_iff_forall_ne_some, not_exists]

theorem contains_iff : m.contains k = true ↔ k ∈ m.keys := List.contains_iff_mem

theorem mem_keys_of_get? (h : m.get? k = some x) : k ∈ m.keys := mem_keys_iff.mpr ⟨x, h⟩

theorem get?_mapValues {γ : Type v} (f : κ → β → γ) (m : KeyedList κ β) :
    (m.mapValues f).get? k = (m.get? k).map (f k) := by
  have hes : ∀ es : List (κ × β),
      (es.map fun e => (e.1, f e.1 e.2)).lookup k = (es.lookup k).map (f k) := by
    intro es
    induction es with
    | nil => rfl
    | cons e es ih =>
        rw [List.map_cons, lookup_cons_eq, lookup_cons_eq, ih]
        by_cases h : k = e.1
        · rw [if_pos h, if_pos h, Option.map_some, h]
        · rw [if_neg h, if_neg h]
  exact hes m.entries

theorem get?_modify {f : β → β} :
    (m.modify k f).get? j = (m.get? j).map fun x => if j = k then f x else x := get?_mapValues _ m

theorem keys_modify {f : β → β} : (m.modify k f).keys = m.keys := keys_mapValues _ m

/-! ## Writing -/

theorem lookup_putEntries (es : List (κ × β)) :
    (putEntries k x es).lookup j = if j = k then some x else es.lookup j := by
  induction es with
  | nil => by_cases h : j = k <;> simp [putEntries, h]
  | cons e es ih =>
      obtain ⟨k', x'⟩ := e
      by_cases he : k' = k
      · subst he
        by_cases h : j = k' <;> simp [putEntries, lookup_cons_eq, h]
      · by_cases h : j = k'
        · simp [putEntries, he, h]
        · simp [putEntries, he, lookup_cons_eq, h, ih]

theorem get?_put : (m.put k x).get? j = if j = k then some x else m.get? j :=
  lookup_putEntries m.entries

theorem get?_put_self : (m.put k x).get? k = some x := by rw [get?_put, if_pos rfl]

theorem get?_put_of_ne (h : j ≠ k) : (m.put k x).get? j = m.get? j := by rw [get?_put, if_neg h]

theorem putEntries_of_not_mem {es : List (κ × β)} (h : k ∉ es.map Prod.fst) :
    putEntries k x es = es ++ [(k, x)] := by
  induction es with
  | nil => rfl
  | cons e es ih =>
      rw [List.map_cons, List.mem_cons, not_or] at h
      rw [putEntries, if_neg (Ne.symm h.1), ih h.2, List.cons_append]

theorem entries_put_of_not_mem (h : k ∉ m.keys) : (m.put k x).entries = m.entries ++ [(k, x)] :=
  putEntries_of_not_mem h

theorem keys_put_of_not_mem (h : k ∉ m.keys) : (m.put k x).keys = m.keys ++ [k] := by
  rw [keys, entries_put_of_not_mem h, List.map_append]
  rfl

theorem mem_keys_put : j ∈ (m.put k x).keys ↔ j = k ∨ j ∈ m.keys := mem_keys_putEntries

/-! ## Writing many entries -/

theorem entries_putAll {es : List (κ × β)} (h : (m.entries ++ es).map Prod.fst |>.Nodup) :
    (m.putAll es).entries = m.entries ++ es := by
  induction es generalizing m with
  | nil => rw [List.append_nil]; rfl
  | cons e es ih =>
      have hnot : e.1 ∉ m.keys := by
        rw [List.map_append, List.map_cons] at h
        have hd := (List.nodup_append.mp h).2.2
        exact fun hm => hd e.1 hm e.1 (List.mem_cons_self ..) rfl
      have hput : (m.put e.1 e.2).entries = m.entries ++ [e] := entries_put_of_not_mem hnot
      have htail := ih (m := m.put e.1 e.2) (by rw [hput, List.append_assoc]; exact h)
      rw [putAll, List.foldl_cons]
      rw [putAll] at htail
      rw [htail, hput, List.append_assoc, List.singleton_append]

theorem entries_ofList {es : List (κ × β)} (h : (es.map Prod.fst).Nodup) :
    (ofList es : KeyedList κ β).entries = es := entries_putAll h

theorem mem_keys_putAll {es : List (κ × β)} :
    k ∈ (m.putAll es).keys ↔ k ∈ m.keys ∨ k ∈ es.map Prod.fst := by
  unfold putAll
  induction es generalizing m with
  | nil => simp
  | cons e es ih =>
      rw [List.foldl_cons, ih, mem_keys_put, List.map_cons, List.mem_cons]
      constructor
      · rintro ((h | h) | h)
        · exact Or.inr (Or.inl h)
        · exact Or.inl h
        · exact Or.inr (Or.inr h)
      · rintro (h | h | h)
        · exact Or.inl (Or.inr h)
        · exact Or.inl (Or.inl h)
        · exact Or.inr h

theorem mem_keys_ofList {es : List (κ × β)} : k ∈ (ofList es).keys ↔ k ∈ es.map Prod.fst := by
  rw [ofList, mem_keys_putAll]
  simp [empty, keys]

theorem get?_putAll_of_not_mem {es : List (κ × β)} (h : k ∉ es.map Prod.fst) :
    (m.putAll es).get? k = m.get? k := by
  unfold putAll
  induction es generalizing m with
  | nil => rfl
  | cons e es ih =>
      rw [List.map_cons, List.mem_cons, not_or] at h
      rw [List.foldl_cons, ih h.2, get?_put_of_ne h.1]

/-- Among entries with distinct keys, each is found. -/
theorem get?_putAll_of_mem {es : List (κ × β)} (h : (es.map Prod.fst).Nodup) (hx : (k, x) ∈ es) :
    (m.putAll es).get? k = some x := by
  unfold putAll
  induction es generalizing m with
  | nil => cases hx
  | cons e es ih =>
      rw [List.map_cons, List.nodup_cons] at h
      obtain ⟨hnot, hes⟩ := h
      rw [List.foldl_cons]
      rcases List.mem_cons.mp hx with rfl | hx
      · exact (get?_putAll_of_not_mem hnot).trans get?_put_self
      · exact ih hes hx

/-- The value of an element of a list, when the keys of all elements are distinct. -/
theorem get?_ofList_map {ι : Type} {f : ι → κ} {g : ι → β} {xs : List ι} (h : (xs.map f).Nodup)
    {x : ι} (hx : x ∈ xs) : (ofList (xs.map fun x => (f x, g x))).get? (f x) = some (g x) := by
  refine get?_putAll_of_mem ?_ (List.mem_map.mpr ⟨x, hx, rfl⟩)
  rw [List.map_map]
  exact h

theorem mem_of_get?_putAll {es : List (κ × β)} (h : (m.putAll es).get? k = some x) :
    m.get? k = some x ∨ (k, x) ∈ es := by
  unfold putAll at h
  induction es generalizing m with
  | nil => exact Or.inl h
  | cons e es ih =>
      rcases ih h with h | h
      · rw [get?_put] at h
        split at h
        · next hk =>
          cases h
          exact Or.inr (by rw [hk]; exact List.mem_cons_self ..)
        · exact Or.inl h
      · exact Or.inr (List.mem_cons_of_mem _ h)

theorem mem_of_get?_ofList {es : List (κ × β)} (h : (ofList es).get? k = some x) :
    (k, x) ∈ es :=
  (mem_of_get?_putAll h).resolve_left (by simp [get?, empty])

theorem ofList_entries (m : KeyedList κ β) : ofList m.entries = m :=
  ext_entries (entries_ofList m.distinct)

/-! ## Putting the keys into an order -/

theorem map_fst_reorder (m : KeyedList κ β) (ks : List κ) :
    (ks.filterMap fun k => (m.get? k).map fun x => (k, x)).map Prod.fst = ks.filter m.contains := by
  induction ks with
  | nil => rfl
  | cons k ks ih =>
      cases h : m.get? k with
      | none =>
          have hk : m.contains k = false := by
            rw [← Bool.not_eq_true, contains_iff]
            exact get?_eq_none_iff.mp h
          rw [List.filterMap_cons, h, Option.map_none, List.filter_cons_of_neg (by simp [hk])]
          exact ih
      | some x =>
          have hk : m.contains k = true := contains_iff.mpr (mem_keys_of_get? h)
          rw [List.filterMap_cons, h, Option.map_some, List.filter_cons_of_pos hk, List.map_cons]
          exact congrArg (k :: ·) ih

theorem keys_reorder (m : KeyedList κ β) {ks : List κ} (h : ks.Nodup) :
    (ofList (ks.filterMap fun k => (m.get? k).map fun x => (k, x))).keys =
      ks.filter m.contains := by
  rw [keys, entries_ofList, map_fst_reorder]
  rw [map_fst_reorder]
  exact h.filter _

/-- The entries in another order answer the same, as long as the order has every key in it. So a
list that was put together in some other order can be compared by what it answers. -/
theorem get?_reorder (m : KeyedList κ β) {ks : List κ} (h : ks.Nodup) (hsub : ∀ k ∈ m.keys, k ∈ ks)
    (k : κ) :
    (ofList (ks.filterMap fun k => (m.get? k).map fun x => (k, x))).get? k = m.get? k := by
  have hnodup : ((ks.filterMap fun k => (m.get? k).map fun x => (k, x)).map Prod.fst).Nodup := by
    rw [map_fst_reorder]
    exact h.filter _
  refine Option.ext fun x => ?_
  rw [get?_eq_some_iff, entries_ofList hnodup, List.mem_filterMap]
  constructor
  · rintro ⟨j, -, hj⟩
    obtain ⟨y, hy, heq⟩ := Option.map_eq_some_iff.mp hj
    cases heq
    exact hy
  · intro hx
    exact ⟨k, hsub k (mem_keys_of_get? hx), by rw [hx, Option.map_some]⟩

theorem update_empty (m : KeyedList κ β) : (empty : KeyedList κ β).update m = m := ofList_entries m

/-! ## Writing one keyed list over another -/

/-- Writing a key again only changes its value, so that the value it had in between is lost. -/
theorem put_put (m : KeyedList κ β) (k : κ) (x y : β) : (m.put k x).put k y = m.put k y := by
  have hes : ∀ es : List (κ × β), putEntries k y (putEntries k x es) = putEntries k y es := by
    intro es
    induction es with
    | nil => simp [putEntries]
    | cons e es ih => by_cases h : e.1 = k <;> simp [putEntries, h, ih]
  exact ext_entries (hes m.entries)

/-- A key that is present keeps its place, so it does not matter when its value is changed. -/
theorem put_comm {y : β} (h : k ∈ m.keys) (hne : j ≠ k) :
    (m.put j y).put k x = (m.put k x).put j y := by
  have hes : ∀ es : List (κ × β), k ∈ es.map Prod.fst →
      putEntries k x (putEntries j y es) = putEntries j y (putEntries k x es) := by
    intro es hmem
    induction es with
    | nil => cases hmem
    | cons e es ih =>
        by_cases hk : e.1 = k
        · have hj : e.1 ≠ j := fun hj => hne (hj.symm.trans hk)
          simp [putEntries, hk, hne.symm]
        · by_cases hj : e.1 = j
          · simp [putEntries, hj, hne]
          · rcases List.mem_cons.mp hmem with he | hmem
            · exact absurd he.symm hk
            · simp [putEntries, hk, hj, ih hmem]
  exact ext_entries (hes m.entries h)

theorem putAll_put {es : List (κ × β)} (hmem : k ∈ m.keys) (hnot : k ∉ es.map Prod.fst) :
    (m.putAll es).put k x = (m.put k x).putAll es := by
  induction es generalizing m with
  | nil => rfl
  | cons e es ih =>
      rw [List.map_cons, List.mem_cons, not_or] at hnot
      show ((m.put e.1 e.2).putAll es).put k x = ((m.put k x).put e.1 e.2).putAll es
      rw [ih (mem_keys_put.mpr (Or.inr hmem)) hnot.2, put_comm hmem (Ne.symm hnot.1)]

theorem update_put (m later : KeyedList κ β) (k : κ) (x : β) :
    m.update (later.put k x) = (m.update later).put k x := by
  have hes : ∀ (es : List (κ × β)) (m : KeyedList κ β), (es.map Prod.fst).Nodup →
      m.putAll (putEntries k x es) = (m.putAll es).put k x := by
    intro es
    induction es with
    | nil => exact fun m _ => rfl
    | cons e es ih =>
        intro m hnodup
        rw [List.map_cons, List.nodup_cons] at hnodup
        by_cases he : e.1 = k
        · have hmem : k ∈ (m.put k e.2).keys := mem_keys_put.mpr (Or.inl rfl)
          rw [putEntries, if_pos he]
          show (m.put k x).putAll es = ((m.put e.1 e.2).putAll es).put k x
          rw [he, putAll_put hmem (he ▸ hnodup.1), put_put]
        · rw [putEntries, if_neg he]
          exact ih (m.put e.1 e.2) hnodup.2
  exact hes later.entries m later.distinct

/-- Updating goes on entry by entry. -/
theorem update_putAll (m later : KeyedList κ β) (es : List (κ × β)) :
    m.update (later.putAll es) = (m.update later).putAll es := by
  induction es generalizing later with
  | nil => rfl
  | cons e es ih =>
      show m.update ((later.put e.1 e.2).putAll es) = ((m.update later).put e.1 e.2).putAll es
      rw [ih, update_put]

theorem update_empty_right (m : KeyedList κ β) : m.update empty = m := rfl

end KeyedList

end Schematic
