import Mathlib.Data.List.Nodup
import Mathlib.Logic.Embedding.Basic
import Schematic.Proofs.KeyedList

/-!
# Other keys

Keyed lists ask about keys only whether they are equal. Under other keys, distinct ones for distinct
ones, everything is found where it was and written where it was: `rekey` goes along with every
question and every change.
-/

namespace Schematic

universe u v w

/-! ## Lists -/

section Lists

variable {V : Type u} {W : Type v} (f : V ↪ W)

theorem contains_map [BEq V] [LawfulBEq V] [BEq W] [LawfulBEq W] (l : List V) (v : V) :
    (l.map f).contains (f v) = l.contains v := by
  rw [Bool.eq_iff_iff, List.contains_iff_mem, List.contains_iff_mem,
    List.mem_map_of_injective f.injective]

theorem filter_map {p : W → Bool} {q : V → Bool} (h : ∀ v, p (f v) = q v) (l : List V) :
    (l.map f).filter p = (l.filter q).map f := by
  rw [List.filter_map]
  exact congrArg (List.map f) (List.filter_congr fun v _ => h v)

variable [DecidableEq V] [DecidableEq W]

theorem countP_contains_map (l left : List V) :
    (l.map f).countP (left.map f).contains = l.countP left.contains := by
  rw [List.countP_map]
  exact List.countP_congr fun v _ => by rw [Function.comp_apply, contains_map]

theorem any_contains_map (l left : List V) :
    (l.map f).any (left.map f).contains = l.any left.contains := by
  rw [List.any_map]
  exact congrArg (List.any l) (funext fun v => contains_map f left v)

theorem idxOf_map (l : List V) (v : V) : (l.map f).idxOf (f v) = l.idxOf v := by
  induction l with
  | nil => rfl
  | cons a l ih => simp [List.idxOf_cons, ih, beq_eq_decide]

theorem lookup_map {β : Type w} (es : List (V × β)) (v : V) :
    (es.map (Prod.map f id)).lookup (f v) = es.lookup v := by
  induction es with
  | nil => rfl
  | cons e es ih =>
      obtain ⟨k, x⟩ := e
      rw [List.map_cons, Prod.map, KeyedList.lookup_cons_eq, KeyedList.lookup_cons_eq, ih]
      simp

end Lists

namespace KeyedList

variable {κ : Type u} {κ' : Type v} {β : Type w} {γ : Type w}

/-- The same values under other keys, in the same order. Distinct keys stay distinct because the map
is injective. -/
def rekey (f : κ ↪ κ') (m : KeyedList κ β) : KeyedList κ' β where
  entries := m.entries.map (Prod.map f id)
  distinct := by
    have h : (m.entries.map (Prod.map f id)).map Prod.fst = (m.entries.map Prod.fst).map f := by
      simp [Function.comp_def]
    rw [h]
    exact List.Nodup.map f.injective m.distinct

variable (f : κ ↪ κ') (m : KeyedList κ β)

theorem keys_rekey : (m.rekey f).keys = m.keys.map f := by simp [rekey, keys, Function.comp_def]

theorem values_rekey : (m.rekey f).values = m.values := by
  simp [rekey, values, Function.comp_def]

theorem mapValues_rekey {g : κ' → β → γ} {h : κ → β → γ} (hg : ∀ k x, g (f k) x = h k x) :
    (m.rekey f).mapValues g = (m.mapValues h).rekey f := by
  refine ext_entries ?_
  simp [rekey, mapValues, Function.comp_def, hg]

variable [DecidableEq κ] [DecidableEq κ']

theorem get?_rekey (k : κ) : (m.rekey f).get? (f k) = m.get? k := lookup_map f m.entries k

theorem contains_rekey (k : κ) : (m.rekey f).contains (f k) = m.contains k := by
  rw [contains, keys_rekey, contains_map, contains]

theorem put_rekey (k : κ) (x : β) : (m.rekey f).put (f k) x = (m.put k x).rekey f := by
  have hes : ∀ es : List (κ × β), putEntries (f k) x (es.map (Prod.map f id)) =
      (putEntries k x es).map (Prod.map f id) := by
    intro es
    induction es with
    | nil => rfl
    | cons e es ih => by_cases h : e.1 = k <;> simp [putEntries, h, ih]
  exact ext_entries (hes m.entries)

theorem putAll_rekey (es : List (κ × β)) :
    (m.rekey f).putAll (es.map (Prod.map f id)) = (m.putAll es).rekey f := by
  induction es generalizing m with
  | nil => rfl
  | cons e es ih =>
      show ((m.rekey f).put (f e.1) e.2).putAll (es.map (Prod.map f id)) = _
      rw [put_rekey, ih]
      rfl

theorem ofList_rekey (es : List (κ × β)) :
    (ofList (es.map (Prod.map f id)) : KeyedList κ' β) = (ofList es).rekey f :=
  putAll_rekey f empty es

/-! ## Other values -/

omit [DecidableEq κ'] in
theorem put_mapValues (h : κ → β → γ) (k : κ) (x : β) :
    (m.mapValues h).put k (h k x) = (m.put k x).mapValues h := by
  have hes : ∀ es : List (κ × β), putEntries k (h k x) (es.map fun e => (e.1, h e.1 e.2)) =
      (putEntries k x es).map fun e => (e.1, h e.1 e.2) := by
    intro es
    induction es with
    | nil => rfl
    | cons e es ih => by_cases he : e.1 = k <;> simp [putEntries, he, ih]
  exact ext_entries (hes m.entries)

omit [DecidableEq κ'] in
theorem ofList_mapValues (h : κ → β → γ) (es : List (κ × β)) :
    ofList (es.map fun e => (e.1, h e.1 e.2)) = (ofList es).mapValues h := by
  have hputAll (es : List (κ × β)) (m : KeyedList κ β) :
      (m.mapValues h).putAll (es.map fun e => (e.1, h e.1 e.2)) = (m.putAll es).mapValues h := by
    induction es generalizing m with
    | nil => rfl
    | cons e es ih =>
        show ((m.mapValues h).put e.1 (h e.1 e.2)).putAll (es.map fun e => (e.1, h e.1 e.2)) = _
        rw [put_mapValues, ih]
        rfl
  exact hputAll es empty

omit [DecidableEq κ'] in
theorem contains_mapValues (h : κ → β → γ) (k : κ) :
    (m.mapValues h).contains k = m.contains k := by
  rw [contains, keys_mapValues, contains]

end KeyedList

end Schematic
