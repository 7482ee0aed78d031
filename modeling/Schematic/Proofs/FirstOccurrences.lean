import Mathlib.Data.List.Induction
import Mathlib.Data.List.Nodup
import Mathlib.Data.List.Perm.Subperm
import Schematic.Proofs.KeyedList

/-!
# First occurrences

`List.eraseDups` keeps the first of equal elements. A keyed list has its keys in the order of their
first occurrence among all that was ever written to it.
-/

namespace Schematic

universe u v

section

variable {α : Type u} [DecidableEq α] {l l' : List α} {a : α}

theorem eraseDups_concat_of_mem (h : a ∈ l) : (l ++ [a]).eraseDups = l.eraseDups := by
  rw [List.eraseDups_append]
  simp [List.removeAll, h]

theorem eraseDups_concat_of_not_mem (h : a ∉ l) : (l ++ [a]).eraseDups = l.eraseDups ++ [a] := by
  rw [List.eraseDups_append]
  simp [List.removeAll, h, List.eraseDups_cons]

theorem nodup_eraseDups (l : List α) : l.eraseDups.Nodup := by
  induction l using List.reverseRecOn with
  | nil => exact List.nodup_nil
  | append_singleton l a ih =>
      by_cases h : a ∈ l
      · rw [eraseDups_concat_of_mem h]
        exact ih
      · rw [eraseDups_concat_of_not_mem h]
        exact ih.append (List.nodup_singleton a) (by simpa using h)

theorem eraseDups_of_nodup (h : l.Nodup) : l.eraseDups = l := by
  induction l using List.reverseRecOn with
  | nil => rfl
  | append_singleton l a ih =>
      have hboth := List.nodup_append.mp h
      have hnot : a ∉ l := fun ha => hboth.2.2 a ha a (List.mem_singleton.mpr rfl) rfl
      rw [eraseDups_concat_of_not_mem hnot, ih hboth.1]

/-- Leaving repetitions out makes a list shorter unless it has none. -/
theorem length_eraseDups_eq_iff : l.eraseDups.length = l.length ↔ l.Nodup := by
  constructor
  · intro hlength
    have hsub : l.eraseDups.Subperm l :=
      (nodup_eraseDups l).subperm fun _ ha => List.mem_eraseDups.mp ha
    exact (hsub.perm_of_length_le (Nat.le_of_eq hlength.symm)).nodup (nodup_eraseDups l)
  · intro h
    rw [eraseDups_of_nodup h]

/-- Lists with the same elements have as many different ones, since without repetitions the one is a
permutation of the other. -/
theorem length_eraseDups_congr (h : ∀ a, a ∈ l ↔ a ∈ l') :
    l.eraseDups.length = l'.eraseDups.length := by
  refine ((List.perm_ext_iff_of_nodup (nodup_eraseDups l) (nodup_eraseDups l')).mpr
    fun a => ?_).length_eq
  rw [List.mem_eraseDups, List.mem_eraseDups, h]

/-- It does not matter whether repetitions in the front part are left out beforehand. -/
theorem eraseDups_eraseDups_append (l l' : List α) :
    (l.eraseDups ++ l').eraseDups = (l ++ l').eraseDups := by
  rw [List.eraseDups_append, List.eraseDups_append, eraseDups_of_nodup (nodup_eraseDups l)]
  simp [List.removeAll]

end

namespace KeyedList

variable {κ : Type u} {β : Type v} [DecidableEq κ] {m : KeyedList κ β}

theorem keys_put_of_mem {k : κ} (h : k ∈ m.keys) (x : β) : (m.put k x).keys = m.keys := by
  have hes : ∀ es : List (κ × β), k ∈ es.map Prod.fst →
      (putEntries k x es).map Prod.fst = es.map Prod.fst := by
    intro es hmem
    induction es with
    | nil => cases hmem
    | cons e es ih =>
        by_cases he : e.1 = k
        · simp [putEntries, he]
        · rcases List.mem_cons.mp hmem with hk | hk
          · exact absurd hk.symm he
          · simp [putEntries, he, ih hk]
  exact hes m.entries h

theorem keys_put (m : KeyedList κ β) (k : κ) (x : β) :
    (m.put k x).keys = (m.keys ++ [k]).eraseDups := by
  by_cases h : k ∈ m.keys
  · rw [keys_put_of_mem h, eraseDups_concat_of_mem h, eraseDups_of_nodup m.nodup_keys]
  · rw [keys_put_of_not_mem h, eraseDups_concat_of_not_mem h, eraseDups_of_nodup m.nodup_keys]

theorem keys_putAll (m : KeyedList κ β) (es : List (κ × β)) :
    (m.putAll es).keys = (m.keys ++ es.map Prod.fst).eraseDups := by
  induction es generalizing m with
  | nil =>
      rw [List.map_nil, List.append_nil, eraseDups_of_nodup m.nodup_keys, putAll, List.foldl_nil]
  | cons e es ih =>
      show ((m.put e.1 e.2).putAll es).keys = _
      rw [ih, keys_put, eraseDups_eraseDups_append, List.append_assoc, List.singleton_append,
        List.map_cons]

theorem keys_update (m later : KeyedList κ β) :
    (m.update later).keys = (m.keys ++ later.keys).eraseDups := keys_putAll m later.entries

theorem get?_update (m later : KeyedList κ β) (k : κ) :
    (m.update later).get? k = (later.get? k).or (m.get? k) := by
  cases h : later.get? k with
  | none => exact get?_putAll_of_not_mem (get?_eq_none_iff.mp h)
  | some x => exact get?_putAll_of_mem later.distinct (get?_eq_some_iff.mp h)

end KeyedList

end Schematic
