import Schematic.Outline.Build
import Schematic.Proofs.Text.Words

/-!
# Names cut back at their points

A reference with points is looked for under its own name and then under what is left when its last
part is taken off, its last two parts, and so on. These are exactly the texts that a point follows
in the name, the longer ones first (`mem_shortenings`, `pairwise_shortenings`); so the first of them
that has a property is the longest one that has it (`longest_of_find?_shortenings`).
-/

namespace Schematic

/-! ## Pieces -/

/-- Joining the pieces gives the list back. -/
theorem intercalate_pieces {α : Type} [DecidableEq α] (y : α) (xs : List α) :
    [y].intercalate (pieces (· == y) xs) = xs := by
  induction xs with
  | nil => simp [pieces]
  | cons x xs ih =>
      have hne := pieces_ne_nil (· == y) xs
      rw [pieces]
      by_cases hx : x = y
      · rw [if_pos (by simpa using hx), List.intercalate_cons_of_ne_nil hne, ih, hx]
        rfl
      · rw [if_neg (by simpa using hx)]
        cases hxs : pieces (· == y) xs with
        | nil => exact absurd hxs hne
        | cons p ps =>
            rw [hxs] at ih
            show [y].intercalate ((x :: p) :: ps) = x :: xs
            rw [← ih]
            cases ps with
            | nil => simp
            | cons q ps => simp [List.intercalate_cons_cons]

namespace Outline

/-- The parts of a name that its points separate. -/
def parts (name : String) : List String :=
  (pieces (· == '.') name.toList).map String.ofList

theorem parts_ne_nil (name : String) : parts name ≠ [] :=
  fun h => pieces_ne_nil _ _ (List.map_eq_nil_iff.mp h)

theorem intercalate_parts (name : String) : ".".intercalate (parts name) = name := by
  rw [← String.toList_inj, String.toList_intercalate, parts, List.map_map]
  simp only [Function.comp_def, String.toList_ofList, List.map_id']
  exact intercalate_pieces '.' name.toList

theorem parts_append (a b : String) : parts (a ++ "." ++ b) = parts a ++ parts b := by
  have hlist : (a ++ "." ++ b).toList = a.toList ++ '.' :: b.toList := by simp
  rw [parts, hlist, Text.pieces_append _ rfl, List.map_append, parts, parts]

/-- The text is the name without what stands behind one of its points. -/
def Shortens (part name : String) : Prop := ∃ rest, name = part ++ "." ++ rest

theorem Shortens.length_lt {a b : String} (h : Shortens a b) : a.length < b.length := by
  obtain ⟨rest, rfl⟩ := h
  simp only [String.length_append]
  have : (".": String).length = 1 := rfl
  omega

theorem shortens_take {l : List String} {i j : Nat} (hi : 0 < i) (hij : i < j) (hj : j ≤ l.length) :
    Shortens (".".intercalate (l.take i)) (".".intercalate (l.take j)) := by
  refine ⟨".".intercalate ((l.take j).drop i), ?_⟩
  have hfront : l.take i ≠ [] := by
    rw [← List.length_pos_iff, List.length_take]
    omega
  have hback : (l.take j).drop i ≠ [] := by
    rw [← List.length_pos_iff, List.length_drop, List.length_take]
    omega
  have hsplit := List.take_append_drop i (l.take j)
  rw [List.take_take, Nat.min_eq_left (Nat.le_of_lt hij)] at hsplit
  rw [← String.intercalate_append_of_ne_nil hfront hback, hsplit]

/-- The numbers of parts that are left, the greatest first. -/
theorem mem_counts {n k : Nat} : k ∈ ((List.range n).drop 1).reverse ↔ 0 < k ∧ k < n := by
  rw [List.mem_reverse, List.mem_drop_iff_getElem]
  simp only [List.getElem_range, List.length_range]
  constructor
  · rintro ⟨i, hi, rfl⟩
    omega
  · rintro ⟨hpos, hlt⟩
    exact ⟨k - 1, by omega, by omega⟩

theorem mem_shortenings {part name : String} : part ∈ shortenings name ↔ Shortens part name := by
  rw [show shortenings name = ((List.range (parts name).length).drop 1).reverse.map fun k =>
    ".".intercalate ((parts name).take k) from rfl, List.mem_map]
  constructor
  · rintro ⟨k, hk, rfl⟩
    obtain ⟨hpos, hlt⟩ := mem_counts.mp hk
    have hshort := shortens_take hpos hlt (Nat.le_refl _)
    rw [List.take_length, intercalate_parts] at hshort
    exact hshort
  · rintro ⟨rest, rfl⟩
    have hparts := parts_append part rest
    refine ⟨(parts part).length, mem_counts.mpr ⟨?_, ?_⟩, ?_⟩
    · exact List.length_pos_iff.mpr (parts_ne_nil part)
    · rw [hparts, List.length_append]
      have := List.length_pos_iff.mpr (parts_ne_nil rest)
      omega
    · rw [hparts, List.take_left, intercalate_parts]

/-- The longer ones come first, because they have more parts left and every part adds its point at
least. -/
theorem pairwise_shortenings (name : String) :
    (shortenings name).Pairwise fun a b => b.length < a.length := by
  refine List.pairwise_map.mpr (List.Pairwise.imp_of_mem ?_ (R := fun a b : Nat => b < a) ?_)
  · intro i j hi hj hlt
    have hlength := (mem_counts.mp hi).2
    rw [List.length_map] at hlength
    refine (shortens_take (mem_counts.mp hj).1 hlt ?_).length_lt
    rw [List.length_map]
    exact Nat.le_of_lt hlength
  · exact List.pairwise_reverse.mpr (List.pairwise_lt_range.drop)

/-- The shortening is one of `known`, and none of these is longer. How the program goes through them
does not occur in it. -/
structure IsLongest (known : List String) (name part : String) : Prop where
  mem : part ∈ known
  shortens : Shortens part name
  longest : ∀ other ∈ known, Shortens other name → other.length ≤ part.length

theorem longest_of_find?_shortenings {known : List String} {name part : String} {p : String → Bool}
    (hp : ∀ a, p a = true ↔ a ∈ known) (h : (shortenings name).find? p = some part) :
    IsLongest known name part := by
  obtain ⟨hpart, front, back, hsplit, hfront⟩ := List.find?_eq_some_iff_append.mp h
  have hmem : part ∈ shortenings name := List.mem_of_find?_eq_some h
  refine ⟨(hp part).mp hpart, mem_shortenings.mp hmem, fun other hknown hother => ?_⟩
  have hsorted := pairwise_shortenings name
  rw [hsplit, List.pairwise_append, List.pairwise_cons] at hsorted
  rw [← mem_shortenings, hsplit, List.mem_append, List.mem_cons] at hother
  rcases hother with hother | rfl | hother
  · have hnot := hfront other hother
    rw [(hp other).mpr hknown] at hnot
    cases hnot
  · exact Nat.le_refl _
  · exact Nat.le_of_lt (hsorted.2.1.1 other hother)

/-- Two shortenings of a name that are equally long are the same, as both are the beginning of the
name. So there is one longest shortening at most. -/
theorem Shortens.eq_of_length {a b name : String} (ha : Shortens a name) (hb : Shortens b name)
    (h : a.length = b.length) : a = b := by
  obtain ⟨as, rfl⟩ := ha
  obtain ⟨bs, heq⟩ := hb
  have hlists := congrArg String.toList heq
  simp only [String.toList_append, List.append_assoc] at hlists
  rw [← String.toList_inj]
  exact (List.append_inj hlists (by rw [String.length_toList, String.length_toList, h])).1

theorem IsLongest.unique {known : List String} {name a b : String} (ha : IsLongest known name a)
    (hb : IsLongest known name b) : a = b :=
  ha.shortens.eq_of_length hb.shortens
    (Nat.le_antisymm (hb.longest a ha.mem ha.shortens) (ha.longest b hb.mem hb.shortens))

end Outline

end Schematic
