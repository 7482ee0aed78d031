import Schematic.Text.Words

/-!
# Trimming and splitting what is already tidy

A text that neither begins nor ends with a blank is its own trim, and words joined by single spaces
are what splitting such a text gives back.
-/

namespace Schematic.Text

/-- The text has characters, and none of them is blank. Splitting at blanks leaves it whole. -/
def IsSolid (w : String) : Prop := w.toList ≠ [] ∧ ∀ c ∈ w.toList, isBlank c = false

theorem IsSolid.ne_empty {w : String} (h : IsSolid w) : w ≠ "" := fun he => h.1 (by simp [he])

/-! ## Trimming -/

theorem trim_eq_self {s : String} (hhead : ∀ c ∈ s.toList.head?, isBlank c = false)
    (hlast : ∀ c ∈ s.toList.getLast?, isBlank c = false) : trim s = s := by
  have front : s.toList.dropWhile isBlank = s.toList := by
    cases hs : s.toList with
    | nil => rfl
    | cons c cs =>
        have hc : isBlank c = false := hhead c (by simp [hs])
        simp [hc]
  have back : s.toList.reverse.dropWhile isBlank = s.toList.reverse := by
    cases hs : s.toList.reverse with
    | nil => rfl
    | cons c cs =>
        have hc : isBlank c = false := hlast c (by simp [← List.head?_reverse, hs])
        simp [hc]
  unfold trim
  rw [front, back, List.reverse_reverse, String.ofList_toList]

theorem trimEnd_concat_self (c : Char) (cs : List Char) :
    trimEnd c (String.ofList (cs ++ [c])) = trimEnd c (String.ofList cs) := by
  simp [trimEnd]

theorem trimEnd_concat_of_ne {c d : Char} (h : d ≠ c) (cs : List Char) :
    trimEnd c (String.ofList (cs ++ [d])) = String.ofList (cs ++ [d]) := by
  simp [trimEnd, h]

/-! ## Words between single spaces -/

/-- At a cut the list falls apart, and each part has its own pieces. -/
theorem pieces_append {α : Type} {cut : α → Bool} (xs : List α) {y : α} (hy : cut y = true)
    (ys : List α) : pieces cut (xs ++ y :: ys) = pieces cut xs ++ pieces cut ys := by
  induction xs with
  | nil => simp [pieces, hy]
  | cons x xs ih =>
      rw [List.cons_append, pieces, ih, pieces]
      by_cases hx : cut x = true
      · rw [if_pos hx, if_pos hx, List.cons_append]
      · rw [if_neg hx, if_neg hx]
        cases hxs : pieces cut xs with
        | nil => exact absurd hxs (pieces_ne_nil cut xs)
        | cons p ps => rfl

theorem pieces_of_forall {α : Type} {cut : α → Bool} {xs : List α}
    (h : ∀ x ∈ xs, cut x = false) : pieces cut xs = [xs] := by
  induction xs with
  | nil => rfl
  | cons x xs ih =>
      have hx : cut x = false := h x (List.mem_cons_self ..)
      have htail := ih fun z hz => h z (List.mem_cons_of_mem _ hz)
      simp [pieces, hx, htail]

/-- Up to the first cut nothing is cut, so what stands there is the first piece. -/
theorem pieces_append_cons {α : Type} {cut : α → Bool} {xs : List α} {y : α}
    (h : ∀ x ∈ xs, cut x = false) (hy : cut y = true) (ys : List α) :
    pieces cut (xs ++ y :: ys) = xs :: pieces cut ys := by
  rw [pieces_append xs hy, pieces_of_forall h, List.singleton_append]

theorem toList_joined_cons (w v : String) (ws : List String) :
    (" ".intercalate (w :: v :: ws)).toList =
      w.toList ++ ' ' :: (" ".intercalate (v :: ws)).toList := by
  rw [String.intercalate_cons_cons]
  simp

theorem words_joined : ∀ {ws : List String}, (∀ w ∈ ws, IsSolid w) →
    words (" ".intercalate ws) = ws
  | [], _ => by simp [words, runs, pieces]
  | [w], h => by
      have hw := h w (List.mem_cons_self ..)
      have hne : w ≠ "" := hw.ne_empty
      simp [words, runs, pieces_of_forall hw.2, hne]
  | w :: v :: ws, h => by
      have hw := h w (List.mem_cons_self ..)
      have hne : w ≠ "" := hw.ne_empty
      have ih := words_joined fun u hu => h u (List.mem_cons_of_mem _ hu)
      unfold words runs at ih ⊢
      rw [toList_joined_cons, pieces_append_cons hw.2 (by decide), List.filter_cons_of_pos,
        List.map_cons, ih, String.ofList_toList]
      simpa using hne

theorem head?_joined {w : String} {ws : List String} (hw : w.toList ≠ []) :
    (" ".intercalate (w :: ws)).toList.head? = w.toList.head? := by
  cases ws with
  | nil => simp
  | cons v ws =>
      rw [toList_joined_cons]
      cases hc : w.toList with
      | nil => exact absurd hc hw
      | cons c cs => rfl

theorem getLast?_joined : ∀ {ws : List String}, (∀ w ∈ ws, IsSolid w) →
    ∀ c ∈ (" ".intercalate ws).toList.getLast?, isBlank c = false
  | [], _, c, hc => by simp at hc
  | [w], h, c, hc => by
      rw [String.intercalate_singleton] at hc
      exact (h w (List.mem_cons_self ..)).2 c (List.mem_of_getLast? hc)
  | w :: v :: ws, h, c, hc => by
      have hv := h v (List.mem_cons_of_mem _ (List.mem_cons_self ..))
      have hne : (" ".intercalate (v :: ws)).toList ≠ [] := fun he => by
        have hhead : (" ".intercalate (v :: ws)).toList.head? = v.toList.head? :=
          head?_joined hv.1
        rw [he] at hhead
        exact hv.1 (List.head?_eq_none_iff.mp hhead.symm)
      have hlast : c ∈ (" ".intercalate (v :: ws)).toList.getLast? := by
        rw [toList_joined_cons, List.getLast?_append, List.getLast?_cons_of_ne_nil hne] at hc
        rw [List.getLast?_eq_some_getLast hne] at hc ⊢
        exact hc
      exact getLast?_joined (fun u hu => h u (List.mem_cons_of_mem _ hu)) c hlast

theorem trim_joined {ws : List String} (h : ∀ w ∈ ws, IsSolid w) :
    trim (" ".intercalate ws) = " ".intercalate ws := by
  refine trim_eq_self ?_ (getLast?_joined h)
  cases ws with
  | nil => intro c hc; simp at hc
  | cons w ws =>
      have hw := h w (List.mem_cons_self ..)
      rw [head?_joined hw.1]
      exact fun c hc => hw.2 c (List.mem_of_head? hc)

theorem joined_eq_empty_iff {ws : List String} (h : ∀ w ∈ ws, IsSolid w) :
    " ".intercalate ws = "" ↔ ws = [] := by
  constructor
  · intro he
    have hw := words_joined h
    rw [he] at hw
    simpa [words, runs, pieces] using hw.symm
  · rintro rfl
    rfl

end Schematic.Text
