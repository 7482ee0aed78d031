import Schematic.Diagnostic

/-!
# Diagnostics in order

Sorting by place keeps the reports of one place in their order, and that determines the result: two
sorted lists with the same reports at every place are equal. So the reports of two texts of which
one lies behind the other can be sorted apart.
-/

namespace Schematic

namespace Place

theorem le_iff {p q : Place} :
    p.le q = true ↔ p.line < q.line ∨ p.line = q.line ∧ p.column ≤ q.column := by
  simp [le]

theorem le_trans (p q r : Place) (h : p.le q = true) (h' : q.le r = true) : p.le r = true := by
  rw [le_iff] at *
  omega

theorem le_total (p q : Place) : (p.le q || q.le p) = true := by
  rw [Bool.or_eq_true, le_iff, le_iff]
  omega

theorem le_refl (p : Place) : p.le p = true := by simpa using le_total p p

theorem le_antisymm {p q : Place} (h : p.le q = true) (h' : q.le p = true) : p = q := by
  rw [le_iff] at *
  obtain ⟨l, c⟩ := p
  obtain ⟨l', c'⟩ := q
  simp only [Place.mk.injEq] at *
  omega

end Place

namespace Diagnostic

/-- Sorted by place. -/
def InOrder (ds : List Diagnostic) : Prop := ds.Pairwise fun a b => a.place.le b.place = true

/-- The reports of one place. -/
def reportsAt (p : Place) (ds : List Diagnostic) : List Diagnostic := ds.filter fun d => d.place = p

theorem inOrder_sorted (ds : List Diagnostic) : InOrder (sorted ds) :=
  List.pairwise_mergeSort (fun a b c => Place.le_trans a.place b.place c.place)
    (fun a b => Place.le_total a.place b.place) ds

theorem inOrder_reportsAt (p : Place) (ds : List Diagnostic) : InOrder (reportsAt p ds) := by
  refine List.pairwise_of_forall_mem_list fun a ha b hb => ?_
  have ha' : a.place = p := by simpa using (List.mem_filter.mp ha).2
  have hb' : b.place = p := by simpa using (List.mem_filter.mp hb).2
  rw [ha', hb']
  exact Place.le_refl p

/-- The reports of one place keep their order, for the sort is stable: among themselves they are in
order from the start. -/
theorem reportsAt_sorted (p : Place) (ds : List Diagnostic) :
    reportsAt p (sorted ds) = reportsAt p ds := by
  have hsub : List.Sublist (reportsAt p ds) (sorted ds) :=
    List.sublist_mergeSort (fun a b c => Place.le_trans a.place b.place c.place)
      (fun a b => Place.le_total a.place b.place) (inOrder_reportsAt p ds) List.filter_sublist
  have hfilter := hsub.filter fun d => decide (d.place = p)
  have hsame : (reportsAt p ds).filter (fun d => decide (d.place = p)) = reportsAt p ds := by
    simp [reportsAt, List.filter_filter]
  rw [hsame] at hfilter
  have hperm := (List.mergeSort_perm ds fun a b => a.place.le b.place).filter
    fun d => decide (d.place = p)
  exact (hfilter.eq_of_length hperm.length_eq.symm).symm

/-- A list in order is determined by what it holds at every place. Its head is at the first place of
all, and both lists hold the same reports there, in the same order. -/
theorem eq_of_reportsAt_eq {xs ys : List Diagnostic} (hx : InOrder xs) (hy : InOrder ys)
    (h : ∀ p, reportsAt p xs = reportsAt p ys) : xs = ys := by
  have here : ∀ {d : Diagnostic} {ds : List Diagnostic}, d ∈ reportsAt d.place ds ↔ d ∈ ds := by
    simp [reportsAt]
  induction xs generalizing ys with
  | nil =>
      cases ys with
      | nil => rfl
      | cons y ys =>
          have hmem : y ∈ reportsAt y.place [] := by
            rw [h y.place]
            exact here.mpr (List.mem_cons_self ..)
          cases hmem
  | cons x xs ih =>
      cases ys with
      | nil =>
          have hmem : x ∈ reportsAt x.place [] := by
            rw [← h x.place]
            exact here.mpr (List.mem_cons_self ..)
          cases hmem
      | cons y ys =>
          obtain ⟨hx₁, hx₂⟩ := List.pairwise_cons.mp hx
          obtain ⟨hy₁, hy₂⟩ := List.pairwise_cons.mp hy
          -- each head is in the other list, so neither stands before the other
          have hyx : y ∈ x :: xs := here.mp (by
            rw [h y.place]
            exact here.mpr (List.mem_cons_self ..))
          have hxy : x ∈ y :: ys := here.mp (by
            rw [← h x.place]
            exact here.mpr (List.mem_cons_self ..))
          have hle : x.place.le y.place = true := by
            rcases List.mem_cons.mp hyx with rfl | hm
            · exact Place.le_refl _
            · exact hx₁ y hm
          have hle' : y.place.le x.place = true := by
            rcases List.mem_cons.mp hxy with rfl | hm
            · exact Place.le_refl _
            · exact hy₁ x hm
          have hplace := Place.le_antisymm hle hle'
          have hhead := h x.place
          simp only [reportsAt, List.filter_cons, decide_true, if_true, ← hplace] at hhead
          obtain ⟨rfl, -⟩ := List.cons.inj hhead
          refine congrArg (x :: ·) (ih hx₂ hy₂ fun p => ?_)
          have hp := h p
          simp only [reportsAt, List.filter_cons] at hp
          split at hp
          · exact (List.cons.inj hp).2
          · exact hp

theorem reportsAt_append (p : Place) (xs ys : List Diagnostic) :
    reportsAt p (xs ++ ys) = reportsAt p xs ++ reportsAt p ys := List.filter_append ..

/-- What stands on other lines is not there. -/
theorem reportsAt_eq_nil {p : Place} {ds : List Diagnostic} (h : ∀ d ∈ ds, d.place.line ≠ p.line) :
    reportsAt p ds = [] := by
  refine List.filter_eq_nil_iff.mpr fun d hd => ?_
  simp only [decide_eq_true_eq]
  rintro rfl
  exact h d hd rfl

/-- Reports above a line and reports below it are sorted apart, also if they come mixed. At every
place one of the two halves holds nothing, so the sides agree place by place. -/
theorem sorted_append {n : Nat} {as bs as' bs' : List Diagnostic}
    (ha : ∀ d ∈ as ++ as', d.place.line ≤ n) (hb : ∀ d ∈ bs ++ bs', n < d.place.line) :
    sorted ((as ++ bs) ++ (as' ++ bs')) = sorted (as ++ as') ++ sorted (bs ++ bs') := by
  have mem : ∀ {d : Diagnostic} {ds : List Diagnostic}, d ∈ sorted ds ↔ d ∈ ds :=
    (List.mergeSort_perm _ _).mem_iff
  refine eq_of_reportsAt_eq (inOrder_sorted _) ?_ fun p => ?_
  · refine List.pairwise_append.mpr ⟨inOrder_sorted _, inOrder_sorted _, fun a h b h' => ?_⟩
    have hlt := Nat.lt_of_le_of_lt (ha a (mem.mp h)) (hb b (mem.mp h'))
    exact Place.le_iff.mpr (Or.inl hlt)
  · simp only [reportsAt_append, reportsAt_sorted]
    rw [List.forall_mem_append] at ha hb
    rcases Nat.lt_or_ge n p.line with hp | hp
    · have ha₁ : reportsAt p as = [] := reportsAt_eq_nil fun d hd => by have := ha.1 d hd; omega
      have ha₂ : reportsAt p as' = [] := reportsAt_eq_nil fun d hd => by have := ha.2 d hd; omega
      simp only [ha₁, ha₂, List.nil_append]
    · have hb₁ : reportsAt p bs = [] := reportsAt_eq_nil fun d hd => by have := hb.1 d hd; omega
      have hb₂ : reportsAt p bs' = [] := reportsAt_eq_nil fun d hd => by have := hb.2 d hd; omega
      simp only [hb₁, hb₂, List.append_nil]

end Diagnostic

end Schematic
