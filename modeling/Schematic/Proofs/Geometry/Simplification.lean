import Mathlib.Data.List.Chain
import Mathlib.Tactic.LinearCombination
import Schematic.Proofs.Geometry.Axis
import Schematic.Proofs.Geometry.Segments

/-!
# Simplifying a line

Whether a point is kept is decided by the last point kept and the next point of the line, which may
be dropped itself later. The decision stays right because what is dropped lies straight ahead: the
next point that is kept stands, seen from the point before it, in the same direction as the one that
the decision was made with (`Polyline.exists_head_bends`).

The tests have a tolerance. Among points that are multiples of one thousandth it never makes a
difference, since a product of two such lengths that is not zero is at least a millionth.
-/

namespace Schematic

namespace Polyline

open Point

variable {p q r s : Point Rat} {ps qs : List (Point Rat)}

/-! ## Where a line turns -/

/-- The cross product of the ways from `p` to `q` and on to `r`: it is zero if they are parallel. -/
def cross (p q r : Point Rat) : Rat :=
  (q.x - p.x) * (r.y - q.y) - (q.y - p.y) * (r.x - q.x)

/-- The way from `p` over `q` to `r` bends at `q`, or it turns back there. Going on to a point that
was passed already is a turn, however straight the line may look. -/
def Turns (p q r : Point Rat) : Prop := cross p q r ≠ 0 ∨ ∃ t < 1, r = p.partway q t

theorem cross_partway (p q r : Point Rat) (t : Rat) :
    cross p q (q.partway r t) = t * cross p q r := by
  simp only [cross, partway]
  ring

/-- The square of the length of a way is positive if it leads somewhere. -/
theorem square_pos (h : p ≠ q) : 0 < (q.x - p.x) ^ 2 + (q.y - p.y) ^ 2 := by
  by_contra hle
  have hx : (q.x - p.x) ^ 2 = 0 := by nlinarith [sq_nonneg (q.x - p.x), sq_nonneg (q.y - p.y)]
  have hy : (q.y - p.y) ^ 2 = 0 := by nlinarith [sq_nonneg (q.x - p.x), sq_nonneg (q.y - p.y)]
  exact h (Point.ext (sub_eq_zero.mp (pow_eq_zero_iff two_ne_zero |>.mp hx)).symm
    (sub_eq_zero.mp (pow_eq_zero_iff two_ne_zero |>.mp hy)).symm)

theorem dot_partway (p q : Point Rat) (t : Rat) :
    (q.x - p.x) * ((p.partway q t).x - q.x) + (q.y - p.y) * ((p.partway q t).y - q.y) =
      (t - 1) * ((q.x - p.x) ^ 2 + (q.y - p.y) ^ 2) := by
  simp only [partway]
  ring

/-- Parallel ways are on one straight line. -/
theorem exists_partway (h : p ≠ q) (hcross : cross p q r = 0) : ∃ t, r = p.partway q t := by
  have hpos := square_pos h
  refine ⟨((q.x - p.x) * (r.x - p.x) + (q.y - p.y) * (r.y - p.y)) /
    ((q.x - p.x) ^ 2 + (q.y - p.y) ^ 2), Point.ext ?_ ?_⟩
  · simp only [partway, cross] at hcross ⊢
    field_simp
    linear_combination -(q.y - p.y) * hcross
  · simp only [partway, cross] at hcross ⊢
    field_simp
    linear_combination (q.x - p.x) * hcross

theorem exists_partway_of_not_turns (hpq : p ≠ q) (hqr : q ≠ r) (h : ¬ Turns p q r) :
    ∃ t, 1 < t ∧ r = p.partway q t := by
  rw [Turns, not_or, not_not] at h
  obtain ⟨hcross, hback⟩ := h
  obtain ⟨t, ht⟩ := exists_partway hpq hcross
  refine ⟨t, lt_of_le_of_ne (not_lt.mp fun hlt => hback ⟨t, hlt, ht⟩) ?_, ht⟩
  rintro rfl
  exact hqr (ht.trans (partway_one p q)).symm

/-- Only the direction in which the line goes on matters, not how far. So it does not matter either
which point of that direction the decision was made with. -/
theorem Turns.of_ahead (h : Turns p q r) {t : Rat} (ht : 0 < t) : Turns p q (q.partway r t) := by
  rcases h with h | ⟨s, hs, rfl⟩
  · exact Or.inl (by rw [cross_partway]; exact mul_ne_zero ht.ne' h)
  · refine Or.inr ⟨1 + t * (s - 1), ?_, partway_from p q t s⟩
    have hneg := mul_neg_of_pos_of_neg ht (sub_neg.mpr hs)
    linarith

/-! ## Points on the grid -/

/-- Both coordinates are multiples of one thousandth. -/
def OnGrid (p : Point Rat) : Prop := ∃ m n : Int, p.x = m / 1000 ∧ p.y = n / 1000

theorem onGrid_skip (hgrid : ∀ x ∈ p :: q :: ps, OnGrid x) : ∀ x ∈ p :: ps, OnGrid x :=
  fun x hx => hgrid x (((List.sublist_cons_self q ps).cons_cons p).subset hx)

/-- A multiple of a small unit is zero or more than the tolerance, and the products that the test
compares with the tolerance are such multiples on the grid. -/
theorem abs_le_tolerance_iff {a : Rat} (h : ∃ k : Int, a = k / 1000000) :
    Scalar.abs a ≤ Scalar.tolerance ↔ a = 0 := by
  have htolerance : (Scalar.tolerance : Rat) = 1 / 1000000000 := by decide +kernel
  obtain ⟨k, rfl⟩ := h
  constructor
  · intro hle
    have hone : (k : Rat) / 1000000 ≤ 1 / 1000000000 :=
      htolerance ▸ (le_max_left _ _).trans hle
    have hother : -((k : Rat) / 1000000) ≤ 1 / 1000000000 :=
      htolerance ▸ (le_max_right _ _).trans hle
    have hlt : (k : Rat) < 1 := by linarith
    have hgt : (-1 : Rat) < k := by linarith
    have hzero : k = 0 := by
      have hlt' : k < 1 := by exact_mod_cast hlt
      have hgt' : -1 < k := by exact_mod_cast hgt
      omega
    rw [hzero, Int.cast_zero, zero_div]
  · intro hzero
    rw [hzero, htolerance]
    decide +kernel

theorem coincide_iff (hp : OnGrid p) (hq : OnGrid q) : coincide p q = true ↔ p = q := by
  obtain ⟨m, n, hx, hy⟩ := hp
  obtain ⟨m', n', hx', hy'⟩ := hq
  rw [coincide, Bool.and_eq_true, decide_eq_true_iff, decide_eq_true_iff,
    abs_le_tolerance_iff ⟨(m - m') * 1000, by rw [hx, hx']; push_cast; ring⟩,
    abs_le_tolerance_iff ⟨(n - n') * 1000, by rw [hy, hy']; push_cast; ring⟩,
    sub_eq_zero, sub_eq_zero, Point.ext_iff]

theorem turns_iff (hp : OnGrid p) (hq : OnGrid q) (hr : OnGrid r) (hne : p ≠ q) :
    turns p q r = true ↔ Turns p q r := by
  have hcross : ∃ k : Int, cross p q r = k / 1000000 := by
    obtain ⟨m, n, hx, hy⟩ := hp
    obtain ⟨m', n', hx', hy'⟩ := hq
    obtain ⟨m'', n'', hx'', hy''⟩ := hr
    refine ⟨(m' - m) * (n'' - n') - (n' - n) * (m'' - m'), ?_⟩
    rw [cross, hx, hy, hx', hy', hx'', hy'']
    push_cast
    ring
  have hlt := lt_iff_not_ge.trans (abs_le_tolerance_iff hcross).not
  rw [turns, Bool.or_eq_true, decide_eq_true_iff, decide_eq_true_iff, ← cross, hlt, Turns,
    Nat.cast_zero]
  constructor
  · rintro (h | h)
    · exact Or.inl h
    · by_cases hzero : cross p q r = 0
      · obtain ⟨t, rfl⟩ := exists_partway hne hzero
        refine Or.inr ⟨t, ?_, rfl⟩
        rw [dot_partway] at h
        by_contra hle
        have hpos := mul_nonneg (sub_nonneg.mpr (not_lt.mp hle)) (square_pos hne).le
        exact absurd h (not_lt.mpr hpos)
      · exact Or.inl hzero
  · rintro (h | ⟨t, ht, rfl⟩)
    · exact Or.inl h
    · refine Or.inr ?_
      rw [dot_partway]
      exact mul_neg_of_neg_of_pos (sub_neg.mpr ht) (square_pos hne)

/-! ## What is kept -/

/-- Where the test finds no turn the line goes straight on: the next point lies beyond `q`, seen
from `p`. -/
theorem ahead_of_not_turns (hgrid : ∀ x ∈ p :: q :: r :: ps, OnGrid x) (hpq : p ≠ q) (hqr : q ≠ r)
    (h : ¬ turns p q r = true) : ∃ t, 1 < t ∧ r = p.partway q t :=
  exists_partway_of_not_turns hpq hqr ((turns_iff (hgrid p (by simp)) (hgrid q (by simp))
    (hgrid r (by simp)) hpq).not.mp h)

theorem ne_of_ahead (hpq : p ≠ q) {t : Rat} (ht : 1 < t) (hr : r = p.partway q t) : p ≠ r := by
  rintro rfl
  exact (zero_lt_one.trans ht).ne' ((partway_eq_self_iff hpq).mp hr.symm)

/-- The next point kept behind `p` is in the direction of the next point of the line. The induction
is on the line, and every point that is dropped passes its direction on to the next one. -/
theorem exists_head_bends (hgrid : ∀ r ∈ p :: q :: ps, OnGrid r)
    (hne : (p :: q :: ps).IsChain (· ≠ ·)) :
    ∃ t, 0 < t ∧ (bends p (q :: ps)).head? = some (p.partway q t) := by
  induction ps generalizing q with
  | nil => exact ⟨1, zero_lt_one, by rw [bends, partway_one]; rfl⟩
  | cons r ps ih =>
      obtain ⟨hpq, hqr, hrest⟩ := by simpa only [List.isChain_cons_cons] using hne
      rw [bends]
      split
      · exact ⟨1, zero_lt_one, by rw [partway_one]; rfl⟩
      · next hturns =>
        obtain ⟨t, ht, hr⟩ := ahead_of_not_turns hgrid hpq hqr hturns
        obtain ⟨s, hs, hhead⟩ := ih (onGrid_skip hgrid)
          (List.isChain_cons_cons.mpr ⟨ne_of_ahead hpq ht hr, hrest⟩)
        rw [hr, partway_partway] at hhead
        exact ⟨s * t, mul_pos hs (zero_lt_one.trans ht), by rw [hr, hhead]⟩

/-- No point is repeated at once, and the line turns at every point between two others. -/
structure Crooked (qs : List (Point Rat)) : Prop where
  distinct : qs.IsChain (· ≠ ·)
  turns : ∀ p q r, [p, q, r] <:+: qs → Turns p q r

theorem crooked_bends (hgrid : ∀ r ∈ p :: ps, OnGrid r) (hne : (p :: ps).IsChain (· ≠ ·)) :
    Crooked (p :: bends p ps) := by
  have hshort : ∀ {a b c : Point Rat} {l : List (Point Rat)}, l.length ≤ 2 → ¬ [a, b, c] <:+: l :=
    fun hl h => absurd (h.length_le.trans hl) (by simp)
  fun_induction bends p ps with
  | case1 p => exact ⟨.singleton p, fun a b c h => absurd h (hshort (by simp))⟩
  | case2 p q => exact ⟨hne, fun a b c h => absurd h (hshort (by simp))⟩
  | case3 p q r ps hturns ih =>
      obtain ⟨hpq, hrest⟩ := List.isChain_cons_cons.mp hne
      have hgrid' : ∀ x ∈ q :: r :: ps, OnGrid x := fun x hx => hgrid x (List.mem_cons_of_mem _ hx)
      obtain ⟨hdistinct, hall⟩ := ih hgrid' hrest
      refine ⟨List.isChain_cons_cons.mpr ⟨hpq, hdistinct⟩, fun a b c h => ?_⟩
      rcases List.infix_cons_iff.mp h with hfirst | hlater
      · obtain ⟨t, ht, hhead⟩ := exists_head_bends hgrid' hrest
        obtain ⟨rest, hcut⟩ := hfirst
        obtain ⟨rfl, rfl, hcut⟩ : a = p ∧ b = q ∧ c :: rest = bends q (r :: ps) := by
          simpa using hcut
        rw [← hcut, List.head?_cons, Option.some.injEq] at hhead
        rw [hhead]
        exact ((turns_iff (hgrid a (by simp)) (hgrid b (by simp)) (hgrid r (by simp)) hpq).mp
          hturns).of_ahead ht
      · exact hall a b c hlater
  | case4 p q r ps hturns ih =>
      obtain ⟨hpq, hqr, hrest⟩ := by simpa only [List.isChain_cons_cons] using hne
      obtain ⟨t, ht, hr⟩ := ahead_of_not_turns hgrid hpq hqr hturns
      exact ih (onGrid_skip hgrid)
        (List.isChain_cons_cons.mpr ⟨ne_of_ahead hpq ht hr, hrest⟩)

/-! ## What is dropped -/

/-- The line `qs` is `ps` without some points: those between two points that are neighbours in `qs`
lie on the segment between them, and those behind the last one repeat it. -/
inductive Thinned : List (Point Rat) → List (Point Rat) → Prop
  | nil : Thinned [] []
  | last {p ds} (h : ∀ d ∈ ds, d = p) : Thinned (p :: ds) [p]
  | cons {p q ds ps qs} (h : ∀ d ∈ ds, OnSegment p q d) (hrest : Thinned (q :: ps) (q :: qs)) :
      Thinned (p :: (ds ++ q :: ps)) (p :: q :: qs)

/-- The points `ds` are dropped already and `q` comes next: whether it repeats, is kept or is
dropped, what is dropped is on the way to the next point. -/
theorem thinned_bends (ds : List (Point Rat)) (hgrid : ∀ r ∈ p :: q :: ps, OnGrid r) (hpq : p ≠ q)
    (hds : ∀ d ∈ ds, OnSegment p q d) :
    Thinned (p :: (ds ++ q :: ps)) (p :: bends p (q :: dedupFrom q ps)) := by
  induction ps generalizing p q ds with
  | nil => exact .cons hds (.last (by simp))
  | cons r ps ih =>
      rw [dedupFrom]
      split
      · next hsame =>
        obtain rfl := (coincide_iff (hgrid q (by simp)) (hgrid r (by simp))).mp hsame
        have hdropped := ih (ds ++ [q]) (onGrid_skip hgrid) hpq fun d hd => by
          rcases List.mem_append.mp hd with hd | hd
          · exact hds d hd
          · rw [List.mem_singleton.mp hd]
            exact onSegment_right p q
        simpa using hdropped
      · next hother =>
        have hqr : q ≠ r :=
          fun heq => hother ((coincide_iff (hgrid q (by simp)) (hgrid r (by simp))).mpr heq)
        rw [bends]
        split
        · exact .cons hds (ih [] (fun x hx => hgrid x (List.mem_cons_of_mem _ hx)) hqr
            (by simp))
        · next hturns =>
          obtain ⟨t, ht, hr⟩ := ahead_of_not_turns hgrid hpq hqr hturns
          have hdropped := ih (ds ++ [q]) (onGrid_skip hgrid)
            (ne_of_ahead hpq ht hr) fun d hd => by
              rcases List.mem_append.mp hd with hd | hd
              · exact (hds d hd).extend ht hr
              · rw [List.mem_singleton.mp hd]
                exact (onSegment_right p q).extend ht hr
          simpa using hdropped

/-- As long as the first point repeats, nothing else is dropped. The first point that differs opens
the segment which the points dropped after it lie on. -/
theorem thinned_dedupFrom (ds : List (Point Rat)) (hgrid : ∀ r ∈ p :: ps, OnGrid r)
    (hds : ∀ d ∈ ds, d = p) : Thinned (p :: (ds ++ ps)) (p :: bends p (dedupFrom p ps)) := by
  induction ps generalizing ds with
  | nil =>
      rw [List.append_nil]
      exact .last hds
  | cons q ps ih =>
      rw [dedupFrom]
      split
      · next hsame =>
        obtain rfl := (coincide_iff (hgrid p (by simp)) (hgrid q (by simp))).mp hsame
        have hdropped := ih (ds ++ [p]) (fun x hx => hgrid x (List.mem_cons_of_mem _ hx))
          fun d hd =>
            (List.mem_append.mp hd).elim (hds d) List.mem_singleton.mp
        simpa using hdropped
      · next hother =>
        refine thinned_bends ds hgrid (fun heq => hother ?_) fun d hd => ?_
        · exact (coincide_iff (hgrid p (by simp)) (hgrid q (by simp))).mpr heq
        · rw [hds d hd]
          exact onSegment_left p q

theorem thinned_simplify (hgrid : ∀ p ∈ ps, OnGrid p) : Thinned ps (simplify ps) := by
  cases ps with
  | nil => exact .nil
  | cons p ps => exact thinned_dedupFrom [] hgrid (by simp)

theorem Thinned.head?_eq (h : Thinned ps qs) : qs.head? = ps.head? := by
  cases h <;> rfl

theorem Thinned.getLast?_eq (h : Thinned ps qs) : qs.getLast? = ps.getLast? := by
  induction h with
  | nil => rfl
  | @last p ds h =>
      cases hlast : ds.getLast? with
      | none => rw [List.getLast?_eq_none_iff.mp hlast]
      | some d =>
          obtain ⟨front, rfl⟩ := List.getLast?_eq_some_iff.mp hlast
          rw [← List.cons_append, List.getLast?_concat, h d (by simp)]
          rfl
  | @cons p q ds ps qs _ _ ih =>
      rw [List.getLast?_cons_cons, ih, ← List.cons_append, List.getLast?_append]
      simp [List.getLast?_cons]

/-! ## The simplified line -/

theorem isChain_dedupFrom (hgrid : ∀ r ∈ p :: ps, OnGrid r) :
    (p :: dedupFrom p ps).IsChain (· ≠ ·) := by
  induction ps generalizing p with
  | nil => exact .singleton p
  | cons q ps ih =>
      rw [dedupFrom]
      split
      · exact ih (onGrid_skip hgrid)
      · next hother =>
        refine List.isChain_cons_cons.mpr ⟨fun heq => hother ?_, ih fun x hx =>
          hgrid x (List.mem_cons_of_mem _ hx)⟩
        exact (coincide_iff (hgrid p (by simp)) (hgrid q (by simp))).mpr heq

theorem crooked_simplify (hgrid : ∀ p ∈ ps, OnGrid p) : Crooked (simplify ps) := by
  cases ps with
  | nil => exact ⟨.nil, fun a b c h => absurd h.length_le (by simp [simplify, dedup])⟩
  | cons p ps =>
      refine crooked_bends (fun x hx => hgrid x ?_) (isChain_dedupFrom hgrid)
      exact ((dedupFrom_sublist p ps).cons_cons p).subset hx

theorem bends_eq_self (h : ∀ a b c, [a, b, c] <:+: p :: qs → turns a b c = true) :
    bends p qs = qs := by
  fun_induction bends p qs with
  | case1 => rfl
  | case2 => rfl
  | case3 p q r qs hturns ih =>
      rw [ih fun a b c habc => h a b c (habc.trans (List.infix_cons (List.infix_refl _)))]
  | case4 p q r qs hturns ih =>
      exact absurd (h p q r ⟨[], qs, rfl⟩) hturns

/-- Where nothing repeats and every point is a turn, nothing is dropped, since each point is then
compared with its own neighbours. -/
theorem Crooked.simplify_eq (h : Crooked qs) (hgrid : ∀ q ∈ qs, OnGrid q) : simplify qs = qs := by
  cases qs with
  | nil => rfl
  | cons q qs =>
      have hchain : (q :: qs).IsChain fun a b => coincide a b = false :=
        List.IsChain.imp_of_mem_imp (fun a b ha hb hab => Bool.eq_false_iff.mpr fun hsame =>
          hab ((coincide_iff (hgrid a ha) (hgrid b hb)).mp hsame)) h.distinct
      rw [simplify, dedup, dedupFrom_eq_self hchain]
      refine congrArg (q :: ·) (bends_eq_self fun a b c habc => ?_)
      have hmem : ∀ x ∈ [a, b, c], OnGrid x := fun x hx => hgrid x (habc.subset hx)
      have hab : a ≠ b := by
        have hpair := List.IsChain.infix h.distinct habc
        exact (List.isChain_cons_cons.mp hpair).1
      exact (turns_iff (hmem a (by simp)) (hmem b (by simp)) (hmem c (by simp)) hab).mpr
        (h.turns a b c habc)

/-- What it means that `qs` is the line `ps` without superfluous points: `crooked` says that none
are left, `thinned` that nothing else is gone, and `stable` that simplifying again finds nothing to
do. -/
structure IsSimplified (ps qs : List (Point Rat)) : Prop where
  sublist : qs.Sublist ps
  head : qs.head? = ps.head?
  last : qs.getLast? = ps.getLast?
  crooked : Crooked qs
  thinned : Thinned ps qs
  stable : simplify qs = qs

/-- **Simplifying a line.** On multiples of one thousandth, the line that is left has the ends of
the line and turns at all its other points, everything dropped is on its segments, and there is
nothing more to drop. -/
theorem simplify_isSimplified (hgrid : ∀ p ∈ ps, OnGrid p) : IsSimplified ps (simplify ps) where
  sublist := simplify_sublist ps
  head := (thinned_simplify hgrid).head?_eq
  last := (thinned_simplify hgrid).getLast?_eq
  crooked := crooked_simplify hgrid
  thinned := thinned_simplify hgrid
  stable := (crooked_simplify hgrid).simplify_eq fun q hq =>
    hgrid q ((simplify_sublist ps).subset hq)

/-- A line that repeats points, goes straight on, turns back beyond its beginning, and bends. -/
def winding : List (Point Rat) :=
  [⟨0, 0⟩, ⟨0, 0⟩, ⟨1, 0⟩, ⟨5 / 2, 0⟩, ⟨5 / 2, 0⟩, ⟨3, 0⟩, ⟨-1, 0⟩,
    ⟨-1, 1 / 1000⟩, ⟨-1, 2⟩, ⟨-1, 2⟩]

theorem simplify_isSimplified_winding :
    (∀ p ∈ winding, OnGrid p) ∧ simplify winding = [⟨0, 0⟩, ⟨3, 0⟩, ⟨-1, 0⟩, ⟨-1, 2⟩] ∧
      IsSimplified winding (simplify winding) := by
  have hgrid : ∀ p ∈ winding, OnGrid p := by
    have hall : ∀ p ∈ winding, p.x = (p.x * 1000).num / 1000 ∧ p.y = (p.y * 1000).num / 1000 := by
      decide +kernel
    exact fun p hp => ⟨_, _, hall p hp⟩
  exact ⟨hgrid, by decide +kernel, simplify_isSimplified hgrid⟩

end Polyline

end Schematic
