import Mathlib.Logic.Function.Iterate
import Schematic.Proofs.Reading.Acceptance

/-!
# Reading makes progress and never fails

The two halves of the reading discipline, put together for whole runs. Every step lowers
`Reading.effort`, in which a token weighs more than an open group, so a run is over after at most
twice as many steps as there are tokens. A statement read with everything nested in it
(`Reading.whole`) moves on, stays before the first mark for the end of the input, and leaves no
report about a skipped statement.
-/

namespace Schematic

namespace Reading

/-! ## Effort -/

/-- What is left to do: a token may open a group, and then the group has to be closed. With the
weight of two, opening one still leaves less to do. -/
def effort (r : Reading) : Nat := 2 * r.remaining + r.openGroups.length

theorem openGroups_take {r s : Reading} {top : Bool} {f : Form} (h : r.take top f = .ok s) :
    s.openGroups.length ≤ r.openGroups.length + 1 := by
  have keep : ∀ {n : Nat}, n ≤ n + 1 := Nat.le_succ _
  cases f with
  | keywordGroup =>
      rw [eq_push_of_openBraces h]
      exact Nat.le_refl _
  | group =>
      rw [eq_push_of_openBraces h]
      exact Nat.le_refl _
  | entity =>
      rw [take_entity] at h
      split at h
      · cases h
        exact keep
      · cases h
  | metadata =>
      simp only [take, metadataLine, Cursor.expectName] at h
      split at h
      · cases h
        exact keep
      · cases h
  | declaration =>
      rw [take_declaration, Except.ok.injEq] at h
      rw [← h, openGroups_addEntity]
      exact keep
  | edges =>
      simp only [take, Except.ok.injEq] at h
      rw [← h, openGroups_edgeLine]
      exact keep
  | stray =>
      simp only [take, stray, Except.ok.injEq] at h
      rw [← h]
      split
      · exact keep
      · split <;> exact keep
  | blank => cases h; exact keep
  | passed => cases h; exact keep
  | header type => cases h; exact keep
  | directive => cases h; exact keep
  | endBlock => cases h; exact Nat.le_refl _
  | lone => cases h; exact keep

theorem effort_statement_lt (r : Reading) (top : Bool) (h : r.cursor.atEnd = false) :
    (r.statement top).effort < r.effort := by
  have hlt := statement_progress r top h
  have hle := openGroups_take (take_form r top h)
  unfold effort
  omega

theorem effort_close?_lt {r s : Reading} {g : OpenGroup} {outer : List OpenGroup}
    (hg : r.openGroups = g :: outer) (h : r.close? g outer = some s) : s.effort < r.effort := by
  obtain ⟨hle, ho⟩ := close?_progress h
  simp only [effort, hg, ho, List.length_cons]
  omega

theorem atEnd_of_close?_eq_none {r : Reading} {g : OpenGroup} {outer : List OpenGroup}
    (h : r.close? g outer = none) : r.cursor.atEnd = false := by
  unfold close? at h
  split at h
  · cases h
  · next he => simpa using he

/-! ## Steps

What a step does, said once: it closes a group or reads a statement that is not refused. -/

theorem step_cases {r : Reading} (h : r.finished = false) :
    (∃ g outer, r.openGroups = g :: outer ∧ r.close? g outer = some r.step) ∨
      (∃ top, r.cursor.atEnd = false ∧ r.step = r.statement top) := by
  unfold step
  cases hg : r.openGroups with
  | nil =>
      refine Or.inr ⟨true, ?_, rfl⟩
      simpa [finished, hg] using h
  | cons g outer =>
      cases hc : r.close? g outer with
      | some s => exact Or.inl ⟨g, outer, rfl, by simp [hc]⟩
      | none => exact Or.inr ⟨false, atEnd_of_close?_eq_none hc, by simp [hc]⟩

theorem effort_step_lt {r : Reading} (h : r.finished = false) : r.step.effort < r.effort := by
  rcases step_cases h with ⟨g, outer, hg, hc⟩ | ⟨top, hend, hs⟩
  · exact effort_close?_lt hg hc
  · rw [hs]
    exact effort_statement_lt r top hend

theorem reaches_step {r : Reading} (h : r.finished = false) : r.cursor.Reaches r.step.cursor := by
  rcases step_cases h with ⟨g, outer, hg, hc⟩ | ⟨top, hend, hs⟩
  · exact reaches_close? hc
  · rw [hs]
    exact reaches_take (take_form r top hend)

theorem noSkip_step {r : Reading} (h : r.finished = false) (hr : NoSkip r.diagnostics) :
    NoSkip r.step.diagnostics := by
  rcases step_cases h with ⟨g, outer, hg, hc⟩ | ⟨top, hend, hs⟩
  · exact noSkip_close? hr hc
  · rw [hs]
    exact noSkip_take hr (take_form r top hend)

/-! ## Runs -/

/-- A run is its steps, and there are at most as many of them as the effort says. The induction is
on the run itself. -/
theorem run_eq_iterate (r : Reading) :
    ∃ n, n ≤ r.effort ∧ (step^[n] r).finished = true ∧ r.run = step^[n] r := by
  fun_induction run r with
  | case1 r h => exact ⟨0, Nat.zero_le _, h, rfl⟩
  | case2 r h ih =>
      obtain ⟨n, hn, hf, hr⟩ := ih
      have hlt := effort_step_lt (Bool.eq_false_iff.mpr h)
      exact ⟨n + 1, by omega, hf, hr⟩

/-- At most `n` steps, which the kernel can take. A run is by recursion on the effort and does not
unfold there. -/
def steps : Nat → Reading → Reading
  | 0, r => r
  | n + 1, r => if r.finished then r else steps n r.step

theorem run_eq_steps {n : Nat} {r : Reading} (h : (steps n r).finished = true) :
    r.run = steps n r := by
  induction n generalizing r with
  | zero =>
      rw [steps] at h
      rw [run, if_pos h, steps]
  | succ n ih =>
      rw [steps] at h ⊢
      split
      · next hf => rw [run, if_pos hf]
      · next hf =>
        rw [if_neg hf] at h
        rw [run, if_neg hf, ih h]

theorem noSkip_run (r : Reading) (hr : NoSkip r.diagnostics) : NoSkip r.run.diagnostics := by
  fun_induction run r with
  | case1 r h => exact hr
  | case2 r h ih => exact ih (noSkip_step (Bool.eq_false_iff.mpr h) hr)

theorem settle_spec (r : Reading) :
    r.cursor.Reaches r.settle.cursor ∧ r.settle.openGroups = [] ∧
      (NoSkip r.diagnostics → NoSkip r.settle.diagnostics) := by
  fun_induction settle r with
  | case1 r h => exact ⟨.refl _, by simpa using h, id⟩
  | case2 r h ih =>
      have hf : r.finished = false := by simp_all [finished]
      obtain ⟨hm, hg, hd⟩ := ih
      exact ⟨(reaches_step hf).trans hm, hg, fun hr => hd (noSkip_step hf hr)⟩

/-- The statement at the cursor with all statements nested in it, read apart from the groups that
are open around it. -/
def whole (r : Reading) (top : Bool) : Reading :=
  (({ r with openGroups := [] } : Reading).statement top).settle

theorem reaches_whole (r : Reading) (top : Bool) (h : r.cursor.atEnd = false) :
    r.cursor.Reaches (r.whole top).cursor := by
  have ht := take_form { r with openGroups := [] } top h
  exact (reaches_take ht).trans (settle_spec _).1

theorem length_whole_lt (r : Reading) (top : Bool) (h : r.cursor.atEnd = false) :
    (r.whole top).cursor.ahead.length < r.cursor.ahead.length := by
  have hlt := statement_progress { r with openGroups := [] } top h
  obtain ⟨n, -, hc⟩ := (settle_spec (({ r with openGroups := [] } : Reading).statement top)).1
  have hlen : (r.whole top).cursor.ahead.length
      = (({ r with openGroups := [] } : Reading).statement top).cursor.ahead.length - n := by
    rw [whole, hc, Cursor.length_skip]
  rw [hlen]
  exact Nat.lt_of_le_of_lt (Nat.sub_le _ _) hlt

theorem passed_lt_whole (r : Reading) (top : Bool) (h : r.cursor.atEnd = false) :
    r.cursor.passed < (r.whole top).cursor.passed := by
  have hlen := length_whole_lt r top h
  have hadd := (reaches_whole r top h).passed_add_length
  omega

theorem noSkip_whole (r : Reading) (top : Bool) (h : r.cursor.atEnd = false)
    (hr : NoSkip r.diagnostics) : NoSkip (r.whole top).diagnostics := by
  have ht := take_form { r with openGroups := [] } top h
  exact (settle_spec _).2.2 (noSkip_take (r := { r with openGroups := [] }) hr ht)

theorem effort_start_le (dialect : Dialect) (tokens : List Token) :
    (start dialect tokens).effort ≤ 2 * tokens.length := by
  have hlen : (Cursor.ofTokens tokens).ahead.length ≤ tokens.length := by
    unfold Cursor.ofTokens
    split
    · exact Nat.zero_le _
    · split
      · rw [List.length_dropLast]
        exact Nat.sub_le _ _
      · exact Nat.le_refl _
  simp only [effort, remaining, start, List.length_nil]
  omega

/-- **Reading always makes progress and never fails.** Over any token list the run is finished after
at most two steps a token, and no statement is reported as skipped. From any position before an end
of the input, the statement there is read in the form that was chosen for it, which goes for the
statements nested in it as well; it ends further on, but not behind the next end of the input. -/
theorem ofTokens_progress (dialect : Dialect) (tokens : List Token) :
    (∃ n, n ≤ 2 * tokens.length ∧ (step^[n] (start dialect tokens)).finished = true ∧
      (start dialect tokens).run = step^[n] (start dialect tokens)) ∧
    NoSkip (ofTokens dialect tokens).diagnostics ∧
    ∀ (r : Reading) (top : Bool), r.cursor.atEnd = false →
      r.take top (r.form top) = .ok (r.statement top) ∧
      r.cursor.passed < (r.whole top).cursor.passed ∧
      (r.whole top).cursor.passed ≤ r.cursor.passed + r.cursor.room ∧
      (r.whole top).openGroups = [] ∧
      (NoSkip r.diagnostics → NoSkip (r.whole top).diagnostics) := by
  refine ⟨?_, noSkip_run _ .nil, fun r top h => ⟨take_form r top h, passed_lt_whole r top h,
    (reaches_whole r top h).passed_le, (settle_spec _).2.1, noSkip_whole r top h⟩⟩
  obtain ⟨n, hn, hf, hr⟩ := run_eq_iterate (start dialect tokens)
  exact ⟨n, Nat.le_trans hn (effort_start_le dialect tokens), hf, hr⟩

/-- A group that is never closed, with an end of the input in the middle of it. -/
def brokenGroup : List Token :=
  [⟨.ident, "group", ⟨1, 1⟩⟩, ⟨.string, "g", ⟨1, 7⟩⟩, ⟨.openBrace, "\x7b", ⟨1, 11⟩⟩,
   ⟨.greater, ">", ⟨2, 1⟩⟩, ⟨.endOfInput, "", ⟨2, 2⟩⟩, ⟨.ident, "x", ⟨2, 3⟩⟩]

theorem ofTokens_progress_brokenGroup :
    (start .native brokenGroup).cursor.atEnd = false ∧
      0 < ((start .native brokenGroup).whole true).cursor.passed ∧
      ((start .native brokenGroup).whole true).cursor.passed ≤ 4 := by
  have h : (start .native brokenGroup).cursor.atEnd = false := by decide
  have hroom : (start .native brokenGroup).cursor.room = 4 := by decide
  obtain ⟨-, -, hp⟩ := ofTokens_progress .native brokenGroup
  obtain ⟨-, hlt, hle, -, -⟩ := hp (start .native brokenGroup) true h
  rw [hroom] at hle
  exact ⟨h, hlt, hle⟩

end Reading

end Schematic
