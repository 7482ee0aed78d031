import Schematic.Proofs.Reading.Movement

/-!
# No statement is refused

Some forms of a statement insist on tokens: a group on its name and its brace, an entity and a
metadata line on their first name. Each of them is only chosen after a look ahead that has seen
these very tokens. `Reading.Guard` is what a choice has seen, `form_guard` says that it has, and
`take_ok` that this is enough, so the recovery of `Reading.statement` is never entered.

A report about a skipped statement is made by that recovery alone; the second half goes through the
readers once more and says that all other reports are of another kind.
-/

namespace Schematic

/-! ## What the choice of a form has seen -/

namespace Cursor

/-- The token behind the current one becomes the current one. At the end of the input the cursor
would stay where it is. -/
theorem current_advance {c : Cursor} (h : c.atEnd = false) : c.advance.current = c.peek 1 := by
  have ha : c.advance = c.skip 1 := by
    unfold advance
    rw [if_neg]
    simpa [atEnd] using h
  rw [ha]
  cases hc : c.ahead with
  | nil => simp [skip, current, peek, hc]
  | cons t ts => cases ts <;> simp [skip, current, peek, hc]

theorem peek_advance {c : Cursor} (h : c.atEnd = false) (i : Nat) :
    c.advance.peek i = c.peek (i + 1) := by
  have ha : c.advance = c.skip 1 := by
    unfold advance
    rw [if_neg]
    simpa [atEnd] using h
  simp [ha, skip, peek]

theorem atEnd_of_isName {c : Cursor} (h : c.current.kind.isName = true) : c.atEnd = false := by
  cases hk : c.current.kind <;> simp_all [atEnd, isAt, Token.Kind.isName]

end Cursor

theorem Token.Kind.isName_of_isWord {k : Token.Kind} (h : k.isWord = true) : k.isName = true := by
  cases k <;> first | rfl | cases h

namespace Reading

/-- The tokens that a form insists on are there. The forms that insist on nothing read whatever
comes. -/
def Guard (r : Reading) : Form → Prop
  | .keywordGroup => (r.cursor.peek 1).kind.isName = true ∧ (r.cursor.peek 2).kind = .openBrace
  | .group => r.cursor.current.kind.isWord = true ∧ (r.cursor.peek 1).kind = .openBrace
  | .entity | .metadata => r.cursor.current.kind.isWord = true
  | _ => True

theorem wordForm?_guard {r : Reading} {top : Bool} {f : Form} (h : r.wordForm? top = some f) :
    r.Guard f := by
  simp only [wordForm?] at h
  split at h
  · cases h
  · split at h
    · cases h; trivial
    · split at h
      · cases h
        cases top <;> trivial
      · split at h
        · cases h; trivial
        · cases h

theorem groupForm?_guard {r : Reading} {f : Form} (h : r.groupForm? = some f) : r.Guard f := by
  simp only [groupForm?] at h
  split at h
  · next hw =>
    split at h
    · next hb => cases h; exact ⟨hw.2.2, hb⟩
    · split at h
      · cases h; trivial
      · cases h
  · cases h

theorem shapeForm_guard (r : Reading) (top : Bool) : r.Guard (r.shapeForm top) := by
  simp only [shapeForm]
  split
  · next h =>
    simp only [Bool.and_eq_true, beq_iff_eq] at h
    split
    · exact h.1.1
    · exact h.1
  · split
    · next h =>
      simp only [Bool.and_eq_true] at h
      exact h.1.1
    · split
      · trivial
      · split
        · next h =>
          split
          · exact h
          · trivial
        · trivial

/-- Whatever form is chosen, its tokens have been seen. The cases are those of the choice, and each
branch was taken because of what was looked at. -/
theorem form_guard (r : Reading) (top : Bool) : r.Guard (r.form top) := by
  unfold form
  split
  · trivial
  · trivial
  · trivial
  · trivial
  · split
    · next h => exact wordForm?_guard h
    · split
      · next h => exact groupForm?_guard h
      · split
        · trivial
        · exact shapeForm_guard r top

/-! ## The tokens seen are the tokens asked for -/

theorem openBraces_ok {r : Reading} (hn : r.cursor.current.kind.isName = true)
    (hb : (r.cursor.peek 1).kind = .openBrace) :
    r.openBraces =
      .ok (r.push r.cursor.current.text r.cursor.current .brace r.cursor.advance.advance) := by
  have hc := Cursor.current_advance (Cursor.atEnd_of_isName hn)
  have ha : r.cursor.advance.isAt .openBrace = true := by simp [Cursor.isAt, hc, hb]
  simp only [openBraces, Cursor.expectName, Cursor.expect, bind, Except.bind, hn, ha, if_true]
  rfl

/-- A form whose tokens are there is read. The cases are the forms; only the first four can be
refused at all. -/
theorem take_ok {r : Reading} {top : Bool} {f : Form} (h : r.Guard f)
    (hend : r.cursor.atEnd = false) : ∃ s, r.take top f = .ok s := by
  cases f with
  | keywordGroup =>
      obtain ⟨hn, hb⟩ := h
      refine ⟨_, openBraces_ok (r := { r with cursor := r.cursor.advance }) ?_ ?_⟩
      · rw [← Cursor.current_advance hend] at hn
        exact hn
      · rw [← Cursor.peek_advance hend 1] at hb
        exact hb
  | group => exact ⟨_, openBraces_ok (Token.Kind.isName_of_isWord h.1) h.2⟩
  | entity =>
      have hn := Token.Kind.isName_of_isWord h
      exact ⟨_, by rw [take_entity, if_pos hn]⟩
  | metadata =>
      have hn := Token.Kind.isName_of_isWord h
      simp only [take, metadataLine, Cursor.expectName, hn, if_true]
      exact ⟨_, rfl⟩
  | blank => exact ⟨_, rfl⟩
  | passed => exact ⟨_, rfl⟩
  | header type => exact ⟨_, rfl⟩
  | directive => exact ⟨_, rfl⟩
  | endBlock => exact ⟨_, rfl⟩
  | declaration => exact ⟨_, take_declaration r top⟩
  | edges => exact ⟨_, rfl⟩
  | lone => exact ⟨_, rfl⟩
  | stray => exact ⟨_, rfl⟩

/-- Before the end of the input a statement is read in its form; the recovery is not entered. -/
theorem take_form (r : Reading) (top : Bool) (hend : r.cursor.atEnd = false) :
    r.take top (r.form top) = .ok (r.statement top) := by
  obtain ⟨s, hs⟩ := take_ok (r.form_guard top) hend
  rw [statement, hs]

end Reading

/-! ## What is reported -/

/-- The report that a statement was skipped, which the recovery makes and nothing else. -/
def Problem.isSkip : Problem → Bool
  | .skippedStatement _ _ => true
  | _ => false

/-- None of the reports is about a skipped statement. Reports are only ever appended, so this is
shown for each reader by itself. -/
def NoSkip (ds : List Diagnostic) : Prop := ∀ d ∈ ds, d.problem.isSkip = false

namespace NoSkip

theorem nil : NoSkip [] := fun _ h => absurd h List.not_mem_nil

theorem single {d : Diagnostic} (h : d.problem.isSkip = false) : NoSkip [d] := fun e he => by
  rw [List.mem_singleton.mp he]
  exact h

theorem append {ds es : List Diagnostic} (hd : NoSkip ds) (he : NoSkip es) : NoSkip (ds ++ es) :=
  fun d h => (List.mem_append.mp h).elim (hd d) (he d)

end NoSkip

theorem Cursor.noSkip_enclosed (c : Cursor) (closer : Token.Kind) {problem : Problem}
    (h : problem.isSkip = false) : NoSkip (c.enclosed closer problem).diagnostics := by
  simp only [enclosed]
  split
  · exact .single h
  · exact .nil

theorem Declaration.noSkip_entity (dialect : Dialect) (id : String)
    (known : KeyedList String String) (c : Cursor) :
    NoSkip (entityTaken dialect id known c).diagnostics := by
  refine .append ?_ ?_
  · unfold attributes
    split
    · exact c.noSkip_enclosed .closeBracket rfl
    · exact .nil
  · unfold bodyTaken
    split
    · exact Cursor.noSkip_enclosed _ .closeBrace rfl
    · exact .nil

namespace EdgeLine

theorem diagnostics_declare (p : Progress) (dialect : Dialect) (content : List Token) :
    (p.declare dialect content).diagnostics = p.diagnostics := by
  unfold Progress.declare
  split
  · split <;> rfl
  · rfl

theorem diagnostics_labelled (p : Progress) (text : String) :
    (p.labelled text).diagnostics = p.diagnostics := by
  unfold Progress.labelled
  split <;> rfl

theorem diagnostics_token (p : Progress) (t : Token) :
    (p.token t).diagnostics = p.diagnostics := by
  unfold Progress.token
  split
  · unfold Progress.word; split <;> rfl
  · unfold Progress.word; split <;> rfl
  · rfl
  · unfold Progress.string; split <;> rfl
  · split <;> rfl

/-- All that is reported about an edge line is spans that are not closed. The property is kept
general, since it is also asked whether they leave anything open. -/
theorem forall_diagnostics_reduce {P : Diagnostic → Prop}
    (hspan : ∀ place opener, P ⟨place, .openSpan opener⟩) (dialect : Dialect) (p : Progress)
    (ts : List Token) (h : ∀ d ∈ p.diagnostics, P d) :
    ∀ d ∈ (reduce dialect p ts).diagnostics, P d := by
  fun_induction reduce dialect p ts with
  | case1 p => exact h
  | case2 p t ts closer hc s q ih =>
      refine ih ?_
      rw [diagnostics_declare]
      unfold q
      split
      · exact List.forall_mem_append.mpr ⟨h, by simpa using hspan t.place t.text⟩
      · exact h
  | case3 p t ts hc hk =>
      rw [diagnostics_labelled]
      exact h
  | case4 p t ts hc hk between rest hb ih =>
      refine ih ?_
      rw [diagnostics_labelled]
      exact h
  | case5 p t ts hc hk hb ih =>
      refine ih ?_
      rw [diagnostics_token]
      exact h

end EdgeLine

namespace Reading

theorem diagnostics_openBraces {r s : Reading} (h : r.openBraces = .ok s) :
    s.diagnostics = r.diagnostics := by
  rw [eq_push_of_openBraces h]
  rfl

theorem noSkip_take {r s : Reading} {top : Bool} {f : Form} (hr : NoSkip r.diagnostics)
    (h : r.take top f = .ok s) : NoSkip s.diagnostics := by
  cases f with
  | keywordGroup =>
      rw [diagnostics_openBraces h]
      exact hr
  | group =>
      rw [diagnostics_openBraces h]
      exact hr
  | entity =>
      rw [take_entity] at h
      split at h
      · cases h
        exact hr.append (Declaration.noSkip_entity _ _ _ _)
      · cases h
  | metadata =>
      simp only [take, metadataLine, Cursor.expectName] at h
      split at h
      · cases h
        exact hr
      · cases h
  | declaration =>
      rw [take_declaration, Except.ok.injEq] at h
      rw [← h]
      exact hr.append (Declaration.noSkip_entity _ _ _ _)
  | edges =>
      simp only [take, Except.ok.injEq] at h
      rw [← h]
      exact hr.append (EdgeLine.forall_diagnostics_reduce (fun _ _ => rfl) _ _ _ NoSkip.nil)
  | stray =>
      simp only [take, stray, Except.ok.injEq] at h
      rw [← h]
      split
      · exact hr.append (.single rfl)
      · split
        · exact hr
        · exact hr.append (.single rfl)
  | blank => cases h; exact hr
  | passed => cases h; exact hr
  | header type => cases h; exact hr
  | directive => cases h; exact hr
  | endBlock => cases h; exact hr
  | lone => cases h; exact hr

theorem noSkip_close? {r s : Reading} {g : OpenGroup} {outer : List OpenGroup}
    (hr : NoSkip r.diagnostics) (h : r.close? g outer = some s) : NoSkip s.diagnostics := by
  unfold close? at h
  split at h
  · cases h
    refine hr.append (.single ?_)
    unfold OpenGroup.problem
    split <;> rfl
  · split at h
    · split at h
      · cases h; exact hr
      · cases h
    · split at h
      · cases h; exact hr
      · cases h

end Reading

end Schematic
