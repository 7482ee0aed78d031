import Schematic.Reading.Statement

/-!
# Reading to the end

A reading is finished when the input is over and no group is open. Until then a step either passes
a token or, leaving the tokens as they are, closes a group; `step_decreases` says so, and makes the
two runs below total. `run` reads a whole document; `settle` goes on only until the groups that one
statement opened are closed again.
-/

namespace Schematic

namespace Reading

def remaining (r : Reading) : Nat := r.cursor.ahead.length

/-! ## A statement passes a token -/

/-- Reading on with a name and a brace passes both, and a refusal is at the first token or behind
it. -/
theorem openBraces_progress (r : Reading) (h : r.cursor.atEnd = false) :
    match r.openBraces with
    | .ok s => s.remaining < r.remaining
    | .error e => e.cursor = r.cursor ∨ e.cursor.ahead.length < r.remaining := by
  have hlt := Cursor.length_advance_lt h
  have hle := Cursor.length_advance_le r.cursor.advance
  unfold openBraces Cursor.expectName
  by_cases hn : r.cursor.current.kind.isName = true
  · simp only [hn, if_true, bind, Except.bind, Cursor.expect]
    by_cases hb : r.cursor.advance.isAt .openBrace = true
    · simp only [hb, if_true, pure, Except.pure, remaining, push]
      omega
    · simp only [hb, remaining]
      exact Or.inr hlt
  · simp [hn, bind, Except.bind]

/-- The name is all that an entity insists on. -/
theorem take_entity (r : Reading) (top : Bool) :
    r.take top .entity =
      if r.cursor.current.kind.isName then
        .ok (r.addEntity
          (Declaration.entityTaken r.dialect r.cursor.current.text .empty r.cursor.advance))
      else .error ⟨"a name", r.cursor⟩ := by
  simp only [take, Declaration.named, Cursor.expectName]
  split <;> simp [bind, Except.bind, Declaration.entity_eq, Except.map]

/-- A keyword declaration insists on nothing: that a name follows is part of its form. -/
theorem take_declaration (r : Reading) (top : Bool) :
    r.take top .declaration =
      .ok (r.addEntity (Declaration.keywordTaken r.dialect r.cursor)) := by
  simp only [take, Declaration.keyword_eq, Except.map]

/-- A statement passes at least one token, and so does its refusal or the line that is skipped
because of it. -/
theorem take_progress (r : Reading) (top : Bool) (f : Form) (h : r.cursor.atEnd = false) :
    match r.take top f with
    | .ok s => s.remaining < r.remaining
    | .error e => e.cursor = r.cursor ∨ e.cursor.ahead.length < r.remaining := by
  have hlt := Cursor.length_advance_lt h
  have line := fun stop => Cursor.length_restOfLine_le r.cursor.advance stop
  cases f with
  | blank => exact hlt
  | passed => exact Cursor.length_restOfLine_lt _ h rfl
  | header type => exact Nat.lt_of_le_of_lt (line _) hlt
  | directive => exact Nat.lt_of_le_of_lt (line _) hlt
  | keywordGroup =>
    simp only [take]
    by_cases ha : r.cursor.advance.atEnd = false
    · have hg := openBraces_progress { r with cursor := r.cursor.advance } ha
      split at hg
      · exact Nat.lt_trans hg hlt
      · refine Or.inr ?_
        rcases hg with hg | hg
        · rw [hg]
          exact hlt
        · exact Nat.lt_trans hg hlt
    · have hk : r.cursor.advance.current.kind = .endOfInput := by
        simpa [Cursor.atEnd, Cursor.isAt] using ha
      simp only [openBraces, Cursor.expectName, hk, Token.Kind.isName, bind, Except.bind]
      exact Or.inr hlt
  | endBlock => exact Nat.lt_of_le_of_lt (line _) hlt
  | declaration =>
    have hk := Declaration.length_keywordTaken_le r.dialect r.cursor
    rw [take_declaration]
    exact Nat.lt_of_le_of_lt hk hlt
  | group => exact openBraces_progress r h
  | entity =>
    have he := Declaration.length_entityTaken_le r.dialect r.cursor.current.text .empty
      r.cursor.advance
    rw [take_entity]
    by_cases hn : r.cursor.current.kind.isName = true
    · rw [if_pos hn]
      exact Nat.lt_of_le_of_lt he hlt
    · rw [if_neg hn]
      exact Or.inl rfl
  | edges => exact Cursor.length_restOfLine_lt _ h rfl
  | metadata =>
    simp only [take, metadataLine, Cursor.expectName]
    by_cases hn : r.cursor.current.kind.isName = true
    · simp only [hn, if_true, bind, Except.bind, pure, Except.pure, Except.map, remaining]
      exact Nat.lt_of_le_of_lt (line _) hlt
    · simp [hn, bind, Except.bind, Except.map]
  | lone => exact Nat.lt_of_le_of_lt (line _) hlt
  | stray =>
    simp only [take, stray]
    split
    · exact hlt
    · split <;> exact hlt

theorem statement_progress (r : Reading) (top : Bool) (h : r.cursor.atEnd = false) :
    (r.statement top).remaining < r.remaining := by
  have ht := take_progress r top (r.form top) h
  unfold statement
  split
  · next s hs =>
    rw [hs] at ht
    exact ht
  · next e he =>
    rw [he] at ht
    simp only [remaining]
    rcases ht with ht | ht
    · rw [ht]
      exact Cursor.length_restOfLine_lt _ h rfl
    · exact Nat.lt_of_le_of_lt (Cursor.length_restOfLine_le _ _) ht

/-! ## A step makes progress -/

/-- Closing a group gives no token back and leaves one group less. -/
theorem close?_progress {r s : Reading} {g : OpenGroup} {outer : List OpenGroup}
    (h : r.close? g outer = some s) :
    s.remaining ≤ r.remaining ∧ s.openGroups = outer := by
  unfold close? at h
  split at h
  · cases h
    exact ⟨Nat.le_refl _, rfl⟩
  · split at h
    · split at h
      · cases h
        exact ⟨Cursor.length_advance_le _, rfl⟩
      · cases h
    · split at h
      · cases h
        exact ⟨Cursor.length_restOfLine_le _ _, rfl⟩
      · cases h

/-- A step passes a token, or it closes a group and gives no token back. -/
theorem step_decreases {r : Reading} (h : r.finished = false) :
    r.step.remaining < r.remaining ∨
      r.step.remaining ≤ r.remaining ∧ r.step.openGroups.length < r.openGroups.length := by
  unfold step
  split
  · next hg =>
    refine Or.inl (statement_progress r true ?_)
    simpa [finished, hg] using h
  · next g outer hg =>
    cases hc : r.close? g outer with
    | some s =>
      obtain ⟨hle, ho⟩ := close?_progress hc
      refine Or.inr ⟨hle, ?_⟩
      simp [ho, hg]
    | none =>
      refine Or.inl (statement_progress r false ?_)
      unfold close? at hc
      split at hc
      · cases hc
      · next he => simpa using he

/-- Steps until the reading is finished. -/
def run (r : Reading) : Reading :=
  if r.finished then r else run r.step
termination_by (r.remaining, r.openGroups.length)
decreasing_by
  rcases step_decreases (Bool.eq_false_iff.mpr ‹_›) with h | ⟨h, hg⟩
  · exact Prod.Lex.left _ _ h
  · rcases Nat.lt_or_eq_of_le h with h | h
    · exact Prod.Lex.left _ _ h
    · rw [h]
      exact Prod.Lex.right _ hg

/-- Steps until no group is open. -/
def settle (r : Reading) : Reading :=
  if r.openGroups.isEmpty then r else settle r.step
termination_by (r.remaining, r.openGroups.length)
decreasing_by
  have hf : r.finished = false := by simp_all [finished]
  rcases step_decreases hf with h | ⟨h, hg⟩
  · exact Prod.Lex.left _ _ h
  · rcases Nat.lt_or_eq_of_le h with h | h
    · exact Prod.Lex.left _ _ h
    · rw [h]
      exact Prod.Lex.right _ hg

/-! ## Whole documents -/

def lineCount (tokens : List Token) : Nat :=
  tokens.foldl (fun n t => max n t.place.line) 0

/-- The document that a finished reading has read, of the given number of lines. -/
def document (r : Reading) (lines : Nat) : Document :=
  { archetype := .unknown
    metadata := r.metadata
    blocks := r.blocks
    edges := r.edges
    dialect := r.dialect
    lineCount := lines }

/-- A document and what was tolerated in its text. -/
structure Outcome where
  document : Document
  diagnostics : List Diagnostic
deriving Repr, DecidableEq

/-- Only notes were made. -/
def Outcome.ok (o : Outcome) : Bool := o.diagnostics.all fun d => d.severity == .info

def ofTokens (dialect : Dialect) (tokens : List Token) : Outcome :=
  let r := start dialect tokens
  let done := r.run
  ⟨done.document (lineCount (r.cursor.ahead ++ [r.cursor.final])), done.diagnostics⟩

end Reading

end Schematic
