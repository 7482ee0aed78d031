import Schematic.Diagnostic
import Schematic.Token.Scan

/-!
# The cursor

A position in a token list, seen as what is still ahead. The list ends with a mark for the end of
the input, which is kept apart as `final` and is never passed; looking beyond the end finds it
again and again. A mark for the end of the input may also stand in the middle of a list that was
not made by scanning; it is not passed either.

Readers take a cursor and return what they read, the cursor behind it, and the diagnostics they
raised (`Taken`). A reader that insists on a token returns a `Refusal` instead, which is the cursor
at the token in question and a name for what should have stood there.
-/

namespace Schematic

/-- A position in a token list: how many tokens are behind it and which are ahead of it. -/
structure Cursor where
  passed : Nat
  ahead : List Token
  final : Token
  final_kind : final.kind = .endOfInput := by rfl

namespace Cursor

/-- The cursor before the first token. A list without a mark for the end of the input gets one at
the first column of its last line. -/
def ofTokens (tokens : List Token) : Cursor :=
  match tokens.getLast? with
  | none => ⟨0, [], Token.endAt ⟨1, 1⟩, rfl⟩
  | some t =>
    if h : t.kind = .endOfInput then ⟨0, tokens.dropLast, t, h⟩
    else ⟨0, tokens, Token.endAt ⟨t.place.line, 1⟩, rfl⟩

def peek (c : Cursor) (i : Nat) : Token := (c.ahead[i]?).getD c.final

def current (c : Cursor) : Token := c.ahead.headD c.final

/-- The kind of the token under the cursor is `kind`. -/
def isAt (c : Cursor) (kind : Token.Kind) : Bool := c.current.kind == kind

def skip (c : Cursor) (n : Nat) : Cursor :=
  { c with passed := c.passed + min n c.ahead.length, ahead := c.ahead.drop n }

/-- The cursor behind the current token; a mark for the end of the input is not passed. -/
def advance (c : Cursor) : Cursor :=
  if c.isAt .endOfInput then c else c.skip 1

/-- The cursor behind the current token if that is of kind `kind`, else the same cursor. -/
def pass (c : Cursor) (kind : Token.Kind) : Cursor :=
  if c.isAt kind then c.advance else c

def atEnd (c : Cursor) : Bool := c.isAt .endOfInput

/-! ## Lines -/

/-- The tokens from the cursor to the first one that ends the line or satisfies `stop`. -/
def upTo (c : Cursor) (stop : Token → Bool) : List Token :=
  c.ahead.takeWhile fun t => !t.kind.endsLine && !stop t

/-- The tokens up to the end of the line or to `stop`, and the cursor behind them. The line end is
passed as well; a token that satisfies `stop` is not. -/
def restOfLine (c : Cursor) (stop : Token → Bool := fun _ => false) : List Token × Cursor :=
  let line := c.upTo stop
  (line, (c.skip line.length).pass .newline)

/-- A connector stands in `tokens` before the line ends, outside brackets; `depth` brackets are
open already. -/
def hasConnector (depth : Nat) : List Token → Bool
  | [] => false
  | t :: ts =>
    if t.kind.endsLine then false
    else if t.kind == .openBracket then hasConnector (depth + 1) ts
    else if t.kind == .closeBracket then hasConnector (depth - 1) ts
    else (depth == 0 && t.kind.isConnector) || hasConnector depth ts

/-- A connector stands on the rest of the line, outside brackets. -/
def lineHasConnector (c : Cursor) : Bool := hasConnector 0 c.ahead

/-! ## What a brace opens -/

/-- The tokens behind an opening brace begin with a field row: past line ends and marks without
meaning, a word stands before a word or a string. -/
def beginsWithRow : List Token → Bool
  | [] => false
  | t :: ts =>
    match t.kind with
    | .endOfInput | .closeBrace => false
    | .newline | .comment | .other => beginsWithRow ts
    | kind => kind.isWord && (ts.head?.any fun u => u.kind.isName)

/-- With the cursor on the name in `name {`, the brace opens the body of an entity and not a
group. -/
def looksLikeEntity (c : Cursor) : Bool := beginsWithRow (c.ahead.drop 2)

end Cursor

/-! ## Readers -/

/-- A token that a reader insists on is missing: where, and what should have stood there. -/
structure Refusal where
  expected : String
  cursor : Cursor

/-- The expectation that was not met. -/
def Refusal.unexpected (e : Refusal) : Unexpected := ⟨e.expected, e.cursor.current⟩

/-- What a reader read, the cursor behind it, and the diagnostics it raised, in order. -/
structure Taken (α : Type) where
  value : α
  cursor : Cursor
  diagnostics : List Diagnostic

namespace Cursor

/-- Insists on a token of kind `kind`, called `what` when it is missing. -/
def expect (c : Cursor) (kind : Token.Kind) (what : String) : Except Refusal (Token × Cursor) :=
  if c.isAt kind then .ok (c.current, c.advance) else .error ⟨what, c⟩

/-- Insists on a name, quoted or not. -/
def expectName (c : Cursor) : Except Refusal (Token × Cursor) :=
  if c.current.kind.isName then .ok (c.current, c.advance) else .error ⟨"a name", c⟩

/-! ## Progress

A reader never gives tokens back, and passing a token that is not the end of the input leaves
fewer of them. -/

theorem length_skip (c : Cursor) (n : Nat) :
    (c.skip n).ahead.length = c.ahead.length - n := by
  simp [skip]

theorem atEnd_of_ahead_nil {c : Cursor} (h : c.ahead = []) : c.atEnd = true := by
  simp [atEnd, isAt, current, h, c.final_kind]

theorem length_advance_le (c : Cursor) : c.advance.ahead.length ≤ c.ahead.length := by
  unfold advance
  split
  · exact Nat.le_refl _
  · rw [length_skip]
    exact Nat.sub_le _ _

theorem length_advance_lt {c : Cursor} (h : c.atEnd = false) :
    c.advance.ahead.length < c.ahead.length := by
  have hpos : 0 < c.ahead.length := by
    cases hc : c.ahead with
    | nil => rw [atEnd_of_ahead_nil hc] at h; cases h
    | cons t ts => simp
  have ha : c.advance = c.skip 1 := by
    unfold advance
    rw [if_neg]
    simpa [atEnd] using h
  rw [ha, length_skip]
  omega

theorem length_pass_le (c : Cursor) (kind : Token.Kind) :
    (c.pass kind).ahead.length ≤ c.ahead.length := by
  unfold pass
  split
  · exact length_advance_le c
  · exact Nat.le_refl _

theorem length_restOfLine_le (c : Cursor) (stop : Token → Bool) :
    (c.restOfLine stop).2.ahead.length ≤ c.ahead.length := by
  refine Nat.le_trans (length_pass_le _ _) ?_
  rw [length_skip]
  exact Nat.sub_le _ _

/-- A rest of line that is not cut short by `stop` is longer than nothing, or it is the line end
itself, and either way a token is passed. -/
theorem length_restOfLine_lt {c : Cursor} (stop : Token → Bool) (h : c.atEnd = false)
    (hs : stop c.current = false) :
    (c.restOfLine stop).2.ahead.length < c.ahead.length := by
  cases hc : c.ahead with
  | nil => rw [atEnd_of_ahead_nil hc] at h; cases h
  | cons t ts =>
    have ht : c.current = t := by simp [current, hc]
    by_cases hl : t.kind = .newline
    · have hu : c.upTo stop = [] := by simp [upTo, hc, hl, Token.Kind.endsLine]
      have hp : (c.skip 0).pass .newline = (c.skip 0).advance := by
        unfold pass
        rw [if_pos]
        simp [isAt, current, skip, hc, hl]
      have hlt : (c.skip 0).advance.ahead.length < (c.skip 0).ahead.length := by
        refine length_advance_lt ?_
        simp [atEnd, isAt, current, skip, hc, hl]
      unfold restOfLine
      simp only [hu, List.length_nil, hp]
      rw [length_skip, Nat.sub_zero, hc] at hlt
      exact hlt
    · have hend : t.kind ≠ .endOfInput := by
        simpa [atEnd, isAt, current, hc] using h
      have he : t.kind.endsLine = false := by
        cases hk : t.kind <;> simp_all [Token.Kind.endsLine]
      have hu : 0 < (c.upTo stop).length := by
        rw [ht] at hs
        simp [upTo, hc, he, hs]
      have hle := length_pass_le (c.skip (c.upTo stop).length) .newline
      rw [length_skip, hc] at hle
      unfold restOfLine
      simp only [List.length_cons] at hle ⊢
      omega

end Cursor

end Schematic
