import Schematic.Diagnostic
import Schematic.Reading.Phrase

/-!
# Edge lines

A line such as `A, B -> C : label` is first reduced to a chain, in which lists of ids and
connectors alternate, and the chain is then expanded: each connector joins every id on its left to
every id on its right, and the right side becomes the left side of the next connector.

While the line is reduced, bracketed spans declare the id before them, quoted strings around a
connector are the cardinalities of its ends, and a colon, or a pair of bars where the dialect has
them, gives the label.
-/

namespace Schematic

/-- A connector of an edge line with the texts at its two sides. -/
structure Connector where
  kind : EdgeKind
  reverse : Bool
  before : Option String
  after : Option String
deriving Repr, DecidableEq

/-- The kind of edge that a connector token draws. -/
def Token.Kind.edgeKind? : Token.Kind → Option EdgeKind
  | .bidirectional => some .bidirectional
  | .dash => some .undirected
  | .arrow | .greater | .reverseArrow => some .directed
  | _ => none

/-- A part of a chain. -/
inductive Link where
  | ends (ids : List String)
  | connector (c : Connector)
deriving Repr, DecidableEq

namespace EdgeLine

/-! ## Expansion -/

/-- The edges that one connector draws, row by row. A reverse connector points at its left side. -/
def across (label : Option String) (c : Connector) (left right : List String) : List Edge :=
  let near := if c.reverse then c.after else c.before
  let far := if c.reverse then c.before else c.after
  let sources := if c.reverse then right else left
  let targets := if c.reverse then left else right
  let cardinality := if near.isSome || far.isSome then some ⟨near, far⟩ else none
  sources.flatMap fun s => targets.map fun t => ⟨s, t, c.kind, label, cardinality⟩

/-- The edges of a chain whose last list of ids was `left`. A connector that is not followed by
ids draws nothing. -/
def expand (label : Option String) (left : List String) : List Link → List Edge
  | [] => []
  | .ends ids :: rest => expand label ids rest
  | .connector c :: .ends ids :: rest => across label c left ids ++ expand label ids rest
  | .connector _ :: rest => expand label left rest

/-! ## Spans -/

/-- The text that closes the span which `t` opens, if it opens one. Parentheses and braces decorate
nodes in the foreign dialects only. -/
def spanCloser? (dialect : Dialect) (t : Token) : Option String :=
  match t.kind with
  | .openBracket => some "]"
  | .openBrace => if dialect = .native then none else some "\x7d"
  | .other => if dialect ≠ .native ∧ t.text = "(" then some ")" else none
  | _ => none

/-- The tokens of a span that `opener` opened and the tokens behind its closer; `none` behind it if
the span is not closed. `depth` further spans of the same kind are open. -/
def span (opener : Token) (closer : String) (depth : Nat) :
    List Token → List Token × Option (List Token)
  | [] => ([], none)
  | t :: ts =>
    if t.kind = opener.kind ∧ t.text = opener.text then
      let s := span opener closer (depth + 1) ts
      (t :: s.1, s.2)
    else if t.text = closer ∧ t.kind ≠ .string then
      match depth with
      | 0 => ([], some ts)
      | depth + 1 =>
        let s := span opener closer depth ts
        (t :: s.1, s.2)
    else
      let s := span opener closer depth ts
      (t :: s.1, s.2)

theorem length_span_rest (opener : Token) (closer : String) (depth : Nat) (ts : List Token) :
    ((span opener closer depth ts).2.getD []).length ≤ ts.length := by
  induction ts generalizing depth with
  | nil => simp [span]
  | cons t ts ih =>
    simp only [span]
    split
    · exact Nat.le_trans (ih _) (by simp)
    · split
      · cases depth with
        | zero => simp
        | succ depth => exact Nat.le_trans (ih _) (by simp)
      · exact Nat.le_trans (ih _) (by simp)

/-! ## Reduction -/

/-- The state of a reduction. The chain is kept with its last link first. -/
structure Progress where
  chain : List Link
  label : Option String
  comma : Bool
  side : Option String
  declared : List Entity
  diagnostics : List Diagnostic

namespace Progress

def start : Progress := ⟨[], none, false, none, [], []⟩

/-- A bracketed span of the given content: the last id before it, if the chain ends in ids, is
declared with the attributes in the brackets. -/
def declare (p : Progress) (dialect : Dialect) (content : List Token) : Progress :=
  match p.chain with
  | .ends ids :: _ =>
    match ids.getLast? with
    | some id =>
      let entity : Entity := ⟨id, Phrase.bracketAttributes dialect content, none⟩
      { p with declared := p.declared ++ [entity] }
    | none => p
  | _ => p

/-- A word: after a comma it joins the ids before it, else it stands for itself. -/
def word (p : Progress) (id : String) : Progress :=
  match p.comma, p.chain with
  | true, .ends ids :: rest => { p with chain := .ends (ids ++ [id]) :: rest, comma := false }
  | _, _ => { p with chain := .ends [id] :: p.chain, comma := false }

/-- A connector: it takes the string before it as the text of its near side. -/
def connector (p : Progress) (kind : EdgeKind) (reverse : Bool) : Progress :=
  { p with
    chain := .connector ⟨kind, reverse, p.side, none⟩ :: p.chain
    comma := false
    side := none }

/-- A string: behind a connector it is the text of the far side, behind ids it waits for the next
connector. -/
def string (p : Progress) (text : String) : Progress :=
  match p.chain with
  | .connector c :: rest => { p with chain := .connector { c with after := some text } :: rest }
  | [] => p
  | _ => { p with side := some text }

/-- A label, unless it is empty. -/
def labelled (p : Progress) (text : String) : Progress :=
  if text.isEmpty then p else { p with label := some text }

/-- A token that neither opens a span nor gives a label. -/
def token (p : Progress) (t : Token) : Progress :=
  match t.kind with
  | .ident | .number => p.word t.text
  | .comma => { p with comma := true }
  | .string => p.string t.text
  | kind =>
    match kind.edgeKind? with
    | some k => p.connector k (kind == .reverseArrow)
    | none => p

end Progress

/-- The text between the bar before `ts` and the next one, and the tokens behind that one. -/
def bar? (ts : List Token) : Option (List Token × List Token) :=
  match ts.dropWhile fun t => t.kind != .pipe with
  | [] => none
  | _ :: rest => some (ts.takeWhile fun t => t.kind != .pipe, rest)

theorem length_of_bar? {ts between rest : List Token} (h : bar? ts = some (between, rest)) :
    rest.length < ts.length := by
  unfold bar? at h
  split at h
  · cases h
  · next t tail heq =>
    have hs := (List.dropWhile_sublist (fun t : Token => t.kind != .pipe) (l := ts)).length_le
    simp only [Option.some.injEq, Prod.mk.injEq] at h
    obtain ⟨-, rfl⟩ := h
    rw [heq] at hs
    simp only [List.length_cons] at hs
    omega

/-- The label between two bars of which `t` is the first, and the tokens behind the second. -/
def barLabel? (dialect : Dialect) (t : Token) (ts : List Token) :
    Option (List Token × List Token) :=
  if t.kind = .pipe ∧ dialect.barLabels then bar? ts else none

theorem length_of_barLabel? {dialect : Dialect} {t : Token} {ts between rest : List Token}
    (h : barLabel? dialect t ts = some (between, rest)) : rest.length < ts.length := by
  unfold barLabel? at h
  split at h
  · exact length_of_bar? h
  · cases h

/-- Reduces the tokens of a line from the left. -/
def reduce (dialect : Dialect) (p : Progress) : List Token → Progress
  | [] => p
  | t :: ts =>
    match spanCloser? dialect t with
    | some closer =>
      let s := span t closer 0 ts
      let p :=
        if s.2.isNone then
          { p with diagnostics := p.diagnostics ++ [⟨t.place, .openSpan t.text⟩] }
        else p
      reduce dialect (p.declare dialect s.1) (s.2.getD [])
    | none =>
      if t.kind = .colon then p.labelled (Phrase.joined ts)
      else
        match _h : barLabel? dialect t ts with
        | some (between, rest) => reduce dialect (p.labelled (Phrase.joined between)) rest
        | none => reduce dialect (p.token t) ts
termination_by ts => ts.length
decreasing_by
  · have := length_span_rest t closer 0 ts
    simp only [List.length_cons]
    omega
  · have := length_of_barLabel? (by assumption)
    simp only [List.length_cons]
    omega
  · simp

/-- What an edge line says: its edges, the entities declared in it, and what was wrong. -/
structure Reading where
  edges : List Edge
  declared : List Entity
  diagnostics : List Diagnostic
deriving Repr, DecidableEq

def read (dialect : Dialect) (line : List Token) : Reading :=
  let p := reduce dialect .start line
  ⟨expand p.label [] p.chain.reverse, p.declared, p.diagnostics⟩

end EdgeLine

end Schematic
