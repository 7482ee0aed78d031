import Schematic.Proofs.Reading.EdgeLines

/-!
# Runs of connectors

An arrow such as `->>` is cut into several connectors. Of such a run only the last one draws, and a
text behind the run is its cardinality, as it would be without the others. A text before the run is
given to the first one, and is lost with it: the line draws what the last connector alone would draw
with no text before it (`connectorRun_draws`).
-/

namespace Schematic

open Token (IsWord)

namespace EdgeLine

/-! ## The texts of an edge show -/

theorem cardinality?_inj {s t s' t' : Option String} :
    cardinality? s t = cardinality? s' t' ↔ s = s' ∧ t = t' := by
  unfold cardinality?
  cases s <;> cases t <;> cases s' <;> cases t' <;> simp

/-- Edges with different texts before the connector are different, since there is at least one. So
the text before a run is lost whenever there is one. -/
theorem crossed_eq_iff {label : Option String} {j : Joint} {before before' after : Option String}
    {left right : Side} :
    crossed label j before after left.ids right.ids =
      crossed label j before' after left.ids right.ids ↔ before = before' := by
  refine ⟨fun h => ?_, fun h => by rw [h]⟩
  have hfirst := congrArg (fun es : List Edge => es.head?.map Edge.cardinality) h
  unfold crossed Side.ids at hfirst
  cases hj : j.isReverse <;> simp_all [List.product, cardinality?_inj]

/-- A line of two sides with a run between them, as kinds and texts of tokens. Where the tokens
stand makes no difference. -/
def runLine (left : Side) (before : Option String) (run : List Joint) (after : Option String)
    (right : Side) : List Spelling :=
  left.spelled ++ spellRun before run after right

end EdgeLine

open EdgeLine (Spelling Side Joint crossed runLine)

namespace Reading

/-! ## Lines with runs -/

section Run

variable {left right : Side} (hleft : ∀ w ∈ left.ids, IsWord w) (hright : ∀ w ∈ right.ids, IsWord w)
  {before after : Option String} {dropped : List Joint} {j : Joint}

include hleft hright

theorem endsLine_runLine (run : List Joint) :
    ∀ s ∈ runLine left before run after right, s.1.endsLine = false := fun s hs =>
  EdgeLine.endsLine_of_isPlain (EdgeLine.isPlain_append (EdgeLine.isPlain_side hleft)
    (EdgeLine.isPlain_spellRun hright before after run) s hs)

omit hright in
/-- The line is an edge line in every dialect to which its first word means nothing, because its
first connector comes right behind its first side. -/
theorem form_of_run {r : Reading} {ts us : List Token} (hfree : FreeWord r.dialect left.first)
    (hgroup : Text.lower left.first ∉ r.dialect.groupWords) (hahead : r.cursor.ahead = ts ++ us)
    (hts : ts.map Token.spelling = runLine left before (dropped ++ [j]) after right) (top : Bool) :
    r.form top = .edges ∧ r.cursor.current.kind.isWord = true := by
  obtain ⟨k, ks, hrun⟩ := List.exists_cons_of_ne_nil (List.append_ne_nil_of_right_ne_nil dropped
    (List.cons_ne_nil j []))
  rw [runLine, hrun, EdgeLine.spellRun_cons] at hts
  obtain ⟨hword, htext⟩ := current_of_opening hahead hts hleft
  have hnone : r.wordForm? top = none := FreeWord.wordForm? top (by rw [htext]; exact hfree)
  exact ⟨form_of_opening hahead hts hleft top hnone (Or.inr hgroup), hword⟩

/-- The line as a statement. It passes the line and adds edges, and all of them come from the last
connector of the run. -/
theorem step_of_run {r : Reading} {ts us : List Token} (hfree : FreeWord r.dialect left.first)
    (hgroup : Text.lower left.first ∉ r.dialect.groupWords) (hstays : r.Stays)
    (hahead : r.cursor.ahead = ts ++ us)
    (hts : ts.map Token.spelling = runLine left before (dropped ++ [j]) after right)
    (hover : ∀ u ∈ us.head?, u.kind.endsLine = true) :
    r.step = { r with
      cursor := r.cursor.restOfLine.2
      edges := r.edges ++
        crossed none j (if dropped = [] then before else none) after left.ids right.ids } := by
  obtain ⟨hform, hword⟩ := form_of_run hleft hfree hgroup hahead hts r.atTop
  exact step_of_edges hahead hts (endsLine_runLine hleft hright _) hover
    (Cursor.atEnd_of_isName (Token.Kind.isName_of_isWord hword)) hstays hform
    (EdgeLine.read_run hleft hright before dropped j after)

/-- The line as a text, whatever the tokens' places are: the edges of the document are those of the
statement. -/
theorem edges_of_run {d : Dialect} {text : String} (hfree : FreeWord d left.first)
    (hgroup : Text.lower left.first ∉ d.groupWords)
    (htext : (Token.scan text).tokens.map Token.spelling =
      runLine left before (dropped ++ [j]) after right ++ [(.endOfInput, "")]) :
    (ofText text (some d)).document.edges =
      crossed none j (if dropped = [] then before else none) after left.ids right.ids := by
  rw [Token.scan_eq, List.map_append] at htext
  have hts := List.append_inj_left' htext rfl
  let r := start d (Token.tokens .start text.toList ++
    [Token.endAt (Place.start.after text.toList)])
  have hahead : r.cursor.ahead = Token.tokens .start text.toList ++ [] := by simp [r, start_eq]
  have hne : runLine left before (dropped ++ [j]) after right ≠ [] := by
    simp [runLine, Side.spelled]
  have hrun : r.run = _ := run_of_edges hts (endsLine_runLine hleft hright _) hne
    (form_of_run hleft hfree hgroup hahead hts true).1
    (EdgeLine.read_run hleft hright before dropped j after)
  show r.run.edges = _
  rw [hrun]

end Run

/-- **Runs of connectors.** A run of two or more draws the edges of its last connector with the text
behind it, but not the text before it, wherever the line stands. So the line draws the same edges as
with the last connector alone only if there is no text before it. -/
theorem connectorRun_draws {d : Dialect} {left right : Side} (hleft : ∀ w ∈ left.ids, IsWord w)
    (hright : ∀ w ∈ right.ids, IsWord w) (hfree : FreeWord d left.first)
    (hgroup : Text.lower left.first ∉ d.groupWords) {dropped : List Joint} (hrun : dropped ≠ [])
    (j : Joint) (before after : Option String) :
    (∀ (r : Reading) (ts us : List Token), r.dialect = d → r.Stays → r.cursor.ahead = ts ++ us →
        ts.map Token.spelling = runLine left before (dropped ++ [j]) after right →
        (∀ u ∈ us.head?, u.kind.endsLine = true) →
        r.step = { r with
          cursor := r.cursor.restOfLine.2
          edges := r.edges ++ crossed none j none after left.ids right.ids }) ∧
      ∀ long short : String,
        (Token.scan long).tokens.map Token.spelling =
          runLine left before (dropped ++ [j]) after right ++ [(.endOfInput, "")] →
        (Token.scan short).tokens.map Token.spelling =
          runLine left before [j] after right ++ [(.endOfInput, "")] →
        let edges text := (ofText text (some d)).document.edges
        edges long = crossed none j none after left.ids right.ids ∧
          edges short = crossed none j before after left.ids right.ids ∧
          (edges long = edges short ↔ before = none) := by
  refine ⟨fun r ts us hd hstays hahead hts hover => ?_, fun long short hlong hshort => ?_⟩
  · subst hd
    rw [step_of_run hleft hright hfree hgroup hstays hahead hts hover, if_neg hrun]
  · have hedges := edges_of_run hleft hright hfree hgroup hlong
    have hsingle : (ofText short (some d)).document.edges =
        crossed none j (if ([] : List Joint) = [] then before else none) after left.ids right.ids :=
      edges_of_run hleft hright hfree hgroup hshort
    rw [if_neg hrun] at hedges
    rw [if_pos rfl] at hsingle
    refine ⟨hedges, hsingle, ?_⟩
    show (ofText long (some d)).document.edges = (ofText short (some d)).document.edges ↔ _
    rw [hedges, hsingle, EdgeLine.crossed_eq_iff, eq_comm]

/-- A dotted arrow in Mermaid, with texts at both ends. -/
def dottedLine : String := "A, B \"1\" -.-> \"*\" C"

/-- The same line with the end of the arrow only. -/
def plainLine : String := "A, B \"1\" -> \"*\" C"

theorem connectorRun_draws_dottedLine :
    FreeWord .mermaid "A" ∧ Text.lower "A" ∉ Dialect.mermaid.groupWords ∧
      (start .mermaid (Token.scan dottedLine).tokens).step.edges =
        [⟨"A", "C", .directed, none, some ⟨none, some "*"⟩⟩,
         ⟨"B", "C", .directed, none, some ⟨none, some "*"⟩⟩] ∧
      (ofText dottedLine (some .mermaid)).document.edges ≠
        (ofText plainLine (some .mermaid)).document.edges := by
  have hword (w : String) (hw : w ∈ ["A", "B", "C"]) : IsWord w :=
    ⟨.ident, rfl, by revert w; decide +kernel⟩
  have hfree : FreeWord .mermaid "A" :=
    ⟨hword "A" (by decide), by decide +kernel, by decide +kernel, fun _ => by decide +kernel⟩
  have hgroup : Text.lower "A" ∉ Dialect.mermaid.groupWords := by decide +kernel
  have hleft : ∀ w ∈ (⟨"A", ["B"]⟩ : Side).ids, IsWord w := fun w hw =>
    hword w (by revert w; decide)
  have hright : ∀ w ∈ (⟨"C", []⟩ : Side).ids, IsWord w := fun w hw =>
    hword w (by revert w; decide)
  have hrun : [(⟨.dash, "-.", rfl⟩ : Joint)] ≠ [] := by simp
  obtain ⟨hstep, htexts⟩ := connectorRun_draws hleft hright hfree hgroup hrun
    ⟨.arrow, "->", rfl⟩ (some "1") (some "*")
  obtain ⟨-, -, hiff⟩ := htexts dottedLine plainLine (by decide +kernel) (by decide +kernel)
  refine ⟨hfree, hgroup, ?_, fun h => Option.some_ne_none _ (hiff.mp h)⟩
  rw [hstep _ (Token.tokens .start dottedLine.toList) [] rfl (by simp [Stays, start])
    (by rw [Token.scan_eq, start_eq, List.append_nil]) (by decide +kernel) nofun]
  rfl

/-- The text before a run is lost, and the last connector alone keeps it. Both lines differ in the
dropped connector only. -/
theorem run_loses_text :
    (Token.scan "a \"1\" ->> \"*\" b").tokens.map Token.spelling =
        runLine ⟨"a", []⟩ (some "1") [⟨.arrow, "->", rfl⟩, ⟨.greater, ">", rfl⟩] (some "*")
          ⟨"b", []⟩ ++ [(.endOfInput, "")] ∧
      (Token.scan "a \"1\" > \"*\" b").tokens.map Token.spelling =
        runLine ⟨"a", []⟩ (some "1") [⟨.greater, ">", rfl⟩] (some "*") ⟨"b", []⟩ ++
          [(.endOfInput, "")] ∧
      (ofText "a \"1\" ->> \"*\" b" (some .native)).document.edges =
        [⟨"a", "b", .directed, none, some ⟨none, some "*"⟩⟩] ∧
      (ofText "a \"1\" > \"*\" b" (some .native)).document.edges =
        [⟨"a", "b", .directed, none, some ⟨some "1", some "*"⟩⟩] := by
  have hrun := run_eq_steps (n := 1)
    (r := start .native (Token.scan "a \"1\" ->> \"*\" b").tokens) (by decide +kernel)
  have hsingle := run_eq_steps (n := 1)
    (r := start .native (Token.scan "a \"1\" > \"*\" b").tokens) (by decide +kernel)
  refine ⟨by decide +kernel, by decide +kernel, ?_, ?_⟩
  · show (start .native (Token.scan "a \"1\" ->> \"*\" b").tokens).run.edges = _
    rw [hrun]
    decide +kernel
  · show (start .native (Token.scan "a \"1\" > \"*\" b").tokens).run.edges = _
    rw [hsingle]
    decide +kernel

end Reading

end Schematic
