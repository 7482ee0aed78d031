import Schematic.Proofs.Reading.Brackets
import Schematic.Proofs.Reading.EdgeChain
import Schematic.Proofs.Reading.GroupLine
import Schematic.Proofs.Writing.EdgeText
import Schematic.Proofs.Writing.Facing

/-!
# Edge lines as statements

A line whose first connector comes right behind its first words, with at most a text between them,
is read as an edge line, unless its first word makes it something else (`form_of_opening`). Such a
statement draws the edges that the line was read as, passes the line, and changes nothing else
(`step_of_edges`), and a text that is only the line is read as these edges (`run_of_edges`). In the
native dialect no word stands in the way: every line of pieces that is spelled as a valid edge line
draws its cross products, wherever it stands (`edgeLine_draws`).
-/

namespace Schematic

open Token (IsWord)

namespace EdgeLine

/-! ## The beginning of a line -/

/-- The words of the first side, the text behind them, and the first connector. This much of a line
decides about its form. -/
def opening (side : Side) (before : Option String) (j : Joint) : List Spelling :=
  side.spelled ++ (spellText before ++ [j.spelled])

theorem spellRun_cons (left right : Side) (before after : Option String) (j : Joint)
    (js : List Joint) : left.spelled ++ spellRun before (j :: js) after right =
      opening left before j ++ (js.map Joint.spelled ++ (spellText after ++ right.spelled)) := by
  simp [spellRun, opening]

theorem Line.spelled_eq {l : Line} (h : l.Valid) :
    ∃ before j rest, l.spelled = opening l.first before j ++ rest := by
  obtain ⟨leg, legs, hlegs⟩ := List.exists_cons_of_ne_nil h.legs
  refine ⟨leg.before, leg.joint, spellText leg.after ++ leg.side.spelled ++
    (legs.flatMap Leg.spelled ++ (l.label.map Label.spelled).getD []), ?_⟩
  simp [Line.spelled, hlegs, Leg.spelled, spellRun, opening]

theorem endsLine_of_isPlain {k : Token.Kind} (h : isPlain k = true) : k.endsLine = false := by
  cases k <;> first | rfl | cases h

theorem ne_of_isPlain {k j : Token.Kind} (hk : isPlain k = true) (hj : isPlain j = false) :
    k ≠ j := fun he => by
  rw [he, hj] at hk
  cases hk

theorem Label.endsLine {label : Label} (h : label.Valid) :
    ∀ s ∈ label.spelled, s.1.endsLine = false := by
  intro s hs
  cases label with
  | words w ws =>
      rcases List.mem_cons.mp hs with rfl | hs
      · rfl
      · obtain ⟨v, hv, rfl⟩ := List.mem_map.mp hs
        exact endsLine_of_isPlain (isPlain_word (h v hv))
  | quoted t =>
      rcases List.mem_cons.mp hs with rfl | hs
      · rfl
      · rw [List.mem_singleton.mp hs]
        rfl

theorem Line.endsLine {l : Line} (h : l.Valid) : ∀ s ∈ l.spelled, s.1.endsLine = false := by
  intro s hs
  rw [Line.spelled, List.mem_append, List.mem_append] at hs
  rcases hs with hs | hs | hs
  · exact endsLine_of_isPlain (isPlain_side h.first s hs)
  · exact endsLine_of_isPlain (isPlain_legs h.sides s hs)
  · cases hl : l.label with
    | none =>
        rw [hl] at hs
        cases hs
    | some label =>
        rw [hl] at hs
        exact Label.endsLine (h.label label hl) s hs

end EdgeLine

open EdgeLine (Spelling Side Joint opening)

namespace Reading

/-! ## The form of the statement -/

/-- A token ahead is what it is spelled as, so looks ahead can be answered by the spelling. -/
theorem peek_of_spelling {c : Cursor} {ts us : List Token} {ss : List Spelling}
    (hahead : c.ahead = ts ++ us) (hts : ts.map Token.spelling = ss) {i : Nat} {s : Spelling}
    (hs : ss[i]? = some s) : (c.peek i).kind = s.1 ∧ (c.peek i).text = s.2 := by
  rw [← hts, List.getElem?_map] at hs
  obtain ⟨t, ht, rfl⟩ := Option.map_eq_some_iff.mp hs
  have hi := (List.getElem?_eq_some_iff.mp ht).1
  have hpeek : c.peek i = t := by
    rw [Cursor.peek, hahead, List.getElem?_append_left hi, ht, Option.getD_some]
  rw [hpeek]
  exact ⟨rfl, rfl⟩

/-- A connector behind tokens that are no brackets is found. Brackets would have to be passed first,
up to the ones that match. -/
theorem hasConnector_of_spelling {ss rest : List Spelling} (hplain : EdgeLine.IsPlain ss)
    {s : Spelling} (hs : s.1.isConnector = true) {ts us : List Token}
    (hts : ts.map Token.spelling = ss ++ s :: rest) : Cursor.hasConnector 0 (ts ++ us) = true := by
  induction ss generalizing ts with
  | nil =>
      obtain ⟨t, ts, rfl, rfl, -⟩ := List.map_eq_cons_iff.mp hts
      have hk : t.kind.isConnector = true := hs
      cases h : t.kind <;> simp_all [Cursor.hasConnector, Token.Kind.endsLine,
        Token.Kind.isConnector]
  | cons x xs ih =>
      obtain ⟨t, ts, rfl, rfl, htail⟩ := List.map_eq_cons_iff.mp hts
      have hk : EdgeLine.isPlain t.kind = true := hplain _ (List.mem_cons_self ..)
      have hfound := ih (fun y hy => hplain y (List.mem_cons_of_mem _ hy)) htail
      cases h : t.kind <;> simp_all [Cursor.hasConnector, Token.Kind.endsLine,
        EdgeLine.isPlain, Token.Kind.isName, Token.Kind.isConnector]

section Opening

variable {r : Reading} {ts us : List Token} {side : Side} {before : Option String} {j : Joint}
  {rest : List Spelling} (hahead : r.cursor.ahead = ts ++ us)
  (hts : ts.map Token.spelling = opening side before j ++ rest)
  (hside : ∀ w ∈ side.ids, IsWord w)

include hahead hts hside

theorem current_of_opening :
    r.cursor.current.kind.isWord = true ∧ r.cursor.current.text = side.first := by
  obtain ⟨hkind, htext⟩ := peek_of_spelling (i := 0) hahead hts rfl
  rw [Cursor.current_eq_peek, hkind, htext]
  exact ⟨(hside _ (List.mem_cons_self ..)).isWord_nameKind, rfl⟩

/-- No bracket comes behind the first word, and behind a text comes the connector. So the line is
neither an entity nor a group. -/
theorem peek_of_opening : EdgeLine.isPlain (r.cursor.peek 1).kind = true ∧
    ((r.cursor.peek 1).kind.isName = true → (r.cursor.peek 2).kind.isConnector = true) := by
  obtain ⟨first, more⟩ := side
  cases more with
  | cons w ws =>
      obtain ⟨hkind, -⟩ := peek_of_spelling (i := 1) hahead hts rfl
      rw [hkind]
      exact ⟨rfl, nofun⟩
  | nil =>
      cases before with
      | none =>
          obtain ⟨hkind, -⟩ := peek_of_spelling (i := 1) hahead hts rfl
          rw [hkind]
          obtain ⟨kind, text, hconnects⟩ := j
          cases kind <;> first | exact ⟨rfl, nofun⟩ | cases hconnects
      | some s =>
          obtain ⟨hkind, -⟩ := peek_of_spelling (i := 1) hahead hts rfl
          obtain ⟨hkind', -⟩ := peek_of_spelling (i := 2) hahead hts rfl
          rw [hkind, hkind']
          exact ⟨rfl, fun _ => j.connects⟩

theorem lineHasConnector_of_opening : r.cursor.lineHasConnector = true := by
  have hplain : EdgeLine.IsPlain (side.spelled ++ EdgeLine.spellText before) :=
    EdgeLine.isPlain_append (EdgeLine.isPlain_side hside) (EdgeLine.isPlain_spellText before)
  have hcut : ts.map Token.spelling =
      (side.spelled ++ EdgeLine.spellText before) ++ j.spelled :: rest := by simp [hts, opening]
  rw [Cursor.lineHasConnector, hahead]
  exact hasConnector_of_spelling hplain j.connects hcut

/-- The line is an edge line if its first word has no meaning of its own there. A keyword for groups
in braces does no harm, because no brace follows. -/
theorem form_of_opening (top : Bool) (hword : r.wordForm? top = none)
    (hgroup : r.dialect.endBlocks = false ∨
      Text.lower side.first ∉ r.dialect.groupWords) : r.form top = .edges := by
  obtain ⟨hkind, htext⟩ := current_of_opening hahead hts hside
  obtain ⟨hplain, hnext⟩ := peek_of_opening hahead hts hside
  have hconnected := lineHasConnector_of_opening hahead hts hside
  have hbrace : ((r.cursor.peek 1).kind == .openBrace) = false :=
    beq_eq_false_iff_ne.mpr (EdgeLine.ne_of_isPlain hplain rfl)
  have hbracket : ((r.cursor.peek 1).kind == .openBracket) = false :=
    beq_eq_false_iff_ne.mpr (EdgeLine.ne_of_isPlain hplain rfl)
  have hnone : r.groupForm? = none := by
    by_cases hg : r.cursor.current.kind = .ident ∧ r.dialect.groupWords.contains
        (Text.lower r.cursor.current.text) ∧ (r.cursor.peek 1).kind.isName
    · have hconnector := hnext hg.2.2
      have hbrace₂ : (r.cursor.peek 2).kind ≠ .openBrace := by
        intro hk
        rw [hk] at hconnector
        cases hconnector
      have hend : r.dialect.endBlocks = false :=
        hgroup.resolve_right fun hno => hno (by simpa [htext] using hg.2.1)
      rw [groupForm?, if_pos hg, if_neg hbrace₂, hend, if_neg Bool.false_ne_true]
    · exact if_neg hg
  have hdeclares : r.declares = false := by simp [declares, hconnected]
  have hshape : r.shapeForm top = .edges := by
    simp [shapeForm, hbrace, hbracket, hconnected]
  unfold form
  rw [hword, hnone, hdeclares, hshape]
  cases hk : r.cursor.current.kind <;> first | rfl | (rw [hk] at hkind; cases hkind)

end Opening

/-! ## What the statement does -/

section Statement

variable {r : Reading} {ts us : List Token} {ss : List Spelling} {es : List Edge}

/-- An edge line that was read as its edges and nothing else draws them, passes the line, and
changes nothing else. -/
theorem step_of_edges (hahead : r.cursor.ahead = ts ++ us) (hts : ts.map Token.spelling = ss)
    (hline : ∀ s ∈ ss, s.1.endsLine = false) (hover : ∀ u ∈ us.head?, u.kind.endsLine = true)
    (hend : r.cursor.atEnd = false) (hstays : r.Stays) (hform : r.form r.atTop = .edges)
    (hread : EdgeLine.read r.dialect (ss.map Spelling.token) = ⟨es, [], []⟩) :
    r.step = { r with cursor := r.cursor.restOfLine.2, edges := r.edges ++ es } := by
  have hkinds : ∀ t ∈ ts, t.kind.endsLine = false := fun t ht =>
    hline t.spelling (hts ▸ List.mem_map_of_mem ht)
  have hrest : r.cursor.restOfLine.1 = ts := by
    show r.cursor.ahead.takeWhile _ = ts
    rw [hahead]
    refine takeWhile_append_of_head (fun t ht => ?_) fun u hu => ?_
    · simp [hkinds t ht]
    · simp [hover u hu]
  have hedges : EdgeLine.read r.dialect r.cursor.restOfLine.1 = ⟨es, [], []⟩ := by
    rw [hrest]
    exact EdgeLine.read_of_spelling hts hread
  rw [step_of_stays hend hstays, next, hform, apply_eq _ _ rfl]
  simp only [effect, hedges]
  rw [List.append_nil, putAll_nil, Forest.ofEntities, Forest.append_nil, Bool.or_false]

/-- A text that is only the line is read in one step, and what it gives is what the line is read as.
-/
theorem run_of_edges {dialect : Dialect} {p : Place} (hts : ts.map Token.spelling = ss)
    (hline : ∀ s ∈ ss, s.1.endsLine = false) (hne : ss ≠ [])
    (hform : (start dialect (ts ++ [Token.endAt p])).form true = .edges)
    (hread : EdgeLine.read dialect (ss.map Spelling.token) = ⟨es, [], []⟩) :
    let r := start dialect (ts ++ [Token.endAt p])
    r.run = { r with cursor := r.cursor.restOfLine.2, edges := es } := by
  rw [start_eq] at hform ⊢
  intro r
  have hkinds : ∀ t ∈ r.cursor.ahead, t.kind.endsLine = false := fun t ht =>
    hline t.spelling (hts ▸ List.mem_map_of_mem ht)
  obtain ⟨t, rest, hcons⟩ : ∃ t rest, ts = t :: rest := by
    refine List.exists_cons_of_ne_nil ?_
    rintro rfl
    exact hne hts.symm
  have hend : r.cursor.atEnd = false := by
    have ht : t.kind.endsLine = false := hkinds t (by simp [r, hcons])
    cases hk : t.kind <;> simp_all [r, Cursor.atEnd, Cursor.isAt, Cursor.current,
      Token.Kind.endsLine]
  have hahead : r.cursor.ahead = ts ++ [] := (List.append_nil ts).symm
  have hstays : r.Stays := by simp [Stays, r]
  have hstep : r.step = { r with cursor := r.cursor.restOfLine.2, edges := es } :=
    step_of_edges hahead hts hline (by simp) hend hstays hform hread
  have hdone : r.step.finished = true := by
    rw [hstep]
    exact (restOfLine_of_line hkinds).2
  rw [run_of_not_finished (by simp [finished, hend]), run, if_pos hdone, hstep]

end Statement

/-! ## Native edge lines -/

section Native

variable {l : EdgeLine.Line} {xs : List Piece} (hl : l.Valid) (hxs : Piece.Apart xs)
  (hspell : xs.filterMap Piece.spelling? = l.spelled)

include hl hxs hspell

/-- The native dialect reads the line as an edge line, and a word is at the cursor. No word stands
in the way there, whatever it is. -/
theorem form_of_native {r : Reading} {p : Place} {us : List Token} (hd : r.dialect = .native)
    (hahead : r.cursor.ahead = Token.tokens p (Piece.text xs) ++ us) (top : Bool) :
    r.form top = .edges ∧ r.cursor.current.kind.isWord = true := by
  obtain ⟨before, j, rest, hcut⟩ := EdgeLine.Line.spelled_eq hl
  have hts : (Token.tokens p (Piece.text xs)).map Token.spelling =
      opening l.first before j ++ rest := by
    rw [Piece.map_spelling_text hxs, hspell, hcut]
  refine ⟨form_of_opening hahead hts hl.first top (wordForm?_native hd top) (Or.inl ?_),
    (current_of_opening hahead hts hl.first).1⟩
  rw [hd]
  rfl

/-- The line as a statement, at the top level or in a group. A word does not close a group in
braces, so the groups stay as they are. -/
theorem step_of_native {r : Reading} {p : Place} {us : List Token} (hd : r.dialect = .native)
    (hclosers : ∀ g ∈ r.openGroups, g.closer = .brace)
    (hahead : r.cursor.ahead = Token.tokens p (Piece.text xs) ++ us)
    (hover : ∀ u ∈ us.head?, u.kind.endsLine = true) :
    r.step = { r with cursor := r.cursor.restOfLine.2, edges := r.edges ++ l.edges } := by
  obtain ⟨hform, hword⟩ := form_of_native hl hxs hspell hd hahead r.atTop
  have hend : r.cursor.atEnd = false := Cursor.atEnd_of_isName (Token.Kind.isName_of_isWord hword)
  have hstays : r.Stays := by
    intro g hg
    have hbrace : r.cursor.isAt .closeBrace = false := by
      cases hk : r.cursor.current.kind <;> simp_all [Cursor.isAt, Token.Kind.isWord]
    simp [closing?, hend, hclosers g (List.mem_of_mem_head? hg), hbrace]
  exact step_of_edges hahead ((Piece.map_spelling_text hxs p).trans hspell)
    (EdgeLine.Line.endsLine hl) hover hend hstays hform (EdgeLine.read_line hl)

/-- The line as a text: the document has its edges and nothing else. -/
theorem ofText_of_native :
    let o := ofText (String.ofList (Piece.text xs)) (some .native)
    o.document.blocks = .nil ∧ o.document.edges = l.edges ∧ o.document.metadata = .empty ∧
      o.diagnostics = [] := by
  have hscan : Token.scan (String.ofList (Piece.text xs)) =
      ⟨Token.tokens .start (Piece.text xs) ++
        [Token.endAt (Place.start.after (Piece.text xs))], []⟩ := by
    rw [Token.scan_eq, String.toList_ofList, Piece.reports_text hxs]
  have hne : l.spelled ≠ [] := by simp [EdgeLine.Line.spelled, Side.spelled]
  let r := start .native (Token.tokens .start (Piece.text xs) ++
    [Token.endAt (Place.start.after (Piece.text xs))])
  have hahead : r.cursor.ahead = Token.tokens .start (Piece.text xs) ++ [] := by
    simp [r, start_eq]
  have hrun : r.run = { r with cursor := r.cursor.restOfLine.2, edges := l.edges } :=
    run_of_edges ((Piece.map_spelling_text hxs .start).trans hspell) (EdgeLine.Line.endsLine hl)
      hne (form_of_native hl hxs hspell rfl hahead true).1 (EdgeLine.read_line hl)
  intro o
  have ho : o = ⟨(r.run.document (lineCount (r.cursor.ahead ++ [r.cursor.final]))).classified,
      Diagnostic.sorted r.run.diagnostics⟩ := by
    simp only [o, ofText, hscan]
    rfl
  rw [ho, hrun]
  exact ⟨rfl, rfl, rfl, List.mergeSort_nil⟩

end Native

/-- **Cross products.** Wherever a native edge line stands, the statement adds for every connector
the edges from each word on its left to each word on its right, and nothing else: no block, no
report, and all the rest of the reading stays as it is. -/
theorem edgeLine_draws {l : EdgeLine.Line} (hl : l.Valid) {xs : List Piece} (hxs : Piece.Apart xs)
    (hspell : xs.filterMap Piece.spelling? = l.spelled) :
    (∀ (r : Reading) (p : Place) (us : List Token), r.dialect = .native →
        (∀ g ∈ r.openGroups, g.closer = .brace) →
        r.cursor.ahead = Token.tokens p (Piece.text xs) ++ us →
        (∀ u ∈ us.head?, u.kind.endsLine = true) →
        r.step = { r with cursor := r.cursor.restOfLine.2, edges := r.edges ++ l.edges }) ∧
      let o := ofText (String.ofList (Piece.text xs)) (some .native)
      o.document.blocks = .nil ∧ o.document.edges = l.edges ∧ o.document.metadata = .empty ∧
        o.diagnostics = [] :=
  ⟨fun _ _ _ hd hclosers hahead hover =>
    step_of_native hl hxs hspell hd hclosers hahead hover, ofText_of_native hl hxs hspell⟩

/-- A chain from a list to a list, and back to a word. -/
def sampleLine : EdgeLine.Line where
  first := ⟨"a", ["b-1"]⟩
  legs := [⟨some "1", ⟨.reverseArrow, "<--", rfl⟩, some "it's", ⟨"c", ["d"]⟩⟩,
    ⟨none, ⟨.bidirectional, "<>", rfl⟩, some "0..*", ⟨"7", []⟩⟩]
  label := some (.words "owned" ["by"])

/-- The line as it is written. -/
def samplePieces : List Piece :=
  [.word "a", .comma, .blank ' ', .word "b-1", .quoted "\"1\"".toList "1", .arrow (.backward 1),
   .blank ' ', .quoted "'it\\'s'".toList "it's", .blank ' ', .word "c", .blank ' ', .comma,
   .word "d", .blank '\t', .arrow (.both 0), .quoted "'0..*'".toList "0..*", .word "7", .colon,
   .word "owned", .blank ' ', .blank ' ', .word "by"]

/-- The line is in a group and a line end follows it. -/
def insideGroup : Reading where
  dialect := .native
  cursor := ⟨5, Token.tokens ⟨2, 3⟩ (Piece.text samplePieces) ++ [⟨.newline, "\n", ⟨2, 50⟩⟩],
    Token.endAt ⟨3, 1⟩, rfl⟩
  metadata := .empty
  edges := []
  diagnostics := []
  headerSeen := false
  blocks := .nil
  openGroups := [⟨"g", ⟨.ident, "g", ⟨1, 7⟩⟩, .brace, .nil⟩]

theorem edgeLine_draws_sampleLine :
    sampleLine.Valid ∧ Piece.Apart samplePieces ∧
      samplePieces.filterMap Piece.spelling? = sampleLine.spelled ∧
      insideGroup.step.edges = sampleLine.edges ∧
      (ofText (String.ofList (Piece.text samplePieces)) (some .native)).document.edges =
        sampleLine.edges ∧
      sampleLine.edges.map (fun e => (e.source, e.target)) =
        [("c", "a"), ("c", "b-1"), ("d", "a"), ("d", "b-1"), ("c", "7"), ("d", "7")] := by
  have hword : ∀ w ∈ ["a", "b-1", "c", "d", "owned", "by"], IsWord w := fun w hw =>
    ⟨.ident, rfl, by revert w; decide +kernel⟩
  have hnumber : IsWord "7" := ⟨.number, rfl, by decide +kernel⟩
  have hline : sampleLine.Valid := by
    refine ⟨by decide, fun w hw => hword w (by revert w; decide), fun leg hleg w hw => ?_,
      fun label hlabel => ?_⟩
    · have hall : ∀ leg ∈ sampleLine.legs, ∀ w ∈ leg.side.ids,
          w ∈ ["a", "b-1", "c", "d", "owned", "by"] ∨ w = "7" := by decide
      rcases hall leg hleg w hw with hw | rfl
      · exact hword w hw
      · exact hnumber
    · cases hlabel
      exact fun w hw => hword w (by revert w; decide)
  have hquoted (quote : Char) (body s : List Char) (h : quote = '"' ∨ quote = '\'')
      (htext : s = Token.unescape body) (hopen : Token.hasBare quote body = false)
      (hclose : Token.hasBare quote (body ++ [quote]) = true) :
      Token.IsQuoted (quote :: (body ++ [quote])) s False :=
    ⟨quote, body, h, htext, hopen, Or.inl ⟨rfl, hclose⟩⟩
  have hone : Token.IsQuoted "\"1\"".toList "1".toList False :=
    hquoted '"' ['1'] _ (Or.inl rfl) rfl rfl rfl
  have hits : Token.IsQuoted "'it\\'s'".toList "it's".toList False :=
    hquoted '\'' ['i', 't', '\\', '\'', 's'] _ (Or.inr rfl) rfl rfl rfl
  have hmany : Token.IsQuoted "'0..*'".toList "0..*".toList False :=
    hquoted '\'' ['0', '.', '.', '*'] _ (Or.inr rfl) rfl rfl rfl
  have hpieces : Piece.Apart samplePieces := by
    have hblank : Text.isBlank ' ' = true ∧ Text.isBlank '\t' = true := by decide
    simp only [samplePieces, Piece.Apart, Piece.Valid, Piece.isSolid, hone, hits, hmany, hnumber,
      hblank]
    simp [hword]
  have hspell : samplePieces.filterMap Piece.spelling? = sampleLine.spelled := by decide +kernel
  obtain ⟨hstep, -, hedges, -⟩ := edgeLine_draws hline hpieces hspell
  refine ⟨hline, hpieces, hspell, ?_, hedges, by decide⟩
  rw [hstep insideGroup ⟨2, 3⟩ [⟨.newline, "\n", ⟨2, 50⟩⟩] rfl (by simp [insideGroup]) rfl
    (by simp [Token.Kind.endsLine])]
  rfl

end Reading

end Schematic
