import Schematic.Proofs.Reading.GroupText

/-!
# Brackets behind a word

`w [c]` declares an entity, alone on a line and as an end of an edge. On an edge line the bracket
reaches to the one that matches it, and so it does where the line is searched for a connector.
Alone on a line it reaches to the first closing bracket, whatever was opened before. So both lines
declare the same entity if there are no brackets in `c`, and otherwise the line alone loses a part
of the attributes and reads the rest as other statements (`ofTokens_brackets`).
-/

namespace Schematic

namespace Reading

open Cursor

/-! ## Balanced brackets -/

/-- Tokens that may stand between two brackets on a line. An edge line tells brackets by their texts
and the other readers tell them by their kinds, so the last two conditions are that both mean the
same. -/
structure Bracketed (ts : List Token) : Prop where
  balanced : balanced 0 ts = true
  line : ∀ t ∈ ts, t.kind.endsLine = false
  opener : ∀ t ∈ ts, t.kind = .openBracket ↔ t.text = "[" ∧ t.kind ≠ .string
  closer : ∀ t ∈ ts, t.kind = .closeBracket ↔ t.text = "]" ∧ t.kind ≠ .string

section Content

variable {content rest : List Token} {opener closer : Token}

/-- The search for a connector passes over the content, connectors and all. The induction is on the
content, and the depth is that of the brackets open so far. -/
theorem hasConnector_balanced (hcloser : closer.kind = .closeBracket) {depth : Nat}
    (hbalanced : balanced depth content = true) (hline : ∀ t ∈ content, t.kind.endsLine = false) :
    hasConnector (depth + 1) (content ++ closer :: rest) = hasConnector 0 rest := by
  induction content generalizing depth with
  | nil =>
      obtain rfl : depth = 0 := by simpa [balanced] using hbalanced
      simp [hasConnector, hcloser, Token.Kind.endsLine]
  | cons t ts ih =>
      have ht := hline t (List.mem_cons_self ..)
      have hts : ∀ u ∈ ts, u.kind.endsLine = false := fun u hu =>
        hline u (List.mem_cons_of_mem t hu)
      rw [balanced] at hbalanced
      rw [List.cons_append, hasConnector, if_neg (by simp [ht])]
      by_cases hopen : t.kind = .openBracket
      · rw [if_pos hopen] at hbalanced
        simp [hopen, ih hbalanced hts]
      · rw [if_neg hopen] at hbalanced
        by_cases hclose : t.kind = .closeBracket
        · rw [if_pos hclose, Bool.and_eq_true, bne_iff_ne] at hbalanced
          obtain ⟨hdepth, hbalanced⟩ := hbalanced
          obtain ⟨n, rfl⟩ := Nat.exists_eq_succ_of_ne_zero hdepth
          simp only [hclose, beq_self_eq_true, if_true, Nat.add_sub_cancel]
          exact ih hbalanced hts
        · rw [if_neg hclose] at hbalanced
          simp [hopen, hclose, ih hbalanced hts]

/-- On an edge line the span of an opening bracket is the content, up to the bracket that matches.
The induction is on the content, with the depth of the brackets open in it. -/
theorem span_balanced (hopener : opener.kind = .openBracket ∧ opener.text = "[")
    (hcloser : closer.kind = .closeBracket ∧ closer.text = "]") {depth : Nat}
    (hbalanced : balanced depth content = true)
    (hopen : ∀ t ∈ content, t.kind = .openBracket ↔ t.text = "[" ∧ t.kind ≠ .string)
    (hclose : ∀ t ∈ content, t.kind = .closeBracket ↔ t.text = "]" ∧ t.kind ≠ .string) :
    EdgeLine.span opener "]" depth (content ++ closer :: rest) = (content, some rest) := by
  induction content generalizing depth with
  | nil =>
      obtain rfl : depth = 0 := by simpa [balanced] using hbalanced
      simp [EdgeLine.span, hopener, hcloser]
  | cons t ts ih =>
      have ihts {depth : Nat} (h : balanced depth ts = true) := ih h
        (fun u hu => hopen u (List.mem_cons_of_mem t hu))
        (fun u hu => hclose u (List.mem_cons_of_mem t hu))
      have htopen := hopen t (List.mem_cons_self ..)
      have htclose := hclose t (List.mem_cons_self ..)
      rw [balanced] at hbalanced
      simp only [List.cons_append, EdgeLine.span]
      by_cases hk : t.kind = .openBracket
      · rw [if_pos hk] at hbalanced
        rw [if_pos ⟨hk.trans hopener.1.symm, (htopen.mp hk).1.trans hopener.2.symm⟩, ihts hbalanced]
      · rw [if_neg hk] at hbalanced
        rw [if_neg (by rw [hopener.1]; exact fun h => hk h.1)]
        by_cases hk' : t.kind = .closeBracket
        · rw [if_pos hk', Bool.and_eq_true, bne_iff_ne] at hbalanced
          obtain ⟨hdepth, hbalanced⟩ := hbalanced
          obtain ⟨n, rfl⟩ := Nat.exists_eq_succ_of_ne_zero hdepth
          have hspan : EdgeLine.span opener "]" n (ts ++ closer :: rest) = (ts, some rest) :=
            ihts hbalanced
          simp only [if_pos (htclose.mp hk'), hspan]
        · rw [if_neg hk'] at hbalanced
          simp only [if_neg fun h => hk' (htclose.mpr h), ihts hbalanced]

end Content

/-! ## The form of the line -/

/-- A line of the dialect that begins with the word is no header and no directive, and is not passed
over. -/
structure FreeWord (dialect : Dialect) (w : String) : Prop where
  isWord : Token.IsWord w
  directive : Text.lower w ∉ dialect.directiveWords
  passed : Text.lower w ∉ dialect.passedWords
  header : dialect = .mermaid → Dialect.headerType? (Text.lower w) = none

theorem FreeWord.wordForm? {r : Reading} (top : Bool)
    (h : FreeWord r.dialect r.cursor.current.text) :
    r.wordForm? top = none := by
  have hdirective : r.dialect.directiveWords.contains (Text.lower r.cursor.current.text) = false :=
    by simpa using h.directive
  have hpassed : r.dialect.passedWords.contains (Text.lower r.cursor.current.text) = false := by
    simpa using h.passed
  have hheader : (if top ∧ r.dialect = .mermaid ∧ r.headerSeen = false then
      Dialect.headerType? (Text.lower r.cursor.current.text) else none) = none := by
    split
    · next hm => exact h.header hm.2.1
    · rfl
  unfold Reading.wordForm?
  simp only [hheader, hdirective, hpassed, Bool.false_and, Bool.false_eq_true, if_false, ite_self]

/-- With a bracket behind its first word a line is an edge line or an entity. Which of them it is
depends on what stands behind the bracket that matches. -/
theorem form_of_bracket {r : Reading} {t opener : Token} {ts : List Token} (top : Bool)
    (ha : r.cursor.ahead = t :: opener :: ts) (ht : t.kind.isWord = true)
    (hfree : FreeWord r.dialect t.text) (hopener : opener.kind = .openBracket) :
    r.form top = if r.cursor.lineHasConnector then .edges else .entity := by
  have hcurrent : r.cursor.current = t := by simp [current, ha]
  have hpeek : r.cursor.peek 1 = opener := by simp [peek, ha]
  have hword : r.wordForm? top = none := FreeWord.wordForm? top (by rw [hcurrent]; exact hfree)
  have hgroup : r.groupForm? = none := by
    simp [groupForm?, hpeek, hopener, Token.Kind.isName]
  have hdeclares : r.declares = false := by
    simp [declares, hpeek, hopener, Token.Kind.isName]
  have hshape : r.shapeForm top = if r.cursor.lineHasConnector then .edges else .entity := by
    unfold shapeForm
    cases r.cursor.lineHasConnector <;> simp [hcurrent, hpeek, hopener, ht]
  unfold form
  rw [hword, hgroup, hdeclares, hshape, hcurrent]
  cases hk : t.kind <;> first | rfl | (rw [hk] at ht; cases ht)

/-! ## The two readings -/

section Line

variable {dialect : Dialect} {t opener closer arrow z : Token} {content : List Token}

/-- The edge line declares the entity with all of the content, and draws its edge without a report.
-/
theorem read_bracketEdge (ht : t.kind.isWord = true)
    (hopener : opener.kind = .openBracket ∧ opener.text = "[")
    (hcloser : closer.kind = .closeBracket ∧ closer.text = "]") (hcontent : Bracketed content)
    (harrow : arrow.kind = .arrow) (hz : z.kind.isWord = true) :
    (EdgeLine.read dialect (t :: opener :: (content ++ [closer, arrow, z]))).declared =
        [⟨t.text, Phrase.bracketAttributes dialect content, none⟩] ∧
      (EdgeLine.read dialect (t :: opener :: (content ++ [closer, arrow, z]))).diagnostics =
        [] := by
  have hspan : EdgeLine.span opener "]" 0 (content ++ [closer, arrow, z]) =
      (content, some [arrow, z]) :=
    span_balanced hopener hcloser hcontent.balanced hcontent.opener hcontent.closer
  have hcloser? : EdgeLine.spanCloser? dialect opener = some "]" := by
    simp [EdgeLine.spanCloser?, hopener.1]
  have hquiet : EdgeLine.isPlain arrow.kind = true := by
    rw [harrow]
    rfl
  have hreduce : EdgeLine.reduce dialect .start (t :: opener :: (content ++ [closer, arrow, z])) =
      ((({ EdgeLine.Progress.start.word t.text with
        diagnostics := [] } : EdgeLine.Progress).declare dialect content).connector .directed
          false).word z.text := by
    rw [EdgeLine.reduce_plain (EdgeLine.isPlain_of_isWord ht), EdgeLine.reduce_span hcloser?, hspan,
      EdgeLine.Progress.token_of_isWord ht, Option.getD_some, EdgeLine.reduce_plain hquiet,
      EdgeLine.reduce_plain (EdgeLine.isPlain_of_isWord hz), EdgeLine.Progress.token_of_isWord hz,
      EdgeLine.reduce]
    simp [EdgeLine.Progress.token, harrow, Token.Kind.edgeKind?]
    rfl
  simp only [EdgeLine.read, hreduce]
  exact ⟨rfl, rfl⟩

/-- The words and the opening bracket in front of the content are no connectors, and none in the
content counts. So all that is asked is whether one stands behind. -/
theorem lineHasConnector_of_bracket {c : Cursor} {rest : List Token} (ht : t.kind.isWord = true)
    (hopener : opener.kind = .openBracket) (hcloser : closer.kind = .closeBracket)
    (hcontent : Bracketed content) (ha : c.ahead = t :: opener :: (content ++ closer :: rest)) :
    c.lineHasConnector = hasConnector 0 rest := by
  have hwords : hasConnector 0 (t :: opener :: (content ++ closer :: rest)) =
      hasConnector 1 (content ++ closer :: rest) := by
    have hopens : opener.kind.endsLine = false := by rw [hopener]; rfl
    cases hk : t.kind <;>
      simp_all [hasConnector, Token.Kind.isWord, Token.Kind.endsLine, Token.Kind.isConnector]
  rw [lineHasConnector, ha, hwords,
    hasConnector_balanced hcloser hcontent.balanced hcontent.line]

theorem restOfLine_of_line {c : Cursor} (h : ∀ t ∈ c.ahead, t.kind.endsLine = false) :
    c.restOfLine.1 = c.ahead ∧ c.restOfLine.2.atEnd = true := by
  obtain ⟨hline, hrest⟩ := restOfLine_of_append (List.append_nil c.ahead).symm h (by simp)
  exact ⟨hline, atEnd_of_ahead_nil hrest⟩

variable (hfree : FreeWord dialect t.text) (ht : t.kind.isWord = true)
  (hopener : opener.kind = .openBracket ∧ opener.text = "[")
  (hcloser : closer.kind = .closeBracket ∧ closer.text = "]") (hcontent : Bracketed content)

include hfree ht hopener hcloser hcontent

/-- The edge line as a text of its own: it is read in one step, and the text is over. -/
theorem run_bracketEdge (harrow : arrow.kind = .arrow) (hz : z.kind.isWord = true) (p : Place) :
    let r := start dialect (t :: opener :: (content ++ [closer, arrow, z]) ++ [Token.endAt p])
    r.run.blocks = Forest.ofEntities [⟨t.text, Phrase.bracketAttributes dialect content, none⟩] ∧
      r.run.diagnostics = [] := by
  rw [start_eq]
  intro r
  have hend : r.cursor.atEnd = false := by
    cases hk : t.kind <;> simp_all [r, Cursor.atEnd, isAt, current, Token.Kind.isWord]
  have hconnected : r.cursor.lineHasConnector = true := by
    rw [lineHasConnector_of_bracket ht hopener.1 hcloser.1 hcontent rfl]
    simp [hasConnector, harrow, Token.Kind.endsLine, Token.Kind.isConnector]
  have hform : r.form true = .edges := by
    rw [form_of_bracket true rfl ht hfree hopener.1, hconnected, if_pos rfl]
  have hline : ∀ u ∈ r.cursor.ahead, u.kind.endsLine = false := by
    intro u hu
    simp only [r, List.mem_cons, List.mem_append, List.not_mem_nil, or_false] at hu
    rcases hu with rfl | rfl | hu | rfl | rfl | rfl
    · cases hk : u.kind <;> simp_all [Token.Kind.isWord, Token.Kind.endsLine]
    · rw [hopener.1]; rfl
    · exact hcontent.line u hu
    · rw [hcloser.1]; rfl
    · rw [harrow]; rfl
    · cases hk : u.kind <;> simp_all [Token.Kind.isWord, Token.Kind.endsLine]
  obtain ⟨hrest, hover⟩ := restOfLine_of_line hline
  obtain ⟨hdeclared, hreports⟩ :
      (EdgeLine.read dialect r.cursor.ahead).declared = _ ∧
        (EdgeLine.read dialect r.cursor.ahead).diagnostics = [] :=
    read_bracketEdge ht hopener hcloser hcontent harrow hz
  have hstep := step_of_form rfl hend hform
  have hdone : r.step.finished = true := by
    rw [hstep]
    simp [finished, openGroups_apply, cursor_apply, effect, hover, r]
  rw [run_of_not_finished (by simp [finished, hend]), run, if_pos hdone, hstep]
  rw [apply_eq _ _ rfl]
  simp only [effect, hrest]
  exact ⟨by rw [hdeclared]; rfl, by rw [hreports]; rfl⟩

omit hfree ht hopener hcontent in
/-- Where the first closing bracket is: in the content, or right behind it if there is none in
there. -/
theorem exists_first_closer (content : List Token) : ∃ u tail,
    content ++ [closer] = content.takeWhile (·.kind != .closeBracket) ++ u :: tail ∧
      u.kind = .closeBracket ∧ ((∀ v ∈ content, v.kind ≠ .closeBracket) → tail = []) := by
  induction content with
  | nil => exact ⟨closer, [], rfl, hcloser.1, fun _ => rfl⟩
  | cons v vs ih =>
      by_cases hv : v.kind = .closeBracket
      · exact ⟨v, vs ++ [closer], by simp [hv], hv,
          fun h => absurd hv (h v (List.mem_cons_self ..))⟩
      · obtain ⟨u, tail, heq, hu, htail⟩ := ih
        refine ⟨u, tail, ?_, hu, fun h => htail fun w hw => h w (List.mem_cons_of_mem v hw)⟩
        rw [List.cons_append, heq, List.takeWhile_cons, if_pos (by simpa using hv),
          List.cons_append]

omit hfree ht hopener in
/-- Alone on a line the bracket reaches to the first closing bracket. If that is the one behind the
content, nothing is left of the line. -/
theorem enclosed_bracket {c : Cursor} (problem : Problem)
    (ha : c.advance.ahead = content ++ [closer]) :
    (c.enclosed .closeBracket problem).value = content.takeWhile (·.kind != .closeBracket) ∧
      (c.enclosed .closeBracket problem).diagnostics = [] ∧
      ((∀ u ∈ content, u.kind ≠ .closeBracket) →
        (c.enclosed .closeBracket problem).cursor.ahead = []) := by
  obtain ⟨u, tail, heq, hu, htail⟩ := exists_first_closer hcloser content
  have hinside : ∀ v ∈ content.takeWhile (·.kind != .closeBracket),
      v.kind ≠ u.kind ∧ v.kind ≠ .endOfInput := by
    intro v hv
    have hline := hcontent.line v ((List.takeWhile_prefix _).subset hv)
    rw [hu]
    refine ⟨by simpa using List.mem_takeWhile_imp hv, fun he => ?_⟩
    rw [he] at hline
    cases hline
  have henclosed := enclosed_of_append problem (ha.trans heq) (by rw [hu]; decide) hinside
  rw [hu] at henclosed
  obtain ⟨hvalue, hquiet, hrest⟩ := henclosed
  exact ⟨hvalue, hquiet, fun h => hrest.trans (htail h)⟩

omit hfree ht hopener hcloser hcontent in
/-- An entity with a bracket behind which there is nothing has the attributes of the content and no
fields, and nothing is reported about it. -/
theorem entity_of_bracket {c : Cursor} {w : String} (hbracket : c.isAt .openBracket = true)
    (hquiet : (c.enclosed .closeBracket (.openAttributes w)).diagnostics = [])
    (hnil : (c.enclosed .closeBracket (.openAttributes w)).cursor.ahead = []) :
    let e := Declaration.entityTaken dialect w .empty c
    e.value.fields = none ∧ e.cursor.ahead = [] ∧ e.diagnostics = [] := by
  have hnot (k : Token.Kind) (hk : k ≠ .endOfInput) :
      (c.enclosed .closeBracket (.openAttributes w)).cursor.isAt k = false := by
    have hkind := atEnd_of_ahead_nil hnil
    rw [Cursor.atEnd, isAt, beq_iff_eq] at hkind
    rw [isAt, hkind]
    simpa using fun he => hk he.symm
  simp [Declaration.entityTaken, Declaration.attributes, hbracket, Declaration.bodyTaken, hnot,
    Cursor.pass, hnil, hquiet]

/-- The line as a text of its own: it declares the entity with what stands in front of the first
closing bracket, and reads the rest as further statements. -/
theorem run_bracketLine (p : Place) :
    let r := start dialect (t :: opener :: (content ++ [closer]) ++ [Token.endAt p])
    (∃ fields more, r.run.blocks = Forest.ofEntities [⟨t.text, Phrase.bracketAttributes dialect
      (content.takeWhile (·.kind != .closeBracket)), fields⟩] ++ more) ∧
      ((∀ u ∈ content, u.kind ≠ .closeBracket) →
        r.run.blocks =
            Forest.ofEntities [⟨t.text, Phrase.bracketAttributes dialect content, none⟩] ∧
          r.run.diagnostics = []) := by
  rw [start_eq]
  intro r
  have hend : r.cursor.atEnd = false := by
    cases hk : t.kind <;> simp_all [r, Cursor.atEnd, isAt, current, Token.Kind.isWord]
  have hunconnected : r.cursor.lineHasConnector = hasConnector 0 [] :=
    lineHasConnector_of_bracket ht hopener.1 hcloser.1 hcontent rfl
  have hform : r.form true = .entity := by
    rw [form_of_bracket true rfl ht hfree hopener.1, hunconnected]
    rfl
  have hadvance : r.cursor.advance.ahead = opener :: (content ++ [closer]) :=
    ahead_advance_cons rfl hend
  have hend₁ : r.cursor.advance.atEnd = false := by
    simp [Cursor.atEnd, isAt, current, hadvance, hopener.1]
  have hadvance₂ : r.cursor.advance.advance.ahead = content ++ [closer] :=
    ahead_advance_cons hadvance hend₁
  have hbracket : r.cursor.advance.isAt .openBracket = true := by
    simp [isAt, current, hadvance, hopener.1]
  have hstep := step_of_form rfl hend hform
  have hrun : r.run = r.step.run := run_of_not_finished (by simp [finished, hend])
  obtain ⟨hvalue, hquiet, hrest⟩ :=
    enclosed_bracket hcloser hcontent (.openAttributes t.text) hadvance₂
  -- what is read behind the entity stays behind it
  let e := Declaration.entityTaken dialect t.text .empty r.cursor.advance
  have hentity : e.value = ⟨t.text, Phrase.bracketAttributes dialect
      (content.takeWhile (·.kind != .closeBracket)), e.value.fields⟩ := by
    simp only [e, Declaration.entityTaken, Declaration.attributes, hbracket, if_true, hvalue,
      KeyedList.update_empty]
  obtain ⟨behind, hframe⟩ : ∃ behind : Reading,
      r.step = frame { r with blocks := Forest.ofEntities [e.value] } behind :=
    ⟨{ r.step with blocks := .nil }, by rw [hstep]; rfl⟩
  refine ⟨⟨e.value.fields, behind.run.blocks, ?_⟩, fun h => ?_⟩
  · rw [hrun, hframe, run_frame, ← hentity, frame, openGroups_run]
    rfl
  · have hwhole : content.takeWhile (·.kind != .closeBracket) = content :=
      List.takeWhile_eq_self_iff.mpr fun u hu => by simpa using h u hu
    obtain ⟨hfields, hahead, hreports⟩ := entity_of_bracket hbracket hquiet (hrest h)
    have hdone : r.step.finished = true := by
      rw [hstep, finished, openGroups_apply, cursor_apply]
      exact atEnd_of_ahead_nil hahead
    rw [hrun, run, if_pos hdone, hstep, apply_eq _ _ rfl]
    refine ⟨?_, hreports⟩
    rw [hwhole, hfields] at hentity
    rw [← hentity]
    rfl

end Line

/-! ## The two texts -/

/-- A declaration alone on a line. -/
def bracketLine (w c : String) : String := w ++ " [" ++ c ++ "]"

/-- The same declaration on an edge line. -/
def bracketEdge (w c z : String) : String := w ++ " [" ++ c ++ "] -> " ++ z

/-- A text for the inside of a bracket: its strings are closed, it stays on one line and has no
comment, and its brackets match. -/
structure BracketText (c : String) : Prop where
  quoted : ∀ d ∈ (Token.scan c).diagnostics, d.problem ≠ .openString
  kinds : ∀ t ∈ (Token.scan c).tokens, t.kind ∉ [Token.Kind.comment, .newline]
  brackets : balanced 0 (Token.scan c).tokens = true

/-- The text in front of the content. -/
def bracketHead (w : String) : List Ink := [.word w, .space, .mark .openBracket]

theorem BracketText.kind_ne {c : String} (h : BracketText c) {t : Token}
    (ht : t ∈ Token.tokens .start c.toList) : t.kind ≠ .comment ∧ t.kind ≠ .newline := by
  have hk := h.kinds t (by rw [Token.scan_eq]; exact List.mem_append_left _ ht)
  simpa using hk

/-- The content of a bracket, wherever it stands. Its places change with where it does, and nothing
that is asked here looks at them. -/
theorem BracketText.bracketed {c : String} (h : BracketText c) (p : Place) :
    Bracketed (Token.tokens p c.toList) := by
  have hmove := (Token.move_tokens p c.toList).trans (Token.move_tokens .start c.toList).symm
  refine ⟨?_, fun t ht => ?_, fun t ht => Token.kind_eq_iff_of_mem_tokens rfl ht,
    fun t ht => Token.kind_eq_iff_of_mem_tokens rfl ht⟩
  · have hb := h.brackets
    rw [Token.scan_eq, balanced_append fun u hu => by
      rw [List.mem_singleton.mp hu]; exact ⟨nofun, nofun⟩] at hb
    rw [← balanced_move fun _ => .start, hmove, balanced_move, hb]
  · obtain ⟨u, hu, he⟩ : ∃ u ∈ Token.tokens .start c.toList, u.kind = t.kind := by
      have hmem : t.move (fun _ => .start) ∈
          (Token.tokens .start c.toList).map (Token.move fun _ => .start) :=
        hmove ▸ List.mem_map_of_mem ht
      obtain ⟨u, hu, he⟩ := List.mem_map.mp hmem
      have hkinds := congrArg Token.kind he
      exact ⟨u, hu, by simpa using hkinds⟩
    have hne := he ▸ (h.kind_ne hu).2
    have hend := Token.kind_of_mem_tokens ht
    cases hk : t.kind <;> simp_all [Token.Kind.endsLine]

/-- The tokens of a bracket between written text: those of the head, of the content and of the tail,
each at its place. -/
theorem tokens_bracket {w c : String} (hw : Token.IsWord w) (hc : BracketText c) {tail : List Ink}
    (htail : Ink.Apart (.mark .closeBracket :: tail)) :
    let p := Place.start.after (Ink.text (bracketHead w))
    Token.tokens .start
        (Ink.text (bracketHead w) ++ (c.toList ++ Ink.text (.mark .closeBracket :: tail))) =
      Ink.tokens .start (bracketHead w) ++ (Token.tokens p c.toList ++
        Ink.tokens (p.after c.toList) (.mark .closeBracket :: tail)) := by
  have hhead : Ink.Apart (bracketHead w) := by simp [bracketHead, hw]
  have hends : Ink.Ends (bracketHead w)
      (c.toList ++ Ink.text (.mark .closeBracket :: tail)) := by
    rintro x hx hsolid
    obtain rfl : Ink.mark .openBracket = x := Option.some.inj hx
    cases hsolid
  have hstops (p : Place) : ∀ x ∈ Token.lexemes p c.toList, Token.Stops ']' x.shape := by
    intro x hx
    have hshapes := Token.shapes_eq p .start c.toList
    have hmem := List.mem_map_of_mem (f := Token.Lexeme.shape) hx
    rw [hshapes] at hmem
    obtain ⟨y, hy, he⟩ := List.mem_map.mp hmem
    have hquoted : Token.Quoted .start c.toList := hc.quoted
    rw [← he]
    exact Token.stops_of_tokens hquoted (fun t ht => (hc.kind_ne ht).1) y hy
  obtain ⟨hts, -⟩ := Ink.lexemes_text_append hhead hends .start
  have htext : Ink.text (.mark .closeBracket :: tail) = ']' :: Ink.text tail := rfl
  intro p
  rw [Token.tokens, hts, htext, Token.lexemes_append (by decide) _ _ (hstops _),
    List.filterMap_append, ← htext, (Ink.lexemes_text htail _).1]
  rfl

theorem tokens_bracketEdge {w c z : String} (hw : Token.IsWord w) (hc : BracketText c)
    (hz : Token.IsWord z) :
    let p := Place.start.after (Ink.text (bracketHead w))
    Token.tokens .start (bracketEdge w c z).toList =
      Ink.tokens .start (bracketHead w) ++ (Token.tokens p c.toList ++
        Ink.tokens (p.after c.toList)
          [.mark .closeBracket, .space, .mark .arrow, .space, .word z]) := by
  intro p
  rw [← tokens_bracket hw hc (by simp [hz])]
  simp [bracketEdge, bracketHead, Ink.text, Ink.chars]

theorem tokens_bracketLine {w c : String} (hw : Token.IsWord w) (hc : BracketText c) :
    let p := Place.start.after (Ink.text (bracketHead w))
    Token.tokens .start (bracketLine w c).toList =
      Ink.tokens .start (bracketHead w) ++ (Token.tokens p c.toList ++
        Ink.tokens (p.after c.toList) [.mark .closeBracket]) := by
  intro p
  rw [← tokens_bracket hw hc (by simp)]
  simp [bracketLine, bracketHead, Ink.text, Ink.chars]

/-- The places of tokens are not among their attributes. So both lines, in which the content stands
at one place or another, give the same. -/
theorem bracketAttributes_congr {dialect : Dialect} {ts us : List Token}
    (h : ts.map (Token.move fun _ => .start) = us.map (Token.move fun _ => .start)) :
    Phrase.bracketAttributes dialect ts = Phrase.bracketAttributes dialect us := by
  rw [← Phrase.bracketAttributes_move (f := fun _ => .start), h, Phrase.bracketAttributes_move]

/-- What the edge line gives: the entity with the whole content, the edge, and no report. -/
theorem ofTokens_bracketEdge {dialect : Dialect} {w c z : String} (hw : FreeWord dialect w)
    (hc : BracketText c) (hz : Token.IsWord z) :
    let edge := ofTokens dialect (Token.scan (bracketEdge w c z)).tokens
    let p := Place.start.after (Ink.text (bracketHead w))
    edge.document.blocks =
        Forest.ofEntities [⟨w, Phrase.bracketAttributes dialect (Token.tokens p c.toList), none⟩] ∧
      edge.diagnostics = [] := by
  intro edge p
  show (start dialect (Token.scan (bracketEdge w c z)).tokens).run.blocks = _ ∧
    (start dialect (Token.scan (bracketEdge w c z)).tokens).run.diagnostics = _
  rw [Token.scan_eq, tokens_bracketEdge hw.isWord hc hz]
  exact run_bracketEdge hw hw.isWord.isWord_nameKind ⟨rfl, rfl⟩ ⟨rfl, rfl⟩ (hc.bracketed p) rfl
    hz.isWord_nameKind _

/-- What the line alone gives: the entity with a part of the content, and without edges or reports
if the content has no closing bracket. -/
theorem ofTokens_bracketLine {dialect : Dialect} {w c : String} (hw : FreeWord dialect w)
    (hc : BracketText c) :
    let alone := ofTokens dialect (Token.scan (bracketLine w c)).tokens
    let content := Token.tokens (Place.start.after (Ink.text (bracketHead w))) c.toList
    (∃ fields more, alone.document.blocks = Forest.ofEntities [⟨w,
      Phrase.bracketAttributes dialect (content.takeWhile (·.kind != .closeBracket)), fields⟩]
        ++ more) ∧
      ((∀ t ∈ content, t.kind ≠ .closeBracket) →
        alone.document.blocks =
            Forest.ofEntities [⟨w, Phrase.bracketAttributes dialect content, none⟩] ∧
          alone.diagnostics = []) := by
  intro alone content
  show (∃ fields more, (start dialect (Token.scan (bracketLine w c)).tokens).run.blocks = _) ∧
    (_ → (start dialect (Token.scan (bracketLine w c)).tokens).run.blocks = _ ∧
      (start dialect (Token.scan (bracketLine w c)).tokens).run.diagnostics = _)
  rw [Token.scan_eq, tokens_bracketLine hw.isWord hc]
  exact run_bracketLine hw hw.isWord.isWord_nameKind ⟨rfl, rfl⟩ ⟨rfl, rfl⟩ (hc.bracketed _) _

/-- **Brackets on an edge line and alone.** On an edge line a free word with a bracket behind it
declares the entity with all of the content, and nothing is reported. Alone on a line it declares
the entity with the content up to the first closing bracket. So the two lines declare the same
entity and report nothing if the content has no brackets. -/
theorem ofTokens_brackets {dialect : Dialect} {w c z : String} (hw : FreeWord dialect w)
    (hc : BracketText c) (hz : Token.IsWord z) :
    let content := Token.tokens .start c.toList
    let alone := ofTokens dialect (Token.scan (bracketLine w c)).tokens
    let edge := ofTokens dialect (Token.scan (bracketEdge w c z)).tokens
    edge.document.blocks =
        Forest.ofEntities [⟨w, Phrase.bracketAttributes dialect content, none⟩] ∧
      edge.diagnostics = [] ∧
      (∃ fields more, alone.document.blocks = Forest.ofEntities [⟨w,
        Phrase.bracketAttributes dialect (content.takeWhile (·.kind != .closeBracket)), fields⟩]
          ++ more) ∧
      ((∀ t ∈ content, t.kind ≠ .closeBracket) →
        alone.document.blocks = edge.document.blocks ∧ alone.diagnostics = []) := by
  intro content alone edge
  let p := Place.start.after (Ink.text (bracketHead w))
  have hmove : (Token.tokens p c.toList).map (Token.move fun _ => .start) =
      content.map (Token.move fun _ => .start) :=
    (Token.move_tokens p _).trans (Token.move_tokens .start _).symm
  obtain ⟨hedge, hquiet⟩ := ofTokens_bracketEdge hw hc hz
  obtain ⟨⟨fields, more, hfirst⟩, hall⟩ := ofTokens_bracketLine hw hc
  rw [bracketAttributes_congr hmove] at hedge
  refine ⟨hedge, hquiet, ⟨fields, more, ?_⟩, fun hnone => ?_⟩
  · have hcut : ((Token.tokens p c.toList).takeWhile (·.kind != .closeBracket)).map
        (Token.move fun _ => .start) =
          (content.takeWhile (·.kind != .closeBracket)).map (Token.move fun _ => .start) := by
      rw [← takeWhile_move (fun _ => rfl), hmove, takeWhile_move fun _ => rfl]
    rw [← bracketAttributes_congr hcut]
    exact hfirst
  · obtain ⟨hblocks, hreports⟩ := hall fun t ht hk => by
      obtain ⟨u, hu, he⟩ := List.mem_map.mp (hmove ▸ List.mem_map_of_mem ht)
      have hkinds := congrArg Token.kind he
      rw [Token.kind_move, Token.kind_move, hk] at hkinds
      exact hnone u hu hkinds
    rw [bracketAttributes_congr hmove] at hblocks
    exact ⟨hblocks.trans hedge.symm, hreports⟩

/-- A connector and brackets in a string, and a connector outside strings. -/
def arrowContent : String := "k: \"] -> [\" -> v"

theorem ofTokens_brackets_arrowContent :
    FreeWord .mermaid "A" ∧ BracketText arrowContent ∧ Token.IsWord "Z" ∧
      (ofTokens .mermaid (Token.scan (bracketLine "A" arrowContent)).tokens).diagnostics = [] := by
  have hw : FreeWord .mermaid "A" :=
    ⟨⟨.ident, rfl, by decide +kernel⟩, by decide +kernel, by decide +kernel,
      fun _ => by decide +kernel⟩
  have hc : BracketText arrowContent :=
    ⟨by decide +kernel, by decide +kernel, by decide +kernel⟩
  have hz : Token.IsWord "Z" := ⟨.ident, rfl, by decide +kernel⟩
  obtain ⟨-, -, -, hall⟩ := ofTokens_brackets hw hc hz
  exact ⟨hw, hc, hz, (hall (by decide +kernel)).2⟩

theorem nested_bracket_cut :
    FreeWord .mermaid "A" ∧ BracketText "[x]" ∧
      (ofTokens .mermaid (Token.scan (bracketLine "A" "[x]")).tokens).document.blocks =
        Forest.ofEntities [⟨"A", .ofList [("label", "[ x")], none⟩] ∧
      (ofTokens .mermaid (Token.scan (bracketLine "A" "[x]")).tokens).diagnostics =
        [⟨⟨1, 7⟩, .strayToken .closeBracket "]"⟩] ∧
      (ofTokens .mermaid (Token.scan (bracketEdge "A" "[x]" "Z")).tokens).document.blocks =
        Forest.ofEntities [⟨"A", .ofList [("label", "[ x ]")], none⟩] := by
  have hline := run_eq_steps (n := 3)
    (r := start .mermaid (Token.scan (bracketLine "A" "[x]")).tokens) (by decide +kernel)
  have hedge := run_eq_steps (n := 2)
    (r := start .mermaid (Token.scan (bracketEdge "A" "[x]" "Z")).tokens) (by decide +kernel)
  refine ⟨⟨⟨.ident, rfl, by decide +kernel⟩, by decide +kernel, by decide +kernel,
    fun _ => by decide +kernel⟩, ⟨by decide +kernel, by decide +kernel, by decide +kernel⟩,
    ?_, ?_, ?_⟩
  · show (start .mermaid (Token.scan (bracketLine "A" "[x]")).tokens).run.blocks = _
    rw [hline]
    decide +kernel
  · show (start .mermaid (Token.scan (bracketLine "A" "[x]")).tokens).run.diagnostics = _
    rw [hline]
    decide +kernel
  · show (start .mermaid (Token.scan (bracketEdge "A" "[x]" "Z")).tokens).run.blocks = _
    rw [hedge]
    decide +kernel

end Reading

end Schematic
