import Schematic.Proofs.Reading.GroupLine
import Schematic.Proofs.Writing.Native

/-!
# Two ways of writing a group

`group g { s }` on one line and on three is read the same whatever follows, if no statement of `s`
is an edge line. And only then: an edge line takes the brace with it, so the group stays open, and
what follows stands in the group and can give no metadata.
-/

namespace Schematic

namespace Reading

open Cursor

/-! ## A group that stays open -/

/-- A statement in a native group gives no metadata, and a group it opens is closed by a brace. Both
are read off the forms that occur there. -/
theorem inside_effect (c : Cursor) :
    (effect .native c false (formIn c)).entries = [] ∧
      ∀ o ∈ (effect .native c false (formIn c)).opened, o.closer = .brace := by
  rcases formIn_cases c with hf | ⟨-, hf⟩
  · simp only [List.mem_cons, List.not_mem_nil, or_false] at hf
    rcases hf with hf | hf | hf | hf | hf | hf | hf <;> rw [hf] <;> refine ⟨rfl, fun o ho => ?_⟩ <;>
      cases ho <;> rfl
  · rw [hf]
    exact ⟨rfl, fun o ho => by cases ho⟩

/-- A reading in groups in braces, or at the end of the text, in front of which there is no closing
brace any more. -/
structure Unclosed (r : Reading) : Prop where
  dialect : r.dialect = .native
  inside : r.openGroups ≠ [] ∨ r.cursor.atEnd = true
  closers : ∀ g ∈ r.openGroups, g.closer = .brace
  ahead : ∀ t ∈ r.cursor.ahead, t.kind ≠ .closeBrace

theorem Unclosed.not_at_brace {r : Reading} (h : Unclosed r) :
    r.cursor.isAt .closeBrace = false := by
  cases hc : r.cursor.ahead with
  | nil => simp [isAt, current, hc, r.cursor.final_kind]
  | cons t ts => simpa [isAt, current, hc] using h.ahead t (by simp [hc])

/-- Only the end of the text closes a group then, and the cursor stays there. All open groups are
closed by a brace, and there is none ahead. -/
theorem Unclosed.closing {r : Reading} (h : Unclosed r) {g : OpenGroup} (hg : g ∈ r.openGroups)
    {x : Closing} (hx : closing? r.cursor g = some x) :
    r.cursor.atEnd = true ∧ x.cursor = r.cursor := by
  have hend : r.cursor.atEnd = true := by
    cases hend : r.cursor.atEnd with
    | true => rfl
    | false => simp [closing?, hend, h.closers g hg, h.not_at_brace] at hx
  simp only [closing?, hend, if_true, Option.some.injEq] at hx
  exact ⟨hend, by rw [← hx]⟩

/-- In front of a statement the reading is in a group, and the statement is none of the top.
Otherwise the reading would be over. -/
theorem Unclosed.next {r : Reading} (h : Unclosed r) (hend : r.cursor.atEnd = false) :
    r.openGroups ≠ [] ∧ r.next = effect .native r.cursor false (formIn r.cursor) := by
  have hne : r.openGroups ≠ [] := by
    rcases h.inside with hne | hover
    · exact hne
    · rw [hend] at hover
      cases hover
  have htop : r.atTop = false := by simpa [atTop] using hne
  exact ⟨hne, by rw [Reading.next, htop, form_eq_formIn h.dialect, h.dialect]⟩

theorem Unclosed.step {r : Reading} (h : Unclosed r) (hf : r.finished = false) :
    Unclosed r.step ∧ r.step.metadata = r.metadata := by
  have hdialect : r.step.dialect = .native := (dialect_step hf).trans h.dialect
  have hahead : ∀ t ∈ r.step.cursor.ahead, t.kind ≠ .closeBrace := by
    obtain ⟨n, -, hn⟩ := reaches_step hf
    rw [hn]
    exact fun t ht => h.ahead t (List.mem_of_mem_drop ht)
  rcases step_spec hf with ⟨g, outer, x, hg, hx, hs⟩ | ⟨hend, -, hs⟩
  · obtain ⟨hover, hcursor⟩ := h.closing (by simp [hg]) hx
    refine ⟨⟨hdialect, Or.inr ?_, ?_, hahead⟩, ?_⟩
    · rw [hs]
      show x.cursor.atEnd = true
      rw [hcursor, hover]
    · rw [hs]
      exact fun k hk => h.closers k (by rw [hg]; exact List.mem_cons_of_mem _ hk)
    · rw [hs]
      rfl
  · obtain ⟨hne, hnext⟩ := h.next hend
    obtain ⟨hentries, hopened⟩ := inside_effect r.cursor
    rw [← hnext] at hentries hopened
    refine ⟨⟨hdialect, Or.inl ?_, fun g hg => ?_, hahead⟩, ?_⟩
    · rw [hs, openGroups_apply]
      simp [hne]
    · rw [hs, openGroups_apply] at hg
      rcases List.mem_append.mp hg with hg | hg
      · obtain ⟨o, ho, rfl⟩ := Option.map_eq_some_iff.mp (Option.mem_toList.mp hg)
        exact hopened o ho
      · exact h.closers g hg
    · rw [hs]
      unfold Effect.apply
      split <;> simp [push, hentries, putAll_nil]

/-- In a group whose brace never comes nothing gives metadata. The induction is on the run; no step
leads out of the group before the text is over. -/
theorem Unclosed.metadata_run {r : Reading} (h : Unclosed r) : r.run.metadata = r.metadata := by
  fun_induction run r with
  | case1 => rfl
  | case2 r hf ih =>
      obtain ⟨hstep, hmeta⟩ := h.step (Bool.eq_false_iff.mpr hf)
      exact (ih hstep).trans hmeta

/-- A word alone behind all groups is a flag. In a group it would be a member instead, and that
shows whether the group was closed. -/
theorem metadata_run_of_word {r : Reading} {w : String} {p : Place} (hd : r.dialect = .native)
    (hg : r.openGroups = []) (ha : r.cursor.ahead = [⟨.ident, w, p⟩]) :
    r.run.metadata = r.metadata.put w (.flag true) := by
  have hend : r.cursor.atEnd = false := by simp [Cursor.atEnd, isAt, current, ha]
  have hcurrent : r.cursor.current = ⟨.ident, w, p⟩ := by simp [current, ha]
  have hpeek : (r.cursor.peek 1).kind = .endOfInput := by simp [peek, ha, r.cursor.final_kind]
  have hline : r.cursor.lineHasConnector = false := by
    simp [lineHasConnector, ha, hasConnector, Token.Kind.endsLine, Token.Kind.isConnector]
  have hform : r.form true = .metadata := by
    unfold form
    simp [hcurrent, wordForm?_native hd, groupForm?, declares, hpeek, Token.Kind.isName, shapeForm,
      hline, hd, Token.Kind.isWord, Dialect.metadataLines]
  have hadvance : r.cursor.advance.ahead = [] := ahead_advance_cons ha hend
  have hrest : r.cursor.advance.restOfLine.1 = [] := by simp [restOfLine, upTo, hadvance]
  have hempty : r.cursor.advance.restOfLine.2.ahead = [] := by
    have hlen := Cursor.length_restOfLine_le r.cursor.advance (fun _ => false)
    rw [hadvance] at hlen
    exact List.length_eq_zero_iff.mp (Nat.le_zero.mp hlen)
  have hstep : r.step = (effect .native r.cursor true .metadata).apply r := by
    rw [step_of_form hg hend hform, hd]
  rw [run_of_not_finished (by simp [finished, hend]), run, if_pos ?_, hstep]
  · have hflag : metaValue (Phrase.joined []) = .flag true := by decide +kernel
    simp [effect, apply_eq, hcurrent, hrest, KeyedList.putAll, hflag]
  · have hover := atEnd_of_ahead_nil hempty
    rw [hstep]
    simp only [finished, openGroups_apply, cursor_apply, hg]
    simp [effect, hover]

/-! ## An edge line -/

section Lockstep

variable {brace nl : Token} {g : OpenGroup} {d : Cursor} {r₁ r₂ : Reading} {w : String} {p : Place}

section

variable (h : Abreast brace nl [nl, ⟨.ident, w, p⟩] g [] d r₁ r₂)
  (hbrace : brace.kind = .closeBrace) (hnl : nl.kind = .newline) (hb : g.closer = .brace)
  (hd : Plain d.ahead)

include h hbrace hnl hb hd

/-- With the brace on the line the edge line takes it, and the word behind it is a member. So there
is no metadata to come. -/
theorem Abreast.metadata_left :
    ((effect .native r₁.cursor false .edges).apply r₁).run.metadata = r₁.metadata := by
  have hline : r₁.cursor.ahead = (d.ahead ++ [brace]) ++ [nl, ⟨.ident, w, p⟩] := by
    rw [h.ahead]
    simp
  have hrest : r₁.cursor.restOfLine.2.ahead = [⟨.ident, w, p⟩] := by
    refine (restOfLine_of_append hline (fun x hx => ?_) (by simp [hnl])).2
    rcases List.mem_append.mp hx with hx | hx
    · exact hd.endsLine_eq_false hx
    · rw [List.mem_singleton.mp hx, hbrace]
      rfl
  have hopen : Unclosed ((effect .native r₁.cursor false .edges).apply r₁) := by
    refine ⟨(dialect_apply _ _).trans h.dialect, Or.inl ?_, fun k hk => ?_, fun t ht => ?_⟩
    · simp [openGroups_apply, effect, h.openGroups]
    · rw [openGroups_apply, h.openGroups] at hk
      rw [List.mem_singleton.mp hk]
      exact hb
    · rw [cursor_apply] at ht
      change t ∈ r₁.cursor.restOfLine.2.ahead at ht
      rw [hrest, List.mem_singleton] at ht
      rw [ht]
      exact Token.Kind.noConfusion
  exact hopen.metadata_run

/-- With a line end in front of the brace the brace closes the group, and the word behind it is
metadata. -/
theorem Abreast.metadata_right (hne : d.ahead ≠ []) :
    ((effect .native r₂.cursor false .edges).apply r₂).run.metadata =
      r₁.metadata.put w (.flag true) := by
  have hrest : r₂.cursor.restOfLine.2.ahead = [brace, nl, ⟨.ident, w, p⟩] :=
    (restOfLine_of_append (h.ahead' hne) (fun _ hx => hd.endsLine_eq_false hx) (by simp [hnl])).2
  have hg : ((effect .native r₂.cursor false .edges).apply r₂).openGroups = [g] := by
    rw [openGroups_apply, h.openGroups']
    rfl
  have hmeta : ((effect .native r₂.cursor false .edges).apply r₂).metadata = r₁.metadata := by
    rw [h.same]
    rfl
  have hdialect := (dialect_apply (effect .native r₂.cursor false .edges) r₂).trans h.dialect'
  obtain ⟨hrun, hahead⟩ := run_of_closeBrace hbrace hg hb (z := [nl, ⟨.ident, w, p⟩]) (by
    rw [cursor_apply]
    exact hrest)
  rw [hrun]
  generalize (effect .native r₂.cursor false .edges).apply r₂ = r at hahead hmeta hdialect
  obtain ⟨hstep, hblank⟩ := step_of_blank (r := Closing.apply ⟨r.cursor.advance, []⟩ r g [])
    hahead (by rw [hnl]; rfl)
  have hend : r.cursor.advance.atEnd = false := by
    simp [Cursor.atEnd, isAt, current, hahead, hnl]
  rw [run_of_not_finished (by simp [finished, Closing.apply, hend]), hstep,
    metadata_run_of_word (w := w) (p := p)]
  · rw [← hmeta]
    rfl
  · exact hdialect
  · rfl
  · rw [cursor_apply]
    exact hblank

end

/-- At an edge line the readings part: with the brace on the line the group stays open, so that the
word behind it is a member, and with a line end in front of the brace it is metadata. -/
theorem Abreast.parts (h : Abreast brace nl [nl, ⟨.ident, w, p⟩] g [] d r₁ r₂)
    (hbrace : brace.kind = .closeBrace) (hnl : nl.kind = .newline) (hb : g.closer = .brace)
    (hd : Plain d.ahead) (hne : d.ahead ≠ []) (hedge : formIn d = .edges) :
    r₁.run.metadata = r₁.metadata ∧ r₂.run.metadata = r₁.metadata.put w (.flag true) := by
  have hquiet : ∀ depth, hasConnector depth (brace :: [nl, ⟨.ident, w, p⟩]) = false := by
    intro depth
    simp [hasConnector, hbrace, hnl, Token.Kind.endsLine, Token.Kind.isConnector]
  obtain ⟨⟨hf₁, hs₁⟩, hf₂, hs₂⟩ := h.steps hbrace hnl hb hquiet hd hne
  rw [hedge] at hs₁ hs₂
  rw [run_of_not_finished hf₁, hs₁, run_of_not_finished hf₂, hs₂]
  exact ⟨h.metadata_left hbrace hnl hb hd, h.metadata_right hbrace hnl hb hd hne⟩

end Lockstep

/-! ## Texts -/

/-- The group on one line, and what follows it on the next. -/
def onOneLine (g s rest : String) : String := "group " ++ g ++ " \x7b " ++ s ++ " \x7d\n" ++ rest

/-- The group with its braces on lines of their own, and what follows it. Nothing else differs from
the group on one line. -/
def onThreeLines (g s rest : String) : String :=
  "group " ++ g ++ " \x7b\n" ++ s ++ "\n\x7d\n" ++ rest

/-- The brackets among the tokens are balanced, if `depth` brackets are open in front of them. What
else stands between them is not asked. -/
def balanced (depth : Nat) : List Token → Bool
  | [] => depth == 0
  | t :: ts =>
    if t.kind = .openBracket then balanced (depth + 1) ts
    else if t.kind = .closeBracket then depth != 0 && balanced (depth - 1) ts
    else balanced depth ts

/-- A text for the inside of a group on one line: its strings are closed, its brackets match, and
nothing in it ends the line or opens or closes a group. -/
structure LineText (s : String) : Prop where
  quoted : ∀ d ∈ (Token.scan s).diagnostics, d.problem ≠ .openString
  kinds : ∀ t ∈ (Token.scan s).tokens, t.kind ∉
    [Token.Kind.openBrace, .closeBrace, .comment, .atSign, .newline]
  brackets : balanced 0 (Token.scan s).tokens = true

/-- The text of the group line up to its brace, which both ways of writing have in common. -/
def groupHead (g : String) : List Ink := [.word "group", .space, .word g, .space, .mark .openBrace]

theorem toList_onOneLine (g s rest : String) :
    (onOneLine g s rest).toList =
      Ink.text (groupHead g) ++ ' ' :: (s.toList ++ ' ' :: '}' :: '\n' :: rest.toList) := by
  simp [onOneLine, groupHead, Ink.text, Ink.chars]

theorem toList_onThreeLines (g s rest : String) :
    (onThreeLines g s rest).toList =
      Ink.text (groupHead g) ++ '\n' :: (s.toList ++ '\n' :: '}' :: '\n' :: rest.toList) := by
  simp [onThreeLines, groupHead, Ink.text, Ink.chars]

theorem exists_close_of_balanced {depth : Nat} {ts : List Token}
    (h : balanced (depth + 1) ts = true) : ∃ u ∈ ts, u.kind = .closeBracket := by
  induction ts generalizing depth with
  | nil => simp [balanced] at h
  | cons t ts ih =>
      by_cases hclose : t.kind = .closeBracket
      · exact ⟨t, List.mem_cons_self .., hclose⟩
      · by_cases hopen : t.kind = .openBracket
        · simp only [balanced, hopen, if_true] at h
          obtain ⟨u, hu, hk⟩ := ih h
          exact ⟨u, List.mem_cons_of_mem _ hu, hk⟩
        · simp only [balanced, hopen, hclose, if_false] at h
          obtain ⟨u, hu, hk⟩ := ih h
          exact ⟨u, List.mem_cons_of_mem _ hu, hk⟩

theorem closes_of_balanced {depth : Nat} {ts : List Token} (h : balanced depth ts = true) :
    Closes ts := by
  induction ts generalizing depth with
  | nil => trivial
  | cons t ts ih =>
      by_cases hopen : t.kind = .openBracket
      · simp only [balanced, hopen, if_true] at h
        exact ⟨fun _ => exists_close_of_balanced h, ih h⟩
      · refine ⟨fun hk => absurd hk hopen, ?_⟩
        by_cases hclose : t.kind = .closeBracket
        · simp only [balanced, hclose, reduceCtorEq, if_true, if_false, Bool.and_eq_true] at h
          exact ih h.2
        · simp only [balanced, hopen, hclose, if_false] at h
          exact ih h

theorem balanced_append {depth : Nat} {ts us : List Token} (hus : ∀ u ∈ us,
    u.kind ≠ .openBracket ∧ u.kind ≠ .closeBracket) :
    balanced depth (ts ++ us) = balanced depth ts := by
  induction ts generalizing depth with
  | nil =>
      induction us with
      | nil => rfl
      | cons u us ih =>
          obtain ⟨hopen, hclose⟩ := hus u (List.mem_cons_self ..)
          have htail := ih fun v hv => hus v (List.mem_cons_of_mem _ hv)
          simpa [balanced, hopen, hclose] using htail
  | cons t ts ih => simp only [List.cons_append, balanced, ih]

theorem balanced_move (f : Place → Place) (depth : Nat) (ts : List Token) :
    balanced depth (ts.map (Token.move f)) = balanced depth ts := by
  induction ts generalizing depth with
  | nil => rfl
  | cons t ts ih => simp only [List.map_cons, balanced, Token.kind_move, ih]

/-- The tokens of such a text without the mark for the end may stand between the braces. A bracket
that has a match has a closing bracket behind it. -/
theorem LineText.plain {s : String} (h : LineText s) : Plain (Token.unplaced s.toList) := by
  constructor
  · intro u hu
    obtain ⟨t, ht, hkind, hend⟩ := Token.exists_of_mem_unplaced hu
    have hk := h.kinds t ht
    simp only [hkind, List.mem_cons, List.not_mem_nil, or_false] at hk ⊢
    tauto
  · have hb := h.brackets
    rw [Token.scan_eq, balanced_append (by simp [Token.endAt])] at hb
    rw [← balanced_move fun _ => .start] at hb
    exact closes_of_balanced hb

section Heads

variable {g : String} (hg : Token.IsWord g)

include hg

theorem tokens_groupHead (p : Place) :
    Token.tokens p (Ink.text (groupHead g)) = Ink.tokens p (groupHead g) ∧
      Token.reports p (Ink.text (groupHead g)) = [] :=
  Ink.lexemes_text (by simp [groupHead, Native.isWord_group, hg]) p

theorem quoted_groupHead (p : Place) : Token.Quoted p (Ink.text (groupHead g)) := by
  rw [Token.Quoted, (tokens_groupHead hg p).2]
  simp

theorem unplaced_groupHead :
    Token.unplaced (Ink.text (groupHead g)) =
      [⟨.ident, "group", .start⟩, ⟨Token.nameKind g.toList, g, .start⟩,
        ⟨.openBrace, "\x7b", .start⟩] := by
  have hkind : Token.nameKind "group".toList = .ident := by decide +kernel
  rw [Token.unplaced, (tokens_groupHead hg _).1]
  simp only [groupHead, Ink.tokens, Ink.spelling?, hkind]
  rfl

theorem stops_groupHead : ∀ x ∈ Token.lexemes .start (Ink.text (groupHead g)),
    Token.Stops ' ' x.shape := by
  refine Token.stops_of_tokens (quoted_groupHead hg _) fun t ht hk => ?_
  have hmem : t.move (fun _ => Place.start) ∈ Token.unplaced (Ink.text (groupHead g)) :=
    List.mem_map_of_mem ht
  rw [unplaced_groupHead hg] at hmem
  have hkinds := List.mem_map_of_mem (f := Token.kind) hmem
  have hword := hg.isWord_nameKind
  simp only [List.map_cons, List.map_nil, Token.kind_move, hk, List.mem_cons, List.not_mem_nil,
    or_false, reduceCtorEq, false_or] at hkinds
  rw [← hkinds] at hword
  cases hword

end Heads

theorem unplaced_onOneLine {g s : String} (hg : Token.IsWord g) (hs : LineText s) (rest : String) :
    Token.unplaced (onOneLine g s rest).toList =
      Token.unplaced (Ink.text (groupHead g)) ++ (Token.unplaced s.toList ++
        ⟨.closeBrace, "\x7d", .start⟩ :: ⟨.newline, "\n", .start⟩ ::
          Token.unplaced rest.toList) := by
  have hcomment : ∀ t ∈ Token.tokens .start s.toList, t.kind ≠ .comment := fun t ht hk => by
    have hnot := hs.kinds t (by rw [Token.scan_eq]; exact List.mem_append_left _ ht)
    simp [hk] at hnot
  rw [toList_onOneLine, Token.unplaced_space (stops_groupHead hg),
    Token.unplaced_space (Token.stops_of_tokens hs.quoted hcomment), Token.unplaced_closeBrace,
    Token.unplaced_lineEnd]

theorem unplaced_onThreeLines {g s : String} (hg : Token.IsWord g) (hs : LineText s)
    (rest : String) :
    Token.unplaced (onThreeLines g s rest).toList =
      Token.unplaced (Ink.text (groupHead g)) ++ ⟨.newline, "\n", .start⟩ ::
        (Token.unplaced s.toList ++ ⟨.newline, "\n", .start⟩ :: ⟨.closeBrace, "\x7d", .start⟩ ::
          ⟨.newline, "\n", .start⟩ :: Token.unplaced rest.toList) := by
  rw [toList_onThreeLines, Token.unplaced_newline (quoted_groupHead hg _),
    Token.unplaced_newline hs.quoted, Token.unplaced_closeBrace, Token.unplaced_lineEnd]

/-! ## From the start -/

/-- The reading of a text in front of its first token, wherever the text stands. Tokens have a
made-up place, which no reader looks at. -/
def unread (dialect : Dialect) (cs : List Char) : Reading :=
  ⟨dialect, ⟨0, Token.unplaced cs, Token.endAt .start, rfl⟩, .empty, [], [], false, .nil, []⟩

theorem agree_unread (dialect : Dialect) (text : String) :
    Agree (start dialect (Token.scan text).tokens).run (unread dialect text.toList).run := by
  have hunread : unread dialect text.toList =
      (start dialect (Token.scan text).tokens).move (fun _ => .start) 0 := by
    rw [Token.scan_eq, start_eq]
    rfl
  rw [hunread, run_move]
  exact ⟨rfl, rfl, rfl⟩

/-- The line that opens a group. One step reads the keyword, the name and the brace, and nothing of
what follows. -/
theorem run_of_groupHead {r : Reading} {t brace : Token} {p : Place} {ts : List Token}
    (hd : r.dialect = .native) (hg : r.openGroups = [])
    (ha : r.cursor.ahead = ⟨.ident, "group", p⟩ :: t :: brace :: ts) (ht : t.kind.isName = true)
    (hbrace : brace.kind = .openBrace) :
    r.finished = false ∧ r.step.cursor.ahead = ts ∧
      r.step = { r.push t.text t .brace r.step.cursor with cursor := r.step.cursor } := by
  have hend : r.cursor.atEnd = false := by simp [Cursor.atEnd, isAt, current, ha]
  have hadvance : r.cursor.advance.ahead = t :: brace :: ts := ahead_advance_cons ha hend
  have hend₁ : r.cursor.advance.atEnd = false := by
    cases hk : t.kind <;> simp_all [Cursor.atEnd, isAt, current, Token.Kind.isName]
  have hadvance₂ : r.cursor.advance.advance.ahead = brace :: ts :=
    ahead_advance_cons hadvance hend₁
  have hend₂ : r.cursor.advance.advance.atEnd = false := by
    simp [Cursor.atEnd, isAt, current, hadvance₂, hbrace]
  have hform : r.form true = .keywordGroup := by
    have hlower : Text.lower "group" = "group" := by decide +kernel
    have hgroup : r.groupForm? = some .keywordGroup := by
      simp [groupForm?, hd, current, peek, ha, hlower, ht, hbrace, Dialect.groupWords]
    have hcurrent : r.cursor.current.kind = .ident := by simp [current, ha]
    unfold form
    simp only [hcurrent, wordForm?_native hd, hgroup]
  have hstep : r.step = (effect .native r.cursor true .keywordGroup).apply r := by
    rw [step_of_form hg hend hform, hd]
  refine ⟨by simp [finished, hend], ?_, ?_⟩
  · rw [hstep, cursor_apply]
    exact ahead_advance_cons hadvance₂ hend₂
  · have hcurrent : r.cursor.advance.current = t := by simp [current, hadvance]
    rw [hstep, cursor_apply]
    simp [effect, Effect.opening, Effect.apply, push, hcurrent, putAll_nil, Forest.append_nil]

/-- The readings of the two texts come to the group abreast: the second one has passed the line end
behind its brace. -/
theorem exists_abreast {g s : String} (hg : Token.IsWord g) (hs : LineText s) (rest : String) :
    ∃ (r₁ r₂ : Reading) (k : OpenGroup),
      (unread .native (onOneLine g s rest).toList).run = r₁.run ∧
      (unread .native (onThreeLines g s rest).toList).run = r₂.run ∧ k.closer = .brace ∧
      r₁.metadata = .empty ∧
      Abreast ⟨.closeBrace, "\x7d", .start⟩ ⟨.newline, "\n", .start⟩
        (⟨.newline, "\n", .start⟩ :: Token.unplaced rest.toList) k []
        ⟨0, Token.unplaced s.toList, Token.endAt .start, rfl⟩ r₁ r₂ := by
  have hname : (Token.nameKind g.toList).isName = true :=
    Token.Kind.isName_of_isWord hg.isWord_nameKind
  have ha₁ : (unread .native (onOneLine g s rest).toList).cursor.ahead = _ :=
    unplaced_onOneLine hg hs rest
  have ha₂ : (unread .native (onThreeLines g s rest).toList).cursor.ahead = _ :=
    unplaced_onThreeLines hg hs rest
  rw [unplaced_groupHead hg] at ha₁ ha₂
  obtain ⟨hf₁, hahead₁, hs₁⟩ := run_of_groupHead rfl rfl ha₁ hname rfl
  obtain ⟨hf₂, hahead₂, hs₂⟩ := run_of_groupHead rfl rfl ha₂ hname rfl
  obtain ⟨hblank, hrest⟩ := step_of_blank hahead₂ rfl
  have hend : (unread .native (onThreeLines g s rest).toList).step.cursor.atEnd = false := by
    simp [Cursor.atEnd, isAt, current, hahead₂]
  have hf : (unread .native (onThreeLines g s rest).toList).step.finished = false := by
    simp [finished, hend]
  refine ⟨_, _, ⟨g, ⟨Token.nameKind g.toList, g, .start⟩, .brace, .nil⟩,
    run_of_not_finished hf₁, (run_of_not_finished hf₂).trans (run_of_not_finished hf), rfl, ?_,
    ?_, ?_, ?_, ?_, hahead₁, Or.inl ?_⟩
  · rw [hs₁]
    rfl
  · rw [dialect_step hf₁]
    rfl
  · rw [hs₁]
    rfl
  · rw [hblank, cursor_apply, hs₁, hs₂]
    simp [apply_eq, putAll_nil, Forest.append_nil, push, unread]
  · rw [final_step hf, final_step hf₂, final_step hf₁]
    rfl
  · rw [hblank, cursor_apply]
    exact hrest

/-- **A closing brace on the line.** A group on one line gives the metadata, the blocks and the
edges that it gives on three, whatever follows, if and only if no statement in it is an edge
line. -/
theorem ofText_groupLine {g s : String} (hg : Token.IsWord g) (hs : LineText s) :
    (∀ rest,
      let x := (ofText (onOneLine g s rest) (some .native)).document
      let y := (ofText (onThreeLines g s rest) (some .native)).document
      x.metadata = y.metadata ∧ x.blocks = y.blocks ∧ x.edges = y.edges) ↔
    EdgeFree (Cursor.ofTokens (Token.scan s).tokens) := by
  let c : Cursor := ⟨0, Token.unplaced s.toList, Token.endAt .start, rfl⟩
  have hc : EdgeFree c ↔ EdgeFree (Cursor.ofTokens (Token.scan s).tokens) := by
    rw [Token.scan_eq, ofTokens_append_endAt]
    exact edgeFree_move (c := ⟨0, Token.tokens .start s.toList,
      Token.endAt (Place.start.after s.toList), rfl⟩) (fun _ => .start) 0
  have hquiet : ∀ (rest : List Token) (depth : Nat),
      hasConnector depth (⟨.closeBrace, "\x7d", .start⟩ :: ⟨.newline, "\n", .start⟩ :: rest)
        = false := by
    intro rest depth
    simp [hasConnector, Token.Kind.endsLine, Token.Kind.isConnector]
  rw [← hc]
  constructor
  · intro h
    refine Classical.byContradiction fun hfree => ?_
    obtain ⟨d, hpasses, hne, hedge⟩ := hs.plain.exists_edges hfree
    obtain ⟨r₁, r₂, k, hrun₁, hrun₂, hb, hempty, hab⟩ := exists_abreast hg hs "c"
    obtain ⟨q₁, q₂, hq₁, hq₂, hab, hmeta⟩ := hab.passes rfl rfl hb (hquiet _) hpasses hs.plain
    have hword : Token.unplaced "c".toList = [⟨.ident, "c", .start⟩] := by decide +kernel
    rw [hword] at hab
    obtain ⟨hleft, hright⟩ := hab.parts rfl rfl hb (hs.plain.passes hpasses) hne hedge
    have hsame : (unread .native (onOneLine g s "c").toList).run.metadata =
        (unread .native (onThreeLines g s "c").toList).run.metadata :=
      (agree_unread .native _).metadata.symm.trans
        ((h "c").1.trans (agree_unread .native _).metadata)
    rw [hrun₁, hrun₂, hq₁, hq₂, hleft, hright, hmeta, hempty] at hsame
    exact absurd hsame (by decide)
  · rintro ⟨d, hpasses, hnil⟩ rest
    obtain ⟨r₁, r₂, k, hrun₁, hrun₂, hb, -, hab⟩ := exists_abreast hg hs rest
    obtain ⟨q₁, q₂, hq₁, hq₂, hab, -⟩ := hab.passes rfl rfl hb (hquiet _) hpasses hs.plain
    have hagree : Agree (unread .native (onOneLine g s rest).toList).run
        (unread .native (onThreeLines g s rest).toList).run := by
      rw [hrun₁, hrun₂, hq₁, hq₂]
      exact hab.agree hnil rfl rfl hb
    have hx := agree_unread .native (onOneLine g s rest)
    have hy := agree_unread .native (onThreeLines g s rest)
    exact ⟨hx.metadata.trans (hagree.metadata.trans hy.metadata.symm),
      hx.blocks.trans (hagree.blocks.trans hy.blocks.symm),
      hx.edges.trans (hagree.edges.trans hy.edges.symm)⟩

/-- An entity, a string that stands for nothing, and a word. -/
def quietLine : String := "a [k: \"\x7d\"] \"x -> y\" b"

theorem lineText_quietLine : LineText quietLine :=
  ⟨by decide +kernel, by decide +kernel, by decide +kernel⟩

theorem edgeFree_quietLine : EdgeFree (Cursor.ofTokens (Token.scan quietLine).tokens) :=
  ⟨_, .next (by decide +kernel) (by decide +kernel) (.next (by decide +kernel) (by decide +kernel)
    (.next (by decide +kernel) (by decide +kernel) (.refl _))), by decide +kernel⟩

theorem ofText_groupLine_quietLine :
    Token.IsWord "g" ∧ LineText quietLine ∧
      (ofText (onOneLine "g" quietLine "c") (some .native)).document.metadata =
        (ofText (onThreeLines "g" quietLine "c") (some .native)).document.metadata := by
  have hg : Token.IsWord "g" := ⟨.ident, rfl, by decide +kernel⟩
  exact ⟨hg, lineText_quietLine,
    ((ofText_groupLine hg lineText_quietLine).mpr edgeFree_quietLine "c").1⟩

theorem edge_takes_brace :
    Token.IsWord "g" ∧ LineText "a -> b" ∧
      (ofText (onOneLine "g" "a -> b" "c") (some .native)).document.metadata = .empty ∧
      (ofText (onThreeLines "g" "a -> b" "c") (some .native)).document.metadata =
        KeyedList.empty.put "c" (.flag true) := by
  have hone := run_eq_steps (n := 8)
    (r := start .native (Token.scan (onOneLine "g" "a -> b" "c")).tokens) (by decide +kernel)
  have hthree := run_eq_steps (n := 8)
    (r := start .native (Token.scan (onThreeLines "g" "a -> b" "c")).tokens) (by decide +kernel)
  refine ⟨⟨.ident, rfl, by decide +kernel⟩,
    ⟨by decide +kernel, by decide +kernel, by decide +kernel⟩, ?_, ?_⟩
  · show (start .native (Token.scan (onOneLine "g" "a -> b" "c")).tokens).run.metadata = _
    rw [hone]
    decide +kernel
  · show (start .native (Token.scan (onThreeLines "g" "a -> b" "c")).tokens).run.metadata = _
    rw [hthree]
    decide +kernel

end Reading

end Schematic
