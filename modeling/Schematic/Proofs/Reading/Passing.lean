import Schematic.Proofs.Reading.Remarks

/-!
# Readings pass over remarks

Two readings that differ in the cursor alone, where remarks are put in between the tokens that the
second one sees, stay in that relation to the end (`run_remarked`). At a token that says something
both choose the same form and take the same step; a line end or a comment that both see they pass;
and what the second sees alone it passes alone.
-/

namespace Schematic

open Token

namespace Reading

open Cursor

variable {c d : Cursor} {r r' : Reading}

/-! ## Statements -/

/-- The same is added, and behind it remarks are put in. Behind a statement these may be blank lines
too. -/
structure Effect.Remarked (e e' : Effect) : Prop where
  same : e' = { e with cursor := e'.cursor }
  cursor : Token.Remarked true e.cursor.ahead e'.cursor.ahead

theorem headerDirection_remarked {ts us : List Token} (h : Token.Remarked false ts us) :
    headerDirection us = headerDirection ts := by
  have hnone {zs : List Token} (hzs : ∀ z ∈ zs.head?, Token.Remarked.Mute z) :
      headerDirection zs = [] := by
    cases zs with
    | nil => rfl
    | cons z zs =>
        have hk : z.kind ≠ .ident := by
          rcases hzs z rfl with hk | hk <;> rw [hk] <;> exact nofun
        simp only [headerDirection, hk, if_false]
  rcases h.head_cases rfl with ⟨_, _, _, -, rfl, rfl, -⟩ | ⟨hts, hus⟩
  · rfl
  · rw [hnone hts, hnone hus]

theorem opening_remarked (h : Token.Remarked false c.ahead d.ahead)
    (hc : c.current.kind.isLoud = true) (hbrace : (c.peek 1).kind = .openBrace) :
    Effect.Remarked (.opening c) (.opening d) := by
  obtain ⟨ts, us, hts, hus, hrest⟩ := current_remarked h hc
  have hcur : d.current = c.current := current_cons hus
  rw [← ahead_advance hts hc, ← ahead_advance hus hc] at hrest
  have hloud : c.advance.current.kind.isLoud = true := by
    rw [current_advance (atEnd_of_loud hts hc), hbrace]
    rfl
  obtain ⟨xs, ys, hxs, hys, hrest'⟩ := current_remarked hrest hloud
  rw [← ahead_advance hxs hloud, ← ahead_advance hys hloud] at hrest'
  exact ⟨by simp only [Effect.opening, hcur], hrest'.mono⟩

/-- A heading that begins with a name has that name, as a name does not end the line. -/
theorem head?_restOfLine {t : Token} {ts : List Token} (h : c.ahead = t :: ts)
    (ht : t.kind.isName = true) : c.restOfLine.1.head? = some t := by
  have hline : t.kind.endsLine = false := by
    cases hk : t.kind <;> rw [hk] at ht <;> first | rfl | cases ht
  simp [restOfLine, upTo, h, hline]

/-- At a token that says something a statement of one form has one effect. The cases are the forms,
each with the readers it is made of. -/
theorem effect_remarked (h : Token.Remarked false c.ahead d.ahead)
    (hc : c.current.kind.isLoud = true) {top : Bool} {form : Form} (dialect : Dialect)
    (hsees : Sees c form) (hblock : form = .endBlock → (c.peek 1).kind.isName = true) :
    Effect.Remarked (effect dialect c top form) (effect dialect d top form) := by
  obtain ⟨ts, us, hts, hus, hrest⟩ := current_remarked h hc
  have hcur : d.current = c.current := current_cons hus
  have hend := atEnd_of_loud hts hc
  rw [← ahead_advance hts hc, ← ahead_advance hus hc] at hrest
  obtain ⟨hline, hbehind⟩ := restOfLine_remarked h (fun _ => false) fun _ _ => rfl
  obtain ⟨hline', hbehind'⟩ := restOfLine_remarked hrest (fun _ => false) fun _ _ => rfl
  have hjoined := Phrase.joined_remarked hline'
  cases form with
  | blank => exact ⟨rfl, hrest.mono⟩
  | passed => exact ⟨rfl, hbehind⟩
  | header type =>
      exact ⟨by simp only [effect, headerDirection_remarked hline'], hbehind'⟩
  | directive => exact ⟨by simp only [effect, hcur, hjoined], hbehind'⟩
  | keywordGroup =>
      have hname : c.advance.current.kind.isName = true := by
        rw [current_advance hend]
        exact hsees.1
      refine opening_remarked hrest (isLoud_of_isName hname) ?_
      rw [peek_advance hend]
      exact hsees.2
  | endBlock =>
      have hname : c.advance.current.kind.isName = true := by
        rw [current_advance hend]
        exact hblock rfl
      obtain ⟨xs, ys, hxs, hys, -⟩ := current_remarked hrest (isLoud_of_isName hname)
      refine ⟨?_, hbehind'⟩
      simp only [effect, hcur, head?_restOfLine hxs hname, head?_restOfLine hys hname]
  | declaration =>
      obtain ⟨hvalue, hdiag, hnext⟩ := Declaration.keyword_remarked dialect h hc hsees
      exact ⟨by simp only [effect, Effect.declaring, hvalue, hdiag], hnext⟩
  | group => exact opening_remarked h hc hsees
  | entity =>
      obtain ⟨hvalue, hdiag, hnext⟩ :=
        Declaration.entity_remarked dialect c.current.text .empty hrest
      refine ⟨by simp only [effect, Effect.declaring, hcur, hvalue, hdiag], ?_⟩
      simp only [effect, Effect.declaring, hcur]
      exact hnext
  | edges => exact ⟨by simp only [effect, EdgeLine.read_remarked dialect hline], hbehind⟩
  | metadata => exact ⟨by simp only [effect, hcur, hjoined], hbehind'⟩
  | lone =>
      have hstop : ∀ t : Token, t.kind = .comment →
          (!top && t.kind == .closeBrace) = false := by
        intro t ht
        rw [ht, Bool.and_eq_false_iff]
        exact Or.inr rfl
      exact ⟨by simp only [effect, hcur], (restOfLine_remarked hrest _ hstop).2⟩
  | stray => exact ⟨by simp only [effect, hcur], hrest.mono⟩

theorem isName_of_endBlock {r : Reading} {top : Bool} (h : r.form top = .endBlock) :
    (r.cursor.peek 1).kind.isName = true := by
  have hgroup : r.groupForm? = some .endBlock := chosenBy_of_form h
  simp only [groupForm?] at hgroup
  split at hgroup
  · next hw => exact hw.2.2
  · cases hgroup

/-- The form of the statement at a token that says something is the same in both. Each question that
the choice asks is answered the same way on a line with remarks. -/
theorem form_remarked (h : Token.Remarked false r.cursor.ahead r'.cursor.ahead)
    (hc : r.cursor.current.kind.isLoud = true) (hsame : r' = { r with cursor := r'.cursor })
    (top : Bool) : r'.form top = r.form top := by
  obtain ⟨ts, us, hts, hus, hrest⟩ := current_remarked h hc
  have hcur : r'.cursor.current = r.cursor.current := current_cons hus
  have hend := atEnd_of_loud hts hc
  have hend' := atEnd_of_loud hus hc
  rw [← ahead_advance hts hc, ← ahead_advance hus hc] at hrest
  have hsecond {p : Token.Kind → Bool} (hp : ∀ k, p k = true → k.isLoud = true) :
      p (r'.cursor.peek 1).kind = p (r.cursor.peek 1).kind := by
    rw [← current_advance hend, ← current_advance hend']
    exact kind_current_remarked hrest hp
  have hsecondIs {k : Token.Kind} (hk : k.isLoud = true) :
      ((r'.cursor.peek 1).kind == k) = ((r.cursor.peek 1).kind == k) :=
    hsecond (p := fun j => j == k) fun j hj => by
      rw [eq_of_beq hj]
      exact hk
  have hthird : (r.cursor.peek 1).kind.isName = true →
      ((r'.cursor.peek 2).kind = .openBrace ↔ (r.cursor.peek 2).kind = .openBrace) := by
    intro hname
    rw [← current_advance hend] at hname
    have hloud := isLoud_of_isName hname
    obtain ⟨xs, ys, hxs, hys, hrest'⟩ := current_remarked hrest hloud
    rw [← ahead_advance hxs hloud, ← ahead_advance hys hloud] at hrest'
    rw [← peek_advance hend 1, ← peek_advance hend' 1, ← current_advance (atEnd_of_loud hxs hloud),
      ← current_advance (atEnd_of_loud hys hloud)]
    simpa [isAt] using congrArg (· = true) (isAt_remarked hrest' (k := .openBrace) rfl)
  rcases form_congr top (by rw [hsame]) (by rw [hsame]) hcur (hasConnector_remarked h rfl 0)
    (hsecond fun _ hk => isLoud_of_isName hk) hthird (hsecondIs rfl) (hsecondIs rfl) with
    hform | ⟨hlook, hbrace, -⟩
  · exact hform
  · -- behind the brace, which both have seen, the same first row is found
    refine absurd ?_ hlook
    have hloud : r.cursor.advance.current.kind.isLoud = true := by
      rw [current_advance hend, hbrace]
      rfl
    obtain ⟨xs, ys, hxs, hys, hrest'⟩ := current_remarked hrest hloud
    have hdrop {c : Cursor} {t u : Token} {ts us : List Token} (hts : c.ahead = t :: ts)
        (ht : t.kind.isLoud = true) (hus : c.advance.ahead = u :: us) : c.ahead.drop 2 = us := by
      rw [ahead_advance hts ht] at hus
      rw [hts, hus]
      rfl
    unfold looksLikeEntity
    rw [hdrop hts hc hxs, hdrop hus hc hys, beginsWithRow_remarked hrest']

/-! ## Steps -/

/-- `r'` has read what `r` has read, and remarks are put in between the tokens it sees. Between two
statements these may be blank lines too. -/
structure Remarked (r r' : Reading) : Prop where
  same : r' = { r with cursor := r'.cursor }
  cursor : Token.Remarked true r.cursor.ahead r'.cursor.ahead

theorem Remarked.apply {e e' : Effect} (he : Effect.Remarked e e')
    (hsame : r' = { r with cursor := r'.cursor }) : Remarked (e.apply r) (e'.apply r') := by
  refine ⟨?_, by rw [cursor_apply, cursor_apply]; exact he.cursor⟩
  rw [cursor_apply]
  exact apply_same he.same hsame

theorem closing?_remarked (h : Token.Remarked false c.ahead d.ahead)
    (hc : c.current.kind.isLoud = true) (g : OpenGroup) :
    (closing? c g = none ∧ closing? d g = none) ∨
      ∃ x x', closing? c g = some x ∧ closing? d g = some x' ∧
        x'.diagnostics = x.diagnostics ∧ Token.Remarked true x.cursor.ahead x'.cursor.ahead := by
  obtain ⟨ts, us, hts, hus, hrest⟩ := current_remarked h hc
  have hcur : d.current = c.current := current_cons hus
  have hat : d.isAt .closeBrace = c.isAt .closeBrace := by simp only [isAt, hcur]
  rw [← ahead_advance hts hc, ← ahead_advance hus hc] at hrest
  simp only [closing?, atEnd_of_loud hts hc, atEnd_of_loud hus hc, Bool.false_eq_true, if_false,
    hat, hcur]
  cases g.closer with
  | brace =>
      cases c.isAt .closeBrace with
      | true => exact Or.inr ⟨_, _, rfl, rfl, rfl, hrest.mono⟩
      | false => exact Or.inl ⟨rfl, rfl⟩
  | endWord =>
      cases c.current.isKeyword "end" with
      | true =>
          obtain ⟨-, hbehind⟩ := restOfLine_remarked h (fun _ => false) fun _ _ => rfl
          exact Or.inr ⟨_, _, rfl, rfl, rfl, hbehind⟩
      | false => exact Or.inl ⟨rfl, rfl⟩

/-- Closings that differ in the cursor, of readings that differ in the cursor, keep the relation. -/
theorem Remarked.closing {x x' : Closing} (hdiag : x'.diagnostics = x.diagnostics)
    (hcursor : Token.Remarked true x.cursor.ahead x'.cursor.ahead)
    (hsame : r' = { r with cursor := r'.cursor }) (g : OpenGroup) (outer : List OpenGroup) :
    Remarked (x.apply r g outer) (x'.apply r' g outer) := by
  refine ⟨?_, hcursor⟩
  simp only [Closing.apply, hdiag]
  rw [hsame]

/-- At a token that says something both take the same step: they close the same group, or read the
same statement. -/
theorem step_remarked (h : Token.Remarked false r.cursor.ahead r'.cursor.ahead)
    (hc : r.cursor.current.kind.isLoud = true) (hsame : r' = { r with cursor := r'.cursor }) :
    Remarked r.step r'.step := by
  have hgroups : r'.openGroups = r.openGroups := by rw [hsame]
  have hdialect : r'.dialect = r.dialect := by rw [hsame]
  obtain ⟨ts, us, hts, hus, -⟩ := current_remarked h hc
  have hend := atEnd_of_loud hts hc
  have hend' := atEnd_of_loud hus hc
  rcases step_spec (r := r) (by simp [finished, hend]) with
    ⟨g, outer, x, hg, hx, hs⟩ | ⟨-, hstays, hs⟩
  · rcases closing?_remarked h hc g with ⟨hn, -⟩ | ⟨y, y', hy, hy', hdiag, hbehind⟩
    · rw [hx] at hn
      cases hn
    · obtain rfl : x = y := Option.some.inj (hx.symm.trans hy)
      rw [hs, step_of_closing (hgroups.trans hg) hy']
      exact .closing hdiag hbehind hsame g outer
  · have hstays' : r'.Stays := by
      intro g hg
      rw [hgroups] at hg
      rcases closing?_remarked h hc g with ⟨-, hn⟩ | ⟨y, y', hy, -⟩
      · exact hn
      · rw [hstays g hg] at hy
        cases hy
    have htop : r'.atTop = r.atTop := by rw [atTop, hgroups]; rfl
    have hnext' : r'.next = effect r.dialect r'.cursor r.atTop (r.form r.atTop) := by
      rw [next, hdialect, htop, form_remarked h hc hsame]
    rw [hs, step_of_stays hend' hstays', hnext']
    exact .apply (effect_remarked h hc r.dialect (form_sees r r.atTop) isName_of_endBlock) hsame

/-- A line end or a comment is passed, and nothing else happens. So remarks that only the second
reading sees cost it steps and nothing more. -/
theorem step_of_mute {u : Token} {us : List Token} (ha : r.cursor.ahead = u :: us)
    (hu : Token.Remarked.Mute u) :
    r.finished = false ∧ r.step = { r with cursor := r.cursor.advance } ∧
      r.cursor.advance.ahead = us := by
  have hblank : isBlankKind u.kind = true := by rcases hu with hk | hk <;> rw [hk] <;> rfl
  have hend : r.cursor.atEnd = false := by
    rw [atEnd, isAt_cons ha]
    rcases hu with hk | hk <;> rw [hk] <;> rfl
  obtain ⟨hstep, hrest⟩ := step_of_blank ha hblank
  refine ⟨by simp [finished, hend], ?_, hrest⟩
  rw [hstep]
  simp [apply_eq, putAll_nil, Forest.append_nil]

/-! ## Runs -/

/-- At the end of the input all open groups are closed, one by one, in both readings at once. -/
theorem step_remarked_nil (hsame : r' = { r with cursor := r'.cursor }) (h : r.cursor.ahead = [])
    (h' : r'.cursor.ahead = []) (hf : r'.finished = false) :
    r.finished = false ∧ Remarked r.step r'.step := by
  have hgroups : r'.openGroups = r.openGroups := by rw [hsame]
  have hend := atEnd_of_ahead_nil h
  have hend' := atEnd_of_ahead_nil h'
  cases hg : r.openGroups with
  | nil =>
      rw [finished, hgroups, hg, hend'] at hf
      cases hf
  | cons g outer =>
      have hx {c : Cursor} (hc : c.atEnd = true) :
          closing? c g = some ⟨c, [⟨g.opener.place, OpenGroup.problem g⟩]⟩ := by
        simp [closing?, hc]
      rw [step_of_closing hg (hx hend), step_of_closing (hgroups.trans hg) (hx hend')]
      refine ⟨by simp [finished, hg], .closing ?_ ?_ hsame g outer⟩
      · rfl
      · rw [h, h']
        exact .nil

theorem Remarked.passing (hsame : r' = { r with cursor := r'.cursor })
    (h : Token.Remarked true c.ahead d.ahead) :
    Remarked { r with cursor := c } { r' with cursor := d } := by
  refine ⟨?_, h⟩
  rw [hsame]

/-- Remarks change nothing of what a run reads. The induction is on the run of the second reading,
which is the one that takes more steps. -/
theorem run_remarked (h : Remarked r r') : r'.run = { r.run with cursor := r'.run.cursor } := by
  fun_induction run r' generalizing r with
  | case1 r' hf =>
      have hcursor := h.cursor
      generalize hts : r.cursor.ahead = ts at hcursor
      generalize hus : r'.cursor.ahead = us at hcursor
      have busy {u : Token} {us : List Token} (hus : r'.cursor.ahead = u :: us)
          (hu : Token.Remarked.Mute u) : False := by
        rw [(step_of_mute hus hu).1] at hf
        cases hf
      cases hcursor with
      | nil =>
          have hgroups : r'.openGroups = r.openGroups := by rw [h.same]
          have hfirst : r.finished = true := by
            simp only [finished, Bool.and_eq_true] at hf ⊢
            rw [← hgroups]
            exact ⟨hf.1, atEnd_of_ahead_nil hts⟩
          rw [run, if_pos hfirst]
          exact h.same
      | loud ht _ => simp [finished, atEnd_of_loud hus ht] at hf
      | newline _ hu _ => exact (busy hus (Or.inl hu.kind)).elim
      | comment _ hu _ => exact (busy hus (Or.inr hu.kind)).elim
      | remark hu _ _ => exact (busy hus (Or.inr hu.kind)).elim
      | blank hu _ _ => exact (busy hus (Or.inl hu.kind)).elim
  | case2 r' hf ih =>
      have hf := Bool.eq_false_iff.mpr hf
      have hcursor := h.cursor
      generalize hts : r.cursor.ahead = ts at hcursor
      generalize hus : r'.cursor.ahead = us at hcursor
      have both {t u : Token} {ts us : List Token} (hts : r.cursor.ahead = t :: ts)
          (hus : r'.cursor.ahead = u :: us) (ht : Token.Remarked.Mute t)
          (hu : Token.Remarked.Mute u) (hrest : Token.Remarked true ts us) :
          r'.step.run = { r.run with cursor := r'.step.run.cursor } := by
        obtain ⟨hfirst, hstep, hc⟩ := step_of_mute hts ht
        obtain ⟨-, hstep', hd⟩ := step_of_mute hus hu
        rw [← hc, ← hd] at hrest
        rw [run_of_not_finished hfirst, hstep]
        refine ih ?_
        rw [hstep']
        exact .passing h.same hrest
      have second {u : Token} {ts us : List Token} (hts : r.cursor.ahead = ts)
          (hus : r'.cursor.ahead = u :: us) (hu : Token.Remarked.Mute u)
          (hrest : Token.Remarked true ts us) :
          r'.step.run = { r.run with cursor := r'.step.run.cursor } := by
        obtain ⟨-, hstep', hd⟩ := step_of_mute hus hu
        rw [← hts, ← hd] at hrest
        refine ih ?_
        rw [hstep']
        exact .passing (c := r.cursor) h.same hrest
      cases hcursor with
      | nil =>
          obtain ⟨hfirst, hstep⟩ := step_remarked_nil h.same hts hus hf
          rw [run_of_not_finished hfirst]
          exact ih hstep
      | @loud _ t ts us ht hrest =>
          have hfirst : r.finished = false := by simp [finished, atEnd_of_loud hts ht]
          have hstep : Remarked r.step r'.step := by
            refine step_remarked ?_ ?_ h.same
            · rw [hts, hus]
              exact .loud ht hrest
            · rw [current_cons hts]
              exact ht
          rw [run_of_not_finished hfirst]
          exact ih hstep
      | newline ht hu hrest => exact both hts hus (Or.inl ht.kind) (Or.inl hu.kind) hrest
      | comment ht hu hrest => exact both hts hus (Or.inr ht.kind) (Or.inr hu.kind) hrest
      | remark hu _ hrest => exact second hts hus (Or.inr hu.kind) hrest
      | blank hu _ hrest => exact second hts hus (Or.inl hu.kind) hrest

end Reading

end Schematic
