import Mathlib.Logic.Relation
import Schematic.Proofs.Diagnostic
import Schematic.Proofs.Reading.Lookahead
import Schematic.Proofs.Reading.Relocation
import Schematic.Proofs.Token.Lines

/-!
# A text behind another

Once a text is read in good order, nothing of it is left open, and a text behind it is read as if it
stood alone. `Extends` follows the reading of the first text, with and without the second behind it,
step by step to its end; from there the frame and the move of places take over.
-/

namespace Schematic

namespace Reading

open Cursor

section Boundary

variable {t : Token} {ys : List Token} {r r' : Reading}

/-- `r'` has read what `r` has read, and sees a line end and more text behind what `r` sees. If `r`
sees nothing any more, `r'` may have passed the line end already. -/
structure Extends (t : Token) (ys : List Token) (r r' : Reading) : Prop where
  same : r' = { r with cursor := r'.cursor }
  cursor : Cursor.Follows t ys r.cursor r'.cursor

/-! ## Reports stay -/

theorem diagnostics_apply (e : Effect) (r : Reading) :
    (e.apply r).diagnostics = r.diagnostics ++ e.diagnostics := by
  unfold Effect.apply
  split <;> rfl

theorem openGroups_apply (e : Effect) (r : Reading) :
    (e.apply r).openGroups =
      (e.opened.map fun o => ⟨o.name, o.opener, o.closer, r.blocks ++ e.blocks⟩).toList
        ++ r.openGroups := by
  cases ho : e.opened <;> simp [Effect.apply, ho, push]

theorem cursor_apply (e : Effect) (r : Reading) : (e.apply r).cursor = e.cursor := by
  unfold Effect.apply
  split <;> rfl

theorem metadata_apply (e : Effect) (r : Reading) :
    (e.apply r).metadata = r.metadata.putAll e.entries := by
  unfold Effect.apply
  split <;> rfl

theorem exists_diagnostics_step (h : r.finished = false) :
    ∃ ds, r.step.diagnostics = r.diagnostics ++ ds := by
  rcases step_spec h with ⟨g, outer, x, -, -, hs⟩ | ⟨-, -, hs⟩
  · exact ⟨x.diagnostics, by rw [hs]; rfl⟩
  · exact ⟨r.next.diagnostics, by rw [hs, diagnostics_apply]⟩

/-- What holds of all reports in the end held of those made so far, because steps only append
reports. -/
theorem forall_of_run {P : Diagnostic → Prop} (h : ∀ d ∈ r.run.diagnostics, P d) :
    ∀ d ∈ r.diagnostics, P d := by
  fun_induction run r with
  | case1 r _ => exact h
  | case2 r hf ih =>
      obtain ⟨ds, hds⟩ := exists_diagnostics_step (Bool.eq_false_iff.mpr hf)
      have hstep := ih h
      rw [hds] at hstep
      exact (List.forall_mem_append.mp hstep).1

theorem leavesOpen_problem (g : OpenGroup) : (OpenGroup.problem g).leavesOpen = true := by
  unfold OpenGroup.problem
  split <;> rfl

/-- A group that is open when the input is over is reported. The next step closes it with a report,
and reports stay. -/
theorem not_closed_of_nil (ho : r.openGroups ≠ []) (ha : r.cursor.ahead = []) :
    ¬ Closed r.run.diagnostics := by
  intro hclosed
  obtain ⟨g, outer, hg⟩ := List.exists_cons_of_ne_nil ho
  have hend := atEnd_of_ahead_nil ha
  have hf : r.finished = false := by simp [finished, hg]
  have hx : closing? r.cursor g = some ⟨r.cursor, [⟨g.opener.place, OpenGroup.problem g⟩]⟩ := by
    simp [closing?, hend]
  rw [run, if_neg (Bool.eq_false_iff.mp hf), step_of_closing hg hx] at hclosed
  have hstep := forall_of_run hclosed
  have hopen := (closed_append.mp hstep).2 _ (List.mem_singleton.mpr rfl)
  simp [leavesOpen_problem] at hopen

/-- A blank is passed, whatever groups are open: it closes none of them and is a statement by
itself. -/
theorem step_of_blank {u : Token} {us : List Token} (ha : r.cursor.ahead = u :: us)
    (hu : isBlankKind u.kind = true) :
    r.step = ({ cursor := r.cursor.advance } : Effect).apply r ∧ r.cursor.advance.ahead = us := by
  have hcur : r.cursor.current = u := by simp [current, ha]
  have hend : r.cursor.atEnd = false := by
    cases hk : u.kind <;> simp_all [isBlankKind, atEnd, isAt]
  have hstays : r.Stays := by
    intro g _
    have hbrace : r.cursor.isAt .closeBrace = false := by
      cases hk : u.kind <;> simp_all [isBlankKind, isAt]
    have hword : r.cursor.current.isKeyword "end" = false := by
      cases hk : u.kind <;> simp_all [isBlankKind, Token.isKeyword]
    cases hc : g.closer <;> simp [closing?, hend, hc, hbrace, hword]
  have hform : r.form r.atTop = .blank := by
    cases hk : u.kind <;> simp_all [isBlankKind, form]
  refine ⟨?_, ahead_advance_cons ha hend⟩
  rw [step_of_stays hend hstays, next, hform]
  rfl

/-- A group behind whose brace nothing but blanks follows is never closed. The induction is on the
blanks, each of which is passed, until the input is over. -/
theorem not_closed_of_blank (ho : r.openGroups ≠ [])
    (hb : ∀ u ∈ r.cursor.ahead, isBlankKind u.kind = true) : ¬ Closed r.run.diagnostics := by
  induction ha : r.cursor.ahead generalizing r with
  | nil => exact not_closed_of_nil ho ha
  | cons u us ih =>
      obtain ⟨hstep, hrest⟩ := step_of_blank ha (hb u (by simp [ha]))
      have hf : r.finished = false := by
        obtain ⟨g, outer, hg⟩ := List.exists_cons_of_ne_nil ho
        simp [finished, hg]
      rw [run, if_neg (Bool.eq_false_iff.mp hf), hstep]
      refine ih (r := Effect.apply _ r) ?_ ?_ ?_
      · rw [openGroups_apply]
        exact ho
      · intro v hv
        rw [cursor_apply, hrest] at hv
        exact hb v (by rw [ha]; exact List.mem_cons_of_mem _ hv)
      · rw [cursor_apply]
        exact hrest

/-! ## Step by step -/

theorem hasConnector_of_newline (ht : t.kind = .newline) (ys : List Token) (depth : Nat) :
    hasConnector depth (t :: ys) = false := by
  simp [hasConnector, ht, Token.Kind.endsLine]

theorem form_extends (h : r'.cursor.ahead = r.cursor.ahead ++ t :: ys) (ht : t.kind = .newline)
    (hsame : r' = { r with cursor := r'.cursor }) (hend : r.cursor.atEnd = false) (top : Bool) :
    r'.form top = r.form top ∨
      r.form top = .group ∧ r'.form top = .entity ∧
        ∀ u ∈ r.cursor.advance.advance.ahead, isBlankKind u.kind = true := by
  rcases form_append h (by rw [ht]; rfl) (hasConnector_of_newline ht ys) (by rw [hsame])
    (by rw [hsame]) hend top with hform | ⟨hlook, hbrace, hform, hform'⟩
  · exact Or.inl hform
  · have hinner : isInner (r.cursor.peek 1).kind = true := by rw [hbrace]; rfl
    have hend' := advance_atEnd_of_peek hend hinner
    have hlt := lt_of_isInner hinner
    have hdrop : r.cursor.advance.advance.ahead = r.cursor.ahead.drop 2 := by
      rw [advance_eq_skip hend', advance_eq_skip hend, skip_skip]
      rfl
    have hsplit : r'.cursor.ahead.drop 2 = r.cursor.ahead.drop 2 ++ t :: ys := by
      rw [h, List.drop_append_of_le_length hlt]
    unfold looksLikeEntity at hlook hform hform'
    rw [hsplit] at hlook hform'
    rcases beginsWithRow_append ht (r.cursor.ahead.drop 2) ys with hrow | ⟨hrow, hblank⟩
    · exact absurd hrow hlook
    · rw [hrow] at hform hlook
      rw [eq_true_of_ne_false hlook] at hform'
      exact Or.inr ⟨hform, hform', by rw [hdrop]; exact hblank⟩

/-- Effects that differ in the cursor, on readings that differ in the cursor, give readings that
differ in the cursor. -/
theorem apply_same {e e' : Effect} (he : e' = { e with cursor := e'.cursor })
    (hsame : r' = { r with cursor := r'.cursor }) :
    e'.apply r' = { e.apply r with cursor := e'.cursor } := by
  rw [he, hsame]
  cases ho : e.opened <;> simp [Effect.apply, ho, push]

theorem Extends.apply {e e' : Effect} (he : Effect.Follows t ys e e')
    (hsame : r' = { r with cursor := r'.cursor }) : Extends t ys (e.apply r) (e'.apply r') := by
  refine ⟨?_, by rw [cursor_apply, cursor_apply]; exact he.cursor⟩
  rw [cursor_apply]
  exact apply_same he.same hsame

theorem closing?_extends (h : r'.cursor.ahead = r.cursor.ahead ++ t :: ys) (ht : t.kind = .newline)
    (hend : r.cursor.atEnd = false) (g : OpenGroup) :
    (closing? r.cursor g = none ∧ closing? r'.cursor g = none) ∨
      ∃ x x', closing? r.cursor g = some x ∧ closing? r'.cursor g = some x' ∧
        x'.diagnostics = x.diagnostics ∧ Cursor.Follows t ys x.cursor x'.cursor := by
  have hcur := current_append h (ahead_ne_nil hend)
  have hat : r'.cursor.isAt .closeBrace = r.cursor.isAt .closeBrace := by
    simp only [isAt, hcur]
  simp only [closing?, hend, atEnd_append h hend, Bool.false_eq_true, if_false, hat, hcur]
  cases g.closer with
  | brace =>
      cases r.cursor.isAt .closeBrace with
      | true => exact Or.inr ⟨_, _, rfl, rfl, rfl, Or.inl (advance_append h hend)⟩
      | false => exact Or.inl ⟨rfl, rfl⟩
  | endWord =>
      cases r.cursor.current.isKeyword "end" with
      | true =>
          obtain ⟨-, hrest⟩ := follows_restOfLine h (fun _ => false)
            (Or.inl (by rw [ht]; rfl))
          exact Or.inr ⟨_, _, rfl, rfl, rfl, hrest⟩
      | false => exact Or.inl ⟨rfl, rfl⟩

/-- Closing a group keeps the relation. What closes it is the token at the cursor, which both
readings see. -/
theorem closing_extends (h : r'.cursor.ahead = r.cursor.ahead ++ t :: ys) (ht : t.kind = .newline)
    (hsame : r' = { r with cursor := r'.cursor }) (hend : r.cursor.atEnd = false) {g : OpenGroup}
    {outer : List OpenGroup} {x : Closing} (hg : r.openGroups = g :: outer)
    (hx : closing? r.cursor g = some x) : Extends t ys (x.apply r g outer) r'.step := by
  have hgroups : r'.openGroups = r.openGroups := by rw [hsame]
  rcases closing?_extends h ht hend g with ⟨hn, -⟩ | ⟨y, y', hy, hy', hdiag, hfollow⟩
  · rw [hx] at hn
    cases hn
  · obtain rfl : x = y := Option.some.inj (hx.symm.trans hy)
    rw [step_of_closing (hgroups.trans hg) hy']
    refine ⟨?_, hfollow⟩
    simp only [Closing.apply, hdiag]
    rw [hsame]

/-- Where no group is closed, none is closed in front of more text. So the second reading takes a
statement as well, though its form may be another one (`form_extends`). -/
theorem step_of_stays_append (h : r'.cursor.ahead = r.cursor.ahead ++ t :: ys)
    (ht : t.kind = .newline) (hsame : r' = { r with cursor := r'.cursor })
    (hend : r.cursor.atEnd = false) (hstays : r.Stays) :
    r'.step = (effect r.dialect r'.cursor r.atTop (r'.form r.atTop)).apply r' := by
  have hgroups : r'.openGroups = r.openGroups := by rw [hsame]
  have hdialect : r'.dialect = r.dialect := by rw [hsame]
  have htop : r'.atTop = r.atTop := by rw [atTop, hgroups]; rfl
  have hstays' : r'.Stays := by
    intro g hg
    rw [hgroups] at hg
    rcases closing?_extends h ht hend g with ⟨-, hn⟩ | ⟨y, y', hy, -⟩
    · exact hn
    · rw [hstays g hg] at hy
      cases hy
  rw [step_of_stays (atEnd_append h hend) hstays', next, hdialect, htop]

/-- A step keeps the relation, if nothing is left open. The one form that more text can change is
that of a group with nothing but blanks behind its brace, and such a group is never closed. -/
theorem step_extends (h : r'.cursor.ahead = r.cursor.ahead ++ t :: ys) (ht : t.kind = .newline)
    (hsame : r' = { r with cursor := r'.cursor }) (hend : r.cursor.atEnd = false)
    (hclosed : Closed r.step.run.diagnostics) : Extends t ys r.step r'.step := by
  rcases step_spec (r := r) (by simp [finished, hend]) with
    ⟨g, outer, x, hg, hx, hs⟩ | ⟨-, hstays, hs⟩
  · rw [hs]
    exact closing_extends h ht hsame hend hg hx
  · rw [hs] at hclosed ⊢
    rw [step_of_stays_append h ht hsame hend hstays]
    rcases form_extends h ht hsame hend r.atTop with hform | ⟨hform, -, hblank⟩
    · have hnext : Closed r.next.diagnostics := by
        have hstep : Closed (r.next.apply r).diagnostics := forall_of_run hclosed
        rw [diagnostics_apply] at hstep
        exact (closed_append.mp hstep).2
      rw [hform]
      exact Extends.apply
        (effect_follows h ht hend r.dialect (form_sees r r.atTop) fun _ => hnext) hsame
    · refine absurd hclosed (not_closed_of_blank ?_ ?_)
      · rw [openGroups_apply, next, hform]
        simp [effect, Effect.opening]
      · rw [cursor_apply, next, hform]
        exact hblank

/-! ## To the end of the first text -/

/-- No mark for the end of the input stands among the tokens. Scanning makes none but the last, and
readers stop at any. -/
def Unbroken (ts : List Token) : Prop := ∀ u ∈ ts, u.kind ≠ .endOfInput

theorem Unbroken.atEnd {c : Cursor} (h : Unbroken c.ahead) (hc : c.ahead ≠ []) :
    c.atEnd = false := by
  obtain ⟨u, us, hu⟩ := List.exists_cons_of_ne_nil hc
  have hne := h u (by simp [hu])
  simp [Cursor.atEnd, isAt, current, hu, hne]

theorem Unbroken.reaches {c d : Cursor} (h : Unbroken c.ahead) (hr : c.Reaches d) :
    Unbroken d.ahead := by
  obtain ⟨n, -, rfl⟩ := hr
  exact fun u hu => h u (List.mem_of_mem_drop hu)

theorem run_of_not_finished (h : r.finished = false) : r.run = r.step.run := by
  rw [run, if_neg (Bool.eq_false_iff.mp h)]

/-- The run of one reading comes to another by a number of steps, so both have one outcome. -/
def Leads : Reading → Reading → Prop :=
  Relation.ReflTransGen fun r s => r.finished = false ∧ s = r.step

theorem Leads.step {r q : Reading} (hf : r.finished = false) (h : Leads r.step q) : Leads r q :=
  Relation.ReflTransGen.head ⟨hf, rfl⟩ h

theorem Leads.run_eq {r q : Reading} (h : Leads r q) : r.run = q.run := by
  induction h with
  | refl => rfl
  | tail _ hs ih =>
      obtain ⟨hf, rfl⟩ := hs
      exact ih.trans (run_of_not_finished hf)

/-- If a text leaves nothing open, then in front of a line end and more text its reading comes to
where that text begins, and has read what the text alone gives. -/
theorem run_extends (hx : Extends t ys r r') (ht : t.kind = .newline)
    (hno : Unbroken r.cursor.ahead) (hclosed : Closed r.run.diagnostics) :
    ∃ q : Reading, Leads r' q ∧ q.cursor.ahead = ys ∧ q.cursor.final = r'.cursor.final ∧
      q = { r.run with cursor := q.cursor } := by
  fun_induction run r generalizing r' with
  | case1 r hf =>
      have hnil : r.cursor.ahead = [] := by
        refine Classical.byContradiction fun hne => ?_
        have hend := hno.atEnd hne
        simp [finished, hend] at hf
      have hgroups : r.openGroups = [] := by simp_all [finished]
      rcases hx.cursor with h | ⟨-, -, h⟩
      · rw [hnil, List.nil_append] at h
        have hblank : isBlankKind t.kind = true := by rw [ht]; rfl
        obtain ⟨hstep, hrest⟩ := step_of_blank h hblank
        have hend : r'.cursor.atEnd = false := by simp [Cursor.atEnd, isAt, current, h, ht]
        refine ⟨r'.step, .step (by simp [finished, hend]) .refl, ?_, ?_, ?_⟩
        · rw [hstep, cursor_apply]
          exact hrest
        · rw [hstep, cursor_apply, advance_eq_skip hend]
          rfl
        · rw [hstep, cursor_apply, hx.same]
          simp [apply_eq, putAll_nil, Forest.append_nil]
      · exact ⟨r', .refl, h, rfl, hx.same⟩
  | case2 r hf ih =>
      have hf : r.finished = false := Bool.eq_false_iff.mpr hf
      have hne : r.cursor.ahead ≠ [] := fun hnil => by
        have hend := atEnd_of_ahead_nil hnil
        have ho : r.openGroups ≠ [] := fun ho => by simp [finished, ho, hend] at hf
        refine not_closed_of_nil ho hnil ?_
        rw [run_of_not_finished hf]
        exact hclosed
      have hend := hno.atEnd hne
      have h : r'.cursor.ahead = r.cursor.ahead ++ t :: ys := by
        rcases hx.cursor with h | ⟨-, hnil, -⟩
        · exact h
        · exact absurd hnil hne
      have hf' : r'.finished = false := by simp [finished, atEnd_append h hend]
      obtain ⟨q, hlead, hahead, hfinal, hq⟩ :=
        ih (step_extends h ht hx.same hend hclosed) (hno.reaches (reaches_step hf)) hclosed
      refine ⟨q, .step hf' hlead, hahead, ?_, hq⟩
      obtain ⟨n, -, hn⟩ := reaches_step hf'
      rw [hfinal, hn]
      rfl

end Boundary

/-! ## What a run keeps -/

theorem finished_run (r : Reading) : r.run.finished = true := by
  fun_induction run r with
  | case1 r h => exact h
  | case2 r _ ih => exact ih

theorem openGroups_run (r : Reading) : r.run.openGroups = [] := by
  have h := finished_run r
  simp only [finished, Bool.and_eq_true, List.isEmpty_iff] at h
  exact h.1

/-- The reading at the same place with nothing read yet. Only the dialect and whether there was a
header are kept, as these two decide about forms. -/
def afresh (r : Reading) : Reading :=
  ⟨r.dialect, r.cursor, .empty, [], [], r.headerSeen, .nil, []⟩

/-- At the top level, what was read makes no difference to what is read behind it: the reading is
the one with nothing read yet, framed by what was read. -/
theorem run_afresh {r : Reading} (hg : r.openGroups = []) :
    r.run = frame r r.afresh.run := by
  have hframe : r = frame r r.afresh := by
    obtain ⟨_, _, _, _, _, _, _, _⟩ := r
    subst hg
    simp [frame, under, Forest.append_nil, KeyedList.update_empty_right, afresh]
  calc r.run = (frame r r.afresh).run := by rw [← hframe]
    _ = frame r r.afresh.run := run_frame r r.afresh

theorem blocks_afresh {r : Reading} (hg : r.openGroups = []) :
    r.run.blocks = r.blocks ++ r.afresh.run.blocks := by
  rw [run_afresh hg, frame, openGroups_run]
  rfl

theorem dialect_apply (e : Effect) (r : Reading) : (e.apply r).dialect = r.dialect := by
  unfold Effect.apply
  split <;> rfl

theorem headerSeen_apply (e : Effect) (r : Reading) :
    (e.apply r).headerSeen = (r.headerSeen || e.header) := by
  unfold Effect.apply
  split <;> rfl

theorem dialect_step {r : Reading} (h : r.finished = false) : r.step.dialect = r.dialect := by
  rcases step_spec h with ⟨g, outer, x, -, -, hs⟩ | ⟨-, -, hs⟩
  · rw [hs]
    rfl
  · rw [hs, dialect_apply]

theorem dialect_run (r : Reading) : r.run.dialect = r.dialect := by
  fun_induction run r with
  | case1 => rfl
  | case2 r h ih => rw [ih, dialect_step (Bool.eq_false_iff.mpr h)]

/-- Only Mermaid has headers. In the other dialects a text therefore cannot keep the next one from
having one. -/
theorem header_next {r : Reading} (h : r.dialect ≠ .mermaid) : r.next.header = false := by
  unfold next
  cases hf : r.form r.atTop with
  | header type => exact absurd (mermaid_of_form hf) h
  | _ => rfl

theorem headerSeen_run {r : Reading} (h : r.dialect ≠ .mermaid) :
    r.run.headerSeen = r.headerSeen := by
  fun_induction run r with
  | case1 => rfl
  | case2 r hf ih =>
      have hf := Bool.eq_false_iff.mpr hf
      rw [ih (by rw [dialect_step hf]; exact h)]
      rcases step_spec hf with ⟨g, outer, x, -, -, hs⟩ | ⟨-, -, hs⟩
      · rw [hs]
        rfl
      · rw [hs, headerSeen_apply, header_next h, Bool.or_false]

/-- Reports are made at tokens: what holds of the places of all tokens holds of the places of all
reports. A move that leaves exactly the places with the property where they are leaves the reading
as it is, and so its reports. -/
theorem forall_place_run {P : Place → Prop} (d : Dialect) {ts : List Token} {p : Place}
    (hts : ∀ t ∈ ts, P t.place) (hp : P p) :
    ∀ x ∈ (start d (ts ++ [Token.endAt p])).run.diagnostics, P x.place := by
  classical
  let f : Place → Place := fun q => if P q then q else ⟨q.line + 1, q.column⟩
  have hf : ∀ q, f q = q ↔ P q := by
    intro q
    by_cases hq : P q
    · simp [f, hq]
    · simp only [f, hq, if_false, iff_false]
      intro he
      have hline := congrArg Place.line he
      simp at hline
  have hmove : (start d (ts ++ [Token.endAt p])).move f 0 = start d (ts ++ [Token.endAt p]) := by
    have htokens : ts.map (Token.move f) = ts := by
      refine (List.map_congr_left fun t ht => ?_).trans (List.map_id ts)
      simp only [Token.move, (hf _).mpr (hts t ht), id]
    have hend : (Token.endAt p).move f = Token.endAt p := by
      simp only [Token.move, Token.endAt, (hf p).mpr hp]
    simp only [start, ofTokens_append_endAt, move, Cursor.move, htokens, hend, List.map_nil]
  intro x hx
  have hrun := run_move (f := f) (n := 0) (start d (ts ++ [Token.endAt p]))
  rw [hmove] at hrun
  have hds := congrArg Reading.diagnostics hrun
  obtain ⟨i, hi, rfl⟩ := List.getElem_of_mem hx
  have hget := congrArg (fun ds => ds[i]?) hds
  simp only [move, List.getElem?_map, List.getElem?_eq_getElem hi, Option.map_some,
    Option.some.injEq] at hget
  exact (hf _).mp (congrArg Diagnostic.place hget).symm

/-! ## Two token lists -/

theorem start_eq (d : Dialect) (ts : List Token) (p : Place) :
    start d (ts ++ [Token.endAt p]) =
      ⟨d, ⟨0, ts, Token.endAt p, rfl⟩, .empty, [], [], false, .nil, []⟩ := by
  rw [start, ofTokens_append_endAt]

theorem ahead_start {ts : List Token} (h : Unbroken ts) (d : Dialect) :
    (start d ts).cursor.ahead = ts := by
  simp only [start, Cursor.ofTokens]
  split
  · next hlast => exact (List.getLast?_eq_none_iff.mp hlast).symm
  · next t hlast => rw [dif_neg (h t (List.mem_of_getLast? hlast))]

/-- The tokens behind a line end are read as if they stood alone, behind what was read before. The
first run comes to them with nothing open (`run_extends`), and from there it is the run over them
alone, moved and framed. -/
theorem run_append {d : Dialect} (hd : d ≠ .mermaid) {ts : List Token} (us : List Token)
    {t : Token} {p q : Place} {f : Place → Place} (ht : t.kind = .newline) (hts : Unbroken ts)
    (hclean : Clean (start d (ts ++ [Token.endAt p])).run.diagnostics) :
    ∃ n, (start d (ts ++ t :: us.map (Token.move f) ++ [Token.endAt (f q)])).run =
      frame (start d (ts ++ [Token.endAt p])).run
        ((start d (us ++ [Token.endAt q])).run.move f n) := by
  have hx : Extends t (us.map (Token.move f)) (start d (ts ++ [Token.endAt p]))
      (start d (ts ++ t :: us.map (Token.move f) ++ [Token.endAt (f q)])) := by
    rw [start_eq, start_eq]
    exact ⟨rfl, Or.inl rfl⟩
  obtain ⟨r, hlead, hahead, hfinal, hr⟩ :=
    run_extends hx ht (by rw [start_eq]; exact hts) hclean.closed
  have hdialect : (start d (ts ++ [Token.endAt p])).run.dialect = d := dialect_run _
  have hseen : (start d (ts ++ [Token.endAt p])).run.headerSeen = false := headerSeen_run hd
  obtain ⟨n, hcursor⟩ :
      ∃ n, r.cursor = (start d (us ++ [Token.endAt q])).cursor.move f n := by
    rw [start_eq] at hfinal ⊢
    refine ⟨r.cursor.passed, ?_⟩
    cases hc : r.cursor with
    | mk passed ahead final final_kind =>
        rw [hc] at hahead hfinal
        subst hahead hfinal
        rfl
  have hnone := openGroups_run (start d (ts ++ [Token.endAt p]))
  refine ⟨n, ?_⟩
  rw [hlead.run_eq, ← run_move, ← run_frame, hr, hcursor]
  generalize (start d (ts ++ [Token.endAt p])).run = acc at hdialect hseen hnone ⊢
  obtain ⟨_, _, _, _, _, _, _, _⟩ := acc
  subst hdialect hseen hnone
  simp [frame, move, start_eq, under, Forest.append_nil, KeyedList.update_empty_right]

end Reading

/-! ## Two texts -/

/-- The problem with every line number in it raised. The report about a skipped statement holds a
line of its own and a token with its place. -/
def Problem.lower (n : Nat) : Problem → Problem
  | .skippedStatement line why =>
    .skippedStatement (line + n) { why with token := why.token.move (Place.lower n) }
  | p => p

/-- The report with every line number in it raised: that of its place and those of its problem. -/
def Diagnostic.lower (n : Nat) (d : Diagnostic) : Diagnostic :=
  ⟨d.place.lower n, d.problem.lower n⟩

theorem Diagnostic.move_lower {n : Nat} {d : Diagnostic} (h : d.problem.isSkip = false) :
    d.move (Place.lower n) = d.lower n := by
  obtain ⟨place, problem⟩ := d
  cases problem with
  | skippedStatement => cases h
  | _ => rfl

theorem Diagnostic.severity_lower (n : Nat) (d : Diagnostic) :
    (d.lower n).severity = d.severity := by
  obtain ⟨place, problem⟩ := d
  cases problem <;> rfl

theorem Place.le_lower (n : Nat) (p q : Place) : (p.lower n).le (q.lower n) = p.le q := by
  rw [Bool.eq_iff_iff, le_iff, le_iff]
  simp only [lower]
  omega

/-- Reports that are moved in order are sorted before or after. Sorting looks at places alone, and
the move keeps which of two comes first. -/
theorem Diagnostic.sorted_move {f : Place → Place} (hf : ∀ p q, (f p).le (f q) = p.le q)
    (ds : List Diagnostic) :
    sorted (ds.map (Diagnostic.move f)) = (sorted ds).map (Diagnostic.move f) :=
  (List.map_mergeSort fun a _ b _ => (hf a.place b.place).symm).symm

theorem Token.Reads.isSkip_eq_false {rest source : List Char} {s : Shape}
    (h : Reads rest source s) :
    ∀ problem ∈ s.problem?, problem.isSkip = false := by
  cases h <;> simp [Shape.verbatim, Problem.isSkip]

theorem Token.noSkip_reports (p : Place) (cs : List Char) : NoSkip (reports p cs) := by
  intro d hd
  obtain ⟨x, hx, hd⟩ := List.mem_filterMap.mp hd
  obtain ⟨rest, hr⟩ := reads_of_mem_lexemes hx
  obtain ⟨problem, hproblem, rfl⟩ := Option.map_eq_some_iff.mp hd
  exact hr.isSkip_eq_false problem hproblem

namespace Reading

/-- A text is read in good order if scanning and reading both are. Sorting the reports of both
together loses none. -/
theorem ok_iff_clean {text : String} {d : Dialect} :
    (ofText text (some d)).ok = true ↔
      Clean (Token.scan text).diagnostics ∧
        Clean (start d (Token.scan text).tokens).run.diagnostics := by
  rw [← clean_append]
  show List.all (Diagnostic.sorted _) _ = true ↔ _
  simp only [Diagnostic.sorted, List.all_eq_true, (List.mergeSort_perm _ _).mem_iff, beq_iff_eq]
  rfl

/-- Reports about a text stand on its lines. Those of scanning are made at characters, those of
reading at tokens (`forall_place_run`). -/
theorem line_of_report (d : Dialect) (text : String) :
    ∀ x ∈ Token.reports .start text.toList ++ (start d (Token.scan text).tokens).run.diagnostics,
      1 ≤ x.place.line ∧ x.place.line ≤ text.toList.count '\n' + 1 := by
  have hend : (Place.start.after text.toList).line = text.toList.count '\n' + 1 := by
    rw [Place.after_eq_behind, Place.behind, Nat.add_comm]
  intro x hx
  rw [← hend]
  rcases List.mem_append.mp hx with hx | hx
  · exact Token.line_of_mem_reports hx
  · exact forall_place_run
      (P := fun p => 1 ≤ p.line ∧ p.line ≤ (Place.start.after text.toList).line) d
      (fun t ht => Token.line_of_mem_tokens ht) ⟨Place.line_le_after .start _, Nat.le_refl _⟩ x hx

/-- The reports about a text further down, in the order of their places. No report names a line that
is skipped, so to move a report is to raise its lines. -/
theorem sorted_reports_lower (d : Dialect) (n : Nat) (text : String) :
    let ds := Token.reports .start text.toList ++ (start d (Token.scan text).tokens).run.diagnostics
    Diagnostic.sorted (ds.map (Diagnostic.move (.lower n))) =
      (Diagnostic.sorted ds).map (Diagnostic.lower n) := by
  intro ds
  have hskip : NoSkip ds := (Token.noSkip_reports .start text.toList).append
    (noSkip_run (start d (Token.scan text).tokens) .nil)
  rw [Diagnostic.sorted_move (Place.le_lower n)]
  exact List.map_congr_left fun r hr =>
    Diagnostic.move_lower (hskip r ((List.mergeSort_perm _ _).mem_iff.mp hr))

/-- The reports about two texts in the order of their places: first those about the first text, then
those about the second. -/
theorem sorted_reports_append (d : Dialect) (a b : String) :
    let n := a.toList.count '\n' + 1
    let x := (start d (Token.scan a).tokens).run.diagnostics
    let y := (start d (Token.scan b).tokens).run.diagnostics
    Diagnostic.sorted (Token.reports .start a.toList ++
        (Token.reports .start b.toList).map (Diagnostic.move (.lower n)) ++
          (x ++ y.map (Diagnostic.move (.lower n)))) =
      Diagnostic.sorted (Token.reports .start a.toList ++ x) ++
        (Diagnostic.sorted (Token.reports .start b.toList ++ y)).map (Diagnostic.lower n) := by
  intro n x y
  rw [Diagnostic.sorted_append (n := n) ?above ?below, ← List.map_append, sorted_reports_lower]
  case above => exact fun r hr => (line_of_report d a r hr).2
  case below =>
    intro r hr
    rw [← List.map_append] at hr
    obtain ⟨q, hq, rfl⟩ := List.mem_map.mp hr
    have hline := (line_of_report d b q hq).1
    simp only [Diagnostic.move, Place.lower]
    omega

/-- What the scanner and the reader make of two texts with a line end between them, if the first is
read in good order. -/
theorem scan_run_append {d : Dialect} (hd : d ≠ .mermaid) {a : String} (b : String)
    (hscan : Clean (Token.scan a).diagnostics)
    (hrun : Clean (start d (Token.scan a).tokens).run.diagnostics) :
    let n := a.toList.count '\n' + 1
    let z := Token.scan (a ++ "\n" ++ b)
    z.diagnostics = Token.reports .start a.toList ++
        (Token.reports .start b.toList).map (Diagnostic.move (.lower n)) ∧
      ∃ k, (start d z.tokens).run = frame (start d (Token.scan a).tokens).run
        ((start d (Token.scan b).tokens).run.move (.lower n) k) := by
  have hquoted : Token.Quoted .start a.toList := fun x hx he => by
    have hsev := hscan x hx
    rw [Diagnostic.severity, he] at hsev
    cases hsev
  have hz := Token.scan_append_newline hquoted b
  have hunbroken : Unbroken (Token.tokens .start a.toList) := fun u hu =>
    Token.kind_of_mem_tokens hu
  rw [Token.scan_eq] at hrun
  have happend := run_append (t := ⟨.newline, "\n", .behind a.toList⟩)
    (q := Place.start.after b.toList) (f := .lower (a.toList.count '\n' + 1)) hd
    (Token.tokens .start b.toList) rfl hunbroken hrun
  refine ⟨by rw [hz], ?_⟩
  rw [hz]
  exact happend

/-- **A text behind another.** If a text is read in good order, then with a line end and a second
text behind it the two are read as if each stood alone: the blocks, the edges and the reports of the
second come behind those of the first, its metadata is written over theirs, and all its line numbers
are raised by the lines in front of it. -/
theorem ofText_append {d : Dialect} (hd : d = .native ∨ d = .plantuml) (a b : String)
    (hok : (ofText a (some d)).ok = true) :
    let x := ofText a (some d)
    let y := ofText b (some d)
    let z := ofText (a ++ "\n" ++ b) (some d)
    z.document.blocks = x.document.blocks ++ y.document.blocks ∧
      z.document.edges = x.document.edges ++ y.document.edges ∧
      z.document.metadata = x.document.metadata.update y.document.metadata ∧
      z.diagnostics = x.diagnostics ++
        y.diagnostics.map (Diagnostic.lower (a.toList.count '\n' + 1)) := by
  have hd : d ≠ .mermaid := by rcases hd with rfl | rfl <;> decide
  obtain ⟨hscan, hparse⟩ := ok_iff_clean.mp hok
  obtain ⟨hreports, k, hread⟩ := scan_run_append hd b hscan hparse
  have hnone := openGroups_run (start d (Token.scan b).tokens)
  refine ⟨?_, ?_, ?_, ?_⟩
  · show (start d (Token.scan (a ++ "\n" ++ b)).tokens).run.blocks = _
    rw [hread]
    simp only [frame, move, hnone, List.map_nil, under]
    rfl
  · show (start d (Token.scan (a ++ "\n" ++ b)).tokens).run.edges = _
    rw [hread]
    rfl
  · show (start d (Token.scan (a ++ "\n" ++ b)).tokens).run.metadata = _
    rw [hread]
    rfl
  · show Diagnostic.sorted ((Token.scan (a ++ "\n" ++ b)).diagnostics ++
      (start d (Token.scan (a ++ "\n" ++ b)).tokens).run.diagnostics) = _
    rw [hread, hreports]
    exact sorted_reports_append d a b

/-- A group with a string over a line end and a character without a meaning. -/
def firstText : String := "group g \x7b\n  x [k: \"\x7d\n\"] \x7d\nT y -> x, z : l\n~ // note"

/-- A line of metadata and a brace that closes nothing. -/
def secondText : String := "T 2\n\x7d w"

theorem ok_firstText : (ofText firstText (some .native)).ok = true := by
  have hrun := run_eq_steps (n := 20) (r := start .native (Token.scan firstText).tokens)
    (by decide +kernel)
  rw [ok_iff_clean, hrun]
  unfold Clean
  decide +kernel

theorem ofText_append_firstText :
    (ofText firstText (some .native)).ok = true ∧
      (ofText (firstText ++ "\n" ++ secondText) (some .native)).diagnostics =
        (ofText firstText (some .native)).diagnostics ++
          (ofText secondText (some .native)).diagnostics.map (Diagnostic.lower 5) :=
  ⟨ok_firstText, (ofText_append (Or.inl rfl) firstText secondText ok_firstText).2.2.2⟩

end Reading

end Schematic
