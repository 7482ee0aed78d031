import Schematic.Proofs.Reading.GroupText

/-!
# A text inside a group

To put a text that is in good order into a group should only nest what it says. The readings of the
text alone and in the group go side by side, statement by statement: a statement at the top level of
the native dialect reads what it reads in a group, except that a word alone gives metadata there and
that a closing brace closes nothing. So nothing else changes as long as no statement at the top
level begins with a closing brace (`BraceFree`, `run_nest`). A line such as `} a -> b` is such a
statement: alone it is an edge line, in the group its brace closes the group too early, and then the
brace behind the text closes another group or none (`ofText_inGroup`).
-/

namespace Schematic

namespace Reading

open Cursor

/-! ## What is read on the way -/

/-- The reading `s` is one of those that `r` goes through. Each begins a statement, closes a group,
or is the last. -/
inductive Visits : Reading → Reading → Prop
  | here (r : Reading) : Visits r r
  | later {r s : Reading} (hf : r.finished = false) (h : Visits r.step s) : Visits r s

/-- No statement at the top level begins with a closing brace. In a group it would close the group,
whatever stands behind it. -/
def BraceFree (r : Reading) : Prop :=
  ∀ s, Visits r s → s.openGroups = [] → s.cursor.isAt .closeBrace = false

theorem braceFree_of_finished {r : Reading} (hf : r.finished = true) : BraceFree r := by
  intro s hs hg
  cases hs with
  | here =>
      have hend : r.cursor.atEnd = true := by simpa [finished, hg] using hf
      rw [Cursor.atEnd, isAt, beq_iff_eq] at hend
      rw [isAt, hend]
      rfl
  | later hf' => rw [hf] at hf'; cases hf'

theorem braceFree_step {r : Reading} (hf : r.finished = false) :
    BraceFree r ↔
      (r.openGroups = [] → r.cursor.isAt .closeBrace = false) ∧ BraceFree r.step := by
  constructor
  · exact fun h => ⟨h r (.here r), fun s hs => h s (.later hf hs)⟩
  · rintro ⟨hhere, hlater⟩ s hs
    cases hs with
    | here => exact hhere
    | later _ hs => exact hlater s hs

/-- A run of known length can be gone through, so for a given text the condition is decided by
computing. -/
theorem braceFree_of_steps {n : Nat} {r : Reading} (hdone : (steps n r).finished = true)
    (h : ∀ i ∈ List.range n, ((steps i r).openGroups.isEmpty &&
      (steps i r).cursor.isAt .closeBrace) = false) : BraceFree r := by
  induction n generalizing r with
  | zero => exact braceFree_of_finished hdone
  | succ n ih =>
      cases hf : r.finished with
      | true => exact braceFree_of_finished hf
      | false =>
          have hsteps (i : Nat) : steps (i + 1) r = steps i r.step := by rw [steps, hf]; rfl
          refine (braceFree_step hf).mpr ⟨fun hg => ?_, ih (by rw [← hsteps]; exact hdone) ?_⟩
          · have hfirst := h 0 (by simp)
            simpa [steps, hg] using hfirst
          · intro i hi
            rw [← hsteps]
            exact h (i + 1) (by simpa using hi)

/-- Metadata is never taken back, so where there is none in the end there is none on the way. -/
theorem metadata_of_run {r : Reading} (h : r.run.metadata = .empty) : r.metadata = .empty := by
  fun_induction run r with
  | case1 => exact h
  | case2 r hf ih =>
      have hstep := ih h
      rcases step_spec (Bool.eq_false_iff.mpr hf) with ⟨g, outer, x, -, -, hs⟩ | ⟨-, -, hs⟩
      · rw [hs] at hstep
        exact hstep
      · have hput : r.metadata.putAll r.next.entries = .empty := by
          rw [← hstep, hs, metadata_apply]
        have hkeys : r.metadata.keys = [] := by
          refine List.eq_nil_iff_forall_not_mem.mpr fun key hkey => ?_
          have hmem : key ∈ (r.metadata.putAll r.next.entries).keys :=
            KeyedList.mem_keys_putAll.mpr (Or.inl hkey)
          rw [hput] at hmem
          cases hmem
        exact KeyedList.ext_entries (List.map_eq_nil_iff.mp hkeys)

/-! ## One group more around it -/

/-- The reading with the group `k` open around everything. Any groups that are open stand within it.
-/
def nest (k : OpenGroup) (r : Reading) : Reading := { r with openGroups := r.openGroups ++ [k] }

theorem apply_nest (k : OpenGroup) (e : Effect) (r : Reading) :
    e.apply (nest k r) = nest k (e.apply r) := by
  cases ho : e.opened <;> simp [Effect.apply, nest, push, ho]

/-- At the top level only a word alone is read in another form than in a group: it gives metadata
there. All other forms are chosen by tokens alone. -/
theorem form_top {r : Reading} (hd : r.dialect = .native) :
    r.form true = formIn r.cursor ∧ r.form true ≠ .lone ∨ r.form true = .metadata := by
  have hshape : r.shapeForm true = r.shapeForm false ∧ r.shapeForm true ≠ .lone ∨
      r.shapeForm true = .metadata := by
    have hlines : r.dialect.metadataLines = true := by rw [hd]; rfl
    unfold shapeForm
    simp only [hlines]
    split
    · split <;> exact Or.inl ⟨rfl, nofun⟩
    · split
      · exact Or.inl ⟨rfl, nofun⟩
      · split
        · exact Or.inl ⟨rfl, nofun⟩
        · split
          · exact Or.inr rfl
          · exact Or.inl ⟨rfl, nofun⟩
  rw [← form_eq_formIn hd]
  unfold form
  rw [wordForm?_native hd, wordForm?_native hd]
  split
  case h_5 =>
    cases hg : r.groupForm? with
    | some f =>
        refine Or.inl ⟨rfl, fun hf => ?_⟩
        rcases groupForm?_cases hg with he | he <;> rw [he] at hf <;> cases hf
    | none =>
        cases r.declares with
        | true => exact Or.inl ⟨rfl, nofun⟩
        | false => exact hshape
  all_goals exact Or.inl ⟨rfl, nofun⟩

/-- A form that has no other meaning at the top level does the same there, away from closing
braces. -/
theorem effect_top {c : Cursor} {f : Form} (hf : f ≠ .lone)
    (hat : c.isAt .closeBrace = false) (d : Dialect) : effect d c true f = effect d c false f := by
  cases f with
  | lone => exact absurd rfl hf
  | stray =>
      have hkind : c.current.kind ≠ .closeBrace := by simpa [isAt] using hat
      simp [effect, strayReports, hkind]
  | _ => rfl

section Nest

variable {k : OpenGroup} {r : Reading}

/-- A statement reads the same with the group around it, if it reads no metadata and does not begin
with the brace that closes the group. -/
theorem step_nest (hd : r.dialect = .native) (hk : k.closer = .brace)
    (hend : r.cursor.atEnd = false)
    (htop : r.openGroups = [] → r.cursor.isAt .closeBrace = false ∧ r.form true ≠ .metadata) :
    (nest k r).step = nest k r.step := by
  cases hg : r.openGroups with
  | nil =>
      obtain ⟨hat, hmeta⟩ := htop hg
      obtain ⟨hform, hlone⟩ := (form_top hd).resolve_right hmeta
      have hnested : (nest k r).openGroups = [k] := by simp [nest, hg]
      rw [step_inside (r := nest k r) hd hnested hk hend hat, step_of_form hg hend rfl, apply_nest,
        hd]
      refine congrArg (nest k) (congrArg (Effect.apply · r) ?_)
      rw [effect_top hlone hat, hform]
      rfl
  | cons g outer =>
      have hnested : (nest k r).openGroups = g :: (outer ++ [k]) := by simp [nest, hg]
      cases hx : closing? r.cursor g with
      | some x =>
          rw [step_of_closing hg hx, step_of_closing (r := nest k r) hnested hx]
          rfl
      | none =>
          have hstays : r.Stays := fun h hm => by rw [hg] at hm; cases hm; exact hx
          have hstays' : (nest k r).Stays := fun h hm => by rw [hnested] at hm; cases hm; exact hx
          have hnext : (nest k r).next = r.next := by
            simp only [next, atTop, hg, hnested, List.isEmpty_cons]
            rfl
          rw [step_of_stays hend hstays, step_of_stays (r := nest k r) hend hstays', hnext,
            apply_nest]

theorem form_ne_metadata (hg : r.openGroups = []) (hend : r.cursor.atEnd = false)
    (hmeta : r.step.metadata = .empty) : r.form true ≠ .metadata := by
  intro hform
  rw [step_of_form hg hend hform, metadata_apply] at hmeta
  have hmem : r.cursor.current.text ∈ (r.metadata.putAll
      (effect r.dialect r.cursor true .metadata).entries).keys :=
    KeyedList.mem_keys_putAll.mpr (Or.inr (by simp [effect]))
  rw [hmeta] at hmem
  cases hmem

variable {s : Reading} {t : Token} {ys : List Token}

/-- Where the text is over, the reading in the group passes the line end behind it, if it has not
done so already. -/
theorem nest_over (hx : Extends t ys r s) (ht : t.kind = .newline) (hnil : r.cursor.ahead = []) :
    ∃ q : Reading, (nest k s).run = (nest k q).run ∧ q.cursor.ahead = ys ∧
      q.cursor.final = s.cursor.final ∧ q = { r with cursor := q.cursor } := by
  rcases hx.cursor with h | ⟨-, -, h⟩
  · rw [hnil, List.nil_append] at h
    have hblank : isBlankKind t.kind = true := by rw [ht]; rfl
    obtain ⟨hstep, hrest⟩ := step_of_blank h hblank
    obtain ⟨hstep', -⟩ := step_of_blank (r := nest k s) h hblank
    have hend : s.cursor.atEnd = false := by simp [Cursor.atEnd, isAt, current, h, ht]
    refine ⟨s.step, ?_, ?_, ?_, ?_⟩
    · rw [run_of_not_finished (by simp [finished, nest]), hstep', hstep, apply_nest]
      rfl
    · rw [hstep, cursor_apply]
      exact hrest
    · rw [hstep, cursor_apply, advance_eq_skip hend]
      rfl
    · rw [hstep, cursor_apply, hx.same]
      simp [apply_eq, putAll_nil, Forest.append_nil]
  · exact ⟨s, rfl, h, rfl, hx.same⟩

/-- A text in good order that gives no metadata, read alone and in the group `k` with a line end and
more text behind it. Either the reading in the group comes to that text as well, or it comes to a
closing brace at the top level of the text. -/
theorem run_nest (hx : Extends t ys r s) (ht : t.kind = .newline) (hk : k.closer = .brace)
    (hno : Unbroken r.cursor.ahead) (hd : r.dialect = .native) (hclean : Clean r.run.diagnostics)
    (hmeta : r.run.metadata = .empty) :
    (BraceFree r ∧ ∃ q : Reading, (nest k s).run = (nest k q).run ∧ q.cursor.ahead = ys ∧
        q.cursor.final = s.cursor.final ∧ q = { r.run with cursor := q.cursor }) ∨
      (¬ BraceFree r ∧ ∃ (q : Reading) (brace : Token) (xs : List Token),
        (nest k s).run = (nest k q).run ∧ q.openGroups = [] ∧ q.dialect = .native ∧
          brace.kind = .closeBrace ∧ q.cursor.ahead = brace :: (xs ++ t :: ys) ∧ Unbroken xs) := by
  fun_induction run r generalizing s with
  | case1 r hf =>
      have hnil : r.cursor.ahead = [] := by
        refine Classical.byContradiction fun hne => ?_
        have hend := hno.atEnd hne
        simp [finished, hend] at hf
      exact Or.inl ⟨braceFree_of_finished hf, nest_over hx ht hnil⟩
  | case2 r hf ih =>
      have hf : r.finished = false := Bool.eq_false_iff.mpr hf
      have hne : r.cursor.ahead ≠ [] := fun hnil => by
        have hend := atEnd_of_ahead_nil hnil
        have ho : r.openGroups ≠ [] := fun ho => by simp [finished, ho, hend] at hf
        refine not_closed_of_nil ho hnil ?_
        rw [run_of_not_finished hf]
        exact hclean.closed
      have hend := hno.atEnd hne
      have h : s.cursor.ahead = r.cursor.ahead ++ t :: ys := by
        rcases hx.cursor with h | ⟨-, hnil, -⟩
        · exact h
        · exact absurd hnil hne
      have hend' := atEnd_append h hend
      have hd' : s.dialect = .native := by rw [hx.same]; exact hd
      have hgroups : s.openGroups = r.openGroups := by rw [hx.same]
      have hcurrent := current_append h hne
      have hstep : Extends t ys r.step s.step := step_extends h ht hx.same hend hclean.closed
      by_cases hat : r.openGroups = [] → r.cursor.isAt .closeBrace = false
      · have hnest : (nest k s).step = nest k s.step := by
          refine step_nest hd' hk hend' fun hg => ⟨?_, form_ne_metadata hg hend' ?_⟩
          · rw [isAt, hcurrent]
            exact hat (hgroups.symm.trans hg)
          · have hsame : s.step.metadata = r.step.metadata := by rw [hstep.same]
            exact hsame.trans (metadata_of_run hmeta)
        have hrun : (nest k s).run = (nest k s.step).run := by
          rw [run_of_not_finished (by simp [finished, nest]), hnest]
        have hfinal : s.step.cursor.final = s.cursor.final :=
          final_step (by simp [finished, hend'])
        rw [braceFree_step hf, hrun, ← hfinal]
        rcases ih hstep (hno.reaches (reaches_step hf)) ((dialect_step hf).trans hd) hclean hmeta
          with ⟨hfree, hq⟩ | ⟨hfree, hq⟩
        · exact Or.inl ⟨⟨hat, hfree⟩, hq⟩
        · exact Or.inr ⟨fun h => hfree h.2, hq⟩
      · refine Or.inr ⟨fun hfree => hat ((braceFree_step hf).mp hfree).1, ?_⟩
        obtain ⟨hg, hbrace⟩ := Classical.not_imp.mp hat
        obtain ⟨brace, xs, hxs⟩ := List.exists_cons_of_ne_nil hne
        rw [hxs] at h hno
        refine ⟨s, brace, xs, rfl, hgroups.trans hg, hd', ?_, h, fun u hu => hno u ?_⟩
        · simpa [isAt, current, hxs] using hbrace
        · exact List.mem_cons_of_mem brace hu

end Nest

/-! ## Behind a group that was closed too early -/

/-- Blocks are never taken back, and an open group becomes one. So a text with either comes out with
blocks. -/
theorem blocks_run_ne_nil {r : Reading} (h : r.openGroups ≠ [] ∨ r.blocks ≠ .nil) :
    r.run.blocks ≠ .nil := by
  fun_induction run r with
  | case1 r hf =>
      refine h.resolve_left fun hg => hg ?_
      simp only [finished, Bool.and_eq_true, List.isEmpty_iff] at hf
      exact hf.1
  | case2 r hf ih =>
      refine ih ?_
      rcases step_spec (Bool.eq_false_iff.mpr hf) with ⟨g, outer, x, -, -, hs⟩ | ⟨-, -, hs⟩
      · rw [hs]
        refine Or.inr fun hnil => ?_
        cases (Forest.append_eq_nil_iff.mp hnil).2
      · cases ho : r.next.opened with
        | some o =>
            rw [hs, openGroups_apply, ho]
            exact Or.inl (List.cons_ne_nil _ _)
        | none =>
            rw [hs, apply_eq _ _ ho]
            exact h.imp_right fun hb hnil => hb (Forest.append_eq_nil_iff.mp hnil).1

/-- What the blocks in front were makes no difference to those behind. Reading goes on at the top
level as if it began there. -/
theorem blocks_run_of_top {r : Reading} (hg : r.openGroups = []) :
    r.run.blocks = r.blocks ++ ({ r with blocks := .nil } : Reading).run.blocks ∧
      ({ r with blocks := .nil } : Reading).run.metadata = r.run.metadata ∧
      ({ r with blocks := .nil } : Reading).run.diagnostics = r.run.diagnostics := by
  have hbare := run_afresh (r := { r with blocks := .nil }) hg
  refine ⟨?_, ?_, ?_⟩
  · rw [blocks_afresh hg, blocks_afresh (r := { r with blocks := .nil }) hg]
    rfl
  · rw [run_afresh hg, hbare]
    rfl
  · rw [run_afresh hg, hbare]
    rfl

section Overrun

variable {t brace : Token} {z : List Token}

theorem not_clean_stray {c : Cursor} {d : Dialect} {top : Bool} (hend : c.atEnd = false) :
    ¬ Clean (effect d c top .stray).diagnostics := by
  have hkind : c.current.kind ≠ .endOfInput := by simpa [Cursor.atEnd, isAt] using hend
  intro hclean
  simp only [effect, strayReports, hkind, if_false] at hclean
  split at hclean <;> cases hclean _ (List.mem_singleton.mpr rfl)

/-- A closing brace alone on a line of the top level is reported. With a connector behind it on the
line it would not be. -/
theorem not_clean_of_closeBrace {r : Reading} (hd : r.dialect = .native) (hg : r.openGroups = [])
    (hbrace : brace.kind = .closeBrace) (hquiet : hasConnector 0 (brace :: z) = false)
    (ha : r.cursor.ahead = brace :: z) : ¬ Clean r.run.diagnostics := by
  intro hclean
  have hcurrent : r.cursor.current = brace := by simp [current, ha]
  have hend : r.cursor.atEnd = false := by simp [Cursor.atEnd, isAt, hcurrent, hbrace]
  have hform : r.form true = .stray := by
    have hline : r.cursor.lineHasConnector = false := by rw [lineHasConnector, ha, hquiet]
    unfold form
    simp [hcurrent, hbrace, wordForm?_native hd, groupForm?, declares, shapeForm, hline,
      Token.Kind.isWord]
  rw [run_of_not_finished (by simp [finished, hend])] at hclean
  have hstep := forall_of_run hclean
  rw [step_of_form hg hend hform, diagnostics_apply] at hstep
  exact not_clean_stray hend (clean_append.mp hstep).2

/-- A statement at the top level that gives no metadata and no blocks, opens nothing and reports
nothing passes one token or the rest of its line. -/
theorem cursor_step_of_blocks_eq_nil {r : Reading} (hd : r.dialect = .native)
    (hg : r.openGroups = []) (hend : r.cursor.atEnd = false) (hmeta : r.step.metadata = .empty)
    (hclean : Clean r.step.diagnostics) (hopen : r.step.openGroups = [])
    (hblocks : r.step.blocks = .nil) :
    r.step.cursor = r.cursor.advance ∨ r.step.cursor = r.cursor.restOfLine.2 := by
  have hstep := step_of_form hg hend rfl
  rcases form_top hd with ⟨hform, hlone⟩ | hform
  swap
  · exact absurd hform (form_ne_metadata hg hend hmeta)
  rcases formIn_cases r.cursor with hf | ⟨-, hf⟩
  swap
  · exact Or.inr (by rw [hstep, cursor_apply, hform, hf]; rfl)
  rw [← hform] at hf
  simp only [List.mem_cons, List.not_mem_nil, or_false] at hf
  rcases hf with hf | hf | hf | hf | hf | hf | hf
  · exact Or.inl (by rw [hstep, cursor_apply, hf]; rfl)
  · rw [hstep, openGroups_apply, hf] at hopen
    cases hopen
  · rw [hstep, hf, apply_eq _ _ rfl] at hblocks
    cases (Forest.append_eq_nil_iff.mp hblocks).2
  · rw [hstep, openGroups_apply, hf] at hopen
    cases hopen
  · exact Or.inr (by rw [hstep, cursor_apply, hf]; rfl)
  · exact absurd hf hlone
  · rw [hstep, diagnostics_apply, hf] at hclean
    exact absurd (clean_append.mp hclean).2 (not_clean_stray hend)

/-- A reading at the top level that comes to a closing brace on a line of its own shows it: it gives
metadata, reports something, or gives blocks. -/
theorem shows_closeBrace {r : Reading} {xs : List Token} (hd : r.dialect = .native)
    (hg : r.openGroups = []) (ht : t.kind = .newline) (hbrace : brace.kind = .closeBrace)
    (hquiet : hasConnector 0 (brace :: z) = false)
    (ha : r.cursor.ahead = xs ++ t :: brace :: z ∨ r.cursor.ahead = brace :: z)
    (hno : Unbroken xs) (hmeta : r.run.metadata = .empty) (hclean : Clean r.run.diagnostics) :
    r.run.blocks ≠ .nil := by
  intro hnil
  induction hn : r.remaining using Nat.strong_induction_on generalizing r xs with
  | h n ih =>
    rcases ha with ha | ha
    swap
    · exact not_clean_of_closeBrace hd hg hbrace hquiet ha hclean
    have hend : r.cursor.atEnd = false := by
      cases xs with
      | nil => simp [Cursor.atEnd, isAt, current, ha, ht]
      | cons u us => simp [Cursor.atEnd, isAt, current, ha, hno u (List.mem_cons_self ..)]
    have hf : r.finished = false := by simp [finished, hend]
    rw [run_of_not_finished hf] at hmeta hclean hnil
    have hopen : r.step.openGroups = [] :=
      Classical.byContradiction fun ho => blocks_run_ne_nil (Or.inl ho) hnil
    have hblocks : r.step.blocks = .nil :=
      Classical.byContradiction fun hb => blocks_run_ne_nil (Or.inr hb) hnil
    have hless : r.step.remaining < n := by
      have hlt := statement_progress r true hend
      rw [← hn, step, hg]
      exact hlt
    have hdialect := (dialect_step hf).trans hd
    -- the statement shows nothing, so the reading goes on in front of the brace
    have hon {l : List Token} (hl : Unbroken l)
        (ha : r.step.cursor.ahead = l ++ t :: brace :: z ∨ r.step.cursor.ahead = brace :: z) :
        False := ih _ hless hdialect hopen ha hl hmeta hclean hnil rfl
    rcases cursor_step_of_blocks_eq_nil hd hg hend (metadata_of_run hmeta) (forall_of_run hclean)
      hopen hblocks with hcursor | hcursor
    · rw [hcursor, advance_eq_skip hend, skip, ha] at hon
      cases xs with
      | nil => exact hon (l := []) (fun _ h => by cases h) (Or.inr rfl)
      | cons u us => exact hon (fun v hv => hno v (List.mem_cons_of_mem u hv)) (Or.inl rfl)
    · let c : Cursor := { r.cursor with ahead := xs }
      obtain ⟨-, hfollow⟩ := follows_restOfLine (c := c) ha (fun _ => false)
        (Or.inl (by rw [ht]; rfl))
      refine hon (hno.reaches (c.reaches_restOfLine fun _ => false)) ?_
      rw [hcursor]
      exact hfollow.imp_right fun h => h.2.2

end Overrun

/-! ## The texts -/

/-- The text in a group with the name `g`, quoted, with the braces on lines of their own. Quoting
lets any text without a line end be a name. -/
def inGroup (g b : String) : String :=
  "group " ++ String.ofList (Ink.chars (.quoted g)) ++ " \x7b\n" ++ b ++ "\n\x7d\n"

/-- The first line of that text, with its line end. -/
def quotedHead (g : String) : List Ink :=
  [.word "group", .space, .quoted g, .space, .mark .openBrace, .mark .newline]

theorem toList_inGroup (g b : String) :
    (inGroup g b).toList = Ink.text (quotedHead g) ++ (b.toList ++ '\n' :: '}' :: '\n' :: []) := by
  simp [inGroup, quotedHead, Ink.text, Ink.chars]

theorem after_quotedHead {g : String} (hg : '\n' ∉ g.toList) :
    Place.start.after (Ink.text (quotedHead g)) = Place.start.lower 1 := by
  have hescaped : '\n' ∉ g.toList.flatMap Ink.escaped := by
    intro hmem
    obtain ⟨c, hc, hesc⟩ := List.mem_flatMap.mp hmem
    have hne : '\n' ≠ c := fun he => hg (he ▸ hc)
    unfold Ink.escaped at hesc
    split at hesc <;> simp [hne] at hesc
  have hline : Ink.text (quotedHead g) =
      "group \"".toList ++ g.toList.flatMap Ink.escaped ++ "\" \x7b".toList ++ ['\n'] := by
    simp [quotedHead, Ink.text, Ink.chars]
  rw [Place.after_eq_behind, hline, Place.behind]
  simp [Place.lower, Place.start, List.count_eq_zero.mpr hescaped]

/-- The tokens of the text in the group, and what is reported about them. They are those of the text
one line further down, between the lines of the braces. -/
theorem scan_inGroup {g b : String} (hg : '\n' ∉ g.toList) (hb : Token.Quoted .start b.toList) :
    ∃ p₁ p₂ p₃ p, Token.scan (inGroup g b) =
      ⟨Ink.tokens .start (quotedHead g) ++
          ((Token.tokens .start b.toList).map (Token.move (.lower 1)) ++
            [⟨.newline, "\n", p₁⟩, ⟨.closeBrace, "\x7d", p₂⟩, ⟨.newline, "\n", p₃⟩]) ++
          [Token.endAt p],
        (Token.reports .start b.toList).map (Diagnostic.move (.lower 1))⟩ := by
  have hquoted : Token.Quoted (Place.start.lower 1) b.toList := by
    intro d hd
    rw [Token.reports_lower] at hd
    obtain ⟨e, he, rfl⟩ := List.mem_map.mp hd
    exact hb e he
  have hapart : Ink.Apart (quotedHead g) := by
    simp [quotedHead, Native.isWord_group, Token.Kind.isConnector]
  have hends : Ink.Ends (quotedHead g) (b.toList ++ '\n' :: '}' :: '\n' :: []) := by
    simp [Ink.Ends, quotedHead, Token.Kind.isConnector]
  obtain ⟨htokens, hreports⟩ := Ink.lexemes_text_append hapart hends .start
  have hlast : Ink.Apart [.mark .closeBrace, .mark .newline] := by simp [Token.Kind.isConnector]
  obtain ⟨hfoot, hfoot'⟩ :=
    Ink.lexemes_text hlast (((Place.start.lower 1).after b.toList).next '\n')
  have hbody := Token.tokens_newline hquoted ('}' :: '\n' :: [])
  have hbody' := Token.reports_newline hquoted ('}' :: '\n' :: [])
  rw [after_quotedHead hg] at htokens hreports
  have hscan : Token.scan (inGroup g b) =
      ⟨Ink.tokens .start (quotedHead g) ++ (Token.tokens (Place.start.lower 1) b.toList ++
          ⟨.newline, "\n", (Place.start.lower 1).after b.toList⟩ ::
            Ink.tokens (((Place.start.lower 1).after b.toList).next '\n')
              [.mark .closeBrace, .mark .newline]) ++
          [Token.endAt (Place.start.after (inGroup g b).toList)],
        Token.reports (Place.start.lower 1) b.toList ++ []⟩ := by
    rw [Token.scan_eq, ← hfoot, ← hfoot', toList_inGroup]
    exact congrArg₂ Token.Scanned.mk
      (congrArg (· ++ _) (htokens.trans (congrArg _ hbody))) (hreports.trans hbody')
  rw [Token.tokens_lower, Token.reports_lower, List.append_nil] at hscan
  exact ⟨_, _, _, _, hscan⟩

theorem clean_move {f : Place → Place} {ds : List Diagnostic} (h : Clean ds) :
    Clean (ds.map (Diagnostic.move f)) := by
  intro d hd
  obtain ⟨e, he, rfl⟩ := List.mem_map.mp hd
  exact h e he

theorem braceFree_move (f : Place → Place) (n : Nat) (r : Reading) :
    BraceFree (r.move f n) ↔ BraceFree r := by
  fun_induction run r with
  | case1 r hf =>
      exact iff_of_true (braceFree_of_finished (by rw [finished_move, hf]))
        (braceFree_of_finished hf)
  | case2 r hf ih =>
      have hf := Bool.eq_false_iff.mpr hf
      have hf' : (r.move f n).finished = false := by rw [finished_move, hf]
      rw [braceFree_step hf, braceFree_step hf', step_move hf, ih]
      simp [move]

section Grouped

variable {k : OpenGroup} {r s : Reading} {t brace m : Token}

/-- The line end behind everything is passed and adds nothing. -/
theorem run_of_lastLine {q : Reading} (hg : q.openGroups = []) (hm : m.kind = .newline)
    (ha : q.cursor.ahead = [m]) : q.run = { q with cursor := q.run.cursor } := by
  obtain ⟨hstep, hrest⟩ := step_of_blank ha (by rw [hm]; rfl)
  have hend : q.cursor.atEnd = false := by simp [Cursor.atEnd, isAt, current, ha, hm]
  have hover := atEnd_of_ahead_nil hrest
  rw [run_of_not_finished (by simp [finished, hend]), hstep, run, if_pos ?_]
  · simp [apply_eq, putAll_nil, Forest.append_nil]
  · simp [finished, apply_eq, hg, hover]

/-- What the group gives if nothing in it closes it: one block around those of the text, and all
else as the text alone gives it. -/
theorem run_of_braceFree (hx : Extends t [brace, m] r s) (ht : t.kind = .newline)
    (hbrace : brace.kind = .closeBrace) (hm : m.kind = .newline) (hk : k.closer = .brace)
    (hno : Unbroken r.cursor.ahead) (hd : r.dialect = .native) (hclean : Clean r.run.diagnostics)
    (hmeta : r.run.metadata = .empty) (hfree : BraceFree r) :
    (nest k s).run.blocks = k.before ++ Forest.group k.name r.run.blocks .nil ∧
      (nest k s).run.edges = r.run.edges ∧ (nest k s).run.metadata = .empty ∧
      (nest k s).run.diagnostics = r.run.diagnostics := by
  rcases run_nest hx ht hk hno hd hclean hmeta with ⟨-, q, hrun, hahead, -, hq⟩ | ⟨hnot, -⟩
  swap
  · exact absurd hfree hnot
  have hgroups : (nest k q).openGroups = [k] := by
    rw [hq, nest]
    simp [openGroups_run]
  obtain ⟨hclose, hrest⟩ := run_of_closeBrace (r := nest k q) hbrace hgroups hk hahead
  rw [hrun, hclose, run_of_lastLine (m := m) rfl hm hrest, ← hmeta, hq]
  simp [Closing.apply, nest]

/-- What the group gives else is not that. The brace closes the group too early; then either
something stands behind the group, or the brace behind the text is reported. -/
theorem run_of_not_braceFree (hx : Extends t [brace, m] r s) (ht : t.kind = .newline)
    (hbrace : brace.kind = .closeBrace) (hm : m.kind = .newline) (hk : k.closer = .brace)
    (hbefore : k.before = .nil)
    (hno : Unbroken r.cursor.ahead) (hd : r.dialect = .native) (hclean : Clean r.run.diagnostics)
    (hmeta : r.run.metadata = .empty) (hfree : ¬ BraceFree r)
    (hmeta' : (nest k s).run.metadata = .empty) (hclean' : Clean (nest k s).run.diagnostics)
    (x : Forest) : (nest k s).run.blocks ≠ Forest.group k.name x .nil := by
  intro hblocks
  rcases run_nest hx ht hk hno hd hclean hmeta with
    ⟨hnot, -⟩ | ⟨-, q, early, xs, hrun, hg, hdialect, hearly, hahead, hxs⟩
  · exact absurd hnot hfree
  have hgroups : (nest k q).openGroups = [k] := by simp [nest, hg]
  obtain ⟨hclose, hrest⟩ := run_of_closeBrace (r := nest k q) hearly hgroups hk hahead
  rw [hrun, hclose] at hblocks hmeta' hclean'
  let v : Reading := Closing.apply ⟨(nest k q).cursor.advance, []⟩ (nest k q) k []
  obtain ⟨htop, hmetaTop, hdiagTop⟩ := blocks_run_of_top (r := v) rfl
  have hquiet : hasConnector 0 (brace :: [m]) = false := by
    simp [hasConnector, hbrace, hm, Token.Kind.endsLine, Token.Kind.isConnector]
  rw [← hmetaTop] at hmeta'
  rw [← hdiagTop] at hclean'
  refine shows_closeBrace (r := { v with blocks := .nil }) hdialect rfl ht hbrace hquiet
    (Or.inl hrest) hxs hmeta' hclean' ?_
  have hv : v.blocks = Forest.group k.name q.blocks .nil := by
    simp only [v, Closing.apply, hbefore]
    rfl
  rw [htop, hv] at hblocks
  exact (Forest.group.inj hblocks).2.2

end Grouped

theorem tokens_quotedHead (g : String) :
    ∃ p₁ p₂ p₃ p₄, Ink.tokens .start (quotedHead g) = [⟨.ident, "group", p₁⟩, ⟨.string, g, p₂⟩,
      ⟨.openBrace, "\x7b", p₃⟩, ⟨.newline, "\n", p₄⟩] := by
  have hkind : Token.nameKind "group".toList = .ident := by decide +kernel
  have htokens : Ink.tokens .start (quotedHead g) =
      [⟨Token.nameKind "group".toList, "group", .start⟩, ⟨.string, g, _⟩, ⟨.openBrace, "\x7b", _⟩,
        ⟨.newline, "\n", _⟩] := rfl
  rw [hkind] at htokens
  exact ⟨_, _, _, _, htokens⟩

/-- Behind its first line the text in the group is read in the group, and sees what the text alone
sees and three tokens more. -/
theorem exists_nest (g : String) (ts : List Token) (t brace m : Token) (p q : Place) :
    ∃ k s, (start .native (Ink.tokens .start (quotedHead g) ++ (ts ++ [t, brace, m]) ++
        [Token.endAt p])).run = (nest k s).run ∧
      k.name = g ∧ k.closer = .brace ∧ k.before = .nil ∧
      Extends t [brace, m] (start .native (ts ++ [Token.endAt q])) s := by
  obtain ⟨p₁, p₂, p₃, p₄, hhead⟩ := tokens_quotedHead g
  generalize hr : start .native (Ink.tokens .start (quotedHead g) ++ (ts ++ [t, brace, m]) ++
    [Token.endAt p]) = r
  rw [start_eq, hhead] at hr
  have hhere : r.cursor.ahead = ⟨.ident, "group", p₁⟩ :: ⟨.string, g, p₂⟩ ::
      ⟨.openBrace, "\x7b", p₃⟩ :: ⟨.newline, "\n", p₄⟩ :: (ts ++ [t, brace, m]) := by
    rw [← hr]
    rfl
  obtain ⟨hf, hahead, hs⟩ :=
    run_of_groupHead (by rw [← hr]) (by rw [← hr]) hhere rfl rfl
  obtain ⟨hblank, hrest⟩ := step_of_blank hahead rfl
  have hend : r.step.cursor.atEnd = false := by simp [Cursor.atEnd, isAt, current, hahead]
  have hf' : r.step.finished = false := by simp [finished, hend]
  refine ⟨⟨g, ⟨.string, g, p₂⟩, .brace, .nil⟩, { r with cursor := r.step.cursor.advance }, ?_,
    rfl, rfl, rfl, ?_, ?_⟩
  · rw [run_of_not_finished hf, run_of_not_finished hf', hblank, hs, ← hr]
    rfl
  · rw [start_eq, ← hr]
  · rw [start_eq]
    exact Or.inl hrest

/-- The reading of the text one line further down, which is where it stands in the group. -/
def lowered (b : String) : Reading :=
  start .native ((Token.tokens .start b.toList).map (Token.move (.lower 1)) ++
    [Token.endAt ((Place.start.after b.toList).lower 1)])

theorem lowered_eq (b : String) :
    lowered b = (start .native (Token.scan b).tokens).move (.lower 1) 0 := by
  simp only [lowered, Token.scan_eq, start_eq]
  rfl

theorem run_lowered (b : String) :
    (lowered b).run = (start .native (Token.scan b).tokens).run.move (.lower 1) 0 := by
  rw [lowered_eq, run_move]

theorem unbroken_lowered (b : String) : Unbroken (lowered b).cursor.ahead := by
  intro u hu
  simp only [lowered, start_eq] at hu
  obtain ⟨t, ht, rfl⟩ := List.mem_map.mp hu
  rw [Token.kind_move]
  exact Token.kind_of_mem_tokens ht

/-- **A text in a group.** A text that is read in good order and gives no metadata is only nested by
a group around it: the group is the only block and has the blocks of the text as its members, the
edges are the same, there is no metadata, and the reports stand one line further down. This is so if
and only if no statement at the top level of the text begins with a closing brace. -/
theorem ofText_inGroup {g b : String} (hg : '\n' ∉ g.toList)
    (hok : (ofText b (some .native)).ok = true)
    (hmeta : (ofText b (some .native)).document.metadata = .empty) :
    (let x := ofText b (some .native)
     let y := ofText (inGroup g b) (some .native)
     y.document.blocks = Forest.group g x.document.blocks .nil ∧
       y.document.edges = x.document.edges ∧ y.document.metadata = .empty ∧
       y.diagnostics = x.diagnostics.map (Diagnostic.lower 1)) ↔
    BraceFree (start .native (Token.scan b).tokens) := by
  obtain ⟨hscan, hclean⟩ := ok_iff_clean.mp hok
  have hquoted : Token.Quoted .start b.toList := fun d hd he => by
    have hsev := hscan d hd
    rw [Diagnostic.severity, he] at hsev
    cases hsev
  obtain ⟨p₁, p₂, p₃, p, hwrapped⟩ := scan_inGroup hg hquoted
  have hrun := run_lowered b
  obtain ⟨k, s, hnest, rfl, hk, hbefore, hx⟩ := exists_nest g
    ((Token.tokens .start b.toList).map (Token.move (.lower 1))) ⟨.newline, "\n", p₁⟩
    ⟨.closeBrace, "\x7d", p₂⟩ ⟨.newline, "\n", p₃⟩ p ((Place.start.after b.toList).lower 1)
  change Extends _ _ (lowered b) s at hx
  have hno := unbroken_lowered b
  have hmeta : (lowered b).run.metadata = .empty := by rw [hrun]; exact hmeta
  have hclean : Clean (lowered b).run.diagnostics := by rw [hrun]; exact clean_move hclean
  have hread : (start .native (Token.scan (inGroup k.name b)).tokens).run = (nest k s).run := by
    rw [hwrapped]
    exact hnest
  rw [← braceFree_move (.lower 1) 0 (start .native (Token.scan b).tokens), ← lowered_eq]
  constructor
  · rintro ⟨hblocks, -, hmeta', hdiag⟩
    have hok' : (ofText (inGroup k.name b) (some .native)).ok = true := by
      rw [Outcome.ok, hdiag, List.all_map]
      simp only [Function.comp_def, Diagnostic.severity_lower]
      exact hok
    have hclean' := (ok_iff_clean.mp hok').2
    rw [hread] at hclean'
    change (start .native (Token.scan (inGroup k.name b)).tokens).run.metadata = .empty at hmeta'
    change (start .native (Token.scan (inGroup k.name b)).tokens).run.blocks = _ at hblocks
    rw [hread] at hmeta' hblocks
    exact Classical.byContradiction fun hnot => run_of_not_braceFree hx rfl rfl rfl hk hbefore hno
      rfl hclean hmeta hnot hmeta' hclean' _ hblocks
  · intro h
    obtain ⟨hblocks, hedges, hmeta', hdiag⟩ := run_of_braceFree hx rfl rfl rfl hk hno rfl
      hclean hmeta h
    rw [← hread] at hblocks hedges hmeta' hdiag
    rw [hbefore, hrun] at hblocks
    rw [hrun] at hedges hdiag
    refine ⟨hblocks, hedges, hmeta', ?_⟩
    show Diagnostic.sorted ((Token.scan (inGroup k.name b)).diagnostics ++
      (start .native (Token.scan (inGroup k.name b)).tokens).run.diagnostics) = _
    rw [hdiag, hwrapped]
    simp only [move, ← List.map_append]
    exact sorted_reports_lower .native 1 b

/-- A group with an edge line in it, and an edge line behind it. -/
def nestedGroup : String := "group h \x7b\n  x -> y\n\x7d\na -> b, c"

theorem ofText_inGroup_nestedGroup :
    '\n' ∉ "a \"b\" \\".toList ∧ (ofText nestedGroup (some .native)).ok = true ∧
      (ofText nestedGroup (some .native)).document.metadata = .empty ∧
      (ofText (inGroup "a \"b\" \\" nestedGroup) (some .native)).document.blocks =
        .group "a \"b\" \\" (ofText nestedGroup (some .native)).document.blocks .nil := by
  let r : Reading := start .native (Token.scan nestedGroup).tokens
  have hdone : (steps 9 r).finished = true := by decide +kernel
  have hrun := run_eq_steps hdone
  have hfree : BraceFree r := braceFree_of_steps hdone (by decide +kernel)
  have hname : '\n' ∉ "a \"b\" \\".toList := by decide +kernel
  have hok : (ofText nestedGroup (some .native)).ok = true := by
    rw [ok_iff_clean]
    refine ⟨by unfold Clean; decide +kernel, ?_⟩
    rw [hrun]
    unfold Clean
    decide +kernel
  have hmeta : (ofText nestedGroup (some .native)).document.metadata = .empty := by
    show r.run.metadata = .empty
    rw [hrun]
    decide +kernel
  exact ⟨hname, hok, hmeta, ((ofText_inGroup hname hok hmeta).mpr hfree).1⟩

/-- A closing brace in front of an edge line closes the group around it, and the brace behind the
line closes nothing. -/
theorem closeBrace_leaves_group :
    '\n' ∉ "g".toList ∧ (ofText "\x7d a -> b" (some .native)).diagnostics = [] ∧
      (ofText "\x7d a -> b" (some .native)).document.metadata = .empty ∧
      (ofText (inGroup "g" "\x7d a -> b") (some .native)).diagnostics =
        [⟨⟨3, 1⟩, .strayBrace⟩] := by
  have halone := run_eq_steps (n := 3)
    (r := start .native (Token.scan "\x7d a -> b").tokens) (by decide +kernel)
  have hgrouped := run_eq_steps (n := 9)
    (r := start .native (Token.scan (inGroup "g" "\x7d a -> b")).tokens) (by decide +kernel)
  refine ⟨by decide +kernel, ?_, ?_, ?_⟩
  · show Diagnostic.sorted ((Token.scan "\x7d a -> b").diagnostics ++
      (start .native (Token.scan "\x7d a -> b").tokens).run.diagnostics) = []
    rw [halone]
    decide +kernel
  · show (start .native (Token.scan "\x7d a -> b").tokens).run.metadata = .empty
    rw [halone]
    decide +kernel
  · show Diagnostic.sorted ((Token.scan (inGroup "g" "\x7d a -> b")).diagnostics ++
      (start .native (Token.scan (inGroup "g" "\x7d a -> b")).tokens).run.diagnostics) = _
    rw [hgrouped]
    decide +kernel

end Reading

end Schematic
