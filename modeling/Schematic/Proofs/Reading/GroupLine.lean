import Schematic.Proofs.Reading.Appending
import Schematic.Proofs.Writing.Ink

/-!
# A group on one line

In `group g { S }` the brace behind `S` should close the group, as it does on a line of its own. All
statements of a group but one leave a closing brace alone: an edge line takes the whole line, and
the brace with it. So the two ways of writing agree if no statement of `S` is an edge line
(`EdgeFree`, `ofText_groupLine`), and an edge shows that they differ otherwise.
-/

namespace Schematic

namespace Reading

open Cursor

/-! ## Statements of a native group -/

/-- The form of the statement at the cursor in a group of the native dialect. There it depends on
the tokens ahead alone. -/
def formIn (c : Cursor) : Form :=
  (⟨.native, c, .empty, [], [], false, .nil, []⟩ : Reading).form false

/-- The cursor behind that statement. It is where the next statement of the group begins. -/
def behind (c : Cursor) : Cursor := (effect .native c false (formIn c)).cursor

/-- Statement by statement, reading comes from `c` to `d` and to no edge line in front of `d`. How
far `d` is, is left open. -/
inductive Passes : Cursor → Cursor → Prop
  | refl (c : Cursor) : Passes c c
  | next {c d : Cursor} (hc : c.ahead ≠ []) (h : formIn c ≠ .edges) (rest : Passes (behind c) d) :
      Passes c d

/-- No statement of the group from the cursor on is an edge line: reading comes to the end without
one. -/
def EdgeFree (c : Cursor) : Prop := ∃ d, Passes c d ∧ d.ahead = []

theorem wordForm?_native {r : Reading} (h : r.dialect = .native) (top : Bool) :
    r.wordForm? top = none := by
  simp [wordForm?, h, Dialect.directiveWords, Dialect.passedWords]

theorem form_eq_formIn {r : Reading} (h : r.dialect = .native) :
    r.form false = formIn r.cursor := by
  simp only [formIn, form, wordForm?_native h,
    wordForm?_native (r := ⟨.native, r.cursor, .empty, [], [], false, .nil, []⟩) rfl, groupForm?,
    declares, shapeForm, h]

/-- The forms of the statements of a native group. Headers, directives, declarations and metadata
lines are not among them. -/
theorem formIn_cases (c : Cursor) :
    formIn c ∈ [Form.blank, .keywordGroup, .entity, .group, .edges, .lone, .stray] ∨
      c.current.kind = .atSign ∧ formIn c = .passed := by
  let r : Reading := ⟨.native, c, .empty, [], [], false, .nil, []⟩
  show r.form false ∈ _ ∨ _ ∧ r.form false = _
  rcases form_cases r false with hf | ⟨hat, hf⟩ | hf | hf | ⟨hd, -⟩ | hf
  · simp [hf]
  · exact Or.inr ⟨hat, hf⟩
  · rw [wordForm?_native rfl] at hf
    cases hf
  · rcases groupForm?_cases hf with hk | hk
    · simp [hk]
    · simp only [hk, groupForm?] at hf
      split at hf
      · split at hf <;> simp [r, Dialect.endBlocks] at hf
      · cases hf
  · simp [declares, r, Dialect.declarationWords] at hd
  · rcases shapeForm_cases r false with hs | ⟨hs, -⟩
    · rw [← hf] at hs
      simp only [List.mem_cons, List.not_mem_nil, or_false] at hs
      rcases hs with hs | hs | hs | hs | hs <;> simp [hs]
    · cases hs

theorem formIn_move (f : Place → Place) (n : Nat) (c : Cursor) :
    formIn (c.move f n) = formIn c :=
  form_move (f := f) (n := n) ⟨.native, c, .empty, [], [], false, .nil, []⟩ false

theorem behind_move (f : Place → Place) (n : Nat) (c : Cursor) :
    behind (c.move f n) = (behind c).move f n := by
  rw [behind, formIn_move, effect_move]
  rfl

theorem Passes.move {c d : Cursor} (h : Passes c d) (f : Place → Place) (n : Nat) :
    Passes (c.move f n) (d.move f n) := by
  induction h with
  | refl c => exact .refl _
  | next hc h _ ih =>
      rw [← behind_move] at ih
      exact .next (by simpa [Cursor.move] using hc) (by rw [formIn_move]; exact h) ih

theorem Passes.of_move {c d : Cursor} {f : Place → Place} {n : Nat} (h : Passes (c.move f n) d) :
    ∃ e, Passes c e ∧ d = e.move f n := by
  generalize hm : c.move f n = m at h
  induction h generalizing c with
  | refl => exact ⟨c, .refl c, hm.symm⟩
  | next hc h _ ih =>
      subst hm
      obtain ⟨e, he, rfl⟩ := ih (behind_move f n c).symm
      exact ⟨e, .next (by simpa [Cursor.move] using hc) (by rwa [formIn_move] at h) he, rfl⟩

/-- Whether edge lines are ahead does not depend on places. So it can be asked of the text of the
group alone, wherever that stands. -/
theorem edgeFree_move {c : Cursor} (f : Place → Place) (n : Nat) :
    EdgeFree (c.move f n) ↔ EdgeFree c := by
  constructor
  · rintro ⟨d, hpasses, hnil⟩
    obtain ⟨e, he, rfl⟩ := hpasses.of_move
    exact ⟨e, he, by simpa [Cursor.move] using hnil⟩
  · rintro ⟨d, hpasses, hnil⟩
    exact ⟨d.move f n, hpasses.move f n, by simp [Cursor.move, hnil]⟩

theorem reaches_behind {c : Cursor} (hend : c.atEnd = false) : c.Reaches (behind c) := by
  have h := reaches_take (take_form ⟨.native, c, .empty, [], [], false, .nil, []⟩ false hend)
  rw [statement_eq_apply _ false hend, cursor_apply] at h
  exact h

theorem length_behind_lt {c : Cursor} (hend : c.atEnd = false) :
    (behind c).ahead.length < c.ahead.length := by
  have h := statement_progress ⟨.native, c, .empty, [], [], false, .nil, []⟩ false hend
  rw [statement_eq_apply _ false hend, remaining, cursor_apply] at h
  exact h

/-! ## Lines without braces -/

/-- Every opening bracket has a closing one behind it. That is less than being balanced, and enough
to keep brackets on the line. -/
def Closes : List Token → Prop
  | [] => True
  | t :: ts => (t.kind = .openBracket → ∃ u ∈ ts, u.kind = .closeBracket) ∧ Closes ts

/-- What may stand between two braces on one line. The kinds that are left out would end the line or
the group, or begin something that reaches further. -/
structure Plain (ts : List Token) : Prop where
  kinds : ∀ u ∈ ts, u.kind ∉
    [Token.Kind.openBrace, .closeBrace, .comment, .atSign, .newline, .endOfInput]
  brackets : Closes ts

theorem Plain.endsLine_eq_false {ts : List Token} (h : Plain ts) {u : Token} (hu : u ∈ ts) :
    u.kind.endsLine = false := by
  have hk := h.kinds u hu
  cases hkind : u.kind <;> simp_all [Token.Kind.endsLine]

theorem Closes.drop {ts : List Token} (h : Closes ts) (n : Nat) : Closes (ts.drop n) := by
  induction n generalizing ts with
  | zero => exact h
  | succ n ih =>
      cases ts with
      | nil => exact h
      | cons t ts => exact ih h.2

theorem Plain.drop {ts : List Token} (h : Plain ts) (n : Nat) : Plain (ts.drop n) :=
  ⟨fun u hu => h.kinds u (List.mem_of_mem_drop hu), h.brackets.drop n⟩

theorem Plain.reaches {c d : Cursor} (h : Plain c.ahead) (hr : c.Reaches d) : Plain d.ahead := by
  obtain ⟨n, -, rfl⟩ := hr
  exact h.drop n

theorem Plain.unbroken {ts : List Token} (h : Plain ts) : Unbroken ts := fun u hu he => by
  have hk := h.kinds u hu
  simp [he] at hk

/-- No token ahead is of a kind that the line cannot hold. Past its last token a cursor sees the end
of the input, which is not listed here. -/
theorem Plain.peek_ne {c : Cursor} (h : Plain c.ahead) {k : Token.Kind}
    (hk : k ∈ [Token.Kind.openBrace, .closeBrace, .comment, .atSign, .newline]) (i : Nat) :
    (c.peek i).kind ≠ k := by
  intro he
  rcases Nat.lt_or_ge i c.ahead.length with hi | hi
  · have hmem : c.peek i ∈ c.ahead := by
      simp only [peek, List.getElem?_eq_getElem hi, Option.getD_some]
      exact List.getElem_mem hi
    have hnot := h.kinds _ hmem
    rw [he] at hnot
    simp only [List.mem_cons, List.not_mem_nil, or_false] at hk hnot
    tauto
  · simp only [peek, List.getElem?_eq_none hi, Option.getD_none, c.final_kind] at he
    rw [← he] at hk
    simp at hk

theorem takeWhile_lt_of_mem {q : Token → Bool} {ts : List Token} {u : Token} (hu : u ∈ ts)
    (hq : q u = false) : (ts.takeWhile q).length < ts.length := by
  refine Nat.lt_of_le_of_ne (List.takeWhile_prefix q).length_le fun he => ?_
  have hall := List.all_takeWhile (p := q) (l := ts)
  rw [(List.takeWhile_prefix q).eq_of_length he, List.all_eq_true] at hall
  rw [hall u hu] at hq
  cases hq

/-- A bracket on the line is closed on it, so an entity with a bracket does not reach over the brace
behind the line. -/
theorem Plain.enclosed {c : Cursor} (h : Plain c.ahead) (hat : c.isAt .openBracket = true)
    (problem : Problem) : (c.enclosed .closeBracket problem).diagnostics = [] := by
  have hkind : c.current.kind = .openBracket := by simpa [isAt] using hat
  cases hc : c.ahead with
  | nil => simp [current, hc, c.final_kind] at hkind
  | cons t ts =>
      have hend : c.atEnd = false := by simp [atEnd, isAt, hkind]
      have hadv : c.advance.ahead = ts := ahead_advance_cons hc hend
      have hplain : Plain ts := by
        have := h.drop 1
        rwa [hc] at this
      have hopen : t.kind = .openBracket := by simpa [current, hc] using hkind
      have hbrackets := h.brackets
      rw [hc] at hbrackets
      obtain ⟨u, hu, hclose⟩ := hbrackets.1 hopen
      have hlt := takeWhile_lt_of_mem (q := fun t => t.kind != .closeBracket &&
        t.kind != .endOfInput) hu (by simp [hclose])
      have hrest : (c.advance.skip (c.advance.ahead.takeWhile fun t =>
          t.kind != .closeBracket && t.kind != .endOfInput).length).atEnd = false := by
        rw [hadv]
        refine Unbroken.atEnd ?_ ?_
        · simp only [skip, hadv]
          exact (hplain.drop _).unbroken
        · simp only [skip, hadv, ne_eq, List.drop_eq_nil_iff, Nat.not_le]
          exact hlt
      simp [Cursor.enclosed, hrest]

theorem Plain.closed_entity {c : Cursor} (h : Plain c.ahead) (dialect : Dialect) (id : String)
    (known : KeyedList String String) :
    Closed (Declaration.entityTaken dialect id known c).diagnostics := by
  have hattrs : (Declaration.attributes dialect id c).diagnostics = [] := by
    unfold Declaration.attributes
    split
    · next hat => exact h.enclosed hat _
    · rfl
  have hrest := h.reaches (Declaration.reaches_attributes dialect id c)
  have hat : (Declaration.attributes dialect id c).cursor.isAt .openBrace = false := by
    rw [isAt, current_eq_peek]
    simpa using hrest.peek_ne (by simp) 0
  have hbody : (Declaration.bodyTaken dialect id
      (Declaration.attributes dialect id c).cursor).diagnostics = [] := by
    simp [Declaration.bodyTaken, hat]
  simp only [Declaration.entityTaken, hattrs, hbody]
  exact fun x hx => by cases hx

/-- On such a line a statement other than an edge line is one that a closing brace ends. It is only
edge lines that take the brace. -/
theorem Plain.isInline {c : Cursor} (h : Plain c.ahead) (hedge : formIn c ≠ .edges) :
    isInline (formIn c) := by
  have hsees : Sees c (formIn c) := form_sees ⟨.native, c, .empty, [], [], false, .nil, []⟩ false
  have hbrace := h.peek_ne (k := .openBrace) (by simp)
  rcases formIn_cases c with hf | ⟨hat, -⟩
  · simp only [List.mem_cons, List.not_mem_nil, or_false] at hf
    rcases hf with hf | hf | hf | hf | hf | hf | hf
    · simp [hf, Reading.isInline]
    · rw [hf] at hsees
      exact absurd hsees.2 (hbrace 2)
    · simp [hf, Reading.isInline]
    · rw [hf] at hsees
      exact absurd hsees (hbrace 1)
    · exact absurd hf hedge
    · simp [hf, Reading.isInline]
    · simp [hf, Reading.isInline]
  · exact absurd hat (by rw [current_eq_peek]; exact h.peek_ne (by simp) 0)

theorem Plain.passes {c d : Cursor} (h : Plain c.ahead) (hp : Passes c d) : Plain d.ahead := by
  induction hp with
  | refl => exact h
  | next hc _ _ ih => exact ih (h.reaches (reaches_behind (h.unbroken.atEnd hc)))

/-- A line with an edge line comes to its first one. The induction is on the number of tokens ahead,
which every statement lowers. -/
theorem Plain.exists_edges {c : Cursor} (h : Plain c.ahead) (hfree : ¬ EdgeFree c) :
    ∃ d, Passes c d ∧ d.ahead ≠ [] ∧ formIn d = .edges := by
  induction hn : c.ahead.length using Nat.strong_induction_on generalizing c with
  | h n ih =>
    have hne : c.ahead ≠ [] := fun hnil => hfree ⟨c, .refl c, hnil⟩
    by_cases hedge : formIn c = .edges
    · exact ⟨c, .refl c, hne, hedge⟩
    · have hend := h.unbroken.atEnd hne
      have hrest : ¬ EdgeFree (behind c) := fun ⟨d, hp, hnil⟩ => hfree ⟨d, .next hne hedge hp, hnil⟩
      obtain ⟨d, hp, hd⟩ := ih _ (hn ▸ length_behind_lt hend) (h.reaches (reaches_behind hend))
        hrest rfl
      exact ⟨d, .next hne hedge hp, hd⟩

/-! ## Side by side

The line is read once with a brace behind it and once with a line end, and both are compared with
its reading alone. -/

section Lockstep

variable {z : List Token} {brace nl : Token} {g : OpenGroup} {outer : List OpenGroup}
  {r r₁ r₂ : Reading} {c d : Cursor}

/-- With text behind a boundary that is quiet up to the line end, the form is the same. A connector
there would make an edge line of the last statement. -/
theorem formIn_append {t : Token} {ys : List Token} (hc : Plain c.ahead) (hend : c.atEnd = false)
    (h : d.ahead = c.ahead ++ t :: ys) (ht : isBoundary t.kind = true)
    (hquiet : ∀ depth, hasConnector depth (t :: ys) = false) : formIn d = formIn c := by
  rcases form_append (r := ⟨.native, c, .empty, [], [], false, .nil, []⟩)
    (s := ⟨.native, d, .empty, [], [], false, .nil, []⟩) h ht hquiet rfl rfl hend false with
    hform | ⟨-, hopen, -⟩
  · exact hform
  · exact absurd hopen (hc.peek_ne (by simp) 1)

/-- A statement of the line, with a boundary behind the line. It adds the same and stops in front of
the boundary, or behind it if that is a line end. -/
theorem effect_append {t : Token} {ys : List Token} (hc : Plain c.ahead)
    (hend : c.atEnd = false) (hedge : formIn c ≠ .edges) (h : d.ahead = c.ahead ++ t :: ys)
    (ht : t.kind = .newline ∨ t.kind = .closeBrace)
    (hquiet : ∀ depth, hasConnector depth (t :: ys) = false) :
    Effect.Follows t ys (effect .native c false (formIn c))
      (effect .native d false (formIn d)) := by
  have hb : isBoundary t.kind = true := by rcases ht with ht | ht <;> rw [ht] <;> rfl
  have hinline := hc.isInline hedge
  rw [formIn_append hc hend h hb hquiet]
  refine effect_follows_of_isInline h (ht.imp_right fun ht => ⟨ht, rfl⟩) hend hinline .native ?_
  rintro (hform | hform)
  · rw [hform]
    exact (hc.reaches c.reaches_advance).closed_entity .native c.current.text .empty
  · rw [hform] at hinline
    simp [Reading.isInline] at hinline

theorem quiet_of_isInline {f : Form} (h : isInline f) (dialect : Dialect) (c : Cursor)
    (top : Bool) :
    (effect dialect c top f).opened = none ∧ (effect dialect c top f).entries = [] := by
  simp only [isInline, List.mem_cons, List.not_mem_nil, or_false] at h
  rcases h with rfl | rfl | rfl | rfl <;> exact ⟨rfl, rfl⟩

/-- In a group in braces a statement is read where the brace is not, whatever was read before. -/
theorem step_inside (hd : r.dialect = .native) (hg : r.openGroups = g :: outer)
    (hb : g.closer = .brace) (hend : r.cursor.atEnd = false)
    (hat : r.cursor.isAt .closeBrace = false) :
    r.step = (effect .native r.cursor false (formIn r.cursor)).apply r := by
  have hstays : r.Stays := by
    intro k hk
    rw [hg] at hk
    cases hk
    simp [closing?, hend, hb, hat]
  have htop : r.atTop = false := by simp [atTop, hg]
  rw [step_of_stays hend hstays, next, htop, form_eq_formIn hd, hd]

/-- The brace closes the group, and reading goes on behind it in what is around the group. -/
theorem run_of_closeBrace (hbrace : brace.kind = .closeBrace) (hg : r.openGroups = g :: outer)
    (hb : g.closer = .brace) (ha : r.cursor.ahead = brace :: z) :
    r.run = (Closing.apply ⟨r.cursor.advance, []⟩ r g outer).run ∧ r.cursor.advance.ahead = z := by
  have hend : r.cursor.atEnd = false := by simp [Cursor.atEnd, isAt, current, ha, hbrace]
  have hat : r.cursor.isAt .closeBrace = true := by simp [isAt, current, ha, hbrace]
  have hx : closing? r.cursor g = some ⟨r.cursor.advance, []⟩ := by
    simp [closing?, hend, hb, hat]
  refine ⟨?_, ahead_advance_cons ha hend⟩
  rw [run_of_not_finished (by simp [finished, hend]), step_of_closing hg hx]

theorem final_advance (c : Cursor) : c.advance.final = c.final := by
  obtain ⟨n, -, hn⟩ := c.reaches_advance
  rw [hn]
  rfl

theorem final_step (h : r.finished = false) : r.step.cursor.final = r.cursor.final := by
  obtain ⟨n, -, hn⟩ := reaches_step h
  rw [hn]
  rfl

/-- Two readings in the group `g` have read the same; the one sees what `c` sees and a brace behind
it, the other a line end in front of the brace. -/
structure Abreast (brace nl : Token) (z : List Token) (g : OpenGroup) (outer : List OpenGroup)
    (c : Cursor) (r₁ r₂ : Reading) : Prop where
  dialect : r₁.dialect = .native
  openGroups : r₁.openGroups = g :: outer
  same : r₂ = { r₁ with cursor := r₂.cursor }
  final : r₂.cursor.final = r₁.cursor.final
  ahead : r₁.cursor.ahead = c.ahead ++ brace :: z
  follows : Cursor.Follows nl (brace :: z) c r₂.cursor

theorem Abreast.openGroups' (h : Abreast brace nl z g outer c r₁ r₂) :
    r₂.openGroups = g :: outer := by
  rw [h.same]
  exact h.openGroups

theorem Abreast.dialect' (h : Abreast brace nl z g outer c r₁ r₂) : r₂.dialect = .native := by
  rw [h.same]
  exact h.dialect

theorem Abreast.ahead' (h : Abreast brace nl z g outer c r₁ r₂) (hne : c.ahead ≠ []) :
    r₂.cursor.ahead = c.ahead ++ nl :: brace :: z := by
  rcases h.follows with h | ⟨-, hnil, -⟩
  · exact h
  · exact absurd hnil hne

section

variable (hbrace : brace.kind = .closeBrace) (hnl : nl.kind = .newline) (hb : g.closer = .brace)
  (hquiet : ∀ depth, hasConnector depth (brace :: z) = false)

include hbrace hnl hb hquiet

/-- Two readings abreast in front of a statement of the line both take it, and neither is over. -/
theorem Abreast.steps (h : Abreast brace nl z g outer c r₁ r₂) (hc : Plain c.ahead)
    (hne : c.ahead ≠ []) :
    (r₁.finished = false ∧ r₁.step = (effect .native r₁.cursor false (formIn c)).apply r₁) ∧
      r₂.finished = false ∧ r₂.step = (effect .native r₂.cursor false (formIn c)).apply r₂ := by
  have hend := hc.unbroken.atEnd hne
  have hnot : c.isAt .closeBrace = false := by
    rw [isAt, current_eq_peek]
    simpa using hc.peek_ne (k := .closeBrace) (by simp) 0
  have hform₁ := formIn_append hc hend h.ahead (by rw [hbrace]; rfl) hquiet
  have hform₂ := formIn_append hc hend (h.ahead' hne) (by rw [hnl]; rfl)
    (hasConnector_of_newline hnl _)
  have hend₁ := atEnd_append h.ahead hend
  have hend₂ := atEnd_append (h.ahead' hne) hend
  refine ⟨⟨by simp [finished, hend₁], ?_⟩, by simp [finished, hend₂], ?_⟩
  · rw [step_inside h.dialect h.openGroups hb hend₁ ?_, hform₁]
    rw [isAt, current_append h.ahead hne]
    exact hnot
  · rw [step_inside h.dialect' h.openGroups' hb hend₂ ?_, hform₂]
    rw [isAt, current_append (h.ahead' hne) hne]
    exact hnot

/-- A statement other than an edge line leaves the readings abreast: it adds the same to both and
leaves the brace to each. In a group it gives no metadata. -/
theorem Abreast.next (h : Abreast brace nl z g outer c r₁ r₂) (hc : Plain c.ahead)
    (hne : c.ahead ≠ []) (hedge : formIn c ≠ .edges) :
    Abreast brace nl z g outer (behind c) r₁.step r₂.step ∧ r₁.step.metadata = r₁.metadata := by
  have hend := hc.unbroken.atEnd hne
  have he₁ := effect_append hc hend hedge h.ahead (Or.inr hbrace) hquiet
  have hquiet' := hasConnector_of_newline hnl
  have he₂ := effect_append hc hend hedge (h.ahead' hne) (Or.inl hnl) (hquiet' _)
  rw [formIn_append hc hend h.ahead (by rw [hbrace]; rfl) hquiet] at he₁
  rw [formIn_append hc hend (h.ahead' hne) (by rw [hnl]; rfl) (hquiet' _)] at he₂
  obtain ⟨⟨hf₁, hs₁⟩, hf₂, hs₂⟩ := h.steps hbrace hnl hb hquiet hc hne
  obtain ⟨hnone, hentries⟩ := quiet_of_isInline (hc.isInline hedge) .native c false
  have hopened : (effect .native r₁.cursor false (formIn c)).opened = none := by
    rw [he₁.same]
    exact hnone
  refine ⟨⟨?_, ?_, ?_, ?_, ?_, ?_⟩, ?_⟩
  · rw [hs₁, dialect_apply]
    exact h.dialect
  · rw [hs₁, openGroups_apply, hopened]
    simp [h.openGroups]
  · have he : effect .native r₂.cursor false (formIn c) =
        { effect .native r₁.cursor false (formIn c) with
          cursor := (effect .native r₂.cursor false (formIn c)).cursor } := by
      rw [he₁.same]
      exact he₂.same
    rw [hs₁, hs₂, cursor_apply]
    exact apply_same he h.same
  · rw [final_step hf₁, final_step hf₂, h.final]
  · rw [hs₁, cursor_apply]
    rcases he₁.cursor with hfollow | ⟨hk, -⟩
    · exact hfollow
    · rw [hbrace] at hk
      cases hk
  · rw [hs₂, cursor_apply]
    exact he₂.cursor
  · rw [hs₁, apply_eq _ _ hopened, he₁.same, hentries]
    rfl

/-- The readings stay abreast from statement to statement, up to the first edge line or to the end
of the line. -/
theorem Abreast.passes (hp : Passes c d) (hc : Plain c.ahead)
    (h : Abreast brace nl z g outer c r₁ r₂) :
    ∃ q₁ q₂, r₁.run = q₁.run ∧ r₂.run = q₂.run ∧ Abreast brace nl z g outer d q₁ q₂ ∧
      q₁.metadata = r₁.metadata := by
  induction hp generalizing r₁ r₂ with
  | refl c => exact ⟨r₁, r₂, rfl, rfl, h, rfl⟩
  | @next c d hne hedge _ ih =>
      have hend := hc.unbroken.atEnd hne
      obtain ⟨⟨hf₁, -⟩, hf₂, -⟩ := h.steps hbrace hnl hb hquiet hc hne
      obtain ⟨hnext, hmeta⟩ := h.next hbrace hnl hb hquiet hc hne hedge
      obtain ⟨q₁, q₂, hrun₁, hrun₂, hq, hm⟩ := ih (hc.reaches (reaches_behind hend)) hnext
      exact ⟨q₁, q₂, (run_of_not_finished hf₁).trans hrun₁, (run_of_not_finished hf₂).trans hrun₂,
        hq, hm.trans hmeta⟩

end

/-- What a reading has read: its metadata, blocks and edges. Reports are left out, since their
places differ. -/
structure Agree (x y : Reading) : Prop where
  metadata : x.metadata = y.metadata
  blocks : x.blocks = y.blocks
  edges : x.edges = y.edges

/-- How many tokens are behind the cursor makes no difference. Two readings that see the same tokens
agree. -/
theorem agree_run (hsame : r₂ = { r₁ with cursor := r₂.cursor })
    (ha : r₂.cursor.ahead = r₁.cursor.ahead) (hl : r₂.cursor.final = r₁.cursor.final) :
    Agree r₁.run r₂.run := by
  have hmove : r₁.move id r₂.cursor.passed = r₂.move id r₁.cursor.passed := by
    rw [hsame]
    simp only [move, Cursor.move, ha, hl, Nat.add_comm]
  have hrun : r₁.run.move id r₂.cursor.passed = r₂.run.move id r₁.cursor.passed := by
    rw [← run_move, hmove, run_move]
  have hmeta := congrArg Reading.metadata hrun
  have hblocks := congrArg Reading.blocks hrun
  have hedges := congrArg Reading.edges hrun
  exact ⟨hmeta, hblocks, hedges⟩

/-- Behind the last statement both readings close the group, the one past the line end. From there
they see the same. -/
theorem Abreast.agree (h : Abreast brace nl z g outer d r₁ r₂) (hnil : d.ahead = [])
    (hbrace : brace.kind = .closeBrace) (hnl : nl.kind = .newline) (hb : g.closer = .brace) :
    Agree r₁.run r₂.run := by
  have close {r₁ r₂ : Reading} (hg : r₁.openGroups = g :: outer)
      (hsame : r₂ = { r₁ with cursor := r₂.cursor }) (hl : r₂.cursor.final = r₁.cursor.final)
      (h₁ : r₁.cursor.ahead = brace :: z) (h₂ : r₂.cursor.ahead = brace :: z) :
      Agree r₁.run r₂.run := by
    obtain ⟨hrun₁, hz₁⟩ := run_of_closeBrace hbrace hg hb h₁
    obtain ⟨hrun₂, hz₂⟩ := run_of_closeBrace hbrace (by rw [hsame]; exact hg) hb h₂
    rw [hrun₁, hrun₂]
    refine agree_run ?_ (hz₂.trans hz₁.symm) ?_
    · rw [hsame]
      rfl
    · exact (final_advance _).trans (hl.trans (final_advance _).symm)
  have h₁ : r₁.cursor.ahead = brace :: z := by rw [h.ahead, hnil, List.nil_append]
  rcases h.follows with h₂ | ⟨-, -, h₂⟩
  · rw [hnil, List.nil_append] at h₂
    obtain ⟨hstep, hrest⟩ := step_of_blank h₂ (by rw [hnl]; rfl)
    have hend : r₂.cursor.atEnd = false := by simp [Cursor.atEnd, isAt, current, h₂, hnl]
    have hf : r₂.finished = false := by simp [finished, hend]
    rw [run_of_not_finished hf]
    refine close h.openGroups ?_ ((final_step hf).trans h.final) h₁ ?_
    · rw [hstep, cursor_apply, h.same]
      simp [apply_eq, putAll_nil, Forest.append_nil]
    · rw [hstep, cursor_apply]
      exact hrest
  · exact close h.openGroups h.same h.final h₁ h₂

end Lockstep

end Reading

end Schematic
