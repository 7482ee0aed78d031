import Schematic.Proofs.Reading.Appending
import Schematic.Proofs.Reading.Relocation

/-!
# Text without an opening brace

Fields stand in braces, and so do the groups of all dialects but Mermaid. Where no brace opens, a
reading therefore adds entities without fields and opens no group (`Fieldless.run`). Of these, the
entities that an edge line declares have at most a label (`EdgeLine.isSpanned_read`).
-/

namespace Schematic

/-! ## Entities of an edge line -/

namespace EdgeLine

variable {dialect : Dialect}

/-- The entity has what some brackets say, and nothing else. In particular it has no fields. -/
def IsSpanned (dialect : Dialect) (e : Entity) : Prop :=
  ∃ id content, e = ⟨id, Phrase.bracketAttributes dialect content, none⟩

theorem declared_labelled (p : Progress) (text : String) :
    (p.labelled text).declared = p.declared := by
  unfold Progress.labelled
  split <;> rfl

theorem declared_token (p : Progress) (t : Token) : (p.token t).declared = p.declared := by
  unfold Progress.token
  split
  · simp only [Progress.word]; split <;> rfl
  · simp only [Progress.word]; split <;> rfl
  · rfl
  · simp only [Progress.string]; split <;> rfl
  · split <;> rfl

theorem isSpanned_declare {p : Progress} (h : ∀ e ∈ p.declared, IsSpanned dialect e)
    (content : List Token) : ∀ e ∈ (p.declare dialect content).declared, IsSpanned dialect e := by
  unfold Progress.declare
  split
  · split
    · next id _ =>
      refine List.forall_mem_append.mpr ⟨h, fun e he => ?_⟩
      exact ⟨id, content, List.mem_singleton.mp he⟩
    · exact h
  · exact h

theorem isSpanned_reduce {p : Progress} (h : ∀ e ∈ p.declared, IsSpanned dialect e)
    (ts : List Token) : ∀ e ∈ (reduce dialect p ts).declared, IsSpanned dialect e := by
  fun_induction reduce dialect p ts with
  | case1 p => exact h
  | case2 p t ts closer _ s q ih =>
      refine ih (isSpanned_declare ?_ s.1)
      unfold q
      split <;> exact h
  | case3 p t ts _ _ => rwa [declared_labelled]
  | case4 p t ts _ _ between rest _ ih => exact ih (by rwa [declared_labelled])
  | case5 p t ts _ _ _ ih => exact ih (by rwa [declared_token])

theorem isSpanned_read (line : List Token) :
    ∀ e ∈ (read dialect line).declared, IsSpanned dialect e :=
  isSpanned_reduce (by simp [Progress.start]) line

/-- Where brackets hold a label, they give no other attribute. Only the native dialect reads keys in
them. -/
theorem IsSpanned.get?_eq_none {e : Entity} (h : IsSpanned dialect e)
    (hlabel : dialect.keyedBrackets = false) {key : String} (hkey : key ≠ "label") :
    e.attributes.get? key = none := by
  obtain ⟨id, content, rfl⟩ := h
  simp only [Phrase.bracketAttributes, hlabel, Bool.false_eq_true, if_false]
  split
  · rfl
  · rw [KeyedList.get?_eq_none_iff, KeyedList.mem_keys_ofList]
    simpa using hkey

end EdgeLine

namespace Cursor

variable {c d : Cursor}

/-- What holds of all tokens ahead goes on to hold behind some of them, as readers only move on. -/
theorem Reaches.forall_ahead (h : c.Reaches d) {p : Token → Prop} (hc : ∀ t ∈ c.ahead, p t) :
    ∀ t ∈ d.ahead, p t := by
  obtain ⟨n, -, rfl⟩ := h
  exact fun t ht => hc t (List.mem_of_mem_drop ht)

theorem peek_ne {k : Token.Kind} (h : ∀ t ∈ c.ahead, t.kind ≠ k) (hk : k ≠ .endOfInput) (i : Nat) :
    (c.peek i).kind ≠ k := by
  unfold peek
  cases hi : c.ahead[i]? with
  | none => rw [Option.getD_none, c.final_kind]; exact hk.symm
  | some t => exact h t (List.mem_of_getElem? hi)

end Cursor

/-! ## Declared entities -/

theorem Declaration.fields_entity {c : Cursor} (h : ∀ t ∈ c.ahead, t.kind ≠ .openBrace)
    (dialect : Dialect) (id : String) (known : KeyedList String String) :
    (entityTaken dialect id known c).value.fields = none := by
  have hat : (attributes dialect id c).cursor.isAt .openBrace = false := by
    rw [Cursor.isAt, Cursor.current_eq_peek]
    simpa using Cursor.peek_ne ((reaches_attributes dialect id c).forall_ahead h) (by decide) 0
  show (bodyTaken dialect id (attributes dialect id c).cursor).value = none
  rw [bodyTaken, hat]
  rfl

namespace Forest

theorem entities_append (a b : Forest) : (a ++ b).entities = a.entities ++ b.entities := by
  induction a with
  | nil => rfl
  | entity e rest ih => exact congrArg (List.cons e) ih
  | group name members rest _ ih =>
      exact (congrArg _ ih).trans (List.append_assoc ..).symm

theorem entities_ofEntities (es : List Entity) : (ofEntities es).entities = es := by
  induction es with
  | nil => rfl
  | cons e es ih => exact congrArg (List.cons e) ih

end Forest

namespace Reading

/-! ## Statements -/

variable {r : Reading}

theorem form_ne_endBlock (h : r.dialect.endBlocks = false) (top : Bool) :
    r.form top ≠ .endBlock := by
  intro he
  have hgroup : r.groupForm? = some .endBlock := chosenBy_of_form he
  simp [groupForm?, h] at hgroup

/-- What a statement adds where no brace opens: no group, and no entity with fields. The cases are
the forms, and those with a brace do not occur. -/
theorem fieldless_next (hdialect : r.dialect.endBlocks = false)
    (h : ∀ t ∈ r.cursor.ahead, t.kind ≠ .openBrace) :
    r.next.opened = none ∧ ∀ e ∈ r.next.blocks.entities, e.fields = none := by
  have hsees := form_sees r r.atTop
  have hnone : ∀ e ∈ Forest.nil.entities, e.fields = none := by simp [Forest.entities]
  have hdeclared {e : Taken Entity} (he : e.value.fields = none) :
      ∀ e' ∈ (Effect.declaring e).blocks.entities, e'.fields = none := by
    rw [Effect.declaring, Forest.entities_ofEntities]
    simpa using he
  unfold next
  cases hform : r.form r.atTop with
  | keywordGroup => rw [hform] at hsees; exact absurd hsees.2 (Cursor.peek_ne h (by decide) 2)
  | group => rw [hform] at hsees; exact absurd hsees (Cursor.peek_ne h (by decide) 1)
  | endBlock => exact absurd hform (form_ne_endBlock hdialect _)
  | declaration =>
      have hreaches : r.cursor.Reaches
          (Declaration.passDecorations (Declaration.titled r.dialect r.cursor.advance).2.2) :=
        (Cursor.reaches_advance _).trans
          ((Declaration.reaches_titled r.dialect _).trans (Cursor.reaches_upTo _ _))
      exact ⟨rfl, hdeclared (Declaration.fields_entity (hreaches.forall_ahead h) ..)⟩
  | entity =>
      have hreaches := Cursor.reaches_advance r.cursor
      exact ⟨rfl, hdeclared (Declaration.fields_entity (hreaches.forall_ahead h) ..)⟩
  | edges =>
      refine ⟨rfl, fun e he => ?_⟩
      rw [effect, Forest.entities_ofEntities] at he
      obtain ⟨id, content, rfl⟩ := EdgeLine.isSpanned_read _ e he
      rfl
  | lone =>
      refine ⟨rfl, fun e he => ?_⟩
      rw [effect, Forest.entities_ofEntities, List.mem_singleton] at he
      rw [he]
      rfl
  | _ => exact ⟨rfl, hnone⟩

/-! ## Runs -/

/-- No group is open, no brace opens ahead, and no entity has fields. The dialect must not be one
that opens groups by a word. -/
structure Fieldless (r : Reading) : Prop where
  dialect : r.dialect.endBlocks = false
  openGroups : r.openGroups = []
  ahead : ∀ t ∈ r.cursor.ahead, t.kind ≠ .openBrace
  fields : ∀ e ∈ r.blocks.entities, e.fields = none

theorem Fieldless.step (h : Fieldless r) (hf : r.finished = false) : Fieldless r.step := by
  have hend : r.cursor.atEnd = false := by simpa [finished, h.openGroups] using hf
  have hstays : r.Stays := fun g hg => by rw [h.openGroups] at hg; cases hg
  obtain ⟨hopened, hfields⟩ := fieldless_next h.dialect h.ahead
  refine ⟨by rw [dialect_step hf]; exact h.dialect, ?_, (reaches_step hf).forall_ahead h.ahead, ?_⟩
  · rw [step_of_stays hend hstays, openGroups_apply, hopened, h.openGroups]
    rfl
  · rw [step_of_stays hend hstays, apply_eq _ _ hopened]
    show ∀ e ∈ (r.blocks ++ r.next.blocks).entities, e.fields = none
    rw [Forest.entities_append]
    exact List.forall_mem_append.mpr ⟨h.fields, hfields⟩

/-- Where no brace opens, no entity gets fields. The induction is on the run, and a step keeps what
is asked of the reading. -/
theorem Fieldless.run (h : Fieldless r) : ∀ e ∈ r.run.blocks.entities, e.fields = none := by
  fun_induction Reading.run r with
  | case1 => exact h.fields
  | case2 r hf ih => exact ih (h.step (Bool.eq_false_iff.mpr hf))

end Reading

end Schematic
