import Schematic.Proofs.Forest
import Schematic.Proofs.Writing.Parts
import Schematic.Reading.Text

/-!
# Reading undoes writing

A document written in the native way is read back as it was. Each form of a line is recognised by
the statement that has to read it, although every other form is tried first or after it; a run over
the lines is put together from these steps by induction on the metadata, the forest and the edges.
-/

namespace Schematic

open Token (IsWord)
open Native

namespace Native

theorem follow_append (ls ms : List Line) : follow (ls ++ ms) = follow ls ++ follow ms := by
  induction ls with
  | nil => rfl
  | cons l ls ih => simp only [List.cons_append, follow, ih, List.append_assoc]

theorem hasConnector_follow (depth : Nat) (p : Place) (ls : List Line) :
    Cursor.hasConnector depth (Ink.tokens p (follow ls)) = false := by
  cases ls with
  | nil => rfl
  | cons l ls =>
      simp only [follow, Ink.tokens, Ink.spelling?]
      rfl

/-! ## Entities -/

theorem attributes_written {as : List (String × String)}
    (has : ∀ a ∈ as, IsWord a.1 ∧ Text.trim a.2 = a.2) (owner : String) {c : Cursor}
    {xs : List Ink}
    (h : c.Faces (.mark .openBracket :: (attributes as ++ .mark .closeBracket :: xs))) :
    ∃ c', Declaration.attributes .native owner c = ⟨.ofList as, c', []⟩ ∧ c'.Faces xs := by
  have hkinds : ∀ k ∈ Ink.kinds (attributes as), k ≠ .closeBracket ∧ k ≠ .endOfInput := by
    intro k hk
    have hin := isQuiet_attributes (fun a ha => (has a ha).1) k hk
    constructor <;> (rintro rfl; cases hin)
  obtain ⟨hopen, -⟩ := Cursor.Faces.mark h (by decide)
  obtain ⟨p, hvalue, hrest, hdiag⟩ := Cursor.faces_enclosed (.openAttributes owner) h rfl
    (by decide) (by decide) hkinds
  refine ⟨_, ?_, hrest⟩
  have hattrs : Phrase.bracketAttributes .native (Ink.tokens p (attributes as)) = .ofList as := by
    simp [Phrase.bracketAttributes, Dialect.keyedBrackets, Phrase.keyValues, pairs_attributes has]
  simp [Declaration.attributes, Cursor.isAt, hopen, hvalue, hdiag, hattrs]

theorem endsLine_of_follow {c : Cursor} {ls : List Line} (h : c.Faces (follow ls)) :
    c.current.kind.endsLine = true := by
  cases ls with
  | nil => simp [Cursor.current, h.ahead_nil, c.final_kind, Token.Kind.endsLine]
  | cons l ls =>
      obtain ⟨hk, -⟩ := Cursor.Faces.mark h (by decide)
      rw [hk]
      rfl

theorem body_missing (owner : String) {c : Cursor} {ls : List Line} (h : c.Faces (follow ls)) :
    Declaration.bodyTaken .native owner c = ⟨none, c, []⟩ := by
  have hend := endsLine_of_follow h
  have hkind : c.isAt .openBrace = false := by
    cases hk : c.current.kind <;> simp_all [Cursor.isAt, Token.Kind.endsLine]
  simp [Declaration.bodyTaken, hkind]

/-- Between the braces of an entity stand words and line ends. So the first closing brace is the one
that was written for it. -/
theorem kinds_rows {fs : List Field} (hfs : ∀ f ∈ fs, PlainField f) :
    ∀ k ∈ Ink.kinds (follow (fs.map row)), k.isWord = true ∨ k = .newline := by
  induction fs with
  | nil => intro k hk; cases hk
  | cons f fs ih =>
      have hf := hfs f (List.mem_cons_self ..)
      have hname := (hf.words _ (List.mem_cons_self ..)).isWord_nameKind
      have hmore := isWord_moreWords fun w hw => hf.words w (List.mem_cons_of_mem _ hw)
      intro k hk
      simp only [List.map_cons, follow, row, Ink.kinds_mark, Ink.kinds_append, List.cons_append,
        Ink.kinds_word, List.mem_cons, List.mem_append] at hk
      rcases hk with rfl | rfl | hk | hk
      · exact Or.inr rfl
      · exact Or.inl hname
      · exact Or.inl (hmore k hk)
      · exact ih (fun g hg => hfs g (List.mem_cons_of_mem _ hg)) k hk

theorem body_written {fs : List Field} (hfs : ∀ f ∈ fs, PlainField f) (owner : String)
    {c : Cursor} {ls : List Line}
    (h : c.Faces (.mark .openBrace :: follow (fs.map row ++ [.mark .closeBrace] :: ls))) :
    ∃ c', Declaration.bodyTaken .native owner c = ⟨some fs, c', []⟩ ∧ c'.Faces (follow ls) := by
  have hsplit : follow (fs.map row ++ [.mark .closeBrace] :: ls)
      = (follow (fs.map row) ++ [.mark .newline]) ++ .mark .closeBrace :: follow ls := by
    simp [follow_append, follow]
  rw [hsplit] at h
  have hkinds : ∀ k ∈ Ink.kinds (follow (fs.map row) ++ [.mark .newline]),
      k ≠ .closeBrace ∧ k ≠ .endOfInput := by
    intro k hk
    rw [Ink.kinds_append, List.mem_append] at hk
    rcases hk with hk | hk
    · rcases kinds_rows hfs k hk with hw | rfl
      · constructor <;> (rintro rfl; cases hw)
      · decide
    · rw [List.mem_singleton.mp hk]
      decide
  obtain ⟨hopen, -⟩ := Cursor.Faces.mark h (by decide)
  obtain ⟨p, hvalue, hrest, hdiag⟩ := Cursor.faces_enclosed (.openFields owner) h rfl
    (by decide) (by decide) hkinds
  refine ⟨_, ?_, hrest⟩
  have hrows : FieldRow.readAll .native (Ink.tokens p (follow (fs.map row) ++ [.mark .newline]))
      = fs := by
    have hfirst : ∀ k ∈ Ink.kinds [], k.isWord = true := fun k hk => absurd hk List.not_mem_nil
    exact readAll_rows hfs hfirst p
  simp [Declaration.bodyTaken, Declaration.fields, Cursor.isAt, hopen, hvalue, hdiag, hrows]

/-- What stands on the line of an entity behind its closing bracket, and the lines after it. With
fields that includes the rows and the closing brace. -/
def afterBracket (fields : Option (List Field)) (ls : List Line) : List Ink :=
  match fields with
  | none => follow ls
  | some fs => .space :: .mark .openBrace :: follow (fs.map row ++ [.mark .closeBrace] :: ls)

theorem lined_entity (e : Entity) (ls : List Line) :
    lined (entity e ++ ls) = .word e.id :: .space :: .mark .openBracket ::
      (attributes e.attributes.entries ++ .mark .closeBracket :: afterBracket e.fields ls) := by
  unfold entity afterBracket
  cases e.fields <;> simp [lined, heading]

theorem entity_written {e : Entity} (he : PlainEntity e) {c : Cursor} {ls : List Line}
    (h : c.Faces (.mark .openBracket :: (attributes e.attributes.entries ++
      .mark .closeBracket :: afterBracket e.fields ls))) :
    ∃ c', Declaration.entityTaken .native e.id .empty c = ⟨e, c', []⟩ ∧ c'.Faces (lined ls) := by
  obtain ⟨c', hattrs, hc'⟩ := attributes_written he.attributes e.id h
  obtain ⟨id, attrs, fields⟩ := e
  have hupdate : KeyedList.empty.update (.ofList attrs.entries) = attrs := by
    rw [KeyedList.ofList_entries, KeyedList.update_empty]
  cases fields with
  | none =>
      have hbody := body_missing id hc'
      refine ⟨c'.pass .newline, ?_, Cursor.faces_pass_newline hc'⟩
      simp [Declaration.entityTaken, hattrs, hbody, hupdate]
  | some fs =>
      obtain ⟨c'', hbody, hc''⟩ := body_written (he.fields fs rfl) id hc'.of_space
      refine ⟨c''.pass .newline, ?_, Cursor.faces_pass_newline hc''⟩
      simp [Declaration.entityTaken, hattrs, hbody, hupdate]

theorem hasConnector_entity {e : Entity} (he : PlainEntity e) (ls : List Line) (p : Place) :
    Cursor.hasConnector 0 (Ink.tokens p (lined (entity e ++ ls))) = false := by
  have hid : ∀ k ∈ Ink.kinds [.word e.id, .space], Cursor.isQuiet k = true := by
    intro k hk
    rw [List.mem_singleton.mp hk]
    exact Cursor.isQuiet_of_isWord he.id.isWord_nameKind
  have hattrs := isQuiet_attributes fun a ha => (he.attributes a ha).1
  rw [lined_entity]
  refine (Cursor.hasConnector_quiet [.word e.id, .space] _ hid 0 p).trans ?_
  -- the attributes stand at depth one, and behind them it is zero again
  refine (Cursor.hasConnector_quiet (attributes e.attributes.entries) _ hattrs 1 _).trans ?_
  show Cursor.hasConnector 0 (Ink.tokens _ (afterBracket e.fields ls)) = false
  unfold afterBracket
  cases e.fields with
  | none => exact hasConnector_follow _ _ _
  | some fs =>
      have hopen : ∀ k ∈ Ink.kinds [.space, .mark .openBrace], Cursor.isQuiet k = true := by
        intro k hk
        rw [List.mem_singleton.mp hk]
        rfl
      refine (Cursor.hasConnector_quiet [.space, .mark .openBrace] _ hopen 0 _).trans ?_
      exact hasConnector_follow _ _ _

/-! ## Edges -/

theorem isQuiet_side (s : Option String) : ∀ k ∈ Ink.kinds (side s), Cursor.isQuiet k = true := by
  cases s with
  | none => intro k hk; cases hk
  | some s =>
      intro k hk
      rw [List.mem_singleton.mp hk]
      rfl

theorem isConnector_connector (k : EdgeKind) : (connector k).isConnector = true := by
  cases k <;> rfl

theorem hasConnector_edge {e : Edge} (he : PlainEdge e) (ls : List Line) (p : Place) :
    Cursor.hasConnector 0 (Ink.tokens p (lined (edge e :: ls))) = true := by
  have hsource : ∀ k ∈ Ink.kinds [.word e.source, .space], Cursor.isQuiet k = true := by
    intro k hk
    rw [List.mem_singleton.mp hk]
    exact Cursor.isQuiet_of_isWord he.source.isWord_nameKind
  have hside := isQuiet_side (e.cardinality.bind Cardinality.source)
  simp only [lined, edge, List.cons_append, List.append_assoc]
  refine (Cursor.hasConnector_quiet [.word e.source, .space] _ hsource 0 p).trans ?_
  refine (Cursor.hasConnector_quiet (side _) _ hside 0 _).trans ?_
  cases e.kind <;> rfl

theorem endsLine_edge {e : Edge} (he : PlainEdge e) :
    ∀ k ∈ Ink.kinds (edge e), k.endsLine = false := by
  have hquiet : ∀ {k : Token.Kind}, Cursor.isQuiet k = true → k.endsLine = false := by
    intro k hk
    cases k <;> first | rfl | cases hk
  have hsource := hquiet (Cursor.isQuiet_of_isWord he.source.isWord_nameKind)
  have htarget := hquiet (Cursor.isQuiet_of_isWord he.target.isWord_nameKind)
  have hkind : (connector e.kind).endsLine = false := by cases e.kind <;> rfl
  have hlabel : ∀ k ∈ Ink.kinds (label e.label), k.endsLine = false := by
    cases e.label <;> simp [label, Token.Kind.endsLine]
  intro k hk
  simp only [edge, Ink.kinds_word, Ink.kinds_space, Ink.kinds_mark, Ink.kinds_append,
    List.mem_cons, List.mem_append] at hk
  rcases hk with rfl | hk | rfl | hk | rfl | hk
  · exact hsource
  · exact hquiet (isQuiet_side _ k hk)
  · exact hkind
  · exact hquiet (isQuiet_side _ k hk)
  · exact htarget
  · exact hlabel k hk

end Native

/-! ## Single statements -/

namespace Reading

variable {r : Reading}

/-- Every group that is open is closed by a brace. Nothing else is ever opened in a native text. -/
def InBraces (r : Reading) : Prop := ∀ g ∈ r.openGroups, g.closer = .brace

theorem run_of_step (hend : r.cursor.atEnd = false) : r.run = r.step.run := by
  have hf : r.finished = false := by simp [finished, hend]
  rw [run, if_neg (by simp [hf])]

/-- A statement that is read as `s`, on whatever level it stands, is a step to `s`. It must not
begin with the brace that would close a group. -/
theorem run_of_take {s : Reading} (hb : r.InBraces) (hend : r.cursor.atEnd = false)
    (hclose : r.cursor.current.kind ≠ .closeBrace)
    (h : ∀ top, (r.openGroups = [] → top = true) → r.take top (r.form top) = .ok s) :
    r.run = s.run := by
  have hstatement : ∀ top, (r.openGroups = [] → top = true) → r.statement top = s := by
    intro top htop
    rw [statement, h top htop]
  rw [run_of_step hend, step]
  cases hg : r.openGroups with
  | nil =>
      simp only [hstatement true fun _ => rfl]
  | cons g outer =>
      have hbrace : g.closer = .brace := hb g (by rw [hg]; exact List.mem_cons_self ..)
      have hnone : r.close? g outer = none := by
        simp [close?, hend, hbrace, Cursor.isAt, hclose]
      have hs := hstatement false fun he => by rw [hg] at he; cases he
      simp only [hnone, Option.getD_none, hs]

theorem peek_quoted {c : Cursor} (hend : c.atEnd = false) {s : String} {xs : List Ink}
    (h : c.advance.Faces (.quoted s :: xs)) :
    (c.peek 1).kind = .string ∧ ∃ c' : Cursor, c'.Faces xs ∧ c'.current = c.peek 2 := by
  obtain ⟨hstring, -, hrest⟩ := Cursor.Faces.quoted h
  have hend' : c.advance.atEnd = false := Cursor.Faces.atEnd_eq_false (by simp [hstring])
  refine ⟨?_, _, hrest, ?_⟩
  · rw [← Cursor.current_advance hend]
    exact hstring
  · rw [Cursor.current_advance hend', Cursor.peek_advance hend]

/-- In the native dialect a line that a word leads has the form that its shape gives, unless it
opens a group with a keyword. -/
theorem form_of_isWord (hn : r.dialect = .native) (hw : r.cursor.current.kind.isWord = true)
    (hg : (r.cursor.peek 1).kind.isName = false ∨ (r.cursor.peek 2).kind ≠ .openBrace)
    (top : Bool) : r.form top = r.shapeForm top := by
  have hword : r.wordForm? top = none := by
    simp [wordForm?, hn, Dialect.directiveWords, Dialect.passedWords]
  have hgroup : r.groupForm? = none := by
    unfold groupForm?
    simp only [hn, Dialect.endBlocks]
    split
    · next h =>
      rcases hg with hg | hg
      · rw [hg] at h
        exact absurd h.2.2 (by decide)
      · simp [hg]
    · rfl
  have hdecl : r.declares = false := by simp [declares, hn, Dialect.declarationWords]
  unfold form
  cases hk : r.cursor.current.kind <;> first
    | (rw [hk] at hw; cases hw; done)
    | simp [hword, hgroup, hdecl]

/-! ## The lines of a document -/

theorem run_newline {ls : List Line} (hb : r.InBraces) (h : r.cursor.Faces (follow ls)) :
    ∃ c : Cursor, c.Faces (lined ls) ∧ r.run = ({ r with cursor := c } : Reading).run := by
  cases ls with
  | nil => exact ⟨r.cursor, h, rfl⟩
  | cons l ls =>
      obtain ⟨hkind, hrest⟩ := Cursor.Faces.mark h (by decide)
      refine ⟨r.cursor.advance, hrest, run_of_take hb ?_ ?_ fun top _ => ?_⟩
      · exact Cursor.Faces.atEnd_eq_false (by simp [hkind])
      · simp [hkind]
      · have hform : r.form top = .blank := by
          unfold form
          simp only [hkind]
        rw [hform]
        rfl

theorem run_entity {e : Entity} (he : PlainEntity e) {ls : List Line} (hn : r.dialect = .native)
    (hb : r.InBraces) (h : r.cursor.Faces (lined (entity e ++ ls))) :
    ∃ c : Cursor, c.Faces (lined ls) ∧ r.run = ({ r with
      cursor := c, blocks := r.blocks ++ Forest.ofEntities [e] } : Reading).run := by
  have hconn : r.cursor.lineHasConnector = false := by
    obtain ⟨p, hp⟩ := h
    rw [Cursor.lineHasConnector, hp]
    exact hasConnector_entity he ls p
  rw [lined_entity] at h
  obtain ⟨hw, htext, hspace⟩ := h.word he.id
  have hname := Token.Kind.isName_of_isWord hw
  have hend := Cursor.atEnd_of_isName hname
  obtain ⟨hopen, -⟩ := Cursor.Faces.mark hspace.of_space (by decide)
  rw [Cursor.current_advance hend] at hopen
  obtain ⟨c, hentity, hc⟩ := entity_written he hspace.of_space
  refine ⟨c, hc, run_of_take hb hend (fun hk => by rw [hk] at hw; cases hw) fun top _ => ?_⟩
  have hform : r.form top = .entity := by
    rw [form_of_isWord hn hw (Or.inl (by simp [hopen, Token.Kind.isName]))]
    simp [shapeForm, hw, hopen, hconn]
  simp [hform, take_entity, hname, htext, hn, hentity, addEntity]

theorem run_groupLine {name : String} {ls : List Line} (hn : r.dialect = .native)
    (hb : r.InBraces) (h : r.cursor.Faces (lined (groupLine name :: ls))) :
    ∃ (t : Token) (c : Cursor), c.Faces (follow ls) ∧ r.run = (r.push name t .brace c).run := by
  obtain ⟨hw, htext, hname⟩ := Cursor.Faces.word isWord_group h
  have hident : r.cursor.current.kind = .ident := (h.head rfl (by decide)).1
  obtain ⟨hstring, hlabel, hopen⟩ := hname.of_space.quoted
  obtain ⟨hbrace, hrest⟩ := Cursor.Faces.mark hopen.of_space (by decide)
  have hend := Cursor.atEnd_of_isName (Token.Kind.isName_of_isWord hw)
  have hend' : r.cursor.advance.atEnd = false := Cursor.Faces.atEnd_eq_false (by simp [hstring])
  have hpeek := hstring
  have hpeek' := hbrace
  rw [Cursor.current_advance hend] at hpeek
  rw [Cursor.current_advance hend', Cursor.peek_advance hend] at hpeek'
  refine ⟨r.cursor.advance.current, _, hrest, run_of_take hb hend (by simp [hident])
    fun top _ => ?_⟩
  have hword : r.wordForm? top = none := by
    simp [wordForm?, hn, Dialect.directiveWords, Dialect.passedWords]
  have hlower : Text.lower "group" = "group" := by decide +kernel
  have hgroup : r.groupForm? = some .keywordGroup := by
    simp [groupForm?, hn, hident, htext, hlower, hpeek, hpeek', Dialect.groupWords,
      Token.Kind.isName]
  have hform : r.form top = .keywordGroup := by
    unfold form
    simp only [hident, hword, hgroup]
  have hopened : openBraces { r with cursor := r.cursor.advance } = _ :=
    openBraces_ok (r := { r with cursor := r.cursor.advance })
      (by simp [hstring, Token.Kind.isName]) (by rw [Cursor.peek_advance hend]; exact hpeek')
  simp only [hform, take, hopened, hlabel]
  rfl

theorem run_closeBrace {g : OpenGroup} {outer : List OpenGroup} {ls : List Line}
    (hg : r.openGroups = g :: outer) (hbrace : g.closer = .brace)
    (h : r.cursor.Faces (lined ([.mark .closeBrace] :: ls))) :
    ∃ c : Cursor, c.Faces (follow ls) ∧ r.run = (r.pop g outer c).run := by
  obtain ⟨hkind, hrest⟩ := Cursor.Faces.mark h (by decide)
  have hend : r.cursor.atEnd = false := Cursor.Faces.atEnd_eq_false (by simp [hkind])
  refine ⟨_, hrest, ?_⟩
  have hclose : r.close? g outer = some (r.pop g outer r.cursor.advance) := by
    simp [close?, hend, hbrace, Cursor.isAt, hkind]
  rw [run_of_step hend, step, hg]
  simp only [hclose, Option.getD_some]

/-- A group that is opened and closed is one more block, and all that was read around it is there
again. -/
theorem pop_push (name : String) (t : Token) (c c' c'' : Cursor) (members : Forest) :
    ({ r.push name t .brace c with cursor := c', blocks := members } : Reading).pop
        ⟨name, t, .brace, r.blocks⟩ r.openGroups c''
      = { r with cursor := c'', blocks := r.blocks ++ Forest.group name members .nil } := rfl

/-- Reading the lines of a forest adds its blocks, whatever groups are open around them. The
induction is on the forest; in a group the members are read with one more group open. -/
theorem run_blocks {b : Forest} (hf : PlainForest b) {ls : List Line} (hn : r.dialect = .native)
    (hb : r.InBraces) (h : r.cursor.Faces (lined (Native.blocks b ++ ls))) :
    ∃ c : Cursor, c.Faces (lined ls) ∧
      r.run = ({ r with cursor := c, blocks := r.blocks ++ b } : Reading).run := by
  induction b generalizing r ls with
  | nil => exact ⟨r.cursor, h, by rw [Forest.append_nil]⟩
  | entity e rest ih =>
      rw [Native.blocks, List.append_assoc] at h
      obtain ⟨c, hc, hrun⟩ := run_entity hf.1 hn hb h
      obtain ⟨c', hc', hrun'⟩ := ih (r := { r with
        cursor := c, blocks := r.blocks ++ Forest.ofEntities [e] }) hf.2 hn hb hc
      refine ⟨c', hc', ?_⟩
      rw [hrun, hrun', Forest.append_assoc]
      rfl
  | group name members rest ihm ihr =>
      rw [Native.blocks, List.cons_append, List.append_assoc, List.cons_append] at h
      obtain ⟨t, c₁, hc₁, hrun₁⟩ := run_groupLine hn hb h
      have hb₁ : (r.push name t .brace c₁).InBraces := by
        intro g hg
        rcases List.mem_cons.mp hg with rfl | hg
        · rfl
        · exact hb g hg
      obtain ⟨c₂, hc₂, hrun₂⟩ := run_newline hb₁ hc₁
      obtain ⟨c₃, hc₃, hrun₃⟩ := ihm (r := { r.push name t .brace c₁ with cursor := c₂ }) hf.1 hn
        hb₁ hc₂
      obtain ⟨c₄, hc₄, hrun₄⟩ := run_closeBrace (r := { r.push name t .brace c₁ with
        cursor := c₃, blocks := members }) rfl rfl hc₃
      rw [pop_push] at hrun₄
      obtain ⟨c₅, hc₅, hrun₅⟩ := run_newline (r := { r with
        cursor := c₄, blocks := r.blocks ++ Forest.group name members .nil }) hb hc₄
      obtain ⟨c₆, hc₆, hrun₆⟩ := ihr (r := { r with
        cursor := c₅, blocks := r.blocks ++ Forest.group name members .nil }) hf.2 hn hb hc₅
      refine ⟨c₆, hc₆, ?_⟩
      have hblocks : r.blocks ++ Forest.group name members .nil ++ rest
          = r.blocks ++ Forest.group name members rest := Forest.append_assoc _ _ _
      simp only [hblocks] at hrun₆
      have hopen := hrun₁.trans hrun₂
      have hclose := hrun₄.trans hrun₅
      exact hopen.trans (hrun₃.trans (hclose.trans hrun₆))

/-- Behind the key of a metadata line stands nothing for a flag and a string for a text. Read as a
value, that is the value again. -/
theorem metadataLine_eq (key : String) {v : MetaValue} (hv : PlainValue v) : ∃ value : Line,
    Native.metadataLine (key, v) = .word key :: value ∧
    (value = [] ∨ ∃ s, value = [.space, .quoted s]) ∧ (∀ k ∈ Ink.kinds value, k = .string) ∧
    ∀ p, metaValue (Phrase.joined (Ink.tokens p value)) = v := by
  cases v with
  | text s =>
      obtain ⟨hne, htrim⟩ := hv
      refine ⟨[.space, .quoted s], rfl, Or.inr ⟨s, rfl⟩, fun k hk => List.mem_singleton.mp hk,
        fun p => ?_⟩
      simp [Ink.tokens, Ink.spelling?, Phrase.joined_string, htrim, metaValue, hne]
  | flag on =>
      obtain rfl : on = true := hv
      exact ⟨[], rfl, Or.inl rfl, fun k hk => absurd hk List.not_mem_nil, fun p => rfl⟩

theorem form_metadataLine {key : String} {value : Line} {ls : List Line} (hw : IsWord key)
    (hn : r.dialect = .native) (hshape : value = [] ∨ ∃ s, value = [.space, .quoted s])
    (hvalue : ∀ k ∈ Ink.kinds value, k = .string)
    (h : r.cursor.Faces (.word key :: (value ++ follow ls))) : r.form true = .metadata := by
  obtain ⟨hword, -, hrest⟩ := h.word hw
  have hend := Cursor.atEnd_of_isName (Token.Kind.isName_of_isWord hword)
  have hconn : r.cursor.lineHasConnector = false := by
    obtain ⟨p, hp⟩ := h
    have hquiet : ∀ k ∈ Ink.kinds (.word key :: value), Cursor.isQuiet k = true := by
      intro k hk
      rw [Ink.kinds_word, List.mem_cons] at hk
      rcases hk with rfl | hk
      · exact Cursor.isQuiet_of_isWord hw.isWord_nameKind
      · rw [hvalue k hk]
        rfl
    rw [Cursor.lineHasConnector, hp]
    exact (Cursor.hasConnector_quiet (.word key :: value) _ hquiet 0 p).trans
      (hasConnector_follow _ _ _)
  -- behind the key stands its value or the end of the line, and neither makes it a block
  have hpeek : (r.cursor.peek 1).kind = .string ∧ (r.cursor.peek 2).kind.endsLine = true ∨
      (r.cursor.peek 1).kind.endsLine = true := by
    rcases hshape with rfl | ⟨s, rfl⟩
    · refine Or.inr ?_
      rw [← Cursor.current_advance hend]
      exact endsLine_of_follow hrest
    · obtain ⟨hstring, c, hlast, hcurrent⟩ := peek_quoted hend hrest.of_space
      rw [← hcurrent]
      exact Or.inl ⟨hstring, endsLine_of_follow hlast⟩
  rw [form_of_isWord hn hword]
  · cases hk : (r.cursor.peek 1).kind <;>
      simp_all [shapeForm, Dialect.metadataLines, Token.Kind.endsLine]
  · rcases hpeek with ⟨-, hpeek⟩ | hpeek
    · exact Or.inr fun he => by rw [he] at hpeek; cases hpeek
    · refine Or.inl ?_
      cases hk : (r.cursor.peek 1).kind <;> simp_all [Token.Kind.endsLine, Token.Kind.isName]

theorem run_metadataLine {e : String × MetaValue} (hw : IsWord e.1) (hv : PlainValue e.2)
    {ls : List Line} (hn : r.dialect = .native) (hg : r.openGroups = [])
    (h : r.cursor.Faces (lined (Native.metadataLine e :: ls))) :
    ∃ c : Cursor, c.Faces (lined ls) ∧ r.run = ({ r with
      cursor := c, metadata := r.metadata.put e.1 e.2 } : Reading).run := by
  have hb : r.InBraces := fun g hm => by rw [hg] at hm; cases hm
  obtain ⟨key, v⟩ := e
  obtain ⟨value, hline, hshape, hvalue, hjoined⟩ := metadataLine_eq key hv
  rw [hline] at h
  have h : r.cursor.Faces (.word key :: (value ++ follow ls)) := h
  obtain ⟨hword, htext, hrest⟩ := h.word hw
  have hname := Token.Kind.isName_of_isWord hword
  have hform := form_metadataLine hw hn hshape hvalue h
  obtain ⟨p, hread, hc⟩ := Cursor.faces_restOfLine hrest fun k hk => by rw [hvalue k hk]; rfl
  refine ⟨_, hc, run_of_take hb (Cursor.atEnd_of_isName hname)
    (fun hk => by rw [hk] at hword; cases hword) fun top htop => ?_⟩
  obtain rfl : top = true := htop hg
  simp [hform, take, Reading.metadataLine, Cursor.expectName, hname, htext, hread, hjoined,
    Except.map, bind, Except.bind, pure, Except.pure]

theorem run_metadata {es : List (String × MetaValue)} (he : ∀ e ∈ es, IsWord e.1 ∧ PlainValue e.2)
    {ls : List Line} (hn : r.dialect = .native) (hg : r.openGroups = [])
    (h : r.cursor.Faces (lined (es.map Native.metadataLine ++ ls))) :
    ∃ c : Cursor, c.Faces (lined ls) ∧ r.run = ({ r with
      cursor := c, metadata := r.metadata.putAll es } : Reading).run := by
  induction es generalizing r with
  | nil => exact ⟨r.cursor, h, rfl⟩
  | cons e es ih =>
      obtain ⟨hw, hv⟩ := he e (List.mem_cons_self ..)
      obtain ⟨c, hc, hrun⟩ := run_metadataLine hw hv hn hg h
      obtain ⟨c', hc', hrun'⟩ := ih (r := { r with
        cursor := c, metadata := r.metadata.put e.1 e.2 })
        (fun f hf => he f (List.mem_cons_of_mem _ hf)) hn hg hc
      exact ⟨c', hc', hrun.trans hrun'⟩

/-- Behind the first end of an edge stands the connector, or a text and then the connector. So the
line is taken for an edge line and for nothing else. -/
theorem peek_edge {e : Edge} (he : PlainEdge e) {c : Cursor} {ls : List Line}
    (h : c.Faces (lined (edge e :: ls))) : (c.peek 1).kind = connector e.kind ∨
      (c.peek 1).kind = .string ∧ (c.peek 2).kind = connector e.kind := by
  obtain ⟨rest, hsplit⟩ : ∃ rest, lined (edge e :: ls) = .word e.source :: .space ::
      (side (e.cardinality.bind Cardinality.source) ++ .mark (connector e.kind) :: rest) :=
    ⟨.space :: (side (e.cardinality.bind Cardinality.target) ++
        .word e.target :: (label e.label ++ follow ls)),
      by simp only [lined, edge, List.cons_append, List.append_assoc]⟩
  rw [hsplit] at h
  obtain ⟨hword, -, hrest⟩ := h.word he.source
  have hend := Cursor.atEnd_of_isName (Token.Kind.isName_of_isWord hword)
  have hmark : connector e.kind ≠ .endOfInput := by cases e.kind <;> decide
  have hspace := hrest.of_space
  cases hs : e.cardinality.bind Cardinality.source with
  | none =>
      rw [hs] at hspace
      refine Or.inl ?_
      rw [← Cursor.current_advance hend]
      exact (Cursor.Faces.mark hspace hmark).1
  | some s =>
      rw [hs] at hspace
      obtain ⟨hstring, c', hlast, hcurrent⟩ := peek_quoted hend hspace
      rw [← hcurrent]
      exact Or.inr ⟨hstring, (Cursor.Faces.mark hlast.of_space hmark).1⟩

theorem form_edge {e : Edge} (he : PlainEdge e) {ls : List Line} (hn : r.dialect = .native)
    (hword : r.cursor.current.kind.isWord = true) (h : r.cursor.Faces (lined (edge e :: ls))) :
    r.form true = .edges := by
  have hpeek := peek_edge he h
  have hkind := isConnector_connector e.kind
  have hconn : r.cursor.lineHasConnector = true := by
    obtain ⟨p, hp⟩ := h
    rw [Cursor.lineHasConnector, hp]
    exact hasConnector_edge he ls p
  rw [form_of_isWord hn hword]
  · rcases hpeek with hpeek | ⟨hpeek, -⟩
    · have hbrace : ((r.cursor.peek 1).kind == .openBrace) = false := by
        rw [hpeek]
        cases e.kind <;> rfl
      simp [shapeForm, hbrace, hconn]
    · simp [shapeForm, hpeek, hconn]
  · rcases hpeek with hpeek | ⟨-, hpeek⟩
    · refine Or.inl ?_
      rw [hpeek]
      cases e.kind <;> rfl
    · refine Or.inr fun heq => ?_
      rw [← hpeek, heq] at hkind
      cases hkind

theorem run_edge {e : Edge} (he : PlainEdge e) {ls : List Line} (hn : r.dialect = .native)
    (hg : r.openGroups = []) (h : r.cursor.Faces (lined (edge e :: ls))) :
    ∃ c : Cursor, c.Faces (lined ls) ∧ r.run = ({ r with
      cursor := c, edges := r.edges ++ [e] } : Reading).run := by
  have hb : r.InBraces := fun g hm => by rw [hg] at hm; cases hm
  obtain ⟨hword, -, -⟩ := Cursor.Faces.word he.source h
  have hline : r.cursor.Faces (edge e ++ follow ls) := h
  obtain ⟨p, hread, hc⟩ := Cursor.faces_restOfLine hline (endsLine_edge he)
  refine ⟨_, hc, run_of_take hb (Cursor.atEnd_of_isName (Token.Kind.isName_of_isWord hword))
    (fun hk => by rw [hk] at hword; cases hword) fun top htop => ?_⟩
  obtain rfl : top = true := htop hg
  rw [form_edge he hn hword h]
  simp [take, edgeLine, hread, hn, read_edge he, Forest.ofEntities, Forest.append_nil]

theorem run_edges {es : List Edge} (he : ∀ e ∈ es, PlainEdge e) {ls : List Line}
    (hn : r.dialect = .native) (hg : r.openGroups = [])
    (h : r.cursor.Faces (lined (es.map edge ++ ls))) :
    ∃ c : Cursor, c.Faces (lined ls) ∧ r.run = ({ r with
      cursor := c, edges := r.edges ++ es } : Reading).run := by
  induction es generalizing r with
  | nil => exact ⟨r.cursor, h, by rw [List.append_nil]⟩
  | cons e es ih =>
      obtain ⟨c, hc, hrun⟩ := run_edge (he e (List.mem_cons_self ..)) hn hg h
      obtain ⟨c', hc', hrun'⟩ := ih (r := { r with cursor := c, edges := r.edges ++ [e] })
        (fun f hf => he f (List.mem_cons_of_mem _ hf)) hn hg hc
      refine ⟨c', hc', ?_⟩
      rw [hrun, hrun', List.append_assoc]
      rfl

theorem run_ends (k : Nat) (hg : r.openGroups = [])
    (h : r.cursor.Faces (lined (List.replicate k []))) :
    ∃ c : Cursor, r.run = { r with cursor := c } := by
  have hb : ∀ s : Reading, s.openGroups = [] → s.InBraces := by
    intro s hs g hm
    rw [hs] at hm
    cases hm
  induction k generalizing r with
  | zero =>
      have hend := Cursor.atEnd_of_ahead_nil h.ahead_nil
      refine ⟨r.cursor, ?_⟩
      rw [run, if_pos (by simp [finished, hg, hend])]
  | succ k ih =>
      obtain ⟨c, hc, hrun⟩ := run_newline (hb r hg) h
      obtain ⟨c', hrun'⟩ := ih (r := { r with cursor := c }) hg hc
      exact ⟨c', hrun.trans hrun'⟩

/-- The lines of a document, read to the end: metadata, blocks and edges are added, and nothing is
reported. Further line ends behind them add nothing. -/
theorem run_lines {metadata : KeyedList String MetaValue} {forest : Forest} {edges : List Edge}
    (hm : PlainMetadata metadata) (hf : PlainForest forest) (he : ∀ e ∈ edges, PlainEdge e)
    (ends : Nat) (hn : r.dialect = .native) (hg : r.openGroups = [])
    (h : r.cursor.Faces (lined (lines metadata forest edges ++ List.replicate ends []))) :
    ∃ c : Cursor, r.run = { r with
      cursor := c
      metadata := r.metadata.putAll metadata.entries
      blocks := r.blocks ++ forest
      edges := r.edges ++ edges } := by
  have hb : r.InBraces := fun g hmem => by rw [hg] at hmem; cases hmem
  rw [lines, List.append_assoc, List.append_assoc] at h
  obtain ⟨c₁, hc₁, hrun₁⟩ := run_metadata hm hn hg h
  obtain ⟨c₂, hc₂, hrun₂⟩ := run_blocks (r := { r with
    cursor := c₁, metadata := r.metadata.putAll metadata.entries }) hf hn hb hc₁
  obtain ⟨c₃, hc₃, hrun₃⟩ := run_edges (r := { r with
    cursor := c₂, metadata := r.metadata.putAll metadata.entries, blocks := r.blocks ++ forest })
    he hn hg hc₂
  obtain ⟨c₄, hrun₄⟩ := run_ends (r := { r with
    cursor := c₃
    metadata := r.metadata.putAll metadata.entries
    blocks := r.blocks ++ forest
    edges := r.edges ++ edges }) ends hg hc₃
  exact ⟨c₄, hrun₁.trans (hrun₂.trans (hrun₃.trans hrun₄))⟩

/-- **Reading undoes writing.** Plain metadata, blocks and edges written in the native way, with any
number of line ends behind them, are read back unchanged, and nothing is reported. -/
theorem ofText_native {metadata : KeyedList String MetaValue} {forest : Forest}
    {edges : List Edge} (hm : PlainMetadata metadata) (hf : PlainForest forest)
    (he : ∀ e ∈ edges, PlainEdge e) (ends : Nat) :
    let read := ofText (Native.text metadata forest edges ends) (some .native)
    read.document.metadata = metadata ∧ read.document.blocks = forest ∧
      read.document.edges = edges ∧ read.diagnostics = [] := by
  have hscan := Ink.scan_inked (apart_lines hm hf he ends)
  have hcursor : (start .native (Token.scan (Native.text metadata forest edges ends)).tokens).cursor
      |>.Faces (lined (lines metadata forest edges ++ List.replicate ends [])) := by
    refine ⟨.start, ?_⟩
    rw [Native.text, hscan]
    simp [start, Cursor.ofTokens, Token.endAt]
  obtain ⟨c, hrun⟩ := run_lines hm hf he ends rfl rfl hcursor
  have hdiag : (Token.scan (Native.text metadata forest edges ends)).diagnostics = [] := by
    rw [Native.text, hscan]
  refine ⟨?_, ?_, ?_, ?_⟩
  · show (start .native (Token.scan _).tokens).run.metadata = metadata
    rw [hrun]
    exact metadata.ofList_entries
  · show (start .native (Token.scan _).tokens).run.blocks = forest
    rw [hrun]
    rfl
  · show (start .native (Token.scan _).tokens).run.edges = edges
    rw [hrun]
    rfl
  · show Diagnostic.sorted ((Token.scan _).diagnostics ++
      (start .native (Token.scan _).tokens).run.diagnostics) = []
    rw [hdiag, hrun]
    simp [Diagnostic.sorted, start]

/-! A document of which every line could be mistaken for another: a key and an entity called
`group`, strings with line ends, quotes, comment marks and connectors, a group inside a group. -/

def trickyMetadata : KeyedList String MetaValue :=
  .ofList [("group", .text "say \"no\" \\ // x"), ("end", .flag true)]

def trickyRows : List Field :=
  [⟨"id", some "int", ["pk", "1.5"], none, .field, "id int pk 1.5"⟩,
   ⟨"-x", none, [], none, .field, "-x"⟩]

def trickyForest : Forest :=
  .group "a -> \x7b b"
    (.group "" .nil (.entity ⟨"group", .ofList [("label", "one\ntwo")], some trickyRows⟩ .nil))
    (.entity ⟨"b-2", .empty, none⟩ .nil)

def trickyEdge : Edge :=
  ⟨"group", "b-2", .undirected, some "%% no: comment", some ⟨some "", none⟩⟩

theorem ofText_native_tricky :
    PlainMetadata trickyMetadata ∧ PlainForest trickyForest ∧ PlainEdge trickyEdge ∧
      (ofText (Native.text trickyMetadata trickyForest [trickyEdge] 1)
        (some .native)).document.blocks = trickyForest := by
  have word : ∀ w ∈ ["group", "end", "id", "int", "pk", "-x", "b-2", "label"], IsWord w := by
    intro w hw
    refine ⟨.ident, rfl, ?_⟩
    revert w
    decide +kernel
  have number : IsWord "1.5" := ⟨.number, rfl, by decide +kernel⟩
  have hm : PlainMetadata trickyMetadata := by
    rw [PlainMetadata, show trickyMetadata.entries = [("group", .text "say \"no\" \\ // x"),
      ("end", .flag true)] from rfl]
    intro e hmem
    simp only [List.mem_cons, List.not_mem_nil, or_false] at hmem
    rcases hmem with rfl | rfl
    · exact ⟨word _ (by decide), by decide, by decide⟩
    · exact ⟨word _ (by decide), rfl⟩
  have hrows : ∀ f ∈ trickyRows, PlainField f := by
    intro f hmem
    simp only [trickyRows, List.mem_cons, List.not_mem_nil, or_false] at hmem
    rcases hmem with rfl | rfl
    · refine ⟨fun w hw => ?_, (fun h => by cases h), rfl, rfl, by decide⟩
      simp only [Field.words, Option.toList, List.cons_append, List.nil_append, List.mem_cons,
        List.not_mem_nil, or_false] at hw
      rcases hw with rfl | rfl | rfl | rfl
      · exact word _ (by decide)
      · exact word _ (by decide)
      · exact word _ (by decide)
      · exact number
    · refine ⟨fun w hw => ?_, fun _ => rfl, rfl, rfl, by decide⟩
      rw [List.mem_singleton.mp hw]
      exact word _ (by decide)
  have hgroup : PlainEntity ⟨"group", .ofList [("label", "one\ntwo")], some trickyRows⟩ := by
    refine ⟨word _ (by decide), ?_, ?_⟩
    · intro a ha
      rw [show (KeyedList.ofList [("label", "one\ntwo")]).entries = [("label", "one\ntwo")]
        from rfl] at ha
      rw [List.mem_singleton.mp ha]
      exact ⟨word _ (by decide), by decide⟩
    · rintro _ ⟨⟩
      exact hrows
  have hbare : PlainEntity ⟨"b-2", .empty, none⟩ := by
    refine ⟨word _ (by decide), ?_, ?_⟩
    · intro a ha
      cases ha
    · intro fs hfs
      cases hfs
  have hf : PlainForest trickyForest := ⟨⟨trivial, hgroup, trivial⟩, hbare, trivial⟩
  have he : PlainEdge trickyEdge := by
    refine ⟨word _ (by decide), word _ (by decide), ?_, ?_⟩
    · rintro _ ⟨⟩
      decide
    · rintro _ ⟨⟩
      exact Or.inl rfl
  have hedges : ∀ e ∈ [trickyEdge], PlainEdge e := by
    intro e hmem
    rw [List.mem_singleton.mp hmem]
    exact he
  exact ⟨hm, hf, he, (ofText_native hm hf hedges 1).2.1⟩

end Reading

end Schematic
