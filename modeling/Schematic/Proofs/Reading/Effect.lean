import Schematic.Proofs.Forest
import Schematic.Proofs.KeyedList
import Schematic.Proofs.Reading.Progress

/-!
# What a statement does

A statement looks at the tokens ahead and at nothing that was read before it, and what it does is to
add: metadata entries, edges, reports, blocks, or one more open group. `effect` computes the
addition from the cursor alone and `statement_eq_apply` says that a statement is that addition.
What holds of effects therefore holds of runs; the first such fact is that a run behind other text
adds to what was read there (`run_frame`).
-/

namespace Schematic

namespace Reading

/-- A group that a statement opens: its name, the token that reports about it point to, and what
closes it. -/
structure Opening where
  name : String
  opener : Token
  closer : Closer

/-- What a statement adds to a reading, and the cursor behind it. Whatever is not said here stays as
it is. -/
structure Effect where
  cursor : Cursor
  entries : List (String × MetaValue) := []
  edges : List Edge := []
  diagnostics : List Diagnostic := []
  blocks : Forest := .nil
  opened : Option Opening := none
  header : Bool := false

namespace Effect

/-- An entity is declared, with the reports about its brackets and its body. -/
def declaring (e : Taken Entity) : Effect :=
  { cursor := e.cursor
    diagnostics := e.diagnostics
    blocks := Forest.ofEntities [e.value] }

/-- The group `name {` at the cursor is opened. Its members are statements of their own and not part
of the effect. -/
def opening (c : Cursor) : Effect :=
  { cursor := c.advance.advance
    opened := some ⟨c.current.text, c.current, .brace⟩ }

def apply (e : Effect) (r : Reading) : Reading :=
  let r : Reading :=
    { r with
      cursor := e.cursor
      metadata := r.metadata.putAll e.entries
      edges := r.edges ++ e.edges
      diagnostics := r.diagnostics ++ e.diagnostics
      headerSeen := r.headerSeen || e.header
      blocks := r.blocks ++ e.blocks }
  match e.opened with
  | none => r
  | some o => r.push o.name o.opener o.closer r.cursor

end Effect

/-- The direction that a header line may give, as its first word. Other tokens give none. -/
def headerDirection : List Token → List (String × MetaValue)
  | t :: _ => if t.kind = .ident then [("direction", .text t.text)] else []
  | [] => []

/-- The report about a token that fits nowhere. A closing brace is told apart at the top level,
where there is nothing to close. -/
def strayReports (t : Token) (top : Bool) : List Diagnostic :=
  if t.kind = .closeBrace ∧ top then [⟨t.place, .strayBrace⟩]
  else if t.kind = .endOfInput then []
  else [⟨t.place, .strayToken t.kind t.text⟩]

/-- What a statement of a given form adds, computed from the tokens ahead alone. -/
def effect (dialect : Dialect) (c : Cursor) (top : Bool) : Form → Effect
  | .blank => { cursor := c.advance }
  | .passed => { cursor := c.restOfLine.2 }
  | .header type =>
    { cursor := c.advance.restOfLine.2
      entries := ("type", .text type) :: headerDirection c.advance.restOfLine.1
      header := true }
  | .directive =>
    { cursor := c.advance.restOfLine.2
      entries :=
        [directiveEntry (Text.lower c.current.text) (Phrase.joined c.advance.restOfLine.1)] }
  | .keywordGroup => .opening c.advance
  | .endBlock =>
    { cursor := c.advance.restOfLine.2
      opened := some
        ⟨(c.advance.restOfLine.1.head?.map Token.text).getD c.current.text, c.current, .endWord⟩ }
  | .declaration => .declaring (Declaration.keywordTaken dialect c)
  | .group => .opening c
  | .entity => .declaring (Declaration.entityTaken dialect c.current.text .empty c.advance)
  | .edges =>
    let e := EdgeLine.read dialect c.restOfLine.1
    { cursor := c.restOfLine.2
      edges := e.edges
      diagnostics := e.diagnostics
      blocks := Forest.ofEntities e.declared }
  | .metadata =>
    { cursor := c.advance.restOfLine.2
      entries := [(c.current.text, metaValue (Phrase.joined c.advance.restOfLine.1))] }
  | .lone =>
    { cursor := (c.advance.restOfLine fun t => !top && t.kind == .closeBrace).2
      blocks := Forest.ofEntities [.bare c.current.text] }
  | .stray =>
    { cursor := c.advance
      diagnostics := strayReports c.current top }

/-! ## Statements are effects -/

theorem apply_eq (e : Effect) (r : Reading) (h : e.opened = none) :
    e.apply r =
      { r with
        cursor := e.cursor
        metadata := r.metadata.putAll e.entries
        edges := r.edges ++ e.edges
        diagnostics := r.diagnostics ++ e.diagnostics
        headerSeen := r.headerSeen || e.header
        blocks := r.blocks ++ e.blocks } := by
  simp only [Effect.apply, h]

theorem putAll_nil (m : KeyedList String MetaValue) : m.putAll [] = m := rfl

theorem take_eq_apply {r : Reading} {top : Bool} {f : Form} (h : r.Guard f)
    (hend : r.cursor.atEnd = false) :
    r.take top f = .ok ((effect r.dialect r.cursor top f).apply r) := by
  cases f with
  | keywordGroup =>
      obtain ⟨hn, hb⟩ := h
      rw [← Cursor.current_advance hend] at hn
      rw [← Cursor.peek_advance hend 1] at hb
      rw [take, openBraces_ok (r := { r with cursor := r.cursor.advance }) hn hb]
      simp [effect, Effect.opening, Effect.apply, push, putAll_nil, Forest.append_nil]
  | group =>
      rw [take, openBraces_ok (Token.Kind.isName_of_isWord h.1) h.2]
      simp [effect, Effect.opening, Effect.apply, push, putAll_nil, Forest.append_nil]
  | entity =>
      have hn := Token.Kind.isName_of_isWord h
      rw [take_entity, if_pos hn]
      simp [effect, Effect.declaring, apply_eq, putAll_nil, addEntity]
  | metadata =>
      have hn := Token.Kind.isName_of_isWord h
      simp only [take, metadataLine, Cursor.expectName, hn, if_true]
      simp [effect, apply_eq, Except.map, bind, Except.bind, pure, Except.pure,
        Forest.append_nil, KeyedList.putAll]
  | header type =>
      cases hl : r.cursor.advance.restOfLine.1 with
      | nil =>
          simp [take, effect, apply_eq, header, headerDirection, hl, KeyedList.putAll,
            Forest.append_nil]
      | cons t ts =>
          by_cases ht : t.kind = .ident <;>
            simp [take, effect, apply_eq, header, headerDirection, hl, ht, KeyedList.putAll,
              Forest.append_nil]
  | endBlock =>
      simp [take, effect, Effect.apply, openBlock, push, putAll_nil, Forest.append_nil]
  | stray =>
      simp only [take, stray, effect, strayReports, apply_eq, putAll_nil, Forest.append_nil]
      split
      · simp [report]
      · split <;> simp [report]
  | blank => simp [take, effect, apply_eq, putAll_nil, Forest.append_nil]
  | passed => simp [take, effect, apply_eq, putAll_nil, Forest.append_nil]
  | directive =>
      simp [take, effect, apply_eq, directive, KeyedList.putAll, Forest.append_nil]
  | declaration =>
      simp [take_declaration, effect, Effect.declaring, apply_eq, putAll_nil, addEntity]
  | edges => simp [take, effect, apply_eq, edgeLine, putAll_nil]
  | lone => simp [take, effect, apply_eq, lone, putAll_nil]

/-- A statement adds its effect. The cases are the forms; what was read before shows up in no other
way than by being added to. -/
theorem statement_eq_apply (r : Reading) (top : Bool) (hend : r.cursor.atEnd = false) :
    r.statement top = (effect r.dialect r.cursor top (r.form top)).apply r := by
  have htake := take_form r top hend
  rw [take_eq_apply (form_guard r top) hend] at htake
  exact (Except.ok.inj htake).symm

/-! ## Steps are effects

A step closes the innermost group if it can, and what that takes depends on the cursor and the group
alone; else it reads a statement. -/

/-- What closing a group adds: a report, if the input is over, and the cursor behind what closed it.
-/
structure Closing where
  cursor : Cursor
  diagnostics : List Diagnostic

def Closing.apply (x : Closing) (r : Reading) (g : OpenGroup) (outer : List OpenGroup) : Reading :=
  { r with
    cursor := x.cursor
    diagnostics := r.diagnostics ++ x.diagnostics
    blocks := g.before ++ Forest.group g.name r.blocks .nil
    openGroups := outer }

/-- How the token under the cursor closes the group, if it does. The end of the input closes every
group. -/
def closing? (c : Cursor) (g : OpenGroup) : Option Closing :=
  if c.atEnd then some ⟨c, [⟨g.opener.place, OpenGroup.problem g⟩]⟩
  else
    match g.closer with
    | .brace => if c.isAt .closeBrace then some ⟨c.advance, []⟩ else none
    | .endWord => if c.current.isKeyword "end" then some ⟨c.restOfLine.2, []⟩ else none

theorem close?_eq (r : Reading) (g : OpenGroup) (outer : List OpenGroup) :
    r.close? g outer = (closing? r.cursor g).map fun x => x.apply r g outer := by
  unfold close? closing?
  split
  · rfl
  · cases g.closer with
    | brace => cases r.cursor.isAt .closeBrace <;> simp [pop, Closing.apply]
    | endWord => cases r.cursor.current.isKeyword "end" <;> simp [pop, Closing.apply]

/-- No group is open, so the statement at the cursor is one of the top level. -/
def atTop (r : Reading) : Bool := r.openGroups.isEmpty

/-- What the statement at the cursor adds, if no group is closed there instead. -/
def next (r : Reading) : Effect := effect r.dialect r.cursor r.atTop (r.form r.atTop)

/-- The innermost group, if there is one, is not closed here. Only that one is asked. -/
def Stays (r : Reading) : Prop := ∀ g ∈ r.openGroups.head?, closing? r.cursor g = none

theorem step_of_closing {r : Reading} {g : OpenGroup} {outer : List OpenGroup} {x : Closing}
    (hg : r.openGroups = g :: outer) (hx : closing? r.cursor g = some x) :
    r.step = x.apply r g outer := by
  rw [step, hg]
  simp [close?_eq, hx]

theorem step_of_stays {r : Reading} (hend : r.cursor.atEnd = false) (h : r.Stays) :
    r.step = r.next.apply r := by
  unfold step next atTop
  cases hg : r.openGroups with
  | nil => exact statement_eq_apply r true hend
  | cons g outer =>
      have hx : closing? r.cursor g = none := h g (by rw [hg]; rfl)
      simp only [close?_eq, hx, Option.map_none, Option.getD_none, List.isEmpty_cons]
      exact statement_eq_apply r false hend

/-- A statement at the top level is what its form adds, since there is no group that could be closed
instead. -/
theorem step_of_form {r : Reading} {f : Form} (hg : r.openGroups = [])
    (hend : r.cursor.atEnd = false) (hform : r.form true = f) :
    r.step = (effect r.dialect r.cursor true f).apply r := by
  have hstays : r.Stays := fun g hm => by rw [hg] at hm; cases hm
  have htop : r.atTop = true := by simp [atTop, hg]
  rw [step_of_stays hend hstays, next, htop, hform]

/-- All that a step can do: close the innermost group, or read the statement at the cursor.
Invariants of runs are shown by these two cases. -/
theorem step_spec {r : Reading} (h : r.finished = false) :
    (∃ g outer x, r.openGroups = g :: outer ∧ closing? r.cursor g = some x ∧
      r.step = x.apply r g outer) ∨
    (r.cursor.atEnd = false ∧ r.Stays ∧ r.step = r.next.apply r) := by
  cases hg : r.openGroups with
  | nil =>
      have hend : r.cursor.atEnd = false := by simpa [finished, hg] using h
      have hstays : r.Stays := fun g hm => by rw [hg] at hm; cases hm
      exact Or.inr ⟨hend, hstays, step_of_stays hend hstays⟩
  | cons g outer =>
      cases hx : closing? r.cursor g with
      | some x => exact Or.inl ⟨g, outer, x, rfl, hx, step_of_closing hg hx⟩
      | none =>
          have hend : r.cursor.atEnd = false := by
            unfold closing? at hx
            split at hx
            · cases hx
            · next he => simpa using he
          have hstays : r.Stays := fun k hm => by
            rw [hg] at hm
            cases hm
            exact hx
          exact Or.inr ⟨hend, hstays, step_of_stays hend hstays⟩

/-! ## Behind other text

What was read before stays in front of what is read now. -/

/-- Blocks put before everything in a forest and the groups that are open around it. With groups
open that is in front of the blocks the outermost one began behind. -/
def under (b : Forest) : Forest → List OpenGroup → Forest × List OpenGroup
  | blocks, [] => (b ++ blocks, [])
  | blocks, g :: gs =>
    (blocks, { g with before := (under b g.before gs).1 } :: (under b g.before gs).2)

theorem under_append (b x y : Forest) (gs : List OpenGroup) :
    under b (x ++ y) gs = ((under b x gs).1 ++ y, (under b x gs).2) := by
  cases gs with
  | nil => simp only [under, Forest.append_assoc]
  | cons g gs => rfl

theorem isEmpty_under (b x : Forest) (gs : List OpenGroup) :
    (under b x gs).2.isEmpty = gs.isEmpty := by
  cases gs <;> rfl

/-- The reading `r` behind everything that `acc` has read. Metadata of `r` goes over that of `acc`;
all else is appended. -/
def frame (acc r : Reading) : Reading :=
  { r with
    metadata := acc.metadata.update r.metadata
    edges := acc.edges ++ r.edges
    diagnostics := acc.diagnostics ++ r.diagnostics
    blocks := (under acc.blocks r.blocks r.openGroups).1
    openGroups := (under acc.blocks r.blocks r.openGroups).2 }

theorem atTop_frame (acc r : Reading) : (frame acc r).atTop = r.atTop := isEmpty_under ..

theorem finished_frame (acc r : Reading) : (frame acc r).finished = r.finished := by
  show ((frame acc r).atTop && r.cursor.atEnd) = _
  rw [atTop_frame]
  rfl

theorem next_frame (acc r : Reading) : (frame acc r).next = r.next := by
  rw [next, atTop_frame]
  rfl

theorem apply_frame (acc r : Reading) (e : Effect) :
    e.apply (frame acc r) = frame acc (e.apply r) := by
  cases ho : e.opened with
  | none =>
      rw [apply_eq _ _ ho, apply_eq _ _ ho]
      simp only [frame, KeyedList.update_putAll, List.append_assoc, under_append]
  | some o =>
      simp only [Effect.apply, ho, frame, push, KeyedList.update_putAll, List.append_assoc, under,
        under_append]

theorem step_frame (acc : Reading) {r : Reading} (h : r.finished = false) :
    (frame acc r).step = frame acc r.step := by
  rcases step_spec h with ⟨g, outer, x, hg, hx, hs⟩ | ⟨hend, hstays, hs⟩
  · have hg' : (frame acc r).openGroups =
        { g with before := (under acc.blocks g.before outer).1 } ::
          (under acc.blocks g.before outer).2 := by
      simp only [frame, hg, under]
    rw [step_of_closing hg' hx, hs]
    simp only [Closing.apply, frame, hg, under, under_append, List.append_assoc]
  · have hstays' : (frame acc r).Stays := by
      intro k hk
      cases hg : r.openGroups with
      | nil => simp [frame, hg, under] at hk
      | cons g outer =>
          have hx := hstays g (by rw [hg]; rfl)
          simp only [frame, hg, under, List.head?_cons, Option.mem_some_iff] at hk
          rw [← hk]
          exact hx
    rw [step_of_stays (r := frame acc r) hend hstays', next_frame, apply_frame, hs]

theorem run_frame (acc r : Reading) : (frame acc r).run = frame acc r.run := by
  fun_induction run r with
  | case1 r h => rw [run, if_pos (by rw [finished_frame, h])]
  | case2 r h ih =>
      rw [run, if_neg (by rw [finished_frame]; exact h),
        step_frame acc (Bool.eq_false_iff.mpr h), ih]

end Reading

end Schematic
