import Mathlib.Algebra.Order.Ring.Rat
import Mathlib.Data.List.Infix
import Schematic.Layout.Sequence
import Schematic.Proofs.Geometry.FloatAddition
import Schematic.Proofs.KeyedList
import Schematic.Proofs.Layout.Complete

/-!
# Further messages change nothing that is drawn

A sequence is laid out from the left and from the top: where a participant stands depends on those
seen before it, and where a message runs on the messages before it and on its own two columns. So a
document with further messages is laid out by going on where the layout of the document ended, in
whatever numbers (`Layout.Continues`). That the canvas does not shrink asks for an addition that
never makes less of a number (`Scalar.Grows`), and for a participant: the canvas of an empty drawing
has a size of its own.
-/

namespace Schematic

/-! ## Keyed lists that grow at the end -/

namespace KeyedList

universe u v

variable {κ : Type u} {β : Type v} [DecidableEq κ] {m m' : KeyedList κ β} {k : κ} {x : β}

theorem entries_initial_putNew (m : KeyedList κ β) (k : κ) (x : β) :
    m.entries <+: (m.putNew k x).entries := by
  unfold putNew
  split
  · exact List.prefix_refl _
  · next h =>
    rw [entries_put_of_not_mem fun hmem => h (contains_iff.mpr hmem)]
    exact List.prefix_append _ _

theorem mem_keys_putNew (m : KeyedList κ β) (k : κ) (x : β) : k ∈ (m.putNew k x).keys := by
  unfold putNew
  split
  · next h => exact contains_iff.mp h
  · exact mem_keys_put.mpr (Or.inl rfl)

omit [DecidableEq κ] in
theorem keys_subset_of_initial (h : m.entries <+: m'.entries) : m.keys ⊆ m'.keys :=
  (h.map Prod.fst).subset

theorem get?_of_initial (h : m.entries <+: m'.entries) (hk : k ∈ m.keys) :
    m'.get? k = m.get? k := by
  obtain ⟨x, hx⟩ := mem_keys_iff.mp hk
  rw [hx, get?_eq_some_iff]
  exact h.subset (get?_eq_some_iff.mp hx)

end KeyedList

/-- The document with further edges behind its own. -/
def Document.appendEdges (d : Document) (es : List Edge) : Document :=
  { d with edges := d.edges ++ es }

namespace Sequence

variable {α : Type}

/-! ## Participants -/

theorem participants_appendEdges (d : Document) (es : List Edge) :
    participants (d.appendEdges es) =
      es.foldl (fun m e => (m.putNew e.source none).putNew e.target none) (participants d) := by
  simp only [participants, Document.appendEdges, List.foldl_append]
  rfl

theorem entries_initial_foldl (m : KeyedList String (Option Entity)) (es : List Edge) :
    m.entries <+:
      (es.foldl (fun m e => (m.putNew e.source none).putNew e.target none) m).entries := by
  induction es generalizing m with
  | nil => exact List.prefix_refl _
  | cons e es ih =>
      exact ((m.entries_initial_putNew e.source none).trans
        (KeyedList.entries_initial_putNew _ e.target none)).trans (ih _)

theorem participants_initial (d : Document) (es : List Edge) :
    (participants d).entries <+: (participants (d.appendEdges es)).entries := by
  rw [participants_appendEdges]
  exact entries_initial_foldl _ es

/-- The ends of every edge are participants. -/
theorem ends_mem_participants {d : Document} {e : Edge} (he : e ∈ d.edges) :
    e.source ∈ (participants d).keys ∧ e.target ∈ (participants d).keys := by
  obtain ⟨before, behind, hcut⟩ := List.append_of_mem he
  simp only [participants, hcut, List.foldl_append, List.foldl_cons]
  constructor
  · exact KeyedList.keys_subset_of_initial
      ((KeyedList.entries_initial_putNew _ _ _).trans (entries_initial_foldl _ behind))
      (KeyedList.mem_keys_putNew _ _ _)
  · exact KeyedList.keys_subset_of_initial (entries_initial_foldl _ behind)
      (KeyedList.mem_keys_putNew _ _ _)

/-! ## Columns -/

variable [Scalar α] {s : SequenceStyle α}

theorem map_fst_boxesFrom (s : SequenceStyle α) (x : α) (ps : List (String × Option Entity)) :
    (boxesFrom s x ps).map Prod.fst = ps.map Prod.fst := by
  induction ps generalizing x with
  | nil => rfl
  | cons p ps ih => rw [boxesFrom, List.map_cons, ih, List.map_cons]

/-- The boxes of the participants of a document. -/
def columns (s : SequenceStyle α) (d : Document) : KeyedList String (NodeBox α) :=
  .ofList (boxesFrom s s.left (participants d).entries)

theorem entries_columns (s : SequenceStyle α) (d : Document) :
    (columns s d).entries = boxesFrom s s.left (participants d).entries := by
  refine KeyedList.entries_ofList ?_
  rw [map_fst_boxesFrom]
  exact (participants d).distinct

theorem keys_columns (s : SequenceStyle α) (d : Document) :
    (columns s d).keys = (participants d).keys := by
  rw [KeyedList.keys, entries_columns, map_fst_boxesFrom, KeyedList.keys]

theorem boxesFrom_initial {ps qs : List (String × Option Entity)} (h : ps <+: qs) (x : α) :
    boxesFrom s x ps <+: boxesFrom s x qs := by
  induction ps generalizing x qs with
  | nil => exact List.nil_prefix
  | cons p ps ih =>
      obtain ⟨rest, rfl⟩ := h
      exact List.prefix_cons_inj _ |>.mpr (ih (List.prefix_append ps rest) _)

theorem columns_initial (s : SequenceStyle α) (d : Document) (es : List Edge) :
    (columns s d).entries <+: (columns s (d.appendEdges es)).entries := by
  rw [entries_columns, entries_columns]
  exact boxesFrom_initial (participants_initial d es) s.left

/-! ## Rows -/

variable {boxes boxes' : KeyedList String (NodeBox α)}

theorem messagesFrom_append (s : SequenceStyle α) (boxes : KeyedList String (NodeBox α)) (y : α)
    (es fs : List Edge) : messagesFrom s boxes y (es ++ fs) =
      messagesFrom s boxes y es ++ messagesFrom s boxes (es.foldl (nextY s) y) fs := by
  induction es generalizing y with
  | nil => rfl
  | cons e es ih =>
      rw [List.cons_append, messagesFrom, messagesFrom, ih, List.foldl_cons, List.cons_append]

/-- Messages only look up the columns of their ends. So columns that further participants add behind
them make no difference to the messages that were there. -/
theorem messagesFrom_congr {es : List Edge} (h : ∀ e ∈ es,
    boxes'.get? e.source = boxes.get? e.source ∧ boxes'.get? e.target = boxes.get? e.target)
    (y : α) : messagesFrom s boxes' y es = messagesFrom s boxes y es := by
  induction es generalizing y with
  | nil => rfl
  | cons e es ih =>
      obtain ⟨hsource, htarget⟩ := h e (List.mem_cons_self ..)
      rw [messagesFrom, messagesFrom, ih fun f hf => h f (List.mem_cons_of_mem _ hf), messagePoints,
        messagePoints, lifeline, lifeline, lifeline, lifeline, hsource, htarget]

/-- The messages of a document with their points. -/
def messages (s : SequenceStyle α) (d : Document) : List (Edge × List (Point α)) :=
  messagesFrom s (columns s d) (firstY s) d.edges

theorem messages_initial (s : SequenceStyle α) (d : Document) (es : List Edge) :
    messages s d <+: messages s (d.appendEdges es) := by
  have hedges : (d.appendEdges es).edges = d.edges ++ es := rfl
  have hsame : messagesFrom s (columns s (d.appendEdges es)) (firstY s) d.edges =
      messagesFrom s (columns s d) (firstY s) d.edges := by
    refine messagesFrom_congr (fun e he => ?_) _
    obtain ⟨hsource, htarget⟩ := ends_mem_participants he
    rw [← keys_columns s d] at hsource htarget
    exact ⟨KeyedList.get?_of_initial (columns_initial s d es) hsource,
      KeyedList.get?_of_initial (columns_initial s d es) htarget⟩
  rw [messages, messages, hedges, messagesFrom_append, hsame]
  exact List.prefix_append _ _

end Sequence

/-! ## The size of the canvas -/

/-- Among the numbers of a kind, adding something that is not negative never makes less. Exact
numbers are of this kind, and so are floating point numbers that are neither negative infinity nor
not a number. -/
structure Scalar.Grows {α : Type} [Scalar α] (kind : α → Prop) : Prop where
  add : ∀ {x y}, kind x → ((0 : Nat) : α) ≤ y → kind (x + y)
  refl : ∀ {x}, kind x → x ≤ x
  trans : ∀ {x y z : α}, x ≤ y → y ≤ z → x ≤ z
  le_add : ∀ {x y}, kind x → ((0 : Nat) : α) ≤ y → x ≤ x + y
  add_right : ∀ {x y z}, kind x → kind y → kind z → x ≤ y → x + z ≤ y + z

theorem Scalar.grows_rat : Scalar.Grows fun _ : Rat => True where
  add := fun _ _ => trivial
  refl := fun _ => le_refl _
  trans := le_trans
  le_add := fun _ hy => le_add_of_nonneg_right hy
  add_right := fun _ _ _ hxy => by linarith

theorem Scalar.grows_float :
    Scalar.Grows fun x : Float => Binary.BoundedBelow x.toModel.unpack where
  add := Binary.boundedBelow_add
  refl := fun hx => Binary.float_le_iff.mpr
    ⟨(Binary.boundedBelow_float_iff.mp hx).1, (Binary.boundedBelow_float_iff.mp hx).1, le_rfl⟩
  trans := fun hxy hyz =>
    have hxy := Binary.float_le_iff.mp hxy
    have hyz := Binary.float_le_iff.mp hyz
    Binary.float_le_iff.mpr ⟨hxy.1, hyz.2.1, hxy.2.2.trans hyz.2.2⟩
  le_add := Binary.le_add_float
  add_right := Binary.add_le_add_float

namespace Sequence

variable {α : Type} [Scalar α] {s : SequenceStyle α} {kind : α → Prop}

/-- The columns and rows of a style begin at numbers of a kind and never lead back. Nothing is asked
of the width and height of boxes, which the size of the canvas does not go by. -/
structure Forward (kind : α → Prop) (s : SequenceStyle α) : Prop where
  left : kind s.left
  firstY : kind (firstY s)
  gap : kind s.gap
  columnStep : ((0 : Nat) : α) ≤ s.columnStep
  rowStep : ((0 : Nat) : α) ≤ s.rowStep
  loopStep : ((0 : Nat) : α) ≤ s.loopStep

theorem kind_columnX (hk : Scalar.Grows kind) (hs : Forward kind s) (n : Nat) :
    kind (columnX s n) := by
  induction n with
  | zero => exact hs.left
  | succ n ih => exact hk.add ih hs.columnStep

theorem columnX_le (hk : Scalar.Grows kind) (hs : Forward kind s) {m n : Nat} (h : m ≤ n) :
    columnX s m ≤ columnX s n := by
  induction h with
  | refl => exact hk.refl (kind_columnX hk hs m)
  | @step n _ ih => exact hk.trans ih (hk.le_add (kind_columnX hk hs n) hs.columnStep)

theorem le_nextY (hk : Scalar.Grows kind) (hs : Forward kind s) {y : α} (hy : kind y) (e : Edge) :
    y ≤ nextY s y e ∧ kind (nextY s y e) := by
  unfold nextY
  split
  · have hloop := hk.add hy hs.loopStep
    exact ⟨hk.trans (hk.le_add hy hs.loopStep) (hk.le_add hloop hs.rowStep),
      hk.add hloop hs.rowStep⟩
  · exact ⟨hk.le_add hy hs.rowStep, hk.add hy hs.rowStep⟩

theorem le_foldl_nextY (hk : Scalar.Grows kind) (hs : Forward kind s) {y : α} (hy : kind y)
    (es : List Edge) : y ≤ es.foldl (nextY s) y ∧ kind (es.foldl (nextY s) y) := by
  induction es generalizing y with
  | nil => exact ⟨hk.refl hy, hy⟩
  | cons e es ih =>
      obtain ⟨hle, hnext⟩ := le_nextY hk hs hy e
      exact ⟨hk.trans hle (ih hnext).1, (ih hnext).2⟩

end Sequence

/-! ## The whole drawing -/

/-- The drawing `L'` goes on where `L` ends: the same boxes under the same keys come first, and the
same routes. -/
structure Layout.Continues {α : Type} (L L' : Layout α) : Prop where
  nodes : L.nodes.entries <+: L'.nodes.entries
  routes : L.routes <+: L'.routes

open Sequence

variable {α : Type} [Metric α]

theorem Layout.sequence_continues (d : Document) (style : Style α) (es : List Edge) :
    Continues (Layout.sequence d style) (Layout.sequence (d.appendEdges es) style) where
  nodes := columns_initial style.sequence d es
  routes := by
    obtain ⟨more, hmore⟩ := messages_initial style.sequence d es
    simp only [messages, columns] at hmore
    simp only [Layout.sequence, ← hmore, List.zipIdx_append, List.map_append]
    exact List.prefix_append _ _

/-- A drawing with a participant is as wide as its columns and as high as its rows: the canvas ends
where the next column and, after a gap, the next row would begin. -/
theorem Layout.size_sequence {d : Document} (h : (participants d).entries ≠ []) (style : Style α) :
    (Layout.sequence d style).width =
        columnX style.sequence (participants d).entries.length ∧
      (Layout.sequence d style).height =
        d.edges.foldl (nextY style.sequence) (firstY style.sequence) + style.sequence.gap := by
  have hnodes : (columns style.sequence d).isEmpty = false := by
    rw [KeyedList.isEmpty, List.isEmpty_eq_false_iff]
    intro hnil
    have hlength := congrArg List.length (keys_columns style.sequence d)
    rw [KeyedList.keys, hnil, List.map_nil, List.length_nil, KeyedList.keys,
      List.length_map] at hlength
    exact h (List.length_eq_zero_iff.mp hlength.symm)
  rw [columns] at hnodes
  simp only [Layout.sequence, hnodes]
  exact ⟨rfl, rfl⟩

/-- **Further messages.** The layout of a document with further edges continues the layout of the
document. If there is a participant, the canvas does not shrink either, unless steps are negative or
adding to a number can make less of it. -/
theorem Layout.sequence_appendEdges (d : Document) (style : Style α) (es : List Edge) :
    Continues (Layout.sequence d style) (Layout.sequence (d.appendEdges es) style) ∧
      ∀ kind : α → Prop, Scalar.Grows kind → Forward kind style.sequence →
        (participants d).entries ≠ [] →
        (Layout.sequence d style).width ≤ (Layout.sequence (d.appendEdges es) style).width ∧
        (Layout.sequence d style).height ≤ (Layout.sequence (d.appendEdges es) style).height := by
  refine ⟨Layout.sequence_continues d style es, fun kind hk hs hne => ?_⟩
  have hprefix := participants_initial d es
  have hne' : (participants (d.appendEdges es)).entries ≠ [] := fun hnil =>
    hne (List.prefix_nil.mp (hnil ▸ hprefix))
  obtain ⟨hwidth, hheight⟩ := Layout.size_sequence hne style
  obtain ⟨hwidth', hheight'⟩ := Layout.size_sequence hne' style
  have hlast := (le_foldl_nextY hk hs hs.firstY d.edges).2
  have hedges : (d.appendEdges es).edges = d.edges ++ es := rfl
  rw [hwidth, hwidth', hheight, hheight', hedges, List.foldl_append]
  obtain ⟨hle, hend⟩ := le_foldl_nextY hk hs hlast es
  exact ⟨columnX_le hk hs hprefix.length_le, hk.add_right hlast hend hs.gap hle⟩

/-- A participant that is declared, and messages to others and to itself. -/
def Document.dialogue : Document where
  archetype := .sequence
  metadata := .empty
  blocks := .entity (.bare "a") .nil
  edges := [⟨"a", "b", .directed, none, none⟩, ⟨"b", "b", .directed, some "thinks", none⟩]
  dialect := .native
  lineCount := 1

/-- An answer, and a message to somebody new. -/
def furtherMessages : List Edge :=
  [⟨"b", "a", .directed, none, none⟩, ⟨"b", "c", .undirected, none, none⟩]

theorem Layout.sequence_appendEdges_dialogue :
    Continues (@Layout.sequence Rat (exactMetric diagonal) .dialogue .standard)
        (@Layout.sequence Rat (exactMetric diagonal) (Document.dialogue.appendEdges furtherMessages)
          .standard) ∧
      (@Layout.sequence Rat (exactMetric diagonal) .dialogue .standard).width = 340 ∧
      (@Layout.sequence Rat (exactMetric diagonal) .dialogue .standard).width ≤
        (@Layout.sequence Rat (exactMetric diagonal) (Document.dialogue.appendEdges furtherMessages)
          .standard).width ∧
      (@Layout.sequence Rat (exactMetric diagonal) .dialogue .standard).height ≤
        (@Layout.sequence Rat (exactMetric diagonal) (Document.dialogue.appendEdges furtherMessages)
          .standard).height ∧
      (Layout.sequence .dialogue (.standard : Style Float)).width ≤
        (Layout.sequence (Document.dialogue.appendEdges furtherMessages)
          (.standard : Style Float)).width ∧
      (Layout.sequence .dialogue (.standard : Style Float)).height ≤
        (Layout.sequence (Document.dialogue.appendEdges furtherMessages)
          (.standard : Style Float)).height := by
  have hforward : Forward (fun _ => True) (Style.standard : Style Rat).sequence :=
    ⟨trivial, trivial, trivial, by decide +kernel, by decide +kernel, by decide +kernel⟩
  have hforward' : Forward (fun x : Float => Binary.BoundedBelow x.toModel.unpack)
      (Style.standard : Style Float).sequence :=
    ⟨by decide +kernel, by decide +kernel, by decide +kernel, by decide +kernel, by decide +kernel,
      by decide +kernel⟩
  have hne : (participants .dialogue).entries ≠ [] := by decide +kernel
  obtain ⟨hcontinues, hsize⟩ := @Layout.sequence_appendEdges Rat (exactMetric diagonal) .dialogue
    .standard furtherMessages
  obtain ⟨hwidth, hheight⟩ := hsize _ Scalar.grows_rat hforward hne
  obtain ⟨-, hsize'⟩ := Layout.sequence_appendEdges .dialogue (.standard : Style Float)
    furtherMessages
  exact ⟨hcontinues, by decide +kernel, hwidth, hheight,
    hsize' _ Scalar.grows_float hforward' hne⟩

/-- The canvas of an empty drawing shrinks with the first message. -/
example :
    (@Layout.sequence Rat (exactMetric diagonal)
      { Document.dialogue with blocks := .nil, edges := [] } .standard).width = 800 ∧
    (@Layout.sequence Rat (exactMetric diagonal)
      { Document.dialogue with blocks := .nil } .standard).width = 340 := by
  decide +kernel

end Schematic
