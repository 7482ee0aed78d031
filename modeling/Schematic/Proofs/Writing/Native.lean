import Schematic.Document.Basic
import Schematic.Proofs.Writing.Ink

/-!
# The native way to write a document

One item per line: the metadata, then the blocks, then the edges. A metadata line is a key and its
quoted value, or the key alone for a flag. An entity always has its brackets, and its rows stand
between braces on lines of their own; a group is `group`, its quoted name, and braces around its
members. An edge has its quoted cardinalities on the two sides of its connector, and its quoted
label behind a colon.

Not every document can be written so. `Native.PlainValue`, `PlainField`, `PlainEntity`,
`PlainForest` and `PlainEdge` say which ones can: unquoted parts are words, quoted parts have no
blanks at their ends, and nothing is set that the native dialect has no writing for.
-/

namespace Schematic

open Token (IsWord)
open Text (trim)

/-- The words that a row of fields is written with: the name, the type if there is one, and the
constraints. -/
def Field.words (f : Field) : List String := f.name :: (f.type.toList ++ f.constraints)

namespace Native

/-- The pieces of a line, without its end. -/
abbrev Line := List Ink

/-! ## Lines -/

/-- Lines behind other text: each begins with the end of the one before. This is what a cursor faces
at the end of a line. -/
def follow : List Line → List Ink
  | [] => []
  | l :: ls => .mark .newline :: (l ++ follow ls)

/-- Lines from the beginning of a text, with no line end in front of the first. -/
def lined : List Line → List Ink
  | [] => []
  | l :: ls => l ++ follow ls

/-- A line of metadata. A flag is its key alone, since only flags that are on are written. -/
def metadataLine : String × MetaValue → Line
  | (key, .text s) => [.word key, .space, .quoted s]
  | (key, .flag _) => [.word key]

/-- A key and its quoted value. -/
def keyed (a : String × String) : Line := [.word a.1, .mark .colon, .space, .quoted a.2]

/-- Attributes behind other ones. -/
def moreAttributes : List (String × String) → Line
  | [] => []
  | a :: as => .mark .comma :: .space :: (keyed a ++ moreAttributes as)

/-- Attributes between commas. -/
def attributes : List (String × String) → Line
  | [] => []
  | a :: as => keyed a ++ moreAttributes as

/-- Words behind other ones. -/
def moreWords : List String → Line
  | [] => []
  | w :: ws => .space :: .word w :: moreWords ws

/-- A row of fields. -/
def row (f : Field) : Line := .word f.name :: moreWords (f.type.toList ++ f.constraints)

/-- The line of an entity up to the closing bracket. The brackets are there without attributes too;
a word alone would be metadata. -/
def heading (e : Entity) : Line :=
  .word e.id :: .space :: .mark .openBracket :: (attributes e.attributes.entries ++
    [.mark .closeBracket])

/-- The lines of an entity. Its rows are between braces, the first of which stands behind the
bracket. -/
def entity (e : Entity) : List Line :=
  match e.fields with
  | none => [heading e]
  | some fs =>
    (heading e ++ [.space, .mark .openBrace]) :: (fs.map row ++ [[.mark .closeBrace]])

/-- The line that opens a group. The name is quoted, so it may be any text. -/
def groupLine (name : String) : Line :=
  [.word "group", .space, .quoted name, .space, .mark .openBrace]

/-- The lines of blocks, in their order. The members of a group are between its line and a closing
brace. -/
def blocks : Forest → List Line
  | .nil => []
  | .entity e rest => entity e ++ blocks rest
  | .group name members rest =>
    groupLine name :: (blocks members ++ [.mark .closeBrace] :: blocks rest)

/-- The connector for a kind of edge. -/
def connector : EdgeKind → Token.Kind
  | .directed => .arrow
  | .undirected => .dash
  | .bidirectional => .bidirectional

/-- The text at one side of a connector, if there is one. -/
def side : Option String → Line
  | none => []
  | some s => [.quoted s, .space]

/-- The label at the end of an edge line, if there is one. -/
def label : Option String → Line
  | none => []
  | some s => [.space, .mark .colon, .space, .quoted s]

/-- The line of an edge. -/
def edge (e : Edge) : Line :=
  .word e.source :: .space :: (side (e.cardinality.bind Cardinality.source) ++
    (.mark (connector e.kind) :: .space :: (side (e.cardinality.bind Cardinality.target) ++
      (.word e.target :: label e.label))))

/-- The lines of a document: metadata, blocks, edges. -/
def lines (metadata : KeyedList String MetaValue) (forest : Forest) (edges : List Edge) :
    List Line :=
  metadata.entries.map metadataLine ++ (blocks forest ++ edges.map edge)

/-- The text of a document, with `ends` further line ends behind its last line. -/
def text (metadata : KeyedList String MetaValue) (forest : Forest) (edges : List Edge)
    (ends : Nat) : String :=
  String.ofList (Ink.text (lined (lines metadata forest edges ++ List.replicate ends [])))

/-! ## What can be written -/

/-- A flag that is on, or a text that neither is empty nor has blanks at its ends. An empty text
would come back as a flag, and blanks are trimmed. -/
def PlainValue : MetaValue → Prop
  | .flag on => on = true
  | .text s => s ≠ "" ∧ trim s = s

/-- Keys are words, and values can be written. -/
def PlainMetadata (metadata : KeyedList String MetaValue) : Prop :=
  ∀ e ∈ metadata.entries, IsWord e.1 ∧ PlainValue e.2

/-- A field of words only, shown as they are, with constraints only behind a type. Without a type
the first constraint would be taken for one. -/
structure PlainField (f : Field) : Prop where
  words : ∀ w ∈ f.words, IsWord w
  constraints : f.type = none → f.constraints = []
  visibility : f.visibility = none
  memberType : f.memberType = .field
  raw : f.raw = " ".intercalate f.words

/-- A word, attributes of words and texts without blanks at their ends, and plain fields. -/
structure PlainEntity (e : Entity) : Prop where
  id : IsWord e.id
  attributes : ∀ a ∈ e.attributes.entries, IsWord a.1 ∧ trim a.2 = a.2
  fields : ∀ fs ∈ e.fields, ∀ f ∈ fs, PlainField f

/-- Groups of any names around plain entities, empty groups included. -/
def PlainForest : Forest → Prop
  | .nil => True
  | .entity e rest => PlainEntity e ∧ PlainForest rest
  | .group _ members rest => PlainForest members ∧ PlainForest rest

/-- Ends that are words, a label worth showing, and a cardinality with at least one side. With none
it would come back as no cardinality. -/
structure PlainEdge (e : Edge) : Prop where
  source : IsWord e.source
  target : IsWord e.target
  label : ∀ l ∈ e.label, l ≠ "" ∧ trim l = l
  cardinality : ∀ c ∈ e.cardinality, c.source.isSome = true ∨ c.target.isSome = true

/-! ## What is written is cut as it was written -/

open Ink (Apart Loose)

theorem isWord_group : IsWord "group" := ⟨.ident, rfl, by decide +kernel⟩

theorem apart_keyed {a : String × String} (h : IsWord a.1) : Apart (keyed a) := by
  simp [keyed, Token.Kind.isConnector, h]

theorem loose_moreAttributes (as : List (String × String)) : Loose (moreAttributes as) := by
  cases as <;> simp [moreAttributes, Token.Kind.isConnector]

theorem apart_moreAttributes {as : List (String × String)} (h : ∀ a ∈ as, IsWord a.1) :
    Apart (moreAttributes as) := by
  induction as with
  | nil => trivial
  | cons a as ih =>
      have ha := apart_keyed (h a (List.mem_cons_self ..))
      have has := ih fun b hb => h b (List.mem_cons_of_mem _ hb)
      have happ := Ink.apart_append ha has (loose_moreAttributes as)
      simpa [moreAttributes, Token.Kind.isConnector] using happ

theorem apart_attributes {as : List (String × String)} (h : ∀ a ∈ as, IsWord a.1) :
    Apart (attributes as) := by
  cases as with
  | nil => trivial
  | cons a as =>
      exact Ink.apart_append (apart_keyed (h a (List.mem_cons_self ..)))
        (apart_moreAttributes fun b hb => h b (List.mem_cons_of_mem _ hb))
        (loose_moreAttributes as)

theorem loose_moreWords (ws : List String) : Loose (moreWords ws) := by
  cases ws <;> simp [moreWords]

theorem apart_moreWords {ws : List String} (h : ∀ w ∈ ws, IsWord w) : Apart (moreWords ws) := by
  induction ws with
  | nil => trivial
  | cons w ws ih =>
      have hw := h w (List.mem_cons_self ..)
      have hws := ih fun v hv => h v (List.mem_cons_of_mem _ hv)
      simp [moreWords, hw, hws, loose_moreWords]

theorem apart_row {f : Field} (h : PlainField f) : Apart (row f) := by
  have hname := h.words _ (List.mem_cons_self ..)
  have hmore := apart_moreWords fun w hw => h.words w (List.mem_cons_of_mem _ hw)
  simp [row, hname, hmore, loose_moreWords]

theorem apart_metadataLine {e : String × MetaValue} (h : IsWord e.1) : Apart (metadataLine e) := by
  obtain ⟨key, v⟩ := e
  have hkey : IsWord key := h
  cases v <;> simp [metadataLine, hkey]

theorem apart_heading {e : Entity} (h : PlainEntity e) : Apart (heading e) := by
  have hid := h.id
  have hattrs := apart_attributes fun a ha => (h.attributes a ha).1
  have hclose : Apart [.mark .closeBracket] := by simp
  have happ := Ink.apart_append hattrs hclose (by simp [Token.Kind.isConnector])
  simpa [heading, hid, Token.Kind.isConnector] using happ

theorem apart_entity {e : Entity} (h : PlainEntity e) : ∀ l ∈ entity e, Apart l := by
  intro l hl
  unfold entity at hl
  cases hfs : e.fields with
  | none =>
      rw [hfs] at hl
      rw [List.mem_singleton.mp hl]
      exact apart_heading h
  | some fs =>
      simp only [hfs, List.mem_cons, List.mem_append, List.mem_map, List.not_mem_nil,
        or_false] at hl
      rcases hl with rfl | ⟨f, hf, rfl⟩ | rfl
      · exact Ink.apart_append (apart_heading h) (by simp) (by simp)
      · exact apart_row (h.fields fs hfs f hf)
      · simp

theorem apart_groupLine (name : String) : Apart (groupLine name) := by
  simp [groupLine, isWord_group]

theorem apart_blocks {b : Forest} (h : PlainForest b) : ∀ l ∈ blocks b, Apart l := by
  induction b with
  | nil => intro l hl; cases hl
  | entity e rest ih =>
      intro l hl
      rcases List.mem_append.mp hl with hl | hl
      · exact apart_entity h.1 l hl
      · exact ih h.2 l hl
  | group name members rest ihm ihr =>
      intro l hl
      simp only [blocks, List.mem_cons, List.mem_append] at hl
      rcases hl with rfl | hl | rfl | hl
      · exact apart_groupLine name
      · exact ihm h.1 l hl
      · simp
      · exact ihr h.2 l hl

theorem apart_side (s : Option String) {xs : List Ink} (h : Apart xs) : Apart (side s ++ xs) := by
  cases s <;> simp [side, h]

theorem apart_edge {e : Edge} (h : PlainEdge e) : Apart (edge e) := by
  obtain ⟨hsource, htarget, -, -⟩ := h
  have htail : Apart (.word e.target :: label e.label) := by
    cases e.label <;> simp [label, htarget, Token.Kind.isConnector]
  have hmark : Apart (.mark (connector e.kind) :: .space ::
      (side (e.cardinality.bind Cardinality.target) ++ (.word e.target :: label e.label))) := by
    have hrest := apart_side (e.cardinality.bind Cardinality.target) htail
    cases e.kind <;> simp [connector, hrest]
  have hrest := apart_side (e.cardinality.bind Cardinality.source) hmark
  simp [edge, hsource, hrest]

/-! ## Whole texts -/

theorem loose_follow (ls : List Line) : Loose (follow ls) := by
  cases ls <;> simp [follow, Token.Kind.isConnector]

theorem apart_follow {ls : List Line} (h : ∀ l ∈ ls, Apart l) : Apart (follow ls) := by
  induction ls with
  | nil => trivial
  | cons l ls ih =>
      have hl := h l (List.mem_cons_self ..)
      have hls := ih fun k hk => h k (List.mem_cons_of_mem _ hk)
      have happ := Ink.apart_append hl hls (loose_follow ls)
      simpa [follow, Token.Kind.isConnector] using happ

theorem apart_lined {ls : List Line} (h : ∀ l ∈ ls, Apart l) : Apart (lined ls) := by
  cases ls with
  | nil => trivial
  | cons l ls =>
      exact Ink.apart_append (h l (List.mem_cons_self ..))
        (apart_follow fun k hk => h k (List.mem_cons_of_mem _ hk)) (loose_follow ls)

theorem apart_lines {metadata : KeyedList String MetaValue} {forest : Forest} {edges : List Edge}
    (hm : PlainMetadata metadata) (hf : PlainForest forest) (he : ∀ e ∈ edges, PlainEdge e)
    (ends : Nat) :
    Apart (lined (lines metadata forest edges ++ List.replicate ends [])) := by
  refine apart_lined fun l hl => ?_
  simp only [lines, List.mem_append, List.mem_map, List.mem_replicate] at hl
  rcases hl with (⟨e, hmem, rfl⟩ | hl | ⟨e, hmem, rfl⟩) | ⟨-, rfl⟩
  · exact apart_metadataLine (hm e hmem).1
  · exact apart_blocks hf l hl
  · exact apart_edge (he e hmem)
  · trivial

end Native

end Schematic
