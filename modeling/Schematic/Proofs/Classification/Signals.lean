import Mathlib.Data.List.Perm.Basic
import Schematic.Classification
import Schematic.Proofs.KeyedList
import Schematic.Proofs.Success

/-!
# What an archetype goes by

The rules look for the first thing that tells, but the archetype depends on less: on whether there
is such a thing at all, and on two numbers (`Signals`). Neither the order of the declarations and
edges nor the groups around the declarations are among these signals, so documents that say the same
in another order are of one archetype (`explain_rearranged`).
-/

namespace Schematic

universe u v

theorem KeyedList.contains_eq_isSome {κ : Type u} {β : Type v} [DecidableEq κ] (m : KeyedList κ β)
    (k : κ) : m.contains k = (m.get? k).isSome := by
  rw [Bool.eq_iff_iff, KeyedList.contains_iff, KeyedList.mem_keys_iff, Option.isSome_iff_exists]

namespace Classification

/-- What the archetype of a document goes by. The rules ask more of a document than this, but only
to give their reason: the answer itself is a function of these seven. -/
structure Signals where
  /-- The archetype that the document declares. -/
  declared : Option Archetype
  numbered : Bool
  participant : Bool
  flowWord : Bool
  /-- How many declarations are styled. -/
  styled : Nat
  edges : Nat
  fields : Bool
deriving Repr, DecidableEq

def signals (v : Vocabulary) (d : Document) : Signals where
  declared := (declared? d).map Prod.fst
  numbered := v.numberingKeys.any d.metadata.contains
  participant := d.entities.any (isParticipant v)
  flowWord := d.edges.any fun e => !(flowWordsOf v e).isEmpty
  styled := d.entities.countP (isStyled v)
  edges := d.edges.length
  fields := d.entities.any Entity.hasFields

/-- A signal that is more telling than styled declarations. -/
def Signals.decisive (s : Signals) : Bool :=
  s.declared.isSome || s.numbered || s.participant || s.flowWord

/-- There are enough styled declarations and edges for a sequence. -/
def Signals.Lively (v : Vocabulary) (s : Signals) : Prop :=
  v.minStyledNodes ≤ s.styled ∧ v.minStyledEdges ≤ s.edges

instance (v : Vocabulary) (s : Signals) : Decidable (s.Lively v) := instDecidableAnd

/-- The archetype that signals speak for if none of them is decisive. -/
def Signals.plain (v : Vocabulary) (s : Signals) : Archetype :=
  if s.Lively v then .sequence
  else if s.fields then .entityRelationship
  else if s.edges = 0 then .unknown
  else .graph

/-- The archetype that signals speak for. -/
def Signals.archetype (v : Vocabulary) (s : Signals) : Archetype :=
  if s.decisive then s.declared.getD .sequence else s.plain v

/-! ## The rules go by the signals -/

theorem isSome_numbering (v : Vocabulary) (d : Document) :
    (v.numberingKeys.find? d.metadata.contains).isSome = (signals v d).numbered :=
  List.isSome_find?

theorem isSome_participant (v : Vocabulary) (d : Document) :
    (d.entities.find? (isParticipant v)).isSome = (signals v d).participant :=
  List.isSome_find?

theorem isSome_flowWord (v : Vocabulary) (d : Document) :
    (d.edges.flatMap (flowWordsOf v)).head?.isSome = (signals v d).flowWord := by
  rw [Bool.eq_iff_iff, List.isSome_head?, ne_eq, List.flatMap_eq_nil_iff, signals,
    List.any_eq_true]
  simp

/-- The archetype of a document is the one that its signals speak for. One case per rule, in their
order: the first four are decisive, and the others are what `plain` goes by. -/
theorem archetype_explain (v : Vocabulary) (d : Document) :
    (explain v d).1 = (signals v d).archetype v := by
  unfold explain Signals.archetype Signals.decisive
  cases hdeclared : declared? d with
  | some found => simp [signals, hdeclared]
  | none =>
      have hnone : (signals v d).declared = none := by simp [signals, hdeclared]
      rw [hnone, ← isSome_numbering, ← isSome_participant, ← isSome_flowWord]
      unfold bySignals
      cases v.numberingKeys.find? d.metadata.contains with
      | some key => rfl
      | none =>
          cases d.entities.find? (isParticipant v) with
          | some e => rfl
          | none =>
              cases (d.edges.flatMap (flowWordsOf v)).head? with
              | some word => rfl
              | none =>
                  unfold Signals.plain Signals.Lively signals
                  simp only [Option.isSome_none, Bool.or_self, Bool.false_eq_true, if_false,
                    List.isEmpty_iff, List.length_eq_zero_iff]
                  split_ifs <;> rfl

/-! ## Order and place -/

end Classification

open Classification

/-- The two say the same of one thing: the attributes may come in another order. -/
structure Entity.Alike (e f : Entity) : Prop where
  id : e.id = f.id
  attributes : ∀ k, e.attributes.get? k = f.attributes.get? k
  fields : e.fields = f.fields

/-- The documents say the same in another order: the metadata is the same, the declarations of the
one are those of the other, up to the order of attributes, in whatever groups, and the edges of the
one are those of the other. -/
structure Document.Rearranged (d d' : Document) : Prop where
  metadata : ∀ k, d.metadata.get? k = d'.metadata.get? k
  entities : ∃ es, d.entities.Perm es ∧ List.Forall₂ Entity.Alike es d'.entities
  edges : d.edges.Perm d'.edges

namespace Classification

variable {v : Vocabulary} {e f : Entity} {d d' : Document}

theorem isParticipant_of_alike (h : e.Alike f) : isParticipant v e = isParticipant v f := by
  simp only [isParticipant, h.attributes, h.id]

theorem isStyled_of_alike (h : e.Alike f) : isStyled v e = isStyled v f := by
  have hcontains : e.attributes.contains = f.attributes.contains := by
    funext k
    rw [KeyedList.contains_eq_isSome, KeyedList.contains_eq_isSome, h.attributes]
  rw [isStyled, isStyled, hcontains]

theorem hasFields_of_alike (h : e.Alike f) : e.hasFields = f.hasFields := by
  rw [Entity.hasFields, Entity.hasFields, Entity.rows, Entity.rows, h.fields]

theorem declared?_congr (h : ∀ k, d.metadata.get? k = d'.metadata.get? k) :
    declared? d = declared? d' := by
  have htext : d.metaText? "type" = d'.metaText? "type" := by
    rw [Document.metaText?, Document.metaText?, h]
  rw [declared?, declared?, htext]

/-- What declarations that are the same in another order are tested for comes out the same. So a
test that does not look at the order of attributes holds of as many declarations. -/
theorem map_perm_of_rearranged (h : d.Rearranged d') {p : Entity → Bool}
    (hp : ∀ e f : Entity, e.Alike f → p e = p f) : (d.entities.map p).Perm (d'.entities.map p) := by
  obtain ⟨es, hperm, halike⟩ := h.entities
  have hmap : es.map p = d'.entities.map p := forall₂_map_eq halike hp
  rw [← hmap]
  exact hperm.map p

theorem signals_eq_of_rearranged (v : Vocabulary) (h : d.Rearranged d') :
    signals v d = signals v d' := by
  have hany : ∀ {p : Entity → Bool}, (∀ e f : Entity, e.Alike f → p e = p f) →
      d.entities.any p = d'.entities.any p := by
    intro p hp
    have hperm := (map_perm_of_rearranged h hp).any_eq (f := id)
    rw [List.any_map, List.any_map] at hperm
    exact hperm
  have hcount : d.entities.countP (isStyled v) = d'.entities.countP (isStyled v) := by
    have hperm := (map_perm_of_rearranged h fun _ _ => isStyled_of_alike (v := v)).countP_eq id
    rw [List.countP_map, List.countP_map] at hperm
    exact hperm
  have hcontains : d.metadata.contains = d'.metadata.contains := by
    funext k
    rw [KeyedList.contains_eq_isSome, KeyedList.contains_eq_isSome, h.metadata]
  rw [signals, signals, declared?_congr h.metadata, hcontains,
    hany fun _ _ => isParticipant_of_alike, hany fun _ _ => hasFields_of_alike, hcount,
    h.edges.any_eq, h.edges.length_eq]

/-- **Order and nesting.** Documents that say the same in another order and in other groups are of
one archetype. -/
theorem explain_rearranged (v : Vocabulary) (d d' : Document) (h : d.Rearranged d') :
    (explain v d).1 = (explain v d').1 := by
  rw [archetype_explain, archetype_explain, signals_eq_of_rearranged v h]

end Classification

/-- A styled node in a group and another one without, and edges enough for a sequence. -/
def Document.lively : Document where
  archetype := .unknown
  metadata := .empty
  blocks := .group "G"
    (.entity ⟨"a", (KeyedList.empty.put "color" "red").put "shape" "box", none⟩ .nil)
    (.entity ⟨"b", KeyedList.empty.put "icon" "disk", none⟩ .nil)
  edges := [⟨"a", "b", .directed, none, none⟩, ⟨"b", "c", .directed, some "asks", none⟩,
    ⟨"c", "b", .directed, none, none⟩, ⟨"b", "a", .directed, none, none⟩]
  dialect := .native
  lineCount := 8

/-- The same with the edges backwards, the nodes the other way round and the group around the other
one, and with the attributes of the first node in another order. -/
def Document.livelyBackwards : Document where
  archetype := .unknown
  metadata := .empty
  blocks := .group "H"
    (.group "K" (.entity ⟨"b", KeyedList.empty.put "icon" "disk", none⟩ .nil) .nil)
    (.entity ⟨"a", (KeyedList.empty.put "shape" "box").put "color" "red", none⟩ .nil)
  edges := lively.edges.reverse
  dialect := .native
  lineCount := 10

theorem Document.lively_rearranged : Document.lively.Rearranged .livelyBackwards where
  metadata := fun _ => rfl
  entities := by
    refine ⟨Document.lively.entities.reverse, (List.reverse_perm _).symm,
      .cons ⟨rfl, fun _ => rfl, rfl⟩ (.cons ⟨rfl, fun k => ?_, rfl⟩ .nil)⟩
    simp only [KeyedList.get?_put]
    split_ifs <;> simp_all
  edges := (List.reverse_perm _).symm

theorem Classification.explain_rearranged_lively :
    Document.lively.Rearranged .livelyBackwards ∧
      (explain .standard .lively).1 = (explain .standard .livelyBackwards).1 ∧
      (explain .standard .lively).1 = .sequence :=
  ⟨Document.lively_rearranged,
    explain_rearranged .standard .lively .livelyBackwards Document.lively_rearranged,
    by decide +kernel⟩

end Schematic
