import Schematic.Proofs.Classification.Signals
import Schematic.Proofs.Outline.Flattening

/-!
# Declaring again

A text may declare an entity as often as it likes, and the outline merges all that into one node.
The archetype goes by the declarations, not by the nodes: a copy of a styled declaration leaves the
number of styled nodes as it is and counts once more. So a copy changes the archetype exactly where
it is the one declaration that was missing (`TipsOver`), and nowhere else (`explain_insert`).
-/

namespace Schematic

/-- The second forest is the first one with a declaration of `e` put in somewhere. -/
inductive Forest.Inserted (e : Entity) : Forest → Forest → Prop where
  | here (rest : Forest) : Inserted e rest (.entity e rest)
  | entity (f : Entity) {rest rest' : Forest} (h : Inserted e rest rest') :
    Inserted e (.entity f rest) (.entity f rest')
  | within (name : String) {members members' : Forest} (rest : Forest)
    (h : Inserted e members members') :
    Inserted e (.group name members rest) (.group name members' rest)
  | behind (name : String) (members : Forest) {rest rest' : Forest} (h : Inserted e rest rest') :
    Inserted e (.group name members rest) (.group name members rest')

theorem Forest.Inserted.entities_perm {e : Entity} {blocks blocks' : Forest}
    (h : blocks.Inserted e blocks') : blocks'.entities.Perm (e :: blocks.entities) := by
  induction h with
  | here rest => exact .refl _
  | entity f _ ih => exact (ih.cons f).trans (.swap e f _)
  | within name rest _ ih => exact ih.append_right rest.entities
  | behind name members _ ih => exact (ih.append_left members.entities).trans List.perm_middle

open Outline

namespace Classification

variable {v : Vocabulary} {d : Document} {e : Entity} {blocks : Forest}

/-! ## Styled nodes -/

/-- How many nodes are styled. -/
def styledNodes (v : Vocabulary) (d : Document) : Nat :=
  (ofDocument d).nodes.values.countP fun n => isStyled v n.entity

/-- The ids of the styled declarations. -/
def styledIds (v : Vocabulary) (d : Document) : List String :=
  (d.entities.filter (isStyled v)).map Entity.id

theorem isStyled_iff : isStyled v e = true ↔ ∃ k ∈ v.styleKeys, k ∈ e.attributes.keys := by
  rw [isStyled, List.any_eq_true]
  exact exists_congr fun k => and_congr_right fun _ => KeyedList.contains_iff

/-- Of declarations that are merged one was styled if the whole is: merging keeps every attribute
that one of them has, and being styled only asks whether there is one of certain attributes. -/
theorem isStyled_of_isMerged {ds : List Entity} (h : IsMerged ds e) :
    isStyled v e = true ↔ ∃ f ∈ ds, isStyled v f = true := by
  simp only [isStyled_iff, h.keys, List.mem_eraseDups, List.mem_flatMap]
  constructor
  · rintro ⟨k, hk, f, hf, hkf⟩
    exact ⟨f, hf, k, hk, hkf⟩
  · rintro ⟨f, hf, k, hk, hkf⟩
    exact ⟨k, hk, f, hf, hkf⟩

theorem mem_styledIds {id : String} :
    id ∈ styledIds v d ↔ ∃ f ∈ d.entities, f.id = id ∧ isStyled v f = true := by
  simp only [styledIds, List.mem_map, List.mem_filter]
  exact exists_congr fun f => and_assoc.trans (and_congr_right fun _ => and_comm)

/-- A node is styled if one of its declarations is. -/
theorem isStyled_node {id : String} {n : Node} (hn : (ofDocument d).nodes.get? id = some n) :
    isStyled v n.entity = true ↔ id ∈ styledIds v d := by
  rw [mem_styledIds]
  by_cases hid : id ∈ d.declaredIds
  · obtain ⟨m, hm, hmerged, -⟩ := exists_declared d hid
    obtain rfl := Option.some.inj (hn.symm.trans hm)
    rw [isStyled_of_isMerged hmerged]
    simp only [List.mem_filter, beq_iff_eq, and_assoc]
  · -- a node that no block declares is made up, and has no attributes
    rw [← nodeIds_blocks] at hid
    obtain rfl := (stage_ofDocument d).stubbed.made id hid n hn
    rw [nodeIds_blocks, Document.declaredIds, List.mem_eraseDups] at hid
    refine iff_of_false (fun hstyled => ?_) ?_
    · obtain ⟨k, -, hk⟩ := isStyled_iff.mp hstyled
      cases hk
    · rintro ⟨f, hf, hfid, -⟩
      exact hid (List.mem_map.mpr ⟨f, hf, hfid⟩)

/-- The styled nodes are those with a styled declaration, each counted once. Both sides are lists of
ids without repetition that hold the same ids, so they are of one length. -/
theorem styledNodes_eq (v : Vocabulary) (d : Document) :
    styledNodes v d = (styledIds v d).eraseDups.length := by
  let styled := (ofDocument d).nodes.entries.filter fun entry => isStyled v entry.2.entity
  have hcount : styledNodes v d = (styled.map Prod.fst).length := by
    rw [styledNodes, KeyedList.values, List.countP_map, List.countP_eq_length_filter,
      List.length_map]
    rfl
  have hnodup : (styled.map Prod.fst).Nodup :=
    (ofDocument d).nodes.distinct.sublist (List.filter_sublist.map Prod.fst)
  have hmem : ∀ id, id ∈ styled.map Prod.fst ↔ id ∈ (styledIds v d).eraseDups := by
    intro id
    rw [List.mem_eraseDups]
    constructor
    · intro hid
      obtain ⟨⟨_, n⟩, hentry, rfl⟩ := List.mem_map.mp hid
      obtain ⟨hentry, hstyled⟩ := List.mem_filter.mp hentry
      exact (isStyled_node (KeyedList.get?_eq_some_iff.mpr hentry)).mp hstyled
    · intro hid
      obtain ⟨f, hf, rfl, -⟩ := mem_styledIds.mp hid
      have hdeclared : f.id ∈ d.declaredIds :=
        List.mem_eraseDups.mpr (List.mem_map_of_mem hf)
      obtain ⟨n, hn, -⟩ := exists_declared d hdeclared
      have hentry := KeyedList.get?_eq_some_iff.mp hn
      exact List.mem_map.mpr
        ⟨(f.id, n), List.mem_filter.mpr ⟨hentry, (isStyled_node hn).mpr hid⟩, rfl⟩
  rw [hcount]
  exact ((List.perm_ext_iff_of_nodup hnodup (nodup_eraseDups _)).mpr hmem).length_eq

/-- The signal is the number of styled nodes only if no node has two styled declarations. The signal
counts the declarations, and leaving repetitions out makes a list shorter unless it has none. -/
theorem styled_eq_styledNodes_iff (v : Vocabulary) (d : Document) :
    (signals v d).styled = styledNodes v d ↔ (styledIds v d).Nodup := by
  have hcount : (signals v d).styled = (styledIds v d).length := by
    rw [signals, styledIds, List.length_map, List.countP_eq_length_filter]
  rw [hcount, styledNodes_eq, eq_comm]
  exact length_eraseDups_eq_iff

/-- A copy of a declaration styles no further node: the id of the copy is already among the styled
ids if the copy is styled. -/
theorem styledNodes_insert (he : e ∈ d.entities) (h : d.blocks.Inserted e blocks) :
    styledNodes v { d with blocks := blocks } = styledNodes v d := by
  rw [styledNodes_eq, styledNodes_eq]
  refine length_eraseDups_congr fun id => ?_
  have hmem : ∀ f, f ∈ blocks.entities ↔ f ∈ d.entities := by
    intro f
    rw [h.entities_perm.mem_iff, List.mem_cons]
    exact or_iff_right_of_imp fun heq => heq ▸ he
  rw [mem_styledIds, mem_styledIds]
  exact exists_congr fun f => and_congr_left fun _ => hmem f

/-! ## The signals of a document with a copy -/

/-- Only the number of styled declarations can change, by one. What else the rules look at is
whether some declaration is of a kind, and a copy is of no kind that was not there before. -/
theorem signals_insert (v : Vocabulary) (he : e ∈ d.entities) (h : d.blocks.Inserted e blocks) :
    signals v { d with blocks := blocks } =
      { signals v d with styled := (signals v d).styled + (isStyled v e).toNat } := by
  have hany : ∀ p : Entity → Bool, blocks.entities.any p = d.entities.any p := by
    intro p
    rw [h.entities_perm.any_eq, List.any_cons]
    exact Bool.or_eq_right_iff_imp.mpr fun hp => List.any_eq_true.mpr ⟨e, he, hp⟩
  have hcount : blocks.entities.countP (isStyled v) =
      d.entities.countP (isStyled v) + (isStyled v e).toNat := by
    rw [h.entities_perm.countP_eq, List.countP_cons]
    cases isStyled v e <;> rfl
  simp only [signals, Document.entities] at hany hcount ⊢
  rw [hany, hany, hcount]
  rfl

theorem plain_eq_sequence_iff (v : Vocabulary) (s : Signals) :
    s.plain v = .sequence ↔ s.Lively v := by
  unfold Signals.plain
  split_ifs with hlively <;> simp [hlively]

/-- The number of styled declarations only matters where no signal is decisive, and there only for
whether it is enough. -/
theorem archetype_styled_iff (v : Vocabulary) (s : Signals) (n : Nat) :
    ({ s with styled := n } : Signals).archetype v = s.archetype v ↔
      s.decisive = true ∨ (({ s with styled := n } : Signals).Lively v ↔ s.Lively v) := by
  have hdecisive : ({ s with styled := n } : Signals).decisive = s.decisive := rfl
  unfold Signals.archetype
  rw [hdecisive]
  cases hs : s.decisive with
  | true => simp
  | false =>
      simp only [Bool.false_eq_true, if_false, false_or]
      constructor
      · intro heq
        rw [← plain_eq_sequence_iff, ← plain_eq_sequence_iff, heq]
      · intro hlively
        unfold Signals.plain
        simp only [hlively]

/-- The copy of a declaration is the one that was missing: no signal is decisive, there are enough
edges, and one more styled declaration is enough. -/
def TipsOver (v : Vocabulary) (d : Document) (e : Entity) : Prop :=
  (signals v d).decisive = false ∧ v.minStyledEdges ≤ (signals v d).edges ∧
    isStyled v e = true ∧ v.minStyledNodes = (signals v d).styled + 1

instance (v : Vocabulary) (d : Document) (e : Entity) : Decidable (TipsOver v d e) :=
  instDecidableAnd

/-- **Repeated declarations.** A copy of a declaration, put in anywhere, changes the archetype
exactly if it tips the signals over. It counts as a styled declaration like any other while the
number of styled nodes stays, and the two numbers are the same only if no node has two styled
declarations. -/
theorem explain_insert (v : Vocabulary) (d : Document) (e : Entity) (blocks : Forest)
    (he : e ∈ d.entities) (h : d.blocks.Inserted e blocks) :
    ((explain v { d with blocks := blocks }).1 = (explain v d).1 ↔ ¬ TipsOver v d e) ∧
      styledNodes v { d with blocks := blocks } = styledNodes v d ∧
      (signals v { d with blocks := blocks }).styled =
        (signals v d).styled + (isStyled v e).toNat ∧
      ((signals v d).styled = styledNodes v d ↔ (styledIds v d).Nodup) := by
  have hsignals := signals_insert v he h
  refine ⟨?_, styledNodes_insert he h, by rw [hsignals], styled_eq_styledNodes_iff v d⟩
  rw [archetype_explain, archetype_explain, hsignals, archetype_styled_iff, TipsOver]
  cases hdecisive : (signals v d).decisive with
  | true => simp
  | false =>
      cases hstyled : isStyled v e with
      | false => simp [Signals.Lively]
      | true =>
          simp only [Signals.Lively, Bool.toNat_true, Bool.false_eq_true, false_or, true_and]
          omega

/-- A third declaration of a styled node of a document that is a sequence already. -/
theorem explain_insert_lively :
    let a : Entity := ⟨"a", (KeyedList.empty.put "color" "red").put "shape" "box", none⟩
    let blocks : Forest := .group "G" (.entity a .nil)
      (.entity ⟨"b", KeyedList.empty.put "icon" "disk", none⟩ (.entity a .nil))
    a ∈ Document.lively.entities ∧ Document.lively.blocks.Inserted a blocks ∧
      (explain .standard { Document.lively with blocks := blocks }).1 =
        (explain .standard .lively).1 := by
  intro a blocks
  have hmem : a ∈ Document.lively.entities := List.mem_cons_self ..
  have hinserted : Document.lively.blocks.Inserted a blocks :=
    .behind "G" _ (.entity _ (.here .nil))
  have htips : ¬ TipsOver .standard .lively a := by decide +kernel
  exact ⟨hmem, hinserted,
    (explain_insert .standard .lively a blocks hmem hinserted).1.mpr htips⟩

end Classification

/-- One styled node, which stands at one end of every edge. -/
def Document.painted : Document where
  archetype := .unknown
  metadata := .empty
  blocks := .entity ⟨"A", KeyedList.empty.put "color" "red", none⟩ .nil
  edges := [⟨"A", "B", .directed, none, none⟩, ⟨"A", "C", .directed, none, none⟩,
    ⟨"A", "D", .directed, none, none⟩, ⟨"A", "E", .directed, none, none⟩]
  dialect := .native
  lineCount := 5

/-- The same with the declaration made twice, which is still one node. -/
def Document.repainted : Document :=
  { Document.painted with
    blocks := .entity ⟨"A", KeyedList.empty.put "color" "red", none⟩ Document.painted.blocks }

open Classification in
/-- Declaring the only styled node again makes a sequence of a graph, for the reason that it has two
styled nodes. -/
theorem Classification.copy_makes_sequence :
    ⟨"A", KeyedList.empty.put "color" "red", none⟩ ∈ Document.painted.entities ∧
      Document.painted.blocks.Inserted ⟨"A", KeyedList.empty.put "color" "red", none⟩
        Document.repainted.blocks ∧
      explain .standard .painted = (.graph, .edges 4) ∧
      explain .standard .repainted = (.sequence, .styled 2 4) ∧
      styledNodes .standard .repainted = 1 :=
  ⟨List.mem_cons_self .., .here _, by decide +kernel, by decide +kernel, by decide +kernel⟩

end Schematic
