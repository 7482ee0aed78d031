import Mathlib.Data.List.Find
import Schematic.Proofs.Outline.Stubs
import Schematic.Proofs.Success

/-!
# Marks on populated containers

The model asks each time anew whether some node lies in a container. The answers can as well be
stored: after the walk over the blocks, going down once from the root marks every container, and
whoever asks later reads the mark. The edges come after that, and the nodes they bring all lie at
the root, so the root is marked again when one is made up and no other mark is ever out of date
(`Marked.IsRight`). The outline and the members of its containers are the same either way
(`exists_ofBlocks`).
-/

namespace Schematic

namespace Outline

variable {o : Outline} {key k name : String} {e : Endpoint}

/-! ## Marking -/

/-- Passes a member of a container, given how to mark what is below it: whether the members so far
hold a node, and the marks. -/
def markMember
    (below : String → KeyedList String Bool → Except Missing (Bool × KeyedList String Bool))
    (known : Bool × KeyedList String Bool) :
    Endpoint → Except Missing (Bool × KeyedList String Bool)
  | .node _ => .ok (true, known.2)
  | .group key => do
    let (inner, marks) ← below key known.2
    return (inner || known.1, marks)

/-- Marks a container and all below it by going down through at most `depth` containers, and says
whether it holds a node. -/
def mark (o : Outline) :
    Nat → String → KeyedList String Bool → Except Missing (Bool × KeyedList String Bool)
  | 0, _, marks => .ok (false, marks)
  | depth + 1, key, marks => do
    let c ← o.container key
    let (populated, marks) ← c.members.foldlM (markMember (mark o depth)) (false, marks)
    return (populated, marks.put key populated)

/-- The marks of the containers that satisfy `p` are set, and every mark that is set is right. Marks
that were there before may be wrong, but only until their container is marked again. -/
structure Sets (o : Outline) (p : String → Prop) (before after : KeyedList String Bool) : Prop where
  set : ∀ k, p k → after.get? k = some (o.isPopulated k)
  kept : ∀ k, after.get? k = before.get? k ∨ after.get? k = some (o.isPopulated k)

theorem Sets.trans {p q : String → Prop} {a b c : KeyedList String Bool} (h : o.Sets p a b)
    (h' : o.Sets q b c) : o.Sets (fun k => p k ∨ q k) a c where
  set k hk := by
    rcases hk with hk | hk
    · rcases h'.kept k with heq | heq
      · rw [heq, h.set k hk]
      · exact heq
    · exact h'.set k hk
  kept k := by
    rcases h'.kept k with heq | heq
    · rw [heq]
      exact h.kept k
    · exact Or.inr heq

theorem Sets.mono {p q : String → Prop} {a b : KeyedList String Bool} (h : o.Sets p a b)
    (hq : ∀ k, q k → p k) : o.Sets q a b :=
  ⟨fun k hk => h.set k (hq k hk), h.kept⟩

theorem Sets.put {p : String → Prop} {a b : KeyedList String Bool} (h : o.Sets p a b)
    (key : String) : o.Sets (fun k => k = key ∨ p k) a (b.put key (o.isPopulated key)) where
  set k hk := by
    rw [KeyedList.get?_put]
    split
    · next heq => rw [heq]
    · next hne => exact h.set k (hk.resolve_left hne)
  kept k := by
    rw [KeyedList.get?_put]
    split
    · next heq =>
      rw [heq]
      exact Or.inr rfl
    · exact h.kept k

/-- What passing the members `done` comes to: whether they hold a node, and marks on every container
they cover. -/
def Passed (o : Outline) (before : KeyedList String Bool) (done : List Endpoint)
    (known : Bool × KeyedList String Bool) : Prop :=
  known.1 = done.any (takesSpace o.populated) ∧
    o.Sets (fun k => ∃ e ∈ done, o.Covers e (.group k)) before known.2

theorem Passed.markMember {before : KeyedList String Bool} {done : List Endpoint}
    {known : Bool × KeyedList String Bool} (h : o.Passed before done known)
    {below : String → KeyedList String Bool → Except Missing (Bool × KeyedList String Bool)}
    (hbelow : ∀ j, e = .group j → ∃ after, below j known.2 = .ok (o.isPopulated j, after) ∧
      o.Sets (fun k => o.Covers (.group j) (.group k)) known.2 after) :
    ∃ next, Outline.markMember below known e = .ok next ∧ o.Passed before (done ++ [e]) next := by
  cases e with
  | node id =>
      refine ⟨(true, known.2), rfl, by simp [takesSpace], h.2.mono ?_⟩
      rintro k ⟨e, he, hcovers⟩
      rcases List.mem_append.mp he with he | he
      · exact ⟨e, he, hcovers⟩
      · rw [List.mem_singleton.mp he] at hcovers
        simp [Covers] at hcovers
  | group j =>
      obtain ⟨after, hafter, hsets⟩ := hbelow j rfl
      refine ⟨(o.isPopulated j || known.1, after), ?_, ?_, (h.2.trans hsets).mono ?_⟩
      · rw [Outline.markMember, hafter]
        rfl
      · rw [h.1, List.any_append, Bool.or_comm]
        simp [takesSpace, isPopulated]
      · rintro k ⟨e, he, hcovers⟩
        rcases List.mem_append.mp he with he | he
        · exact Or.inl ⟨e, he, hcovers⟩
        · rw [List.mem_singleton.mp he] at hcovers
          exact Or.inr hcovers

/-- A container is populated if one of its members is a node or a populated group. This is the
equation by which going down computes the mark. -/
theorem Sound.isPopulated_eq (h : Sound o) {c : Container} (hc : o.containers.get? key = some c) :
    o.isPopulated key = c.members.any (takesSpace o.populated) := by
  obtain ⟨members, hmembers, -, hmem⟩ := h.members_eq (KeyedList.mem_keys_of_get? hc)
  rw [Outline.members, container_eq hc] at hmembers
  obtain rfl := Except.ok.inj hmembers
  rw [Bool.eq_iff_iff, isPopulated, List.contains_iff_mem, h.populated_iff_members hmem,
    List.any_eq_true]
  simp [List.filter_eq_nil_iff]

/-- What a group covers is the group or is covered by one of its members. -/
theorem Sound.covers_group (h : Sound o) {c : Container} (hc : o.containers.get? key = some c)
    (hk : o.Covers (.group key) (.group k)) :
    k = key ∨ ∃ e ∈ c.members, o.Covers e (.group k) := by
  have hmem : ∀ e, o.Holds key e → e ∈ c.members := by
    rintro e ⟨d, hd, he⟩
    rw [hc] at hd
    cases hd
    exact he
  rcases hk with heq | ⟨j, heq, hbelow⟩
  · cases heq
    exact Or.inl rfl
  · cases heq
    rcases h.holds_or_below hbelow with hheld | ⟨j, hheld, hj⟩
    · exact Or.inr ⟨_, hmem _ hheld, Or.inl rfl⟩
    · exact Or.inr ⟨_, hmem _ hheld, Or.inr ⟨j, rfl, hj⟩⟩

/-- Marking goes down far enough if no more containers come behind the one it starts from. A group
in a container comes behind it, so every step down leaves fewer of them, and a depth that is as
large as their number is never used up. -/
theorem Sound.mark (h : Sound o) {depth : Nat} (hkey : key ∈ o.containers.keys)
    (hdepth : o.containers.keys.length ≤ o.containers.keys.idxOf key + depth)
    (marks : KeyedList String Bool) :
    ∃ after, o.mark depth key marks = .ok (o.isPopulated key, after) ∧
      o.Sets (fun k => o.Covers (.group key) (.group k)) marks after := by
  induction depth generalizing key marks with
  | zero =>
      have hlt := List.idxOf_lt_length_iff.mpr hkey
      omega
  | succ depth ih =>
      obtain ⟨c, hc⟩ := KeyedList.mem_keys_iff.mp hkey
      have hstart : o.Passed marks [] (false, marks) :=
        ⟨rfl, fun k hk => by simp at hk, fun k => Or.inl rfl⟩
      obtain ⟨⟨populated, inner⟩, hfold, hpopulated, hsets⟩ :=
        exists_foldlM_eq_ok (I := o.Passed marks) (f := markMember (o.mark depth))
          c.members hstart fun done e todo known hsplit hknown => by
            have hheld : o.Holds key e := ⟨c, hc, by rw [hsplit]; simp⟩
            refine hknown.markMember fun j hj => ?_
            subst hj
            have hlt := h.idxOf_lt_of_holds hheld
            exact ih (hheld.group_mem_keys h) (by omega) known.2
      rw [← h.isPopulated_eq hc] at hpopulated
      obtain rfl : populated = o.isPopulated key := hpopulated
      refine ⟨inner.put key (o.isPopulated key), ?_, (hsets.put key).mono fun k hk => ?_⟩
      · rw [Outline.mark, container_eq hc]
        exact bind_of_eq_ok hfold
      · exact h.covers_group hc hk

/-! ## Resolving by marks -/

/-- An outline with the marks of its containers. -/
structure Marked where
  outline : Outline
  marks : KeyedList String Bool

namespace Marked

def isMarked (m : Marked) (key : String) : Bool := (m.marks.get? key).getD false

/-- The first marked group of the given name. -/
def groupNamed? (m : Marked) (name : String) : Option String :=
  (m.outline.groups.find? fun e => e.2.name == name && m.isMarked e.1).map Prod.fst

/-- Makes up a node at the root, and marks the root. No other mark can be out of date by this, as
the new node lies in no group. -/
def addStub (m : Marked) (id : String) : Marked := ⟨m.outline.addStub id, m.marks.put root true⟩

def resolve (m : Marked) (name : String) : Endpoint × Marked :=
  if m.outline.nodes.contains name then (.node name, m)
  else
    match m.groupNamed? name with
    | some key => (.group key, m)
    | none =>
      match (shortenings name).find? m.outline.nodes.contains with
      | some id => (.node id, m)
      | none => (.node name, m.addStub name)

def addEdge (m : Marked) (e : Edge) : Marked :=
  let (source, m) := m.resolve e.source
  let (target, m) := m.resolve e.target
  let wire : Wire := ⟨m.outline.wires.length, e, source, target⟩
  { m with outline := { m.outline with wires := m.outline.wires ++ [wire] } }

/-- Walks the blocks, marks the containers once, and resolves the edges by the marks. -/
def ofBlocks (blocks : Forest) (edges : List Edge) : Except Missing Marked := do
  let o := start.walk root blocks
  let (_, marks) ← o.mark o.containers.keys.length root .empty
  return edges.foldl addEdge ⟨o, marks⟩

/-- The direct members of a container that are nodes or marked groups. -/
def members (m : Marked) (key : String) : Except Missing (List Endpoint) := do
  return (← m.outline.container key).members.filter fun
    | .node _ => true
    | .group k => m.isMarked k

/-- The marks say which containers are populated. A mark that is missing is read as not set, so this
is said of all containers. -/
structure IsRight (m : Marked) : Prop where
  sound : Sound m.outline
  marks : ∀ k ∈ m.outline.containers.keys, m.isMarked k = m.outline.isPopulated k

variable {m : Marked}

theorem IsRight.groupNamed?_eq (h : IsRight m) (name : String) :
    m.groupNamed? name = m.outline.groupNamed? name := by
  rw [groupNamed?, Outline.groupNamed?]
  refine congrArg (Option.map Prod.fst) (List.find?_congr fun e he => ?_)
  rw [h.marks e.1 (List.mem_map_of_mem (List.mem_filter.mp he).1)]

/-- The node that is made up lies at the root and nowhere else, so the mark of the root is the only
one to set. -/
theorem IsRight.addStub (h : IsRight m) (hname : name ∉ m.outline.nodes.keys) :
    IsRight (m.addStub name) where
  sound := h.sound.addStub hname
  marks k hk := by
    have hsound := h.sound.addStub hname
    have hkeys : k ∈ m.outline.containers.keys := by
      rw [← ((Stubbed.refl m.outline).addStub hname).keys]
      exact hk
    have hnew : name ∈ (m.outline.addStub name).nodes.keys :=
      KeyedList.mem_keys_put.mpr (Or.inl rfl)
    have hiff := ((Stubbed.refl m.outline).addStub hname).mem_populated_iff (k := k) h.sound hsound
    show ((m.marks.put root true).get? k).getD false = (m.outline.addStub name).isPopulated k
    rw [Bool.eq_iff_iff, isPopulated, List.contains_iff_mem, hiff, KeyedList.get?_put]
    split
    · next hroot => exact iff_of_true rfl (Or.inr ⟨hroot, name, hnew, hname⟩)
    · next hroot =>
      have hmark := h.marks k hkeys
      rw [isMarked] at hmark
      rw [hmark, isPopulated, List.contains_iff_mem, or_iff_left fun hboth => hroot hboth.1]

theorem IsRight.resolve (h : IsRight m) (name : String) :
    (m.resolve name).1 = (m.outline.resolve name).1 ∧
      (m.resolve name).2.outline = (m.outline.resolve name).2 ∧ IsRight (m.resolve name).2 := by
  rw [Marked.resolve, Outline.resolve, h.groupNamed?_eq]
  by_cases hname : m.outline.nodes.contains name = true
  · rw [if_pos hname, if_pos hname]
    exact ⟨rfl, rfl, h⟩
  · rw [if_neg hname, if_neg hname]
    cases m.outline.groupNamed? name with
    | some key => exact ⟨rfl, rfl, h⟩
    | none =>
        cases (shortenings name).find? m.outline.nodes.contains with
        | some id => exact ⟨rfl, rfl, h⟩
        | none => exact ⟨rfl, rfl, h.addStub fun hmem => hname (KeyedList.contains_iff.mpr hmem)⟩

theorem IsRight.withWires (h : IsRight m) (wires : List Wire) :
    IsRight ⟨{ m.outline with wires := wires }, m.marks⟩ :=
  ⟨h.sound.congr rfl (fun _ _ => Iff.rfl) (fun _ _ => Iff.rfl) h.sound.nodes h.sound.distinct,
    h.marks⟩

theorem addEdge_eq (m : Marked) (e : Edge) :
    m.addEdge e =
      let after := ((m.resolve e.source).2.resolve e.target).2
      ⟨{ after.outline with wires := after.outline.wires ++ [⟨after.outline.wires.length, e,
        (m.resolve e.source).1, ((m.resolve e.source).2.resolve e.target).1⟩] }, after.marks⟩ := by
  unfold Marked.addEdge
  rfl

theorem IsRight.addEdge (h : IsRight m) (e : Edge) :
    (m.addEdge e).outline = m.outline.addEdge e ∧ IsRight (m.addEdge e) := by
  obtain ⟨hsource, houtline, hright⟩ := h.resolve e.source
  obtain ⟨htarget, houtline', hright'⟩ := hright.resolve e.target
  rw [houtline] at htarget houtline'
  rw [addEdge_eq, Outline.addEdge_eq, ← houtline', ← htarget, ← hsource]
  exact ⟨rfl, hright'.withWires _⟩

theorem IsRight.foldl (h : IsRight m) (edges : List Edge) :
    (edges.foldl Marked.addEdge m).outline = edges.foldl Outline.addEdge m.outline ∧
      IsRight (edges.foldl Marked.addEdge m) := by
  induction edges generalizing m with
  | nil => exact ⟨rfl, h⟩
  | cons e es ih =>
      obtain ⟨houtline, hright⟩ := h.addEdge e
      rw [List.foldl_cons, List.foldl_cons, ← houtline]
      exact ih hright

theorem IsRight.members_eq (h : IsRight m) (key : String) :
    m.members key = m.outline.members key := by
  rw [members, Outline.members]
  cases hc : m.outline.containers.get? key with
  | none => rw [container, hc]; rfl
  | some c =>
      rw [container_eq hc]
      refine congrArg Except.ok (List.filter_congr fun e he => ?_)
      cases e with
      | node id => rfl
      | group k =>
          have hheld : m.outline.Holds key (.group k) := ⟨c, hc, he⟩
          exact h.marks k (hheld.group_mem_keys h.sound)

/-- Storing the answers gives the same outline, and at its end they are still right. The induction
is on the edges, with `IsRight` as the invariant. -/
theorem exists_ofBlocks (blocks : Forest) (edges : List Edge) :
    ∃ m, ofBlocks blocks edges = .ok m ∧
      m.outline = edges.foldl Outline.addEdge (start.walk root blocks) ∧ IsRight m := by
  have h := (isOutline_walk blocks).sound
  obtain ⟨marks, hmarks, hsets⟩ := h.mark h.root_mem (Nat.le_add_left _ _) .empty
  have hright : IsRight ⟨start.walk root blocks, marks⟩ := by
    refine ⟨h, fun k hk => ?_⟩
    have hcovers : (start.walk root blocks).Covers (.group root) (.group k) := by
      by_cases hroot : k = root
      · exact Or.inl (by rw [hroot])
      · obtain ⟨p, hp⟩ := h.exists_holds hk hroot
        obtain ⟨ps, hps⟩ := hp.exists_chain
        exact Or.inr ⟨root, rfl, _, hps, h.root_mem_chain hps⟩
    rw [isMarked, hsets.set k hcovers, Option.getD_some]
  obtain ⟨houtline, hright⟩ := hright.foldl edges
  exact ⟨_, bind_of_eq_ok hmarks, houtline, hright⟩

end Marked

end Outline

end Schematic
