import Schematic.Proofs.Outline.Chains

/-!
# Every question has an answer

In a sound outline no look-up fails. Of an endpoint that takes part in the drawing
(`Outline.Stands`) the chain is found, and with it what encloses it, the smallest container it
shares with another endpoint, and the member of that container it lies in. Two endpoints of which
neither lies in the other lie in two different members of a container (`Sound.exists_lifts`).
-/

namespace Schematic

namespace Outline

variable {o : Outline} {key p k j id : String} {ks as bs : List String} {e f : Endpoint}

/-- The endpoint takes part in the drawing: it is a node, or a group that holds one. The root is a
container but nothing that an edge could end at. -/
def Stands (o : Outline) : Endpoint → Prop
  | .node id => id ∈ o.nodes.keys
  | .group k => k ≠ root ∧ k ∈ o.populated

/-- The endpoint `x` is `e` or a group that `e` lies in. So the box of `x` has that of `e` inside.
-/
def Covers (o : Outline) (x e : Endpoint) : Prop := x = e ∨ ∃ k, x = .group k ∧ o.Below k e

theorem Sound.holds_home (h : Sound o) {n : Node} (hn : o.nodes.get? id = some n) :
    o.Holds n.home (.node id) :=
  (h.nodes n.home id).mpr ⟨n, hn, rfl⟩

theorem Sound.stands_node (h : Sound o) (hp : o.Holds p (.node id)) : o.Stands (.node id) := by
  obtain ⟨n, hn, -⟩ := (h.nodes p id).mp hp
  exact KeyedList.mem_keys_of_get? hn

theorem Sound.ne_root_of_holds (h : Sound o) (hp : o.Holds p (.group k)) : k ≠ root := by
  obtain ⟨ps, -, hk⟩ := (h.groups p k).mp hp
  exact h.ne_root_of_around_cons hk

/-- Every group but the root is a member of a container. -/
theorem Sound.exists_holds (h : Sound o) (hk : k ∈ o.containers.keys) (hroot : k ≠ root) :
    ∃ p, o.Holds p (.group k) := by
  obtain ⟨ks, hks⟩ := exists_around_iff.mpr hk
  obtain ⟨p, ps, rfl, hp, -⟩ := h.parent k ks hks hroot
  exact ⟨p, (h.groups p k).mpr ⟨ps, hp, hks⟩⟩

theorem Below.mem_keys (h : Sound o) (hb : o.Below k e) : k ∈ o.containers.keys := by
  obtain ⟨ks, hc, hk⟩ := hb
  obtain ⟨pre, post, rfl⟩ := List.append_of_mem hk
  exact (h.around_of_chain_append hc).mem_keys

theorem Sound.populated_subset (h : Sound o) (hk : k ∈ o.populated) : k ∈ o.containers.keys := by
  obtain ⟨id, hid⟩ := h.mem_populated.mp hk
  exact hid.mem_keys h

theorem Sound.exists_chain (h : Sound o) (he : o.Stands e) : ∃ ks, o.Chain e ks := by
  cases e with
  | node id =>
      obtain ⟨n, hn⟩ := KeyedList.mem_keys_iff.mp he
      obtain ⟨ps, hps⟩ := (h.holds_home hn).exists_chain
      exact ⟨_, hps⟩
  | group k =>
      obtain ⟨p, hp⟩ := h.exists_holds (h.populated_subset he.2) he.1
      obtain ⟨ps, hps⟩ := hp.exists_chain
      exact ⟨_, hps⟩

/-- Everything that takes part in the drawing lies in the root, which ends every chain. -/
theorem Sound.below_root (h : Sound o) (he : o.Stands e) : o.Below root e := by
  obtain ⟨ks, hks⟩ := h.exists_chain he
  exact ⟨ks, hks, h.root_mem_chain hks⟩

/-- To lie in something that lies in a container is to lie in the container. -/
theorem Sound.below_trans (h : Sound o) (hk : o.Below k (.group j)) (hj : o.Below j e) :
    o.Below k e := by
  obtain ⟨ks, hks, hmem⟩ := hk
  obtain ⟨ls, hls, hmem'⟩ := hj
  obtain ⟨pre, post, rfl⟩ := List.append_of_mem hmem'
  obtain ⟨q, qs, rfl, hq, hqs⟩ := hks
  obtain ⟨rs, hrs, hj⟩ := (h.groups q j).mp hq
  obtain rfl := hqs.unique hrs
  obtain rfl := (h.around_of_chain_append hls).unique hj
  exact ⟨_, hls, List.mem_append_right _ (List.mem_cons_of_mem _ hmem)⟩

/-- A container in which something stands is populated: what stands there is a node or a group that
holds one. -/
theorem Sound.populated_of_below (h : Sound o) (he : o.Stands e) (hb : o.Below k e) :
    k ∈ o.populated := by
  cases e with
  | node id => exact h.mem_populated.mpr ⟨id, hb⟩
  | group j =>
      obtain ⟨id, hid⟩ := h.mem_populated.mp he.2
      exact h.mem_populated.mpr ⟨id, h.below_trans hb hid⟩

/-! ## Looking up -/

theorem container_eq {c : Container} (hc : o.containers.get? k = some c) :
    o.container k = .ok c := by rw [container, hc]

theorem node_eq {n : Node} (hn : o.nodes.get? id = some n) : o.node id = .ok n := by
  rw [node, hn]

theorem Sound.home_eq (h : Sound o) (hp : o.Holds p e) : o.home e = .ok p := by
  cases e with
  | node id =>
      obtain ⟨n, hn, rfl⟩ := (h.nodes p id).mp hp
      rw [home, node_eq hn]
      rfl
  | group k =>
      obtain ⟨ps, -, hk⟩ := (h.groups p k).mp hp
      obtain ⟨c, hc, heq⟩ := around_iff.mp hk
      rw [home, container_eq hc]
      show Except.ok (c.enclosing.head?.getD root) = _
      rw [heq]
      rfl

theorem Sound.chain_eq (h : Sound o) (hc : o.Chain e ks) : o.chain e = .ok ks := by
  obtain ⟨p, ps, rfl, hp, hps⟩ := hc
  obtain ⟨c, hc, rfl⟩ := around_iff.mp hps
  rw [chain, h.home_eq hp]
  show (do return p :: (← o.container p).enclosing) = _
  rw [container_eq hc]
  rfl

/-- The members of a container that take part in the drawing. They are found for every container,
and none is among them twice. -/
theorem Sound.members_eq (h : Sound o) (hp : p ∈ o.containers.keys) :
    ∃ ms, o.members p = .ok ms ∧ ms.Nodup ∧ ∀ e, e ∈ ms ↔ o.Holds p e ∧ o.Stands e := by
  obtain ⟨c, hc⟩ := KeyedList.mem_keys_iff.mp hp
  refine ⟨c.members.filter (takesSpace o.populated), ?_, ?_, ?_⟩
  · rw [members, container_eq hc]
    rfl
  · exact (h.distinct p c hc).filter _
  · intro e
    have hheld : e ∈ c.members ↔ o.Holds p e := by
      constructor
      · exact fun he => ⟨c, hc, he⟩
      · rintro ⟨d, hd, he⟩
        rw [hc] at hd
        cases hd
        exact he
    rw [List.mem_filter, hheld]
    refine and_congr_right fun hholds => ?_
    cases e with
    | node id => exact ⟨fun _ => h.stands_node hholds, fun _ => rfl⟩
    | group k =>
        show o.populated.contains k = true ↔ k ≠ root ∧ k ∈ o.populated
        rw [List.contains_iff_mem]
        exact ⟨fun hk => ⟨h.ne_root_of_holds hholds, hk⟩, And.right⟩

/-- A container has members in the drawing if and only if it is populated. A node further down lies
in one of its groups, and that group is such a member then. -/
theorem Sound.populated_iff_members (h : Sound o) {members : List Endpoint}
    (hmem : ∀ e, e ∈ members ↔ o.Holds key e ∧ o.Stands e) : key ∈ o.populated ↔ members ≠ [] := by
  constructor
  · intro hpop hnil
    obtain ⟨id, hid⟩ := h.mem_populated.mp hpop
    have hempty : ∀ e, ¬ (o.Holds key e ∧ o.Stands e) := fun e he => by
      have := (hmem e).mpr he
      rw [hnil] at this
      cases this
    rcases h.holds_or_below hid with hheld | ⟨j, hheld, hj⟩
    · exact hempty _ ⟨hheld, h.stands_node hheld⟩
    · exact hempty _ ⟨hheld, h.ne_root_of_holds hheld, h.mem_populated.mpr ⟨id, hj⟩⟩
  · intro hne
    obtain ⟨e, he⟩ := List.exists_mem_of_ne_nil members hne
    obtain ⟨hheld, hstands⟩ := (hmem e).mp he
    exact h.populated_of_below hstands hheld.below

/-- What takes part in the drawing and lies in a container is a member of it that takes part, or
lies in one. -/
theorem Sound.below_iff_covers (h : Sound o) {members : List Endpoint}
    (hmem : ∀ e, e ∈ members ↔ o.Holds key e ∧ o.Stands e) (he : o.Stands e) :
    o.Below key e ↔ ∃ x ∈ members, o.Covers x e := by
  constructor
  · intro hbelow
    rcases h.holds_or_below hbelow with hheld | ⟨j, hheld, hj⟩
    · exact ⟨e, (hmem e).mpr ⟨hheld, he⟩, Or.inl rfl⟩
    · have hstands : o.Stands (.group j) := ⟨h.ne_root_of_holds hheld, h.populated_of_below he hj⟩
      exact ⟨.group j, (hmem _).mpr ⟨hheld, hstands⟩, Or.inr ⟨j, rfl, hj⟩⟩
  · rintro ⟨x, hx, rfl | ⟨j, rfl, hj⟩⟩
    · exact ((hmem x).mp hx).1.below
    · exact h.below_of_holds hj ((hmem _).mp hx).1

/-- A walk that takes from each member what is in it takes what lies in the container. -/
theorem Sound.exists_covers_iff (h : Sound o) {members : List Endpoint}
    (hmem : ∀ e, e ∈ members ↔ o.Holds key e ∧ o.Stands e) {P : Prop} (hP : P → o.Stands e) :
    (∃ x ∈ members, P ∧ o.Covers x e) ↔ P ∧ o.Below key e := by
  constructor
  · rintro ⟨x, hx, hp, hcovers⟩
    exact ⟨hp, (h.below_iff_covers hmem (hP hp)).mpr ⟨x, hx, hcovers⟩⟩
  · rintro ⟨hp, hbelow⟩
    obtain ⟨x, hx, hcovers⟩ := (h.below_iff_covers hmem (hP hp)).mp hbelow
    exact ⟨x, hx, hp, hcovers⟩

theorem Sound.of_members (h : Sound o) (hp : p ∈ o.containers.keys) {ms : List Endpoint}
    (hms : o.members p = .ok ms) : ms.Nodup ∧ ∀ e, e ∈ ms ↔ o.Holds p e ∧ o.Stands e := by
  obtain ⟨ms', hms', hspec⟩ := h.members_eq hp
  rw [hms] at hms'
  cases hms'
  exact hspec

theorem Sound.encloses_iff (h : Sound o) (hc : o.Chain e ks) :
    ∃ b, o.encloses k e = .ok b ∧ (b = true ↔ o.Below k e) := by
  unfold encloses
  split
  · next heq =>
    subst heq
    refine ⟨false, rfl, ?_⟩
    simp [h.not_below_self]
  · refine ⟨ks.contains k, by rw [h.chain_eq hc]; rfl, ?_⟩
    rw [List.contains_iff_mem]
    constructor
    · exact fun hk => ⟨ks, hc, hk⟩
    · rintro ⟨ls, hls, hk⟩
      rw [h.chain_unique hc hls]
      exact hk

/-! ## Common containers -/

/-- The smallest common container is the first one on the way up from one endpoint that is also on
the way up from the other. -/
theorem Sound.commonContainer_eq (h : Sound o) (he : o.Chain e as) (hf : o.Chain f bs) :
    ∃ key pre post, o.commonContainer e f = .ok key ∧ as = pre ++ key :: post ∧ key ∈ bs ∧
      ∀ k ∈ pre, k ∉ bs := by
  have hcommon : o.commonContainer e f = .ok ((as.find? bs.contains).getD root) := by
    rw [commonContainer, h.chain_eq he, h.chain_eq hf]
    rfl
  cases hfind : as.find? bs.contains with
  | none =>
      have hnone := List.find?_eq_none.mp hfind root (h.root_mem_chain he)
      exact absurd (List.contains_iff_mem.mpr (h.root_mem_chain hf)) hnone
  | some key =>
      obtain ⟨hkey, pre, post, hsplit, hpre⟩ := List.find?_eq_some_iff_append.mp hfind
      refine ⟨key, pre, post, by rw [hcommon, hfind, Option.getD_some], hsplit,
        List.contains_iff_mem.mp hkey, fun k hk hmem => ?_⟩
      have hnot := hpre k hk
      rw [List.contains_iff_mem.mpr hmem] at hnot
      cases hnot

/-- The member of a container in which an endpoint of the drawing lies: the endpoint itself or the
group that is passed last on the way up to the container. -/
theorem Sound.lift_eq (h : Sound o) (hs : o.Stands e) {pre post : List String} (hkey : key ∉ pre)
    (hc : o.Chain e (pre ++ key :: post)) :
    ∃ x, o.lift e key = .ok x ∧ o.Holds key x ∧ o.Stands x ∧
      (x = e ∨ ∃ k ∈ pre, x = .group k ∧ o.Below k e) := by
  refine ⟨liftAlong key e (pre ++ key :: post), by rw [lift, h.chain_eq hc]; rfl, ?_⟩
  obtain ⟨hholds, ⟨-, heq⟩ | ⟨k, hk, heq⟩⟩ := h.holds_liftAlong hkey hc
  · rw [heq] at hholds ⊢
    exact ⟨hholds, hs, Or.inl rfl⟩
  · rw [heq] at hholds ⊢
    have hbelow : o.Below k e := ⟨_, hc, List.mem_append_left _ hk⟩
    exact ⟨hholds, ⟨h.ne_root_of_holds hholds, h.populated_of_below hs hbelow⟩,
      Or.inr ⟨k, hk, rfl, hbelow⟩⟩

/-- Two endpoints that are not one in the other lie in two different members of the smallest
container that both are in. -/
theorem Sound.exists_lifts (h : Sound o) (he : o.Stands e) (hf : o.Stands f) (hne : e ≠ f)
    (hef : ∀ k, e = .group k → ¬ o.Below k f) (hfe : ∀ k, f = .group k → ¬ o.Below k e) :
    ∃ key x y, o.commonContainer e f = .ok key ∧ o.lift e key = .ok x ∧ o.lift f key = .ok y ∧
      o.Holds key x ∧ o.Holds key y ∧ o.Stands x ∧ o.Stands y ∧ x ≠ y ∧
      o.Covers x e ∧ o.Covers y f := by
  obtain ⟨as, has⟩ := h.exists_chain he
  obtain ⟨bs, hbs⟩ := h.exists_chain hf
  obtain ⟨key, pre, post, hcommon, rfl, hkey, hpre⟩ := h.commonContainer_eq has hbs
  obtain ⟨pre', post', rfl, hkey'⟩ := List.eq_append_cons_of_mem hkey
  obtain ⟨x, hliftx, hx, hxs, hxcases⟩ := h.lift_eq he (fun hmem => hpre key hmem hkey) has
  obtain ⟨y, hlifty, hy, hys, hycases⟩ := h.lift_eq hf hkey' hbs
  refine ⟨key, x, y, hcommon, hliftx, hlifty, hx, hy, hxs, hys, ?_, ?_, ?_⟩
  · rintro rfl
    rcases hxcases with rfl | ⟨k, hk, rfl, hke⟩
    · rcases hycases with rfl | ⟨k, -, rfl, hkf⟩
      · exact hne rfl
      · exact hef k rfl hkf
    · rcases hycases with rfl | ⟨j, hj, heq, -⟩
      · exact hfe k rfl hke
      · cases heq
        exact hpre k hk (List.mem_append_left _ hj)
  · exact hxcases.imp_right fun ⟨k, _, hk⟩ => ⟨k, hk⟩
  · exact hycases.imp_right fun ⟨k, _, hk⟩ => ⟨k, hk⟩

end Outline

end Schematic
