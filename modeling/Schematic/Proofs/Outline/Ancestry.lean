import Mathlib.Data.List.Nodup
import Schematic.Proofs.Outline.Queries

/-!
# Where two endpoints meet

Two endpoints of the drawing have containers in common, and the deepest of these is where an edge
between them is drawn. To find it and what to draw there, the home of an endpoint is all that is
asked, over and over: the homes up to the root are the way up (`Outline.Rises`), and a loop that
stops below a container finds its member (`Outline.Climbs`). The loop ends exactly for the
containers on the way up (`Sound.wayUp`), and two endpoints end up in one member exactly if they are
the same or one lies in the other (`Sound.meet`).
-/

namespace Schematic

namespace Outline

variable {o : Outline} {key p q k : String} {ks as bs : List String} {a b e x y : Endpoint}

/-! ## Homes -/

/-- The way up: the home of an endpoint, the home of this container, and so on up to the root. -/
inductive Rises (o : Outline) : Endpoint → List String → Prop
  | root {e : Endpoint} (hhome : o.home e = .ok root) : Rises o e [root]
  | step {e : Endpoint} {k : String} {ks : List String} (hhome : o.home e = .ok k) (hk : k ≠ root)
      (h : Rises o (.group k) ks) : Rises o e (k :: ks)

/-- A loop: as long as the home of the endpoint is not the container `key`, go on with the home. It
ends with the endpoint `x`. -/
inductive Climbs (o : Outline) (key : String) : (e x : Endpoint) → Prop
  | done {e : Endpoint} (hhome : o.home e = .ok key) : Climbs o key e e
  | step {e x : Endpoint} {k : String} (hhome : o.home e = .ok k) (hk : k ≠ key)
      (h : Climbs o key (.group k) x) : Climbs o key e x

/-- The containers around a group are the way up from it. The outline keeps them with the group, so
this is what it means that they are kept up to date. -/
theorem Sound.chain_of_around (h : Sound o) (hk : o.Around k (p :: ks)) :
    o.Chain (.group k) (p :: ks) := by
  have htail := h.around_tail hk
  exact ⟨p, ks, rfl, (h.groups p k).mpr ⟨ks, htail, hk⟩, htail⟩

theorem Sound.nodup_chain (h : Sound o) (hc : o.Chain e ks) : ks.Nodup := by
  induction ks generalizing e with
  | nil => exact List.nodup_nil
  | cons p ps ih =>
      cases ps with
      | nil => exact List.nodup_singleton p
      | cons q qs =>
          have htail := h.chain_tail hc
          exact List.nodup_cons.mpr ⟨fun hmem => h.not_below_self ⟨_, htail, hmem⟩, ih htail⟩

theorem Sound.rises (h : Sound o) (hc : o.Chain e ks) : o.Rises e ks := by
  induction ks generalizing e with
  | nil =>
      obtain ⟨p, ps, heq, -⟩ := hc
      cases heq
  | cons p ps ih =>
      obtain ⟨p', ps', heq, hp, hps⟩ := id hc
      cases heq
      have hhome := h.home_eq hp
      cases ps with
      | nil =>
          have hroot := h.root_mem_chain hc
          rw [List.mem_singleton] at hroot
          rw [← hroot] at hhome ⊢
          exact .root hhome
      | cons q qs => exact .step hhome (h.ne_root_of_around_cons hps) (ih (h.chain_tail hc))

/-! ## The loop -/

/-- The loop ends for a container on the way up, with what is found along the way up. The induction
follows the chain, one home at a time. -/
theorem Sound.climbs (h : Sound o) (hc : o.Chain e ks) (hkey : key ∈ ks) :
    o.Climbs key e (liftAlong key e ks) := by
  induction ks generalizing e with
  | nil => exact absurd hkey List.not_mem_nil
  | cons p ps ih =>
      obtain ⟨p', ps', heq, hp, -⟩ := id hc
      cases heq
      rw [liftAlong]
      split
      · next heq => exact .done (heq ▸ h.home_eq hp)
      · next hne =>
        have hmem := (List.mem_cons.mp hkey).resolve_left (Ne.symm hne)
        refine .step (h.home_eq hp) hne (ih ?_ hmem)
        cases ps with
        | nil => exact absurd hmem List.not_mem_nil
        | cons q qs => exact h.chain_tail hc

theorem Sound.home_root (h : Sound o) : o.home (.group root) = .ok root := by
  obtain ⟨c, hc, heq⟩ := around_iff.mp h.around_root
  rw [home, container_eq hc]
  show Except.ok (c.enclosing.head?.getD root) = _
  rw [heq]
  rfl

/-- At the root the loop goes round for ever, for the root is its own home. As `Climbs` is
inductive, this says that no derivation begins there. -/
theorem Sound.not_climbs_root (h : Sound o) (hkey : key ≠ root) :
    ¬ o.Climbs key (.group root) x := by
  generalize he : Endpoint.group root = e
  intro hclimbs
  induction hclimbs with
  | done hhome =>
      rw [← he, h.home_root] at hhome
      cases hhome
      exact hkey rfl
  | step hhome _ _ ih =>
      rw [← he, h.home_root] at hhome
      cases hhome
      exact ih rfl

/-- So the loop ends only if it meets the container before the root. -/
theorem Sound.mem_of_climbs (h : Sound o) (hc : o.Chain e ks) (hclimbs : o.Climbs key e x) :
    key ∈ ks := by
  induction ks generalizing e with
  | nil =>
      obtain ⟨p, ps, heq, -⟩ := hc
      cases heq
  | cons p ps ih =>
      obtain ⟨p', ps', heq, hp, -⟩ := id hc
      cases heq
      cases hclimbs with
      | done hhome =>
          rw [h.home_eq hp] at hhome
          cases hhome
          exact List.mem_cons_self ..
      | step hhome hk hrest =>
          rw [h.home_eq hp] at hhome
          cases hhome
          cases ps with
          | nil =>
              have hroot := List.mem_singleton.mp (h.root_mem_chain hc)
              rw [← hroot] at hk hrest
              exact absurd hrest (h.not_climbs_root (Ne.symm hk))
          | cons q qs => exact List.mem_cons_of_mem _ (ih (h.chain_tail hc) hrest)

/-- Only one endpoint can be the end of the loop. -/
theorem Climbs.unique (hx : o.Climbs key e x) (hy : o.Climbs key e y) : x = y := by
  induction hx with
  | done hhome =>
      cases hy with
      | done => rfl
      | step hhome' hk =>
          rw [hhome] at hhome'
          cases hhome'
          exact absurd rfl hk
  | step hhome hk _ ih =>
      cases hy with
      | done hhome' =>
          rw [hhome] at hhome'
          cases hhome'
          exact absurd rfl hk
      | step hhome' _ h' =>
          rw [hhome] at hhome'
          cases hhome'
          exact ih h'

/-! ## The deepest container in common -/

/-- The container is on both ways up, and every other one that is lies around it. No depths are
compared: that one container lies around another is all that is said. -/
structure IsDeepest (o : Outline) (as bs : List String) (key : String) : Prop where
  left : key ∈ as
  right : key ∈ bs
  deepest : ∀ k, k ∈ as → k ∈ bs → k = key ∨ o.Below k (.group key)

theorem IsDeepest.symm (h : o.IsDeepest as bs key) : o.IsDeepest bs as key :=
  ⟨h.right, h.left, fun k hb ha => h.deepest k ha hb⟩

theorem Sound.isDeepest_unique (h : Sound o) (hp : o.IsDeepest as bs p)
    (hq : o.IsDeepest as bs q) : p = q := by
  rcases hp.deepest q hq.left hq.right with heq | hqp
  · exact heq.symm
  · rcases hq.deepest p hp.left hp.right with heq | hpq
    · exact heq
    · exact absurd (h.below_trans hqp hpq) h.not_below_self

/-- What comes after a container on the way up lies around it. -/
theorem Sound.below_of_chain_append (h : Sound o) {pre post : List String}
    (hc : o.Chain e (pre ++ key :: post)) (hk : k ∈ post) : o.Below k (.group key) := by
  have haround := h.around_of_chain_append hc
  cases post with
  | nil => exact absurd hk List.not_mem_nil
  | cons q qs => exact ⟨_, h.chain_of_around haround, hk⟩

theorem Sound.isDeepest_commonContainer (h : Sound o) (ha : o.Chain a as) (hb : o.Chain b bs) :
    ∃ key, o.commonContainer a b = .ok key ∧ o.IsDeepest as bs key := by
  obtain ⟨key, pre, post, hcommon, rfl, hkey, hpre⟩ := h.commonContainer_eq ha hb
  refine ⟨key, hcommon, List.mem_append_right _ (List.mem_cons_self ..), hkey, fun k hka hkb => ?_⟩
  rcases List.mem_append.mp hka with hk | hk
  · exact absurd hkb (hpre k hk)
  · rcases List.mem_cons.mp hk with rfl | hk
    · exact Or.inl rfl
    · exact Or.inr (h.below_of_chain_append ha hk)

/-- A group and something inside it meet where the group is at home: its way up is the rest of the
way up from what is inside. -/
theorem Sound.isDeepest_home (h : Sound o) (ha : o.Chain (.group k) (p :: as)) (hb : o.Chain b bs)
    (hk : o.Below k b) : o.IsDeepest (p :: as) bs p := by
  have hsub : ∀ q ∈ p :: as, q ∈ bs := by
    intro q hq
    obtain ⟨bs', hb', hq'⟩ := h.below_trans ⟨_, ha, hq⟩ hk
    rwa [h.chain_unique hb hb']
  refine ⟨List.mem_cons_self .., hsub p (List.mem_cons_self ..), fun q hq _ => ?_⟩
  rcases List.mem_cons.mp hq with rfl | hq
  · exact Or.inl rfl
  · have hchain : o.Chain (.group k) ([] ++ p :: as) := ha
    exact Or.inr (h.below_of_chain_append hchain hq)

/-! ## Members -/

theorem liftAlong_append {pre post : List String} (hpre : key ∉ pre) (hk : k ≠ key) :
    liftAlong key e (pre ++ k :: key :: post) = .group k := by
  induction pre generalizing e with
  | nil => rw [List.nil_append, liftAlong, if_neg hk, liftAlong, if_pos rfl]
  | cons q pre ih =>
      rw [List.mem_cons, not_or] at hpre
      rw [List.cons_append, liftAlong, if_neg (Ne.symm hpre.1), ih hpre.2]

/-- Only one member of a container can be the endpoint or hold it, and this is the one that is
found. -/
theorem Sound.lift_of_covers (h : Sound o) (hx : o.Holds key x) (hxe : o.Covers x e) :
    o.lift e key = .ok x := by
  rcases hxe with rfl | ⟨k, rfl, ks, hks, hk⟩
  · obtain ⟨ps, hps⟩ := hx.exists_chain
    rw [lift, h.chain_eq hps]
    show Except.ok (liftAlong key x (key :: ps)) = _
    rw [liftAlong, if_pos rfl]
  · obtain ⟨pre, post, rfl⟩ := List.append_of_mem hk
    obtain ⟨ps, -, haround⟩ := (h.groups key k).mp hx
    obtain rfl := (h.around_of_chain_append hks).unique haround
    have hnodup := List.nodup_append.mp (h.nodup_chain hks)
    have hpre : key ∉ pre := fun hmem =>
      hnodup.2.2 key hmem key (List.mem_cons_of_mem _ (List.mem_cons_self ..)) rfl
    have hne : k ≠ key := fun heq =>
      (List.nodup_cons.mp hnodup.2.1).1 (heq ▸ List.mem_cons_self ..)
    rw [lift, h.chain_eq hks]
    exact congrArg Except.ok (liftAlong_append hpre hne)

/-! ## Meeting -/

/-- The endpoint `e` is a group that encloses `f`. -/
def Contains (o : Outline) (e f : Endpoint) : Prop :=
  ∃ g, e = .group g ∧ o.encloses g f = .ok true

theorem Sound.encloses_iff_below (h : Sound o) (hc : o.Chain e ks) :
    o.encloses k e = .ok true ↔ o.Below k e := by
  obtain ⟨b, hb, hiff⟩ := h.encloses_iff (k := k) hc
  rw [hb, ← hiff]
  exact ⟨Except.ok.inj, congrArg _⟩

theorem Sound.contains_iff (h : Sound o) (hc : o.Chain e ks) :
    o.Contains x e ↔ ∃ g, x = .group g ∧ o.Below g e :=
  exists_congr fun _ => and_congr_right fun _ => h.encloses_iff_below hc

/-- What the containers `ks` are to the endpoint. The fields say the same in four ways, of which
`rises` asks the outline for homes only. -/
structure WayUp (o : Outline) (e : Endpoint) (ks : List String) : Prop where
  /-- They are the homes up to the root. -/
  chain : o.chain e = .ok ks
  rises : o.Rises e ks
  /-- They enclose the endpoint, unless the endpoint is one of them, and nothing else does. -/
  encloses : ∀ g, o.encloses g e = .ok (decide (g ∈ ks ∧ e ≠ .group g))
  /-- The loop ends for them and for nothing else. -/
  ends : ∀ key, (∃ x, o.Climbs key e x) ↔ key ∈ ks

/-- The member `x` of a container stands for the endpoint there: it is the only one that the loop
can end with, and it is the endpoint itself or has it inside. -/
structure Lifts (o : Outline) (key : String) (e x : Endpoint) : Prop where
  lift : o.lift e key = .ok x
  climbs : o.Climbs key e x
  only : ∀ y, o.Climbs key e y → y = x
  member : ∃ ms, o.members key = .ok ms ∧ x ∈ ms
  covers : x = e ∨ o.Contains x e

/-- Two endpoints with the ways up `as` and `bs` have `key` as their deepest container in common, in
which `x` and `y` stand for them. -/
structure Meet (o : Outline) (a b : Endpoint) (as bs : List String) (key : String)
    (x y : Endpoint) : Prop where
  common : o.commonContainer a b = .ok key
  mem : key ∈ as ∧ key ∈ bs
  deepest : ∀ k, k ∈ as → k ∈ bs → k = key ∨ o.encloses k (.group key) = .ok true
  left : o.Lifts key a x
  right : o.Lifts key b y
  /-- One member stands for both if they are the same or one lies in the other. -/
  same : x = y ↔ a = b ∨ o.Contains a b ∨ o.Contains b a

theorem Sound.wayUp (h : Sound o) (hc : o.Chain e ks) : o.WayUp e ks := by
  refine ⟨h.chain_eq hc, h.rises hc, fun g => ?_, fun key => ?_⟩
  · unfold encloses
    by_cases hg : e = .group g
    · have hnot : decide (g ∈ ks ∧ e ≠ .group g) = false := by simp [hg]
      rw [if_pos hg, hnot]
      rfl
    · rw [if_neg hg, h.chain_eq hc]
      show Except.ok (ks.contains g) = _
      rw [List.contains_eq_mem]
      simp [hg]
  · exact ⟨fun ⟨_, hx⟩ => h.mem_of_climbs hc hx, fun hkey => ⟨_, h.climbs hc hkey⟩⟩

theorem Sound.lifts (h : Sound o) (hs : o.Stands e) (hc : o.Chain e ks) (hkey : key ∈ ks) :
    ∃ x, o.Lifts key e x := by
  have hclimbs := h.climbs hc hkey
  obtain ⟨pre, post, rfl, hpre⟩ := List.eq_append_cons_of_mem hkey
  obtain ⟨x, hlift, hholds, hstands, hcovers⟩ := h.lift_eq hs hpre hc
  obtain ⟨ms, hms, -, hmem⟩ := h.members_eq hholds.mem_keys
  have hx : liftAlong key e (pre ++ key :: post) = x := by
    rw [lift, h.chain_eq hc] at hlift
    exact Except.ok.inj hlift
  rw [hx] at hclimbs
  have hmember := (hmem x).mpr ⟨hholds, hstands⟩
  refine ⟨x, hlift, hclimbs, fun y hy => hy.unique hclimbs, ⟨ms, hms, hmember⟩, ?_⟩
  refine hcovers.imp_right fun hbelow => (h.contains_iff hc).mpr ?_
  obtain ⟨k, -, hk⟩ := hbelow
  exact ⟨k, hk⟩

/-- A group stands for itself and for what it encloses. So an edge between the two would be a loop,
and is detached instead. -/
theorem Sound.lifts_of_contains (h : Sound o) (ha : o.Chain a as) (hb : o.Chain b bs)
    (hdeepest : o.IsDeepest as bs key) (hab : o.Contains a b) :
    o.lift a key = .ok a ∧ o.lift b key = .ok a := by
  obtain ⟨g, rfl, hbelow⟩ := (h.contains_iff hb).mp hab
  obtain ⟨p, ps, rfl, hp, hps⟩ := id ha
  obtain rfl := h.isDeepest_unique hdeepest (h.isDeepest_home ha hb hbelow)
  exact ⟨h.lift_of_covers hp (Or.inl rfl), h.lift_of_covers hp (Or.inr ⟨g, rfl, hbelow⟩)⟩

theorem Sound.meet (h : Sound o) (ha : o.Stands a) (hb : o.Stands b) (has : o.Chain a as)
    (hbs : o.Chain b bs) : ∃ key x y, o.Meet a b as bs key x y := by
  obtain ⟨key, hcommon, hdeepest⟩ := h.isDeepest_commonContainer has hbs
  obtain ⟨x, hx⟩ := h.lifts ha has hdeepest.left
  obtain ⟨y, hy⟩ := h.lifts hb hbs hdeepest.right
  refine ⟨key, x, y, hcommon, ⟨hdeepest.left, hdeepest.right⟩, fun k hka hkb => ?_, hx, hy, ?_⟩
  · refine (hdeepest.deepest k hka hkb).imp_right fun hbelow => ?_
    obtain ⟨ks, hks, -⟩ := id hbelow
    exact (h.encloses_iff_below hks).mpr hbelow
  constructor
  · -- ends of which neither lies in the other are known to have two members
    intro hxy
    refine Classical.byContradiction fun hnot => ?_
    rw [not_or, not_or, h.contains_iff hbs, h.contains_iff has] at hnot
    obtain ⟨hne, hab, hba⟩ := hnot
    obtain ⟨key', x', y', hcommon', hx', hy', -, -, -, -, hne', -⟩ := h.exists_lifts ha hb hne
      (fun k heq hk => hab ⟨k, heq, hk⟩) fun k heq hk => hba ⟨k, heq, hk⟩
    rw [hcommon] at hcommon'
    cases hcommon'
    rw [hx.lift] at hx'
    rw [hy.lift] at hy'
    cases hx'
    cases hy'
    exact hne' hxy
  · rintro (rfl | hab | hba)
    · exact Except.ok.inj (hx.lift.symm.trans hy.lift)
    · obtain ⟨hla, hlb⟩ := h.lifts_of_contains has hbs hdeepest hab
      exact (Except.ok.inj (hx.lift.symm.trans hla)).trans
        (Except.ok.inj (hlb.symm.trans hy.lift))
    · obtain ⟨hlb, hla⟩ := h.lifts_of_contains hbs has hdeepest.symm hba
      exact (Except.ok.inj (hx.lift.symm.trans hla)).trans
        (Except.ok.inj (hlb.symm.trans hy.lift))

end Outline

end Schematic
