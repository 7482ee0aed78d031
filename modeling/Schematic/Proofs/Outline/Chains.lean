import Schematic.Proofs.Outline.Sound

/-!
# The way up

The containers that an endpoint is in form a chain from its own container to the root
(`Outline.Chain`), and an endpoint lies below exactly the containers of its chain (`Outline.Below`).
In a sound outline the questions of the model are answered by this chain: what encloses an endpoint,
which member of an outer container it lies in (`Sound.holds_liftAlong`), and which containers hold a
node (`Sound.mem_populated`).
-/

namespace Schematic

namespace Outline

variable {o : Outline} {key p k name id : String} {ks ps : List String} {e f : Endpoint}

/-- The endpoint is a member of the first container of the list, and the others are those around
it. -/
def Chain (o : Outline) (e : Endpoint) (ks : List String) : Prop :=
  ∃ p ps, ks = p :: ps ∧ o.Holds p e ∧ o.Around p ps

/-- The endpoint lies in the container `k`, at some depth: the container is somewhere on its way up.
A group does not lie in itself. -/
def Below (o : Outline) (k : String) (e : Endpoint) : Prop := ∃ ks, o.Chain e ks ∧ k ∈ ks

/-! ## Chains -/

/-- A member is in one container only, for the outline notes one home for it, and what is held is at
home there. -/
theorem Sound.holds_unique (h : Sound o) (hp : o.Holds p e) (hk : o.Holds k e) : p = k := by
  cases e with
  | node id =>
      obtain ⟨n, hn, rfl⟩ := (h.nodes p id).mp hp
      obtain ⟨m, hm, rfl⟩ := (h.nodes k id).mp hk
      rw [hn] at hm
      cases hm
      rfl
  | group key =>
      obtain ⟨ps, -, hps⟩ := (h.groups p key).mp hp
      obtain ⟨qs, -, hqs⟩ := (h.groups k key).mp hk
      cases hps.unique hqs
      rfl

theorem Sound.chain_unique (h : Sound o) {ls : List String} (hks : o.Chain e ks)
    (hls : o.Chain e ls) : ks = ls := by
  obtain ⟨p, ps, rfl, hp, hps⟩ := hks
  obtain ⟨q, qs, rfl, hq, hqs⟩ := hls
  obtain rfl := h.holds_unique hp hq
  rw [hps.unique hqs]

theorem Holds.exists_chain (h : o.Holds p e) : ∃ ps, o.Chain e (p :: ps) := by
  obtain ⟨ps, hps⟩ := exists_around_iff.mpr h.mem_keys
  exact ⟨ps, p, ps, rfl, h, hps⟩

theorem Sound.around_tail (h : Sound o) (hk : o.Around k (p :: ps)) : o.Around p ps := by
  obtain ⟨q, qs, heq, hq, -⟩ := h.parent k _ hk (h.ne_root_of_around_cons hk)
  cases heq
  exact hq

/-- The way up from a container that an endpoint is in is the way up from the endpoint. -/
theorem Sound.chain_tail (h : Sound o) (hc : o.Chain e (p :: k :: ks)) :
    o.Chain (.group p) (k :: ks) := by
  obtain ⟨q, qs, heq, -, hq⟩ := hc
  cases heq
  have htail := h.around_tail hq
  exact ⟨k, ks, rfl, (h.groups k p).mpr ⟨ks, htail, hq⟩, htail⟩

theorem Sound.around_of_chain_append (h : Sound o) {pre post : List String}
    (hc : o.Chain e (pre ++ k :: post)) : o.Around k post := by
  induction pre generalizing e with
  | nil =>
      obtain ⟨q, qs, heq, -, hq⟩ := hc
      cases heq
      exact hq
  | cons p pre ih =>
      cases pre with
      | nil => exact ih (h.chain_tail hc)
      | cons q pre => exact ih (h.chain_tail hc)

theorem Sound.root_mem_chain (h : Sound o) (hc : o.Chain e ks) : root ∈ ks := by
  induction ks generalizing e with
  | nil =>
      obtain ⟨p, ps, heq, -⟩ := hc
      cases heq
  | cons p ps ih =>
      by_cases hp : p = root
      · rw [hp]
        exact List.mem_cons_self ..
      · obtain ⟨q, qs, heq, hheld, hq⟩ := hc
        cases heq
        obtain ⟨r, rs, rfl, -⟩ := h.parent p ps hq hp
        exact List.mem_cons_of_mem _ (ih (h.chain_tail ⟨p, r :: rs, rfl, hheld, hq⟩))

/-- The containers around a group come before it in the outline. They had to be there when the group
was added, and new containers are added at the end. -/
theorem Sound.idxOf_lt_of_chain (h : Sound o) (hc : o.Chain (.group k) ks) :
    ∀ p ∈ ks, o.containers.keys.idxOf p < o.containers.keys.idxOf k := by
  induction ks generalizing k with
  | nil => exact fun p hp => absurd hp List.not_mem_nil
  | cons q qs ih =>
      obtain ⟨q', qs', heq, hq, -⟩ := id hc
      cases heq
      obtain ⟨ps, -, hk⟩ := (h.groups q k).mp hq
      obtain ⟨r, rs, heq, -, hlt⟩ := h.parent k _ hk (h.ne_root_of_around_cons hk)
      cases heq
      intro p hp
      rcases List.mem_cons.mp hp with rfl | hp
      · exact hlt
      · cases qs with
        | nil => cases hp
        | cons r rs => exact Nat.lt_trans (ih (h.chain_tail hc) p hp) hlt

theorem Sound.not_below_self (h : Sound o) : ¬ o.Below k (.group k) := by
  rintro ⟨ks, hc, hk⟩
  exact Nat.lt_irrefl _ (h.idxOf_lt_of_chain hc k hk)

/-! ## Lifting -/

/-- On the way up from an endpoint to a container that it is in, the last stop is a member of the
container: the endpoint itself if there is no stop, else the group that was passed last. -/
theorem Sound.holds_liftAlong (h : Sound o) {pre post : List String} (hkey : key ∉ pre)
    (hc : o.Chain e (pre ++ key :: post)) :
    o.Holds key (liftAlong key e (pre ++ key :: post)) ∧
      (pre = [] ∧ liftAlong key e (pre ++ key :: post) = e ∨
        ∃ k ∈ pre, liftAlong key e (pre ++ key :: post) = .group k) := by
  induction pre generalizing e with
  | nil =>
      obtain ⟨q, qs, heq, hq, -⟩ := hc
      cases heq
      rw [List.nil_append, liftAlong, if_pos rfl]
      exact ⟨hq, Or.inl ⟨rfl, rfl⟩⟩
  | cons p pre ih =>
      rw [List.mem_cons, not_or] at hkey
      have hlift : liftAlong key e (p :: pre ++ key :: post) =
          liftAlong key (.group p) (pre ++ key :: post) := by
        rw [List.cons_append, liftAlong, if_neg (Ne.symm hkey.1)]
      have htail : o.Chain (.group p) (pre ++ key :: post) := by
        cases pre with
        | nil => exact h.chain_tail hc
        | cons q pre => exact h.chain_tail hc
      obtain ⟨hholds, hcases⟩ := ih hkey.2 htail
      rw [hlift]
      refine ⟨hholds, Or.inr ?_⟩
      rcases hcases with ⟨-, heq⟩ | ⟨k, hk, heq⟩
      · exact ⟨p, List.mem_cons_self .., heq⟩
      · exact ⟨k, List.mem_cons_of_mem _ hk, heq⟩

/-- What lies below a container is a member of it or lies below a group in it. -/
theorem Sound.holds_or_below (h : Sound o) (hb : o.Below k e) :
    o.Holds k e ∨ ∃ j, o.Holds k (.group j) ∧ o.Below j e := by
  obtain ⟨ks, hc, hk⟩ := hb
  obtain ⟨pre, post, rfl, hnot⟩ := List.eq_append_cons_of_mem hk
  obtain ⟨hholds, ⟨-, heq⟩ | ⟨j, hj, heq⟩⟩ := h.holds_liftAlong hnot hc
  · rw [heq] at hholds
    exact Or.inl hholds
  · rw [heq] at hholds
    exact Or.inr ⟨j, hholds, _, hc, List.mem_append_left _ hj⟩

theorem Holds.below (hp : o.Holds p e) : o.Below p e := by
  obtain ⟨ps, hps⟩ := hp.exists_chain
  exact ⟨_, hps, List.mem_cons_self ..⟩

/-- What lies below a group lies below what the group lies in. -/
theorem Sound.below_of_holds (h : Sound o) (hk : o.Below k e) (hp : o.Holds p (.group k)) :
    o.Below p e := by
  obtain ⟨ks, hc, hmem⟩ := hk
  obtain ⟨pre, post, rfl⟩ := List.append_of_mem hmem
  have hpost := h.around_of_chain_append hc
  obtain ⟨ps, -, hps⟩ := (h.groups p k).mp hp
  obtain rfl := hpost.unique hps
  exact ⟨_, hc, List.mem_append_right _ (List.mem_cons_of_mem _ (List.mem_cons_self ..))⟩

/-! ## Populated containers -/

theorem mem_of_idxOf_lt {keys pre post : List String} (h : keys = pre ++ k :: post)
    (hnodup : keys.Nodup) :
    (∀ p, keys.idxOf p < keys.idxOf k → p ∈ pre) ∧
      ∀ p ∈ keys, keys.idxOf k < keys.idxOf p → p ∈ post := by
  subst h
  have hk : k ∉ pre := fun hmem =>
    (List.nodup_append.mp hnodup).2.2 k hmem k (List.mem_cons_self ..) rfl
  have hidx : (pre ++ k :: post).idxOf k = pre.length := by
    rw [List.idxOf_append_of_notMem hk, List.idxOf_cons_self, Nat.add_zero]
  rw [hidx]
  constructor
  · intro p hlt
    refine Classical.byContradiction fun hnot => ?_
    rw [List.idxOf_append_of_notMem hnot] at hlt
    omega
  · intro p hmem hlt
    rcases List.mem_append.mp hmem with hmem | hmem
    · rw [List.idxOf_append_of_mem hmem] at hlt
      have := List.idxOf_lt_length_iff.mpr hmem
      omega
    · rcases List.mem_cons.mp hmem with rfl | hmem
      · rw [hidx] at hlt
        omega
      · exact hmem

/-- A container comes before the groups in it. -/
theorem Sound.idxOf_lt_of_holds (h : Sound o) (hp : o.Holds p (.group k)) :
    o.containers.keys.idxOf p < o.containers.keys.idxOf k := by
  obtain ⟨ps, hps⟩ := hp.exists_chain
  exact h.idxOf_lt_of_chain hps p (List.mem_cons_self ..)

theorem Holds.group_mem_keys (h : Sound o) (hp : o.Holds p (.group k)) :
    k ∈ o.containers.keys := by
  obtain ⟨ps, -, hk⟩ := (h.groups p k).mp hp
  exact hk.mem_keys

/-- What holds of a container as soon as it holds of the groups in it holds of all containers. The
groups in a container come behind it, so the induction goes over the containers from the last one
on. -/
theorem Sound.inner_induction (h : Sound o) {motive : (p : String) → p ∈ o.containers.keys → Prop}
    (step : ∀ p hp, (∀ k (hk : o.Holds p (.group k)), motive k (hk.group_mem_keys h)) → motive p hp)
    (p : String) (hp : p ∈ o.containers.keys) : motive p hp := by
  generalize hn : o.containers.keys.length - o.containers.keys.idxOf p = n
  induction n using Nat.strongRecOn generalizing p with
  | ind n ih =>
      refine step p hp fun k hk => ih _ ?_ k _ rfl
      have hlt := h.idxOf_lt_of_holds hk
      have hlength := List.idxOf_lt_length_iff.mpr (hk.group_mem_keys h)
      omega

/-- Going through the containers backwards, it is the turn of a container: those behind it are done,
and the groups in any of these are done too. -/
structure Turn (o : Outline) (key : String) (done : List String) : Prop where
  mem_keys : ∀ p ∈ key :: done, p ∈ o.containers.keys
  fresh : key ∉ done
  inner : ∀ p ∈ key :: done, ∀ k, o.Holds p (.group k) → k ∈ done

theorem Sound.turn (h : Sound o) {todo done : List String}
    (hkeys : o.containers.keys = todo ++ key :: done) : o.Turn key done := by
  have hnodup := o.containers.nodup_keys
  refine ⟨fun p hp => ?_, ?_, fun p hp k hk => ?_⟩
  · rw [hkeys]
    exact List.mem_append_right _ hp
  · rw [hkeys] at hnodup
    exact (List.nodup_cons.mp (List.nodup_append.mp hnodup).2.1).1
  · rcases List.mem_cons.mp hp with rfl | hp
    · exact (mem_of_idxOf_lt hkeys hnodup).2 k (hk.group_mem_keys h) (h.idxOf_lt_of_holds hk)
    · obtain ⟨pre, post, rfl⟩ := List.append_of_mem hp
      have hkeys' : o.containers.keys = (todo ++ key :: pre) ++ p :: post := by
        rw [hkeys, List.append_assoc]
        rfl
      have hpost := (mem_of_idxOf_lt hkeys' hnodup).2 k (hk.group_mem_keys h)
        (h.idxOf_lt_of_holds hk)
      exact List.mem_append_right _ (List.mem_cons_of_mem _ hpost)

theorem Turn.ne (h : o.Turn key ks) {p : String} (hp : p ∈ key :: ks) (hk : o.Holds p (.group k)) :
    k ≠ key := fun heq => h.fresh (heq ▸ h.inner p hp k hk)

/-- When it is the turn of a container and of those behind it the populated ones are known, then one
of its members takes up space exactly if a node lies in it. -/
theorem Sound.any_takesSpace_iff (h : Sound o) {c : Container} {known done : List String}
    (hturn : o.Turn key done) (hc : o.containers.get? key = some c)
    (hknown : ∀ k, k ∈ known ↔ k ∈ done ∧ ∃ id, o.Below k (.node id)) :
    c.members.any (takesSpace known) = true ↔ ∃ id, o.Below key (.node id) := by
  rw [List.any_eq_true]
  constructor
  · rintro ⟨m, hm, hspace⟩
    have hheld : o.Holds key m := ⟨c, hc, hm⟩
    cases m with
    | node id => exact ⟨id, hheld.below⟩
    | group k =>
        obtain ⟨-, id, hid⟩ := (hknown k).mp (List.contains_iff_mem.mp hspace)
        exact ⟨id, h.below_of_holds hid hheld⟩
  · rintro ⟨id, hid⟩
    have hmem : ∀ e, o.Holds key e → e ∈ c.members := by
      rintro e ⟨d, hd, he⟩
      rw [hc] at hd
      cases hd
      exact he
    rcases h.holds_or_below hid with hheld | ⟨k, hheld, hk⟩
    · exact ⟨_, hmem _ hheld, rfl⟩
    · have hdone := hturn.inner key (List.mem_cons_self ..) k hheld
      exact ⟨_, hmem _ hheld, List.contains_iff_mem.mpr ((hknown k).mpr ⟨hdone, id, hk⟩)⟩

theorem Sound.mem_foldr_populated (h : Sound o) {pre post : List (String × Container)}
    (hsplit : o.containers.entries = pre ++ post) :
    ∀ k, k ∈ post.foldr (fun e known =>
      if e.2.members.any (takesSpace known) then e.1 :: known else known) [] ↔
        k ∈ post.map Prod.fst ∧ ∃ id, o.Below k (.node id) := by
  induction post generalizing pre with
  | nil => simp
  | cons e post ih =>
      intro k
      obtain ⟨p, c⟩ := e
      have hrest := @ih (pre ++ [(p, c)]) (by rw [hsplit, List.append_assoc]; rfl)
      have hkeys : o.containers.keys = pre.map Prod.fst ++ p :: post.map Prod.fst := by
        rw [KeyedList.keys, hsplit, List.map_append, List.map_cons]
      have hget : o.containers.get? p = some c := by
        rw [KeyedList.get?_eq_some_iff, hsplit]
        exact List.mem_append_right _ (List.mem_cons_self ..)
      have hany := h.any_takesSpace_iff (h.turn hkeys) hget hrest
      rw [List.foldr_cons, List.map_cons, List.mem_cons]
      split
      · next hspace =>
        rw [List.mem_cons, hrest]
        constructor
        · rintro (rfl | ⟨hmem, hbelow⟩)
          · exact ⟨Or.inl rfl, hany.mp hspace⟩
          · exact ⟨Or.inr hmem, hbelow⟩
        · rintro ⟨rfl | hmem, hbelow⟩
          · exact Or.inl rfl
          · exact Or.inr ⟨hmem, hbelow⟩
      · next hspace =>
        rw [hrest]
        constructor
        · rintro ⟨hmem, hbelow⟩
          exact ⟨Or.inr hmem, hbelow⟩
        · rintro ⟨rfl | hmem, hbelow⟩
          · exact absurd (hany.mpr hbelow) hspace
          · exact ⟨hmem, hbelow⟩

/-- A container is populated if a node lies in it, at whatever depth. The program decides the inner
containers before the outer ones, each by its members alone, and the induction goes the same way. -/
theorem Sound.mem_populated (h : Sound o) : k ∈ o.populated ↔ ∃ id, o.Below k (.node id) := by
  rw [populated, @Sound.mem_foldr_populated o h [] _ rfl k, ← KeyedList.keys]
  constructor
  · exact And.right
  · rintro ⟨id, ks, hc, hk⟩
    refine ⟨?_, id, ks, hc, hk⟩
    obtain ⟨pre, post, rfl⟩ := List.append_of_mem hk
    exact (h.around_of_chain_append hc).mem_keys

end Outline

end Schematic
