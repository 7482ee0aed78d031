import Mathlib.Data.List.Perm.Subperm
import Schematic.Outline.Build
import Schematic.Proofs.KeyedList
import Schematic.Proofs.Text.Numerals

/-!
# What each step of the walk changes

Three questions are asked of an outline: which keys its containers have, what lies in a container
(`Outline.Holds`), and what lies around it (`Outline.Around`). This file answers them for every
operation the walk is made of, so that what comes later never opens one.
-/

namespace Schematic

namespace Outline

variable {o : Outline} {key p k name id : String} {ks : List String} {e f : Endpoint}

/-- The endpoint is a direct member of the container `p`, which is there. What is said about members
from here on is said with this. -/
def Holds (o : Outline) (p : String) (e : Endpoint) : Prop :=
  ∃ c, o.containers.get? p = some c ∧ e ∈ c.members

/-- The containers around the container `k`, from the innermost to the root, as they are noted with
it. For the root these are none. -/
def Around (o : Outline) (k : String) (ks : List String) : Prop :=
  (o.containers.get? k).map Container.enclosing = some ks

theorem Around.unique {ks' : List String} (h : o.Around k ks) (h' : o.Around k ks') : ks = ks' :=
  Option.some.inj (h.symm.trans h')

theorem around_iff : o.Around k ks ↔ ∃ c, o.containers.get? k = some c ∧ c.enclosing = ks :=
  Option.map_eq_some_iff

theorem exists_around_iff : (∃ ks, o.Around k ks) ↔ k ∈ o.containers.keys := by
  rw [KeyedList.mem_keys_iff]
  constructor
  · rintro ⟨ks, h⟩
    obtain ⟨c, hc, -⟩ := around_iff.mp h
    exact ⟨c, hc⟩
  · rintro ⟨c, hc⟩
    exact ⟨c.enclosing, around_iff.mpr ⟨c, hc, rfl⟩⟩

theorem Around.mem_keys (h : o.Around k ks) : k ∈ o.containers.keys := exists_around_iff.mp ⟨ks, h⟩

theorem Holds.mem_keys (h : o.Holds p e) : p ∈ o.containers.keys := by
  obtain ⟨c, hc, -⟩ := h
  exact KeyedList.mem_keys_of_get? hc

theorem Around.path_eq (h : o.Around k ks) : o.path k = k :: ks := by
  obtain ⟨c, hc, rfl⟩ := around_iff.mp h
  rw [path, hc]
  rfl

/-! ## Changing members -/

/-- The outline with the members of a container changed by `g`. -/
def modifyMembers (o : Outline) (key : String) (g : List Endpoint → List Endpoint) : Outline :=
  { o with containers := o.containers.modify key fun c => { c with members := g c.members } }

theorem around_modifyMembers {g : List Endpoint → List Endpoint} :
    (o.modifyMembers key g).Around k ks ↔ o.Around k ks := by
  unfold Around modifyMembers
  rw [KeyedList.get?_modify, Option.map_map]
  have hcomp : (Container.enclosing ∘ fun c : Container =>
      if k = key then { c with members := g c.members } else c) = Container.enclosing := by
    funext c
    simp only [Function.comp_apply]
    split <;> rfl
  rw [hcomp]

theorem holds_modifyMembers {g : List Endpoint → List Endpoint} :
    (o.modifyMembers key g).Holds p f ↔ ∃ c, o.containers.get? p = some c ∧
      f ∈ if p = key then g c.members else c.members := by
  unfold Holds modifyMembers
  simp only [KeyedList.get?_modify, Option.map_eq_some_iff]
  have hif : ∀ c : Container, (if p = key then { c with members := g c.members } else c).members =
      if p = key then g c.members else c.members := by
    intro c
    split <;> rfl
  constructor
  · rintro ⟨_, ⟨c, hc, rfl⟩, hf⟩
    rw [hif] at hf
    exact ⟨c, hc, hf⟩
  · rintro ⟨c, hc, hf⟩
    rw [← hif] at hf
    exact ⟨_, ⟨c, hc, rfl⟩, hf⟩

theorem around_addMember : (o.addMember key e).Around k ks ↔ o.Around k ks :=
  around_modifyMembers (g := fun members => members ++ [e])

theorem around_removeMember : (o.removeMember key e).Around k ks ↔ o.Around k ks :=
  around_modifyMembers (g := fun members => members.erase e)

theorem keys_addMember : (o.addMember key e).containers.keys = o.containers.keys :=
  KeyedList.keys_modify

theorem keys_removeMember : (o.removeMember key e).containers.keys = o.containers.keys :=
  KeyedList.keys_modify

theorem holds_addMember (h : key ∈ o.containers.keys) :
    (o.addMember key e).Holds p f ↔ o.Holds p f ∨ p = key ∧ f = e := by
  refine (holds_modifyMembers (g := fun members => members ++ [e])).trans ?_
  constructor
  · rintro ⟨c, hc, hf⟩
    split at hf
    · next hp =>
      rcases List.mem_append.mp hf with hf | hf
      · exact Or.inl ⟨c, hc, hf⟩
      · exact Or.inr ⟨hp, List.mem_singleton.mp hf⟩
    · exact Or.inl ⟨c, hc, hf⟩
  · rintro (⟨c, hc, hf⟩ | ⟨rfl, rfl⟩)
    · refine ⟨c, hc, ?_⟩
      split
      · exact List.mem_append_left _ hf
      · exact hf
    · obtain ⟨c, hc⟩ := KeyedList.mem_keys_iff.mp h
      exact ⟨c, hc, by rw [if_pos rfl]; exact List.mem_append_right _ (List.mem_singleton.mpr rfl)⟩

/-- No container holds a member twice. -/
def Distinct (o : Outline) : Prop :=
  ∀ p c, o.containers.get? p = some c → c.members.Nodup

theorem holds_removeMember (h : o.Distinct) :
    (o.removeMember key e).Holds p f ↔ o.Holds p f ∧ ¬ (p = key ∧ f = e) := by
  refine (holds_modifyMembers (g := fun members => members.erase e)).trans ?_
  constructor
  · rintro ⟨c, hc, hf⟩
    split at hf
    · next hp =>
      obtain ⟨hne, hmem⟩ := ((h p c hc).mem_erase_iff).mp hf
      exact ⟨⟨c, hc, hmem⟩, fun hboth => hne hboth.2⟩
    · next hp => exact ⟨⟨c, hc, hf⟩, fun hboth => hp hboth.1⟩
  · rintro ⟨⟨c, hc, hf⟩, hnot⟩
    refine ⟨c, hc, ?_⟩
    split
    · next hp => exact ((h p c hc).mem_erase_iff).mpr ⟨fun he => hnot ⟨hp, he⟩, hf⟩
    · exact hf

theorem distinct_addMember (h : o.Distinct) (hnot : ¬ o.Holds key e) :
    (o.addMember key e).Distinct := by
  intro p c hc
  simp only [addMember, KeyedList.get?_modify, Option.map_eq_some_iff] at hc
  obtain ⟨d, hd, rfl⟩ := hc
  split
  · next hp =>
    rw [List.nodup_append]
    refine ⟨h p d hd, by simp, fun a ha b hb hab => hnot ?_⟩
    rw [List.mem_singleton] at hb
    exact ⟨d, hp ▸ hd, hb ▸ hab ▸ ha⟩
  · exact h p d hd

theorem distinct_removeMember (h : o.Distinct) : (o.removeMember key e).Distinct := by
  intro p c hc
  simp only [removeMember, KeyedList.get?_modify, Option.map_eq_some_iff] at hc
  obtain ⟨d, hd, rfl⟩ := hc
  split
  · exact (h p d hd).erase e
  · exact h p d hd

/-! ## New containers -/

/-- The outline with the new, empty container `key`. -/
def putContainer (o : Outline) (key : String) (c : Container) : Outline :=
  { o with containers := o.containers.put key c }

theorem around_putContainer {c : Container} (hkey : key ∉ o.containers.keys) :
    (o.putContainer key c).Around k ks ↔ o.Around k ks ∨ k = key ∧ ks = c.enclosing := by
  unfold Around putContainer
  simp only [KeyedList.get?_put]
  split
  · next hk =>
    subst hk
    rw [KeyedList.get?_eq_none_iff.mpr hkey]
    simp [eq_comm]
  · next hk => simp [hk]

theorem holds_putContainer {c : Container} (hkey : key ∉ o.containers.keys) (hc : c.members = []) :
    (o.putContainer key c).Holds p e ↔ o.Holds p e := by
  unfold Holds putContainer
  simp only [KeyedList.get?_put]
  split
  · next hp =>
    subst hp
    rw [KeyedList.get?_eq_none_iff.mpr hkey]
    simp [hc]
  · rfl

theorem distinct_putContainer {c : Container} (h : o.Distinct) (hc : c.members = []) :
    (o.putContainer key c).Distinct := by
  intro p d hd
  unfold putContainer at hd
  simp only [KeyedList.get?_put] at hd
  split at hd
  · cases hd
    rw [hc]
    exact List.nodup_nil
  · exact h p d hd

theorem keys_putContainer {c : Container} (hkey : key ∉ o.containers.keys) :
    (o.putContainer key c).containers.keys = o.containers.keys ++ [key] :=
  KeyedList.keys_put_of_not_mem hkey

/-! ## Names and blocks -/

/-- The names of the groups and the blocks they were declared with, in order. -/
def declared (o : Outline) : List (String × Forest) := o.groups.map fun e => (e.2.name, e.2.blocks)

theorem declared_modifyMembers {g : List Endpoint → List Endpoint} :
    (o.modifyMembers key g).declared = o.declared := by
  unfold declared groups modifyMembers
  simp only [KeyedList.modify, KeyedList.mapValues, List.filter_map, List.map_map]
  refine List.map_congr_left fun e _ => ?_
  simp only [Function.comp_apply]
  split <;> rfl

theorem declared_addMember : (o.addMember key e).declared = o.declared :=
  declared_modifyMembers (g := fun members => members ++ [e])

theorem declared_removeMember : (o.removeMember key e).declared = o.declared :=
  declared_modifyMembers (g := fun members => members.erase e)

theorem declared_putContainer {c : Container} (hkey : key ∉ o.containers.keys)
    (hroot : key ≠ root) :
    (o.putContainer key c).declared = o.declared ++ [(c.name, c.blocks)] := by
  unfold declared groups putContainer
  simp [KeyedList.entries_put_of_not_mem hkey, List.filter_append, hroot]

/-! ## Fresh keys -/

theorem nodup_keyCandidates (name : String) (used : Nat) : (keyCandidates name used).Nodup := by
  unfold keyCandidates
  rw [List.nodup_cons]
  constructor
  · intro hmem
    obtain ⟨i, -, hi⟩ := List.mem_map.mp hmem
    have hlength := congrArg String.length hi
    simp only [String.length_append] at hlength
    have : ("#" : String).length = 1 := rfl
    omega
  · refine List.pairwise_map.mpr (List.nodup_range.imp fun hne hij => hne ?_)
    rw [String.append_right_inj] at hij
    have := Text.toString_nat_inj hij
    omega

/-- One of the candidates is still free, since there are more of them than keys. So no group ever
takes the key of another one. -/
theorem freshKey_not_mem (o : Outline) (name : String) :
    o.freshKey name ∉ o.containers.keys := by
  have hfound : ∃ key, (keyCandidates name o.containers.entries.length).find?
      (fun key => !o.containers.contains key) = some key := by
    rw [← Option.isSome_iff_exists, List.find?_isSome]
    refine Classical.byContradiction fun hnone => ?_
    have hsub : keyCandidates name o.containers.entries.length ⊆ o.containers.keys := by
      intro key hkey
      refine Classical.byContradiction fun hnot => hnone ⟨key, hkey, ?_⟩
      cases hcontains : o.containers.contains key with
      | false => rfl
      | true => exact absurd (KeyedList.contains_iff.mp hcontains) hnot
    have hle := (List.subperm_of_subset (nodup_keyCandidates _ _) hsub).length_le
    simp only [keyCandidates, KeyedList.keys, List.length_cons, List.length_map,
      List.length_range] at hle
    omega
  obtain ⟨key, hkey⟩ := hfound
  rw [freshKey, hkey, Option.getD_some]
  have hfree := List.find?_some hkey
  intro hmem
  rw [KeyedList.contains_iff.mpr hmem] at hfree
  cases hfree

end Outline

end Schematic
