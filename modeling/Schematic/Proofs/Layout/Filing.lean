import Schematic.Layout.Compound
import Schematic.Proofs.Outline.Document
import Schematic.Proofs.Success

/-!
# Where wires are filed

A wire between a group and something inside it is detached. Every other wire is filed in a container
that is drawn, between two members of it that take part in the drawing: the smallest container that
both ends are in, and the members that the ends are or lie in.
-/

namespace Schematic

namespace Compound

open Outline

variable {o : Outline} {key : String} {x y e f : Endpoint}

/-- The ends of a filed wire are members of its container that take part in the drawing. So both of
them have boxes in the placement of the container, and the edge between these can be routed. -/
structure FiledIn (o : Outline) (key : String) (x y : Endpoint) : Prop where
  source : o.Holds key x
  target : o.Holds key y
  stands : o.Stands x ∧ o.Stands y

theorem FiledIn.populated (h : FiledIn o key x y) (hs : Sound o) : key ∈ o.populated :=
  hs.populated_of_below h.stands.1 h.source.below

theorem swallows_eq (h : Sound o) (hf : o.Stands f) :
    ∃ b, swallows o e f = .ok b ∧ (b = true ↔ ∃ k, e = .group k ∧ o.Below k f) := by
  obtain ⟨ks, hks⟩ := h.exists_chain hf
  cases e with
  | node id => exact ⟨false, rfl, by simp⟩
  | group k =>
      obtain ⟨b, hb, hiff⟩ := h.encloses_iff (k := k) hks
      refine ⟨b, hb, hiff.trans ?_⟩
      simp

/-- What does not swallow an endpoint does not have it inside. -/
theorem not_below_of_swallows (h : Sound o) (hf : o.Stands f) (hef : swallows o e f ≠ .ok true) :
    ∀ k, e = .group k → ¬ o.Below k f := by
  intro k hk hbelow
  obtain ⟨b, hb, hiff⟩ := swallows_eq (e := e) h hf
  rw [hiff.mpr ⟨k, hk, hbelow⟩] at hb
  exact hef hb

theorem swallows_eq_false (h : Sound o) (hf : o.Stands f) (hef : swallows o e f ≠ .ok true) :
    swallows o e f = .ok false := by
  obtain ⟨b, hb, -⟩ := swallows_eq (e := e) h hf
  cases b with
  | false => exact hb
  | true => exact absurd hb hef

/-- The place of a wire whose ends take part in the drawing. Neither looking for the smallest common
container nor lifting the ends into it can fail, for both have chains of containers up to the root.
-/
theorem exists_file (h : Sound o) {w : Wire} (hs : o.Stands w.source) (ht : o.Stands w.target) :
    ∃ place, file o w = .ok place ∧ ∀ key x y, place = .within key x y → FiledIn o key x y := by
  obtain ⟨b, hb, -⟩ := swallows_eq (e := w.source) h ht
  obtain ⟨c, hc, -⟩ := swallows_eq (e := w.target) h hs
  have hfile : file o w = if b || c then .ok .detached else (do
      let key ← o.commonContainer w.source w.target
      return .within key (← o.lift w.source key) (← o.lift w.target key)) := by
    rw [file, hb, hc]
    cases b <;> cases c <;> rfl
  rw [hfile]
  split
  · exact ⟨.detached, rfl, fun _ _ _ heq => by cases heq⟩
  · obtain ⟨as, has⟩ := h.exists_chain hs
    obtain ⟨bs, hbs⟩ := h.exists_chain ht
    obtain ⟨key, pre, post, hcommon, rfl, hkey, hpre⟩ := h.commonContainer_eq has hbs
    obtain ⟨pre', post', rfl, hkey'⟩ := List.eq_append_cons_of_mem hkey
    obtain ⟨x, hx, hheldx, hstandsx, -⟩ := h.lift_eq hs (fun hmem => hpre key hmem hkey) has
    obtain ⟨y, hy, hheldy, hstandsy, -⟩ := h.lift_eq ht hkey' hbs
    refine ⟨.within key x y, ?_, ?_⟩
    · rw [hcommon]
      show (do return Filing.within key (← o.lift w.source key) (← o.lift w.target key)) = _
      rw [hx, hy]
      rfl
    · intro key' x' y' heq
      cases heq
      exact ⟨hheldx, hheldy, hstandsx, hstandsy⟩

/-- Every wire with its place. -/
structure IsFiled (o : Outline) (filed : List (Wire × Filing)) : Prop where
  wires : filed.map Prod.fst = o.wires
  within : ∀ w key x y, (w, Filing.within key x y) ∈ filed → FiledIn o key x y

theorem file_of_mem {filed : List (Wire × Filing)}
    (hmap : (o.wires.mapM fun w => do return (w, ← file o w)) = .ok filed) {w : Wire}
    {place : Filing} (hmem : (w, place) ∈ filed) : w ∈ o.wires ∧ file o w = .ok place := by
  obtain ⟨v, hv, hr⟩ := forall₂_exists_left (mapM_eq_ok_iff.mp hmap) hmem
  obtain ⟨place', hplace, heq⟩ := bind_eq_ok hr
  cases heq
  exact ⟨hv, hplace⟩

theorem exists_filed {blocks : Forest} {edges : List Edge} (h : IsOutline o blocks edges) :
    ∃ filed, (o.wires.mapM fun w => do return (w, ← file o w)) = .ok filed ∧ IsFiled o filed := by
  have hplaces : ∀ w ∈ o.wires, ∃ r, (do return (w, ← file o w)) = Except.ok r := by
    intro w hw
    obtain ⟨hs, ht⟩ := h.ends w hw
    obtain ⟨place, hplace, -⟩ := exists_file h.sound hs ht
    exact ⟨(w, place), by rw [hplace]; rfl⟩
  obtain ⟨filed, hmap, hall⟩ := exists_mapM_eq_ok hplaces
  refine ⟨filed, hmap, ?_, ?_⟩
  · have hfirst : ∀ (w : Wire) (r : Wire × Filing), (do return (w, ← file o w)) = Except.ok r →
        w = r.1 := by
      intro w r hr
      obtain ⟨place, -, heq⟩ := bind_eq_ok hr
      cases heq
      rfl
    have hmaps := forall₂_map_eq hall (f := id) (g := Prod.fst) hfirst
    rw [← hmaps, List.map_id]
  · intro w key x y hmem
    obtain ⟨hw, hfile⟩ := file_of_mem hmap hmem
    obtain ⟨hs, ht⟩ := h.ends w hw
    obtain ⟨place, hplace, hwithin⟩ := exists_file h.sound hs ht
    rw [hplace] at hfile
    exact hwithin key x y (Except.ok.inj hfile)

end Compound

end Schematic
