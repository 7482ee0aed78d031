import Mathlib.Data.List.Forall2

/-!
# Computations that succeed

A map over a list succeeds when it succeeds on every element, and its answers stand in the places of
what they answer. A fold succeeds when every step keeps what the next one needs.
-/

namespace Schematic

universe u v w

section Maps

variable {ε : Type u} {α : Type v} {β : Type w} {γ : Type w}

theorem bind_of_eq_ok {x : Except ε β} {f : β → Except ε γ} {a : β} (h : x = .ok a) :
    (x >>= f) = f a := by rw [h]; rfl

theorem bind_eq_ok {x : Except ε β} {f : β → Except ε γ} {c : γ} (h : (x >>= f) = .ok c) :
    ∃ a, x = .ok a ∧ f a = .ok c := by
  cases x with
  | error e => cases h
  | ok a => exact ⟨a, rfl, h⟩

theorem map_eq_ok {x : Except ε β} {f : β → γ} {c : γ} (h : x.map f = .ok c) :
    ∃ a, x = .ok a ∧ f a = c := by
  cases x with
  | error e => cases h
  | ok a => exact ⟨a, rfl, Except.ok.inj h⟩

theorem mapError_eq_ok_iff {ε' : Type u} {x : Except ε β} {f : ε → ε'} {a : β} :
    x.mapError f = .ok a ↔ x = .ok a := by
  cases x <;> simp [Except.mapError]

end Maps

section Lists

variable {ε α β : Type u}

theorem mapM_eq_ok_iff {f : α → Except ε β} {xs : List α} {ys : List β} :
    xs.mapM f = .ok ys ↔ List.Forall₂ (fun x y => f x = .ok y) xs ys := by
  induction xs generalizing ys with
  | nil =>
      rw [List.mapM_nil, List.forall₂_nil_left_iff]
      constructor
      · intro h
        cases h
        rfl
      · rintro rfl
        rfl
  | cons x xs ih =>
      rw [List.mapM_cons]
      constructor
      · intro h
        obtain ⟨y, hy, h⟩ := bind_eq_ok h
        obtain ⟨zs, hzs, h⟩ := bind_eq_ok h
        cases h
        exact .cons hy (ih.mp hzs)
      · intro h
        cases h with
        | cons hy hys =>
            rw [hy, ih.mpr hys]
            rfl

/-- Two maps, the second of which answers what the first answers, up to the names of things. It is
used where a computation is repeated under other names. -/
theorem mapM_map_eq_ok {α' β' : Type u} {f : α → Except ε β} {f' : α' → Except ε β'} {g : α → α'}
    {h : β → β'} (hfg : ∀ x y, f x = .ok y → f' (g x) = .ok (h y)) {xs : List α} {ys : List β}
    (hxs : xs.mapM f = .ok ys) : (xs.map g).mapM f' = .ok (ys.map h) := by
  rw [mapM_eq_ok_iff, List.forall₂_map_left_iff, List.forall₂_map_right_iff]
  exact (mapM_eq_ok_iff.mp hxs).imp hfg

/-- A map whose answers are all changed in the same way, where it fails as well. So this is an
equation and needs no success. -/
theorem mapM_map {γ : Type u} (f : α → Except ε β) (g : β → γ) (xs : List α) :
    (xs.mapM fun x => (f x).map g) = (xs.mapM f).map (List.map g) := by
  induction xs with
  | nil => rfl
  | cons x xs ih =>
      rw [List.mapM_cons, List.mapM_cons, ih]
      cases f x with
      | error => rfl
      | ok y => cases xs.mapM f <;> rfl

/-- The answers to all elements, if each of them has one. The induction is on the list. -/
theorem exists_mapM_eq_ok {f : α → Except ε β} {xs : List α} (h : ∀ x ∈ xs, ∃ y, f x = .ok y) :
    ∃ ys, xs.mapM f = .ok ys ∧ List.Forall₂ (fun x y => f x = .ok y) xs ys := by
  induction xs with
  | nil => exact ⟨[], rfl, .nil⟩
  | cons x xs ih =>
      obtain ⟨y, hy⟩ := h x (List.mem_cons_self ..)
      obtain ⟨ys, -, hys⟩ := ih fun z hz => h z (List.mem_cons_of_mem _ hz)
      exact ⟨y :: ys, mapM_eq_ok_iff.mpr (.cons hy hys), .cons hy hys⟩

theorem forall₂_exists_right {R : α → β → Prop} {xs : List α} {ys : List β}
    (h : List.Forall₂ R xs ys) {x : α} (hx : x ∈ xs) : ∃ y ∈ ys, R x y := by
  induction h with
  | nil => cases hx
  | cons hxy _ ih =>
      rcases List.mem_cons.mp hx with rfl | hx
      · exact ⟨_, List.mem_cons_self .., hxy⟩
      · obtain ⟨y, hy, hr⟩ := ih hx
        exact ⟨y, List.mem_cons_of_mem _ hy, hr⟩

theorem forall₂_exists_left {R : α → β → Prop} {xs : List α} {ys : List β}
    (h : List.Forall₂ R xs ys) {y : β} (hy : y ∈ ys) : ∃ x ∈ xs, R x y :=
  forall₂_exists_right h.flip hy

theorem forall₂_imp_left {R S : α → β → Prop} {xs : List α} {ys : List β}
    (h : List.Forall₂ R xs ys) (hrs : ∀ x ∈ xs, ∀ y, R x y → S x y) : List.Forall₂ S xs ys := by
  induction h with
  | nil => exact .nil
  | cons hxy _ ih =>
      exact .cons (hrs _ (List.mem_cons_self ..) _ hxy)
        (ih fun x hx => hrs x (List.mem_cons_of_mem _ hx))

/-- A map over a list whose answers have some property each. With success and property in one
hypothesis, a look-up is asked for only once. -/
theorem exists_mapM_forall₂ {f : α → Except ε β} {P : α → β → Prop} (xs : List α)
    (h : ∀ x ∈ xs, ∃ y, f x = .ok y ∧ P x y) :
    ∃ ys, xs.mapM f = .ok ys ∧ List.Forall₂ P xs ys := by
  obtain ⟨ys, hys, hall⟩ := exists_mapM_eq_ok fun x hx =>
    let ⟨y, hy, _⟩ := h x hx
    ⟨y, hy⟩
  refine ⟨ys, hys, forall₂_imp_left hall fun x hx y hy => ?_⟩
  obtain ⟨z, hz, hp⟩ := h x hx
  rw [hy] at hz
  cases hz
  exact hp

theorem mem_flatMap_of_forall₂ {γ : Type u} {R : α → β → Prop} {Q : α → γ → Prop}
    {f : β → List γ} {xs : List α} {ys : List β} (h : List.Forall₂ R xs ys)
    (hf : ∀ x y, R x y → ∀ z, z ∈ f y ↔ Q x z) (z : γ) :
    z ∈ ys.flatMap f ↔ ∃ x ∈ xs, Q x z := by
  rw [List.mem_flatMap]
  constructor
  · rintro ⟨y, hy, hz⟩
    obtain ⟨x, hx, hr⟩ := forall₂_exists_left h hy
    exact ⟨x, hx, (hf x y hr z).mp hz⟩
  · rintro ⟨x, hx, hz⟩
    obtain ⟨y, hy, hr⟩ := forall₂_exists_right h hx
    exact ⟨y, hy, (hf x y hr z).mpr hz⟩

theorem forall₂_map_eq {γ : Type u} {R : α → β → Prop} {xs : List α} {ys : List β}
    (h : List.Forall₂ R xs ys) {f : α → γ} {g : β → γ} (hfg : ∀ x y, R x y → f x = g y) :
    xs.map f = ys.map g := by
  induction h with
  | nil => rfl
  | cons hxy _ ih => rw [List.map_cons, List.map_cons, hfg _ _ hxy, ih]

/-! ## Folds -/

theorem foldlM_eq_ok_of_step {γ : Type u} {f : β → α → Except ε β} {f' : γ → α → Except ε γ}
    {g : β → γ} (h : ∀ b a c, f b a = .ok c → f' (g b) a = .ok (g c)) {xs : List α} {b c : β}
    (hxs : xs.foldlM f b = .ok c) : xs.foldlM f' (g b) = .ok (g c) := by
  induction xs generalizing b with
  | nil =>
      cases hxs
      rfl
  | cons a xs ih =>
      rw [List.foldlM_cons] at hxs ⊢
      obtain ⟨b', hb', hxs⟩ := bind_eq_ok hxs
      exact (bind_of_eq_ok (h b a b' hb')).trans (ih hxs)

theorem foldrM_eq_ok_of_step {γ : Type u} {f : α → β → Except ε β} {f' : α → γ → Except ε γ}
    {g : β → γ} (h : ∀ a b c, f a b = .ok c → f' a (g b) = .ok (g c)) {xs : List α} {b c : β}
    (hxs : xs.foldrM f b = .ok c) : xs.foldrM f' (g b) = .ok (g c) := by
  rw [← List.foldlM_reverse] at hxs ⊢
  exact foldlM_eq_ok_of_step (fun b a c => h a b c) hxs

/-- A fold from the left, where `I` holds of the elements that are done. A step may use where in the
list it is made. -/
theorem exists_foldlM_eq_ok {I : List α → β → Prop} {f : β → α → Except ε β} {b : β} (xs : List α)
    (hstart : I [] b)
    (hstep : ∀ done a todo b, xs = done ++ a :: todo → I done b →
      ∃ b', f b a = .ok b' ∧ I (done ++ [a]) b') :
    ∃ b', xs.foldlM f b = .ok b' ∧ I xs b' := by
  have hrest : ∀ todo done b, xs = done ++ todo → I done b →
      ∃ b', todo.foldlM f b = .ok b' ∧ I xs b' := by
    intro todo
    induction todo with
    | nil =>
        intro done b hsplit hinv
        rw [List.append_nil] at hsplit
        exact ⟨b, rfl, hsplit ▸ hinv⟩
    | cons a todo ih =>
        intro done b hsplit hinv
        obtain ⟨b', hb', hinv'⟩ := hstep done a todo b hsplit hinv
        obtain ⟨c, hc, hinvc⟩ := ih (done ++ [a]) b' (by rw [hsplit, List.append_assoc]; rfl) hinv'
        refine ⟨c, ?_, hinvc⟩
        rw [List.foldlM_cons, hb']
        exact hc
  exact hrest xs [] b rfl hstart

/-- A fold from the right, where `I` holds of the elements that are done. Those are the last ones of
the list. -/
theorem exists_foldrM_eq_ok {I : List α → β → Prop} {f : α → β → Except ε β} {b : β} {xs : List α}
    (hstart : I [] b)
    (hstep : ∀ todo a done b, xs = todo ++ a :: done → I done b →
      ∃ b', f a b = .ok b' ∧ I (a :: done) b') :
    ∃ b', xs.foldrM f b = .ok b' ∧ I xs b' := by
  have hrest : ∀ done todo, xs = todo ++ done → ∃ b', done.foldrM f b = .ok b' ∧ I done b' := by
    intro done
    induction done with
    | nil => exact fun _ _ => ⟨b, rfl, hstart⟩
    | cons a done ih =>
        intro todo hsplit
        obtain ⟨c, hc, hinv⟩ := ih (todo ++ [a]) (by rw [hsplit, List.append_assoc]; rfl)
        obtain ⟨d, hd, hinv'⟩ := hstep todo a done c hsplit hinv
        refine ⟨d, ?_, hinv'⟩
        rw [List.foldrM_cons, hc]
        exact hd
  exact hrest xs [] rfl

end Lists

end Schematic
