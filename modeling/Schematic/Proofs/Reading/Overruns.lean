import Schematic.Proofs.Reading.Appending

/-!
# What is left open

A text that leaves nothing open is over where the next one begins (`run_extends`). Here is the
converse: a bracket or a brace that is left open takes in the line end and the first token behind
it, and a group that is left open is still open there. So if a reading comes to the text behind a
line end with no group open, then the text in front of it left nothing open (`closed_of_leads`).
-/

namespace Schematic

open Cursor Reading

variable {t k : Token} {tail : List Token} {c d : Cursor} {dialect : Dialect}

/-! ## Brackets and braces -/

theorem Cursor.enclosed_overruns (h : d.ahead = c.ahead ++ t :: k :: tail) (hc : c.atEnd = false)
    (hno : Unbroken c.ahead) {closer : Token.Kind} {problem : Problem}
    (ht : t.kind ≠ closer ∧ t.kind ≠ .endOfInput) (hk : k.kind ≠ closer ∧ k.kind ≠ .endOfInput)
    (hopen : (c.enclosed closer problem).diagnostics ≠ []) :
    (d.enclosed closer problem).cursor.ahead.length ≤ tail.length := by
  have hadvance := advance_append h hc
  -- the closer does not occur, so everything up to the end stands in the bracket
  have hall : ∀ u ∈ c.advance.ahead, (u.kind != closer && u.kind != .endOfInput) = true := by
    refine List.takeWhile_eq_self_iff.mp ?_
    refine (List.takeWhile_prefix _).eq_of_length_le ?_
    refine List.drop_eq_nil_iff.mp (Classical.byContradiction fun hne => hopen ?_)
    have hrest := (hno.reaches (reaches_advance c)).reaches (reaches_skip_takeWhile c.advance
      (p := fun u => u.kind != closer && u.kind != .endOfInput) (by simp)) |>.atEnd hne
    simp only [enclosed, hrest, Bool.false_eq_true, if_false]
  have hcontent : (d.advance.ahead.takeWhile fun u => u.kind != closer && u.kind != .endOfInput) =
      c.advance.ahead ++ t :: k ::
        tail.takeWhile fun u => u.kind != closer && u.kind != .endOfInput := by
    rw [hadvance, List.takeWhile_append_of_pos hall]
    simp [ht, hk]
  refine Nat.le_trans (length_pass_le _ _) ?_
  rw [length_skip, hcontent, hadvance]
  simp only [List.length_append, List.length_cons]
  omega

namespace Declaration

theorem attributes_overruns (h : d.ahead = c.ahead ++ t :: k :: tail) (hno : Unbroken c.ahead)
    (ht : t.kind = .newline) (hk : k.kind = .ident) {id : String}
    (hopen : ¬ Closed (attributes dialect id c).diagnostics) :
    (attributes dialect id d).cursor.ahead.length ≤ tail.length := by
  cases hat : c.isAt .openBracket with
  | false => simp [attributes, hat, Closed] at hopen
  | true =>
      have hend : c.atEnd = false := by
        simp only [isAt, beq_iff_eq] at hat
        simp [atEnd, isAt, hat]
      have hat' : d.isAt .openBracket = true := by
        rw [isAt_append h (by rw [ht]; rfl) rfl, hat]
      simp only [attributes, hat, hat', if_true] at hopen ⊢
      exact enclosed_overruns h hend hno (by simp [ht]) (by simp [hk])
        fun hnil => hopen (hnil ▸ closed_nil)

theorem body_overruns (h : d.ahead = c.ahead ++ t :: k :: tail) (hno : Unbroken c.ahead)
    (ht : t.kind = .newline) (hk : k.kind = .ident) {id : String}
    (hopen : ¬ Closed (bodyTaken dialect id c).diagnostics) :
    (bodyTaken dialect id d).cursor.ahead.length ≤ tail.length := by
  cases hat : c.isAt .openBrace with
  | false => simp [bodyTaken, hat, Closed] at hopen
  | true =>
      have hend : c.atEnd = false := by
        simp only [isAt, beq_iff_eq] at hat
        simp [atEnd, isAt, hat]
      have hat' : d.isAt .openBrace = true := by
        rw [isAt_append h (by rw [ht]; rfl) rfl, hat]
      simp only [bodyTaken, fields, hat, hat', if_true] at hopen ⊢
      exact enclosed_overruns h hend hno (by simp [ht]) (by simp [hk])
        fun hnil => hopen (hnil ▸ closed_nil)

theorem entity_overruns (h : d.ahead = c.ahead ++ t :: k :: tail) (hno : Unbroken c.ahead)
    (ht : t.kind = .newline) (hk : k.kind = .ident) (id : String)
    (known : KeyedList String String)
    (hopen : ¬ Closed (entityTaken dialect id known c).diagnostics) :
    (entityTaken dialect id known d).cursor.ahead.length ≤ tail.length := by
  refine Nat.le_trans (length_pass_le _ _) ?_
  by_cases hattrs : Closed (attributes dialect id c).diagnostics
  · obtain ⟨-, -, hrest⟩ := attributes_append h (by rw [ht]; rfl) dialect id hattrs
    refine body_overruns hrest (hno.reaches (reaches_attributes dialect id c)) ht hk fun hbody => ?_
    exact hopen (closed_append.mpr ⟨hattrs, hbody⟩)
  · exact Nat.le_trans (length_bodyTaken_le _ _ _) (attributes_overruns h hno ht hk hattrs)

/-- Behind a brace with nothing but blanks, the fields are left open. There is no closing brace
among blanks. -/
theorem not_closed_entity (hbrace : c.isAt .openBrace = true)
    (hblank : ∀ u ∈ c.advance.ahead, isBlankKind u.kind = true) (id : String)
    (known : KeyedList String String) :
    ¬ Closed (entityTaken dialect id known c).diagnostics := by
  have hbracket : c.isAt .openBracket = false := by
    simp only [isAt, beq_iff_eq] at hbrace
    simp [isAt, hbrace]
  have hall : (c.advance.ahead.takeWhile fun u =>
      u.kind != .closeBrace && u.kind != .endOfInput) = c.advance.ahead := by
    refine List.takeWhile_eq_self_iff.mpr fun u hu => ?_
    have hu := hblank u hu
    cases hkind : u.kind <;> simp_all [isBlankKind]
  have hend : (c.advance.skip c.advance.ahead.length).atEnd = true :=
    atEnd_of_ahead_nil (by simp [skip])
  intro hclosed
  have hnot := hclosed ⟨c.current.place, .openFields id⟩ (by
    simp [entityTaken, attributes, bodyTaken, fields, enclosed, hbracket, hbrace, hall, hend])
  cases hnot

theorem keyword_overruns (h : d.ahead = c.ahead ++ t :: k :: tail) (hno : Unbroken c.ahead)
    (ht : t.kind = .newline) (hk : k.kind = .ident) (hc : c.atEnd = false)
    (hname : (c.peek 1).kind.isName = true)
    (hopen : ¬ Closed (keywordTaken dialect c).diagnostics) :
    (keywordTaken dialect d).cursor.ahead.length ≤ tail.length := by
  obtain ⟨hid, hlabel, hrest⟩ := passDecorations_append h ht hc hname dialect
  have hreaches : c.Reaches (passDecorations (titled dialect c.advance).2.2) :=
    ((reaches_advance c).trans (reaches_titled dialect _)).trans (reaches_upTo _ _)
  simp only [keywordTaken, hid, hlabel, current_append h (ahead_ne_nil hc)]
  exact entity_overruns hrest (hno.reaches hreaches) ht hk _ _ hopen

end Declaration

namespace Reading

/-! ## Statements -/

/-- Only declarations leave something open. An edge line may leave a span open, but its spans end
with the line. -/
theorem closed_effect {form : Form} (h : ¬ Opens form) (top : Bool) :
    Closed (effect dialect c top form).diagnostics := by
  cases form with
  | entity => exact absurd (Or.inl rfl) h
  | declaration => exact absurd (Or.inr rfl) h
  | edges => exact EdgeLine.forall_diagnostics_reduce (fun _ _ => rfl) _ _ _ closed_nil
  | stray =>
      simp only [effect, strayReports]
      split
      · simp [Closed, Problem.leavesOpen]
      · split <;> simp [Closed, Problem.leavesOpen]
  | _ => exact closed_nil

theorem effect_overruns (h : d.ahead = c.ahead ++ t :: k :: tail) (hno : Unbroken c.ahead)
    (ht : t.kind = .newline) (hk : k.kind = .ident) (hc : c.atEnd = false) {top : Bool}
    {form : Form} (hsees : Sees c form)
    (hopen : ¬ Closed (effect dialect c top form).diagnostics) :
    (effect dialect d top form).cursor.ahead.length ≤ tail.length := by
  by_cases hform : Opens form
  · rcases hform with rfl | rfl
    · have hadvance := advance_append h hc
      have hno := hno.reaches (reaches_advance c)
      simp only [effect, Effect.declaring, current_append h (ahead_ne_nil hc)] at hopen ⊢
      exact Declaration.entity_overruns hadvance hno ht hk c.current.text .empty hopen
    · simp only [effect, Effect.declaring] at hopen ⊢
      exact Declaration.keyword_overruns h hno ht hk hc hsees hopen
  · exact absurd (closed_effect hform top) hopen

/-! ## Steps -/

variable {r r' : Reading}

/-- Where something is left open, the step in front of more text passes the first token of it; else
it keeps the relation. -/
theorem step_overruns (h : r'.cursor.ahead = r.cursor.ahead ++ t :: k :: tail)
    (hno : Unbroken r.cursor.ahead) (ht : t.kind = .newline) (hk : k.kind = .ident)
    (hsame : r' = { r with cursor := r'.cursor }) (hend : r.cursor.atEnd = false)
    (hclosed : Closed r.diagnostics) :
    Extends t (k :: tail) r.step r'.step ∧ Closed r.step.diagnostics ∨
      r'.step.remaining ≤ tail.length := by
  rcases step_spec (r := r) (by simp [finished, hend]) with
    ⟨g, outer, x, hg, hx, hs⟩ | ⟨-, hstays, hs⟩
  · have hnone : x.diagnostics = [] := by
      simp only [closing?, hend, Bool.false_eq_true, if_false] at hx
      cases hc : g.closer <;> simp only [hc, Option.ite_none_right_eq_some] at hx <;>
        obtain ⟨-, hx⟩ := hx <;> rw [← Option.some.inj hx]
    rw [hs]
    refine Or.inl ⟨closing_extends h ht hsame hend hg hx, ?_⟩
    simp only [Closing.apply, hnone, List.append_nil]
    exact hclosed
  · have hstep := step_of_stays_append h ht hsame hend hstays
    rcases form_extends h ht hsame hend r.atTop with hform | ⟨hform, hform', hblank⟩
    · rw [hform] at hstep
      by_cases hnext : Closed r.next.diagnostics
      · rw [hs, hstep, diagnostics_apply]
        exact Or.inl ⟨Extends.apply (effect_follows h ht hend r.dialect (form_sees r r.atTop)
          fun _ => hnext) hsame, closed_append.mpr ⟨hclosed, hnext⟩⟩
      · rw [hstep, remaining, cursor_apply]
        exact Or.inr (effect_overruns h hno ht hk hend (form_sees r r.atTop) hnext)
    · have hsees := form_sees r r.atTop
      rw [hform] at hsees
      rw [hstep, hform', remaining, cursor_apply]
      refine Or.inr (effect_overruns (c := r.cursor) h hno ht hk hend trivial ?_)
      have hbrace : r.cursor.advance.isAt .openBrace = true := by
        rw [isAt, current_advance hend]
        exact beq_iff_eq.mpr hsees
      exact Declaration.not_closed_entity hbrace hblank r.cursor.current.text .empty

/-! ## Runs -/

theorem remaining_step_lt (h : r.cursor.atEnd = false) : r.step.remaining < r.remaining := by
  rcases step_cases (r := r) (by simp [finished, h]) with ⟨g, outer, -, hc⟩ | ⟨top, -, hs⟩
  · unfold close? at hc
    rw [h] at hc
    simp only [Bool.false_eq_true, if_false] at hc
    cases hcloser : g.closer <;> simp only [hcloser, Option.ite_none_right_eq_some] at hc <;>
      obtain ⟨-, hc⟩ := hc <;> rw [← Option.some.inj hc]
    · exact length_advance_lt h
    · exact length_restOfLine_lt _ h rfl
  · rw [hs]
    exact statement_progress r top h

theorem Leads.remaining_le {q : Reading} (h : Leads r q) : q.remaining ≤ r.remaining := by
  induction h with
  | refl => exact Nat.le_refl _
  | tail _ hs ih =>
      obtain ⟨hf, rfl⟩ := hs
      rcases step_decreases hf with hlt | ⟨hle, -⟩
      · exact Nat.le_trans (Nat.le_of_lt hlt) ih
      · exact Nat.le_trans hle ih

/-- A reading that has gone on from a token does not come back to it, since every step lowers what
is left to do. -/
theorem Leads.eq_or_lt {q : Reading} (h : Leads r q) (hend : r.cursor.atEnd = false) :
    r = q ∨ Leads r.step q ∧ q.remaining < r.remaining := by
  rcases Relation.ReflTransGen.cases_head h with rfl | ⟨s, ⟨-, rfl⟩, hs⟩
  · exact Or.inl rfl
  · exact Or.inr ⟨hs, Nat.lt_of_le_of_lt (Leads.remaining_le hs) (remaining_step_lt hend)⟩

/-- A reading stands before the same tokens only once, as long as there are any. So two ways to the
text behind a line end meet there. -/
theorem Leads.unique {p q : Reading} (hp : Leads r p) (hq : Leads r q)
    (hend : p.cursor.atEnd = false) (ha : q.cursor.ahead = p.cursor.ahead) : p = q := by
  have hend' : q.cursor.atEnd = false := by
    obtain ⟨u, us, hu⟩ := List.exists_cons_of_ne_nil (ahead_ne_nil hend)
    simpa [atEnd, isAt, current, ha, hu] using hend
  have hlen : q.remaining = p.remaining := by rw [remaining, remaining, ha]
  have hunique : Relator.RightUnique fun r s : Reading => r.finished = false ∧ s = r.step :=
    fun _ _ _ h h' => h.2.trans h'.2.symm
  rcases Relation.ReflTransGen.total_of_right_unique hunique hp hq with h | h
  · exact (Leads.eq_or_lt h hend).resolve_right fun hlt => Nat.ne_of_lt hlt.2 hlen
  · exact ((Leads.eq_or_lt h hend').resolve_right fun hlt => Nat.ne_of_gt hlt.2 hlen).symm

/-- If the reading comes to the text behind the line end with no group open, nothing in front of it
was left open. -/
theorem closed_of_leads {q : Reading} (hx : Extends t (k :: tail) r r') (ht : t.kind = .newline)
    (hk : k.kind = .ident) (hno : Unbroken r.cursor.ahead) (hclosed : Closed r.diagnostics)
    (hlead : Leads r' q) (hq : q.cursor.ahead = k :: tail) (hgroups : q.openGroups = []) :
    Closed r.run.diagnostics := by
  have hlen : q.remaining = tail.length + 1 := by rw [remaining, hq, List.length_cons]
  -- at the first token of the text behind, a group that is open is not closed
  have hstuck {s : Reading} (hs : Leads s q) (ha : s.cursor.ahead = k :: tail) :
      s.openGroups = [] := by
    have hend : s.cursor.atEnd = false := by simp [atEnd, isAt, current, ha, hk]
    rcases hs.eq_or_lt hend with rfl | ⟨-, hlt⟩
    · exact hgroups
    · rw [hlen, remaining, ha, List.length_cons] at hlt
      exact absurd hlt (Nat.lt_irrefl _)
  fun_induction run r generalizing r' with
  | case1 r hf => exact hclosed
  | case2 r hf ih =>
      have hf : r.finished = false := Bool.eq_false_iff.mpr hf
      have hsame : r'.openGroups = r.openGroups := by rw [hx.same]
      by_cases hnil : r.cursor.ahead = []
      · have ho : r.openGroups ≠ [] := fun ho => by
          simp [finished, ho, atEnd_of_ahead_nil hnil] at hf
        refine absurd ?_ (hsame ▸ ho)
        rcases hx.cursor with h | ⟨-, -, h⟩
        · rw [hnil, List.nil_append] at h
          have hend : r'.cursor.atEnd = false := by simp [atEnd, isAt, current, h, ht]
          obtain ⟨hstep, hrest⟩ := step_of_blank h (by rw [ht]; rfl)
          rcases hlead.eq_or_lt hend with rfl | ⟨hs, -⟩
          · exact hgroups
          · have hopen := hstuck hs (by rw [hstep, cursor_apply]; exact hrest)
            rwa [hstep, openGroups_apply] at hopen
        · exact hstuck hlead h
      · have hend := hno.atEnd hnil
        have h : r'.cursor.ahead = r.cursor.ahead ++ t :: k :: tail := by
          rcases hx.cursor with h | ⟨-, h, -⟩
          · exact h
          · exact absurd h hnil
        have hs : Leads r'.step q := by
          rcases hlead.eq_or_lt (atEnd_append h hend) with rfl | ⟨hs, -⟩
          · have hcount := congrArg List.length (hq.symm.trans h)
            simp only [List.length_append, List.length_cons] at hcount
            omega
          · exact hs
        rcases step_overruns h hno ht hk hx.same hend hclosed with ⟨hstep, hshut⟩ | hle
        · exact ih hstep (hno.reaches (reaches_step hf)) hshut hs
        · have hback := Leads.remaining_le hs
          omega

end Reading

end Schematic
