import Schematic.Proofs.Reading.Effect
import Schematic.Proofs.Token.Sources

/-!
# How far a statement looks

Every look ahead stops at a line end, and most stop at a closing brace as well: `Follows` compares a
cursor with one that sees the same tokens and, behind them, such a boundary with any text. As long
as nothing is left open, a reader finds the same in front of both and leaves them in the same
relation. The one exception is the question whether a brace opens fields or a group, which looks
over line ends; it only matters if nothing but blanks follows the brace.
-/

namespace Schematic

/-- All reports are of the kind that leaves a reading in good order, so the text is accepted. -/
def Clean (ds : List Diagnostic) : Prop := ∀ d ∈ ds, d.severity = .info

theorem clean_append {ds es : List Diagnostic} : Clean (ds ++ es) ↔ Clean ds ∧ Clean es :=
  List.forall_mem_append

/-- A bracket, a brace or a group is open where the input ends. More text could still close it. -/
def Problem.leavesOpen : Problem → Bool
  | .openGroup _ | .openSubgraph _ | .openAttributes _ | .openFields _ => true
  | _ => false

/-- Nothing is reported that would reach over the end of the input. Other reports, of errors too, do
no harm here. -/
def Closed (ds : List Diagnostic) : Prop := ∀ d ∈ ds, d.problem.leavesOpen = false

theorem closed_nil : Closed [] := fun _ h => absurd h List.not_mem_nil

theorem closed_append {ds es : List Diagnostic} : Closed (ds ++ es) ↔ Closed ds ∧ Closed es :=
  List.forall_mem_append

theorem Clean.closed {ds : List Diagnostic} (h : Clean ds) : Closed ds := by
  intro d hd
  have hsev := h d hd
  cases hp : d.problem <;> simp_all [Diagnostic.severity, Problem.severity, Problem.leavesOpen]

namespace Cursor

/-! ## The tokens ahead -/

section Ahead

variable {c : Cursor} {t : Token} {ts : List Token}

theorem current_cons (h : c.ahead = t :: ts) : c.current = t := by
  simp [current, h]

theorem isAt_cons (h : c.ahead = t :: ts) (k : Token.Kind) : c.isAt k = (t.kind == k) := by
  rw [isAt, current_cons h]

theorem advance_eq_skip (h : c.atEnd = false) : c.advance = c.skip 1 := by
  unfold advance
  rw [if_neg]
  simpa [atEnd] using h

theorem ahead_advance_cons (h : c.ahead = t :: ts) (hend : c.atEnd = false) :
    c.advance.ahead = ts := by
  rw [advance_eq_skip hend, skip, h]
  rfl

theorem ahead_skip_takeWhile (c : Cursor) (p : Token → Bool) :
    (c.skip (c.ahead.takeWhile p).length).ahead = c.ahead.dropWhile p := by
  calc c.ahead.drop (c.ahead.takeWhile p).length
      = (c.ahead.takeWhile p ++ c.ahead.dropWhile p).drop (c.ahead.takeWhile p).length := by
        rw [List.takeWhile_append_dropWhile]
    _ = c.ahead.dropWhile p := List.drop_left

theorem ahead_pass (h : c.ahead = t :: ts) (ht : t.kind ≠ .endOfInput) :
    (c.pass t.kind).ahead = ts := by
  have hat : c.isAt t.kind = true := by rw [isAt_cons h, beq_self_eq_true]
  have hend : c.atEnd = false := by
    rw [atEnd, isAt_cons h]
    simpa using ht
  rw [pass, if_pos hat, ahead_advance_cons h hend]

theorem pass_of_ne {k : Token.Kind} (hk : k ≠ .endOfInput)
    (h : ∀ u ∈ c.ahead.head?, u.kind ≠ k) : c.pass k = c := by
  rw [pass, if_neg]
  cases ha : c.ahead with
  | nil => simpa [isAt, current, ha, c.final_kind] using hk.symm
  | cons u us =>
      rw [ha] at h
      rw [isAt_cons ha]
      simpa using h u rfl

theorem pass_of_nil {k : Token.Kind} (hk : k ≠ .endOfInput) (h : c.ahead = []) : c.pass k = c := by
  refine pass_of_ne hk fun u hu => ?_
  rw [h] at hu
  cases hu

/-- A line, and what is behind its end. The line end itself is passed, if there is one. -/
theorem restOfLine_of_append {xs us : List Token} (h : c.ahead = xs ++ us)
    (hxs : ∀ x ∈ xs, x.kind.endsLine = false) (hus : ∀ u ∈ us.head?, u.kind = .newline) :
    c.restOfLine.1 = xs ∧ c.restOfLine.2.ahead = us.tail := by
  have hline : c.upTo (fun _ => false) = xs := by
    have hinside : ∀ x ∈ xs, (!x.kind.endsLine && !false) = true := by
      intro x hx
      rw [hxs x hx]
      rfl
    rw [upTo, h, List.takeWhile_append_of_pos hinside]
    cases us with
    | nil => exact List.append_nil xs
    | cons u us =>
        rw [List.takeWhile_cons_of_neg (by simp [hus u rfl, Token.Kind.endsLine]), List.append_nil]
  have hskip : (c.skip xs.length).ahead = us := by
    rw [skip, h]
    exact List.drop_left
  refine ⟨hline, ?_⟩
  show ((c.skip (c.upTo fun _ => false).length).pass .newline).ahead = us.tail
  rw [hline]
  cases us with
  | nil =>
      rw [pass_of_nil (k := .newline) (by decide) hskip]
      exact hskip
  | cons u us =>
      have hu : u.kind = .newline := hus u rfl
      have hpass := ahead_pass hskip (by rw [hu]; decide)
      rw [hu] at hpass
      exact hpass

/-- What stands in front of the first closing bracket or brace is enclosed. Reading such a stretch
counts no nesting. -/
theorem enclosed_of_append {content : List Token} (problem : Problem)
    (h : c.advance.ahead = content ++ t :: ts) (ht : t.kind ≠ .endOfInput)
    (hcontent : ∀ u ∈ content, u.kind ≠ t.kind ∧ u.kind ≠ .endOfInput) :
    (c.enclosed t.kind problem).value = content ∧
      (c.enclosed t.kind problem).diagnostics = [] ∧
      (c.enclosed t.kind problem).cursor.ahead = ts := by
  have hinside : ∀ u ∈ content, (u.kind != t.kind && u.kind != .endOfInput) = true := by
    intro u hu
    simpa using hcontent u hu
  have hvalue : (c.enclosed t.kind problem).value = content := by
    show c.advance.ahead.takeWhile _ = content
    rw [h, List.takeWhile_append_of_pos hinside, List.takeWhile_cons_of_neg (by simp),
      List.append_nil]
  have hrest : (c.advance.skip content.length).ahead = t :: ts := by
    rw [skip, h]
    exact List.drop_left
  have hend : (c.advance.skip content.length).atEnd = false := by
    rw [atEnd, isAt_cons hrest]
    simpa using ht
  refine ⟨hvalue, ?_, ?_⟩
  · show (if (c.advance.skip (c.enclosed t.kind problem).value.length).atEnd then _ else _) = []
    rw [hvalue, hend]
    rfl
  · show ((c.advance.skip (c.enclosed t.kind problem).value.length).pass t.kind).ahead = ts
    rw [hvalue]
    exact ahead_pass hrest ht

end Ahead

/-! ## Up to a boundary -/

/-- Kinds that end what can stand on one line of a group: a statement in front of them is over. -/
def isBoundary (k : Token.Kind) : Bool := k == .newline || k == .closeBrace

/-- Kinds that say something about the statement in front of them. Asked for one of these, a
boundary and the end of the input give the same answer. -/
def isInner (k : Token.Kind) : Bool := !isBoundary k && k != .endOfInput

theorem isInner_of_isName {k : Token.Kind} (h : k.isName = true) : isInner k = true := by
  cases k <;> first | rfl | cases h

/-- `d` sees what `c` sees, and behind it `t` and then `ys`. If `t` is a line end, it may have been
passed already. -/
def Follows (t : Token) (ys : List Token) (c d : Cursor) : Prop :=
  d.ahead = c.ahead ++ t :: ys ∨ t.kind = .newline ∧ c.ahead = [] ∧ d.ahead = ys

section Boundary

variable {t : Token} {ys : List Token} {c d : Cursor}

theorem takeWhile_append_of_lt {q : Token → Bool} {xs zs : List Token}
    (h : (xs.takeWhile q).length < xs.length) : (xs ++ zs).takeWhile q = xs.takeWhile q := by
  rw [List.takeWhile_append, if_neg (Nat.ne_of_lt h)]

theorem ahead_ne_nil (h : c.atEnd = false) : c.ahead ≠ [] := fun he => by
  rw [atEnd_of_ahead_nil he] at h
  cases h

theorem skip_append (h : d.ahead = c.ahead ++ t :: ys) {n : Nat} (hn : n ≤ c.ahead.length) :
    (d.skip n).ahead = (c.skip n).ahead ++ t :: ys := by
  simp only [skip, h]
  exact List.drop_append_of_le_length hn

theorem peek_append (h : d.ahead = c.ahead ++ t :: ys) {i : Nat} (hi : i < c.ahead.length) :
    d.peek i = c.peek i := by
  simp only [peek, h, List.getElem?_append_left hi, List.getElem?_eq_getElem hi, Option.getD_some]

theorem current_eq_peek (c : Cursor) : c.current = c.peek 0 := by
  cases hc : c.ahead <;> simp [current, peek, hc]

theorem current_append (h : d.ahead = c.ahead ++ t :: ys) (hc : c.ahead ≠ []) :
    d.current = c.current := by
  rw [current_eq_peek, current_eq_peek, peek_append h (List.length_pos_iff.mpr hc)]

theorem atEnd_append (h : d.ahead = c.ahead ++ t :: ys) (hc : c.atEnd = false) :
    d.atEnd = false := by
  rw [atEnd, isAt, current_append h (ahead_ne_nil hc)]
  exact hc

theorem advance_append (h : d.ahead = c.ahead ++ t :: ys) (hc : c.atEnd = false) :
    d.advance.ahead = c.advance.ahead ++ t :: ys := by
  rw [advance_eq_skip hc, advance_eq_skip (atEnd_append h hc)]
  exact skip_append h (List.length_pos_iff.mpr (ahead_ne_nil hc))

/-- The token behind what `c` sees says nothing about what is in front of it. Where `c` sees the end
of the input, `d` sees the boundary, and neither is an inner token. -/
theorem kind_peek_append (h : d.ahead = c.ahead ++ t :: ys) (ht : isBoundary t.kind = true)
    {i : Nat} (hi : i ≤ c.ahead.length) {p : Token.Kind → Bool}
    (hp : ∀ k, p k = true → isInner k = true) : p (d.peek i).kind = p (c.peek i).kind := by
  rcases Nat.lt_or_eq_of_le hi with hi | hi
  · rw [peek_append h hi]
  · have hc : (c.peek i).kind = .endOfInput := by simp [peek, hi, c.final_kind]
    have hd : d.peek i = t := by simp [peek, h, hi]
    have outer : ∀ k, isInner k = false → p k = false := fun k hk => by
      cases hpk : p k with
      | false => rfl
      | true => rw [hp k hpk] at hk; cases hk
    rw [hd, hc, outer t.kind (by simp [isInner, ht]), outer .endOfInput rfl]

theorem isAt_append (h : d.ahead = c.ahead ++ t :: ys) (ht : isBoundary t.kind = true)
    {k : Token.Kind} (hk : isInner k = true) : d.isAt k = c.isAt k := by
  rw [isAt, isAt, current_eq_peek, current_eq_peek]
  refine kind_peek_append h ht (Nat.zero_le _) (p := fun j => j == k) fun j hj => ?_
  rw [eq_of_beq hj]
  exact hk

/-- Past an inner token there is more, or the boundary. The mark for the end is no inner token. -/
theorem lt_of_isInner {i : Nat} (h : isInner (c.peek i).kind = true) : i < c.ahead.length := by
  refine Nat.not_le.mp fun hi => ?_
  have hc : (c.peek i).kind = .endOfInput := by
    simp [peek, List.getElem?_eq_none hi, c.final_kind]
  rw [hc] at h
  cases h

theorem advance_atEnd_of_peek (hc : c.atEnd = false) (h : isInner (c.peek 1).kind = true) :
    c.advance.atEnd = false := by
  rw [atEnd, isAt, current_advance hc]
  cases hk : (c.peek 1).kind <;> simp_all [isInner]

/-! ## The readers of the cursor -/

theorem follows_pass_newline (h : d.ahead = c.ahead ++ t :: ys) :
    Follows t ys (c.pass .newline) (d.pass .newline) := by
  by_cases hc : c.ahead = []
  · have hcc : c.pass .newline = c := by
      rw [pass, if_neg]
      simp [isAt, current, hc, c.final_kind]
    rw [hc, List.nil_append] at h
    rw [hcc]
    by_cases ht : t.kind = .newline
    · refine Or.inr ⟨ht, hc, ?_⟩
      have hd : d.isAt .newline = true := by simp [isAt, current, h, ht]
      have hend : d.atEnd = false := by simp [atEnd, isAt, current, h, ht]
      rw [pass, if_pos hd, advance_eq_skip hend]
      simp [skip, h]
    · refine Or.inl ?_
      rw [pass, if_neg, hc, h, List.nil_append]
      simpa [isAt, current, h] using ht
  · refine Or.inl ?_
    have hcur := current_append h hc
    unfold pass
    rw [isAt, hcur, ← isAt]
    split
    · next hk =>
      refine advance_append h ?_
      simp only [isAt, beq_iff_eq] at hk
      simp [atEnd, isAt, hk]
    · exact h

theorem follows_restOfLine (h : d.ahead = c.ahead ++ t :: ys) (stop : Token → Bool)
    (hstop : t.kind.endsLine = true ∨ stop t = true) :
    (d.restOfLine stop).1 = (c.restOfLine stop).1 ∧
      Follows t ys (c.restOfLine stop).2 (d.restOfLine stop).2 := by
  have hline : d.upTo stop = c.upTo stop := by
    unfold upTo
    rw [h]
    refine Token.takeWhile_append_cons ?_ c.ahead ys
    rcases hstop with hs | hs <;> simp [hs]
  refine ⟨hline, ?_⟩
  unfold restOfLine
  rw [hline]
  exact follows_pass_newline (skip_append h (List.takeWhile_prefix _).length_le)

/-- A bracket that is closed is closed in front of the boundary, and text behind it changes nothing.
One that is left open would take in that text. -/
theorem enclosed_append (h : d.ahead = c.ahead ++ t :: ys) (hc : c.atEnd = false)
    {closer : Token.Kind} {problem : Problem} (hopen : problem.leavesOpen = true)
    (hshut : Closed (c.enclosed closer problem).diagnostics) :
    (d.enclosed closer problem).value = (c.enclosed closer problem).value ∧
      (d.enclosed closer problem).diagnostics = (c.enclosed closer problem).diagnostics ∧
      (d.enclosed closer problem).cursor.ahead =
        (c.enclosed closer problem).cursor.ahead ++ t :: ys := by
  have hadvance := advance_append h hc
  have hclosed : (c.advance.skip (c.advance.ahead.takeWhile fun t =>
      t.kind != closer && t.kind != .endOfInput).length).atEnd = false := by
    cases hend : (c.advance.skip (c.advance.ahead.takeWhile fun t =>
        t.kind != closer && t.kind != .endOfInput).length).atEnd with
    | false => rfl
    | true =>
        have hnot := hshut ⟨c.current.place, problem⟩ (by simp [enclosed, hend])
        simp [hopen] at hnot
  have hlt : (c.advance.ahead.takeWhile fun t =>
      t.kind != closer && t.kind != .endOfInput).length < c.advance.ahead.length := by
    refine Nat.not_le.mp fun hle => ahead_ne_nil hclosed ?_
    simp only [skip, List.drop_eq_nil_iff]
    exact hle
  have hcontent : (d.advance.ahead.takeWhile fun t => t.kind != closer && t.kind != .endOfInput) =
      c.advance.ahead.takeWhile fun t => t.kind != closer && t.kind != .endOfInput := by
    rw [hadvance]
    exact takeWhile_append_of_lt hlt
  have hskip := skip_append hadvance (Nat.le_of_lt hlt)
  refine ⟨hcontent, ?_, ?_⟩
  · simp only [enclosed, hcontent, hclosed, atEnd_append hskip hclosed]
    rfl
  · simp only [enclosed, hcontent]
    have hcur := current_append hskip (ahead_ne_nil hclosed)
    unfold pass
    rw [isAt, hcur, ← isAt]
    split
    · exact advance_append hskip hclosed
    · exact hskip

/-! ## What decides the form -/

theorem hasConnector_append_of_quiet {zs : List Token}
    (hz : ∀ depth, hasConnector depth zs = false) (depth : Nat) (xs : List Token) :
    hasConnector depth (xs ++ zs) = hasConnector depth xs := by
  induction xs generalizing depth with
  | nil => rw [List.nil_append, hz]; rfl
  | cons x xs ih => simp only [List.cons_append, hasConnector, ih]

/-- Tokens that are passed where the first row of fields is looked for. A line end is one of them,
so behind nothing but these the search goes on into the next line. -/
def isBlankKind (k : Token.Kind) : Bool := k == .newline || k == .comment || k == .other

/-- Only if nothing but blanks follows the brace is the first row looked for behind the line end.
The induction is on the tokens behind the brace; at the first that is no blank the search is over.
-/
theorem beginsWithRow_append (ht : t.kind = .newline) (xs ys : List Token) :
    beginsWithRow (xs ++ t :: ys) = beginsWithRow xs ∨
      beginsWithRow xs = false ∧ ∀ u ∈ xs, isBlankKind u.kind = true := by
  induction xs with
  | nil => exact Or.inr ⟨rfl, by simp⟩
  | cons x xs ih =>
      cases hb : isBlankKind x.kind with
      | true =>
          have hskip : ∀ us, beginsWithRow (x :: us) = beginsWithRow us := by
            intro us
            cases hk : x.kind <;> simp_all [isBlankKind, beginsWithRow]
          rw [List.cons_append, hskip, hskip]
          rcases ih with ih | ⟨ih, hall⟩
          · exact Or.inl ih
          · refine Or.inr ⟨ih, fun u hu => ?_⟩
            rcases List.mem_cons.mp hu with rfl | hu
            · exact hb
            · exact hall u hu
      | false =>
          refine Or.inl ?_
          have hhead : ((xs ++ t :: ys).head?.any fun u => u.kind.isName) =
              xs.head?.any fun u => u.kind.isName := by
            cases xs with
            | nil => simp [ht, Token.Kind.isName]
            | cons y xs => rfl
          rw [List.cons_append]
          cases hk : x.kind <;> simp_all [isBlankKind, beginsWithRow]

end Boundary

end Cursor

/-! ## Entities -/

namespace Declaration

open Cursor

variable {t : Token} {ys : List Token} {c d : Cursor}

theorem attributes_append (h : d.ahead = c.ahead ++ t :: ys) (ht : isBoundary t.kind = true)
    (dialect : Dialect) (owner : String)
    (hshut : Closed (attributes dialect owner c).diagnostics) :
    (attributes dialect owner d).value = (attributes dialect owner c).value ∧
      (attributes dialect owner d).diagnostics = (attributes dialect owner c).diagnostics ∧
      (attributes dialect owner d).cursor.ahead =
        (attributes dialect owner c).cursor.ahead ++ t :: ys := by
  have hat := isAt_append h ht (k := .openBracket) rfl
  cases hc : c.isAt .openBracket with
  | false =>
      simp only [attributes, hat, hc, Bool.false_eq_true, if_false]
      exact ⟨trivial, trivial, h⟩
  | true =>
      have hend : c.atEnd = false := by
        simp only [isAt, beq_iff_eq] at hc
        simp [atEnd, isAt, hc]
      simp only [attributes, hc, if_true] at hshut
      obtain ⟨hvalue, hdiag, hrest⟩ := enclosed_append h hend rfl hshut
      simp only [attributes, hat, hc, if_true, hvalue]
      exact ⟨trivial, hdiag, hrest⟩

theorem body_append (h : d.ahead = c.ahead ++ t :: ys) (ht : isBoundary t.kind = true)
    (dialect : Dialect) (owner : String) (hshut : Closed (bodyTaken dialect owner c).diagnostics) :
    (bodyTaken dialect owner d).value = (bodyTaken dialect owner c).value ∧
      (bodyTaken dialect owner d).diagnostics = (bodyTaken dialect owner c).diagnostics ∧
      (bodyTaken dialect owner d).cursor.ahead =
        (bodyTaken dialect owner c).cursor.ahead ++ t :: ys := by
  have hat := isAt_append h ht (k := .openBrace) rfl
  cases hc : c.isAt .openBrace with
  | false =>
      simp only [bodyTaken, hat, hc, Bool.false_eq_true, if_false]
      exact ⟨trivial, trivial, h⟩
  | true =>
      have hend : c.atEnd = false := by
        simp only [isAt, beq_iff_eq] at hc
        simp [atEnd, isAt, hc]
      simp only [bodyTaken, hc, if_true] at hshut
      obtain ⟨hvalue, hdiag, hrest⟩ := enclosed_append h hend rfl hshut
      simp only [bodyTaken, hat, hc, if_true, fields, hvalue]
      exact ⟨trivial, hdiag, hrest⟩

theorem entity_append (h : d.ahead = c.ahead ++ t :: ys) (ht : isBoundary t.kind = true)
    (dialect : Dialect) (id : String) (known : KeyedList String String)
    (hshut : Closed (entityTaken dialect id known c).diagnostics) :
    (entityTaken dialect id known d).value = (entityTaken dialect id known c).value ∧
      (entityTaken dialect id known d).diagnostics = (entityTaken dialect id known c).diagnostics ∧
      Follows t ys (entityTaken dialect id known c).cursor
        (entityTaken dialect id known d).cursor := by
  obtain ⟨hattrs, hbody⟩ := closed_append.mp hshut
  obtain ⟨hvalue, hdiag, hrest⟩ := attributes_append h ht dialect id hattrs
  obtain ⟨hvalue', hdiag', hrest'⟩ := body_append hrest ht dialect id hbody
  refine ⟨?_, ?_, follows_pass_newline hrest'⟩
  · simp only [entityTaken, hvalue, hvalue']
  · simp only [entityTaken, hdiag, hdiag']

theorem titled_append (h : d.ahead = c.ahead ++ t :: ys) (ht : isBoundary t.kind = true)
    (hc : c.atEnd = false) (dialect : Dialect) :
    (titled dialect d).1 = (titled dialect c).1 ∧ (titled dialect d).2.1 = (titled dialect c).2.1 ∧
      (titled dialect d).2.2.ahead = (titled dialect c).2.2.ahead ++ t :: ys := by
  have hcur := current_append h (ahead_ne_nil hc)
  have hadv := advance_append h hc
  by_cases hrest : c.advance.ahead = []
  · -- the boundary follows the first name, so there is no second one
    have hk : c.advance.current.kind = .endOfInput := by
      simp [current, hrest, c.advance.final_kind]
    have hd : d.advance.current = t := by simp [current, hadv, hrest]
    have hnot : t.kind ≠ .ident := fun he => by rw [he] at ht; cases ht
    have has : d.advance.current.isKeyword "as" = false := by simp [Token.isKeyword, hd, hnot]
    have has' : c.advance.current.isKeyword "as" = false := by simp [Token.isKeyword, hk]
    simp only [titled, has, has', Bool.false_and, Bool.false_eq_true, if_false, hcur]
    exact ⟨trivial, trivial, hadv⟩
  · have hcur' := current_append hadv hrest
    have hname := kind_peek_append hadv ht (List.length_pos_iff.mpr hrest)
      (p := Token.Kind.isName) fun k hk => isInner_of_isName hk
    cases has : c.advance.current.isKeyword "as" && (c.advance.peek 1).kind.isName with
    | false =>
        simp only [titled, hcur', hname, has, Bool.false_eq_true, if_false, hcur]
        exact ⟨trivial, trivial, hadv⟩
    | true =>
        obtain ⟨hkey, hpeek⟩ := Bool.and_eq_true_iff.mp has
        have hend : c.advance.atEnd = false := by
          simp only [Token.isKeyword, Bool.and_eq_true, beq_iff_eq] at hkey
          simp [atEnd, isAt, hkey.1]
        have hinner := isInner_of_isName hpeek
        have hend' := advance_atEnd_of_peek hend hinner
        have hadv' := advance_append hadv hend
        have hcur'' := current_append hadv' (ahead_ne_nil hend')
        simp only [titled, hcur', hname, has, if_true, hcur, hcur'']
        exact ⟨trivial, trivial, advance_append hadv' hend'⟩

/-- The decorations behind a name end in front of a line end. So a declaration gets the name and the
label it had, and comes to its body at the same token. -/
theorem passDecorations_append (h : d.ahead = c.ahead ++ t :: ys) (ht : t.kind = .newline)
    (hc : c.atEnd = false) (hname : (c.peek 1).kind.isName = true) (dialect : Dialect) :
    (titled dialect d.advance).1 = (titled dialect c.advance).1 ∧
      (titled dialect d.advance).2.1 = (titled dialect c.advance).2.1 ∧
      (passDecorations (titled dialect d.advance).2.2).ahead =
        (passDecorations (titled dialect c.advance).2.2).ahead ++ t :: ys := by
  have hend := advance_atEnd_of_peek hc (isInner_of_isName hname)
  obtain ⟨hid, hlabel, hrest⟩ :=
    titled_append (advance_append h hc) (by rw [ht]; rfl) hend dialect
  refine ⟨hid, hlabel, ?_⟩
  have hup : (titled dialect d.advance).2.2.upTo
        (fun t => t.kind == .openBracket || t.kind == .openBrace) =
      (titled dialect c.advance).2.2.upTo
        (fun t => t.kind == .openBracket || t.kind == .openBrace) := by
    unfold upTo
    rw [hrest]
    exact Token.takeWhile_append_cons (by simp [ht, Token.Kind.endsLine]) _ _
  unfold passDecorations
  rw [hup]
  exact skip_append hrest (List.takeWhile_prefix _).length_le

theorem keyword_append (h : d.ahead = c.ahead ++ t :: ys) (ht : t.kind = .newline)
    (hc : c.atEnd = false) (hname : (c.peek 1).kind.isName = true) (dialect : Dialect)
    (hshut : Closed (keywordTaken dialect c).diagnostics) :
    (keywordTaken dialect d).value = (keywordTaken dialect c).value ∧
      (keywordTaken dialect d).diagnostics = (keywordTaken dialect c).diagnostics ∧
      Follows t ys (keywordTaken dialect c).cursor (keywordTaken dialect d).cursor := by
  obtain ⟨hid, hlabel, hrest⟩ := passDecorations_append h ht hc hname dialect
  simp only [keywordTaken, hid, hlabel, current_append h (ahead_ne_nil hc)]
  exact entity_append hrest (by rw [ht]; rfl) dialect _ _ hshut

end Declaration

/-! ## Statements -/

namespace Reading

open Cursor

section Boundary

variable {t : Token} {ys : List Token} {c d : Cursor}

/-- The same is added, and the cursors keep their relation. This is what one statement hands on to
the next. -/
structure Effect.Follows (t : Token) (ys : List Token) (e e' : Effect) : Prop where
  same : e' = { e with cursor := e'.cursor }
  cursor : Cursor.Follows t ys e.cursor e'.cursor

/-- The tokens that a form has seen behind the first one. Other forms make do with the token at the
cursor. -/
def Sees (c : Cursor) : Form → Prop
  | .keywordGroup => (c.peek 1).kind.isName = true ∧ (c.peek 2).kind = .openBrace
  | .group => (c.peek 1).kind = .openBrace
  | .declaration => (c.peek 1).kind.isName = true
  | _ => True

theorem opening_follows (h : d.ahead = c.ahead ++ t :: ys) (hc : c.atEnd = false)
    (hbrace : (c.peek 1).kind = .openBrace) :
    Effect.Follows t ys (Effect.opening c) (Effect.opening d) := by
  have hend : c.advance.atEnd = false := advance_atEnd_of_peek hc (by rw [hbrace]; rfl)
  refine ⟨?_, Or.inl (advance_append (advance_append h hc) hend)⟩
  simp only [Effect.opening, current_append h (ahead_ne_nil hc)]

/-- The statements of a group that a closing brace on their line ends. Among the others are those
that take the rest of the line, and the brace with it. -/
def isInline (f : Form) : Prop := f ∈ [Form.blank, .entity, .lone, .stray]

/-- The declarations, which can leave a bracket or a brace open. No other form looks over line ends.
-/
def Opens (f : Form) : Prop := f = .entity ∨ f = .declaration

/-- A statement that a closing brace can end looks over none, nor over a line end, if it leaves
nothing open. -/
theorem effect_follows_of_isInline (h : d.ahead = c.ahead ++ t :: ys) {top : Bool} {form : Form}
    (ht : t.kind = .newline ∨ t.kind = .closeBrace ∧ top = false) (hc : c.atEnd = false)
    (hform : isInline form) (dialect : Dialect)
    (hshut : Opens form → Closed (effect dialect c top form).diagnostics) :
    Effect.Follows t ys (effect dialect c top form) (effect dialect d top form) := by
  have hb : isBoundary t.kind = true := by
    rcases ht with ht | ⟨ht, -⟩ <;> rw [ht] <;> rfl
  have hcur := current_append h (ahead_ne_nil hc)
  have hadv := advance_append h hc
  simp only [isInline, List.mem_cons, List.not_mem_nil, or_false] at hform
  rcases hform with rfl | rfl | rfl | rfl
  · exact ⟨rfl, Or.inl hadv⟩
  · obtain ⟨hvalue, hdiag, hfollow⟩ :=
      Declaration.entity_append hadv hb dialect c.current.text .empty (hshut (Or.inl rfl))
    refine ⟨?_, by simp only [effect, Effect.declaring, hcur]; exact hfollow⟩
    simp only [effect, Effect.declaring, hcur, hvalue, hdiag]
  · obtain ⟨-, hrest⟩ := follows_restOfLine hadv
      (fun u => !top && u.kind == .closeBrace) (by
        rcases ht with ht | ⟨ht, htop⟩
        · exact Or.inl (by rw [ht]; rfl)
        · exact Or.inr (by simp [ht, htop]))
    exact ⟨by simp only [effect, hcur], hrest⟩
  · exact ⟨by simp only [effect, hcur], Or.inl hadv⟩

/-- A statement that leaves nothing open does not look over a line end. The cases are the forms,
each with the readers it is made of. -/
theorem effect_follows (h : d.ahead = c.ahead ++ t :: ys) {top : Bool} {form : Form}
    (ht : t.kind = .newline) (hc : c.atEnd = false) (dialect : Dialect) (hsees : Sees c form)
    (hshut : Opens form → Closed (effect dialect c top form).diagnostics) :
    Effect.Follows t ys (effect dialect c top form) (effect dialect d top form) := by
  have hcur := current_append h (ahead_ne_nil hc)
  have hadv := advance_append h hc
  have hends : t.kind.endsLine = true := by rw [ht]; rfl
  obtain ⟨hline, hrest⟩ := follows_restOfLine h (fun _ => false) (Or.inl hends)
  obtain ⟨hline', hrest'⟩ := follows_restOfLine hadv (fun _ => false) (Or.inl hends)
  cases form with
  | passed => exact ⟨rfl, hrest⟩
  | header type => exact ⟨by simp only [effect, hline'], hrest'⟩
  | directive => exact ⟨by simp only [effect, hline', hcur], hrest'⟩
  | keywordGroup =>
      have hend := advance_atEnd_of_peek hc (isInner_of_isName hsees.1)
      refine opening_follows hadv hend ?_
      rw [peek_advance hc]
      exact hsees.2
  | endBlock => exact ⟨by simp only [effect, hline', hcur], hrest'⟩
  | declaration =>
      obtain ⟨hvalue, hdiag, hfollow⟩ :=
        Declaration.keyword_append h ht hc hsees dialect (hshut (Or.inr rfl))
      refine ⟨?_, by simp only [effect, Effect.declaring]; exact hfollow⟩
      simp only [effect, Effect.declaring, hvalue, hdiag]
  | group => exact opening_follows h hc hsees
  | edges => exact ⟨by simp only [effect, hline], hrest⟩
  | metadata => exact ⟨by simp only [effect, hline', hcur], hrest'⟩
  | _ => exact effect_follows_of_isInline h (Or.inl ht) hc (by simp [isInline]) dialect hshut

end Boundary

/-! ## The choice of a form -/

theorem wordForm?_cases {r : Reading} {top : Bool} {f : Form} (h : r.wordForm? top = some f) :
    (∃ type, f = .header type ∧ r.dialect = .mermaid) ∨ f = .directive ∨ f = .passed := by
  simp only [wordForm?] at h
  split at h
  · cases h
  · split at h
    · next type htype =>
      cases h
      split at htype
      · next hm => exact Or.inl ⟨type, rfl, hm.2.1⟩
      · cases htype
    · split at h
      · cases h
        cases top
        · exact Or.inr (Or.inr rfl)
        · exact Or.inr (Or.inl rfl)
      · split at h
        · cases h
          exact Or.inr (Or.inr rfl)
        · cases h

theorem groupForm?_cases {r : Reading} {f : Form} (h : r.groupForm? = some f) :
    f = .keywordGroup ∨ f = .endBlock := by
  simp only [groupForm?] at h
  split at h
  · split at h
    · cases h
      exact Or.inl rfl
    · split at h
      · cases h
        exact Or.inr rfl
      · cases h
  · cases h

theorem shapeForm_cases (r : Reading) (top : Bool) :
    r.shapeForm top ∈ [Form.entity, .group, .edges, .lone, .stray] ∨
      top = true ∧ r.shapeForm top = .metadata := by
  simp only [shapeForm]
  split
  · split <;> simp
  · split
    · simp
    · split
      · simp
      · split
        · split
          · next h => simp_all
          · simp
        · simp

/-- Where a form comes from. The choice asks for these in turn, and this is what it answers by. -/
theorem form_cases (r : Reading) (top : Bool) :
    r.form top = .blank ∨ r.cursor.current.kind = .atSign ∧ r.form top = .passed ∨
      r.wordForm? top = some (r.form top) ∨ r.groupForm? = some (r.form top) ∨
      r.declares = true ∧ r.form top = .declaration ∨ r.form top = r.shapeForm top := by
  unfold form
  split
  case h_5 =>
    split
    · next hw => simp [hw]
    · split
      · next hg => simp [hg]
      · split
        · next hd => simp [hd]
        · simp
  case h_4 h => simp [h]
  all_goals simp

/-- What decides for a form: the word it begins with, the group or the declaration it looks like, or
the shape of its line. -/
def ChosenBy (r : Reading) (top : Bool) : Form → Prop
  | .header type => r.wordForm? top = some (.header type)
  | .directive => r.wordForm? top = some .directive
  | .keywordGroup => r.groupForm? = some .keywordGroup
  | .endBlock => r.groupForm? = some .endBlock
  | .declaration => r.declares = true
  | .blank | .passed => True
  | f => r.shapeForm top = f

theorem chosenBy_form (r : Reading) (top : Bool) : ChosenBy r top (r.form top) := by
  rcases form_cases r top with hf | ⟨-, hf⟩ | hf | hf | ⟨hd, hf⟩ | hf
  · rw [hf]; trivial
  · rw [hf]; trivial
  · rcases wordForm?_cases hf with ⟨type, hk, -⟩ | hk | hk
    · rw [hk] at hf ⊢; exact hf
    · rw [hk] at hf ⊢; exact hf
    · rw [hk]; trivial
  · rcases groupForm?_cases hf with hk | hk <;> rw [hk] at hf ⊢ <;> exact hf
  · rw [hf]; exact hd
  · have hs := shapeForm_cases r top
    simp only [List.mem_cons, List.not_mem_nil, or_false] at hs
    rcases hs with (hk | hk | hk | hk | hk) | ⟨-, hk⟩ <;> rw [hf, hk] <;> exact hk

theorem chosenBy_of_form {r : Reading} {top : Bool} {f : Form} (h : r.form top = f) :
    ChosenBy r top f :=
  h ▸ chosenBy_form r top

theorem mermaid_of_form {r : Reading} {top : Bool} {type : String}
    (h : r.form top = .header type) : r.dialect = .mermaid := by
  rcases wordForm?_cases (chosenBy_of_form h) with ⟨_, -, hm⟩ | hk | hk
  · exact hm
  · cases hk
  · cases hk

/-- The choice of a form has seen what the form needs, since it was chosen by just that. -/
theorem form_sees (r : Reading) (top : Bool) : Sees r.cursor (r.form top) := by
  have hguard := form_guard r top
  cases hf : r.form top with
  | keywordGroup => rw [hf] at hguard; exact hguard
  | group => rw [hf] at hguard; exact hguard.2
  | declaration =>
      have hd : r.declares = true := chosenBy_of_form hf
      simp only [declares, Bool.and_eq_true] at hd
      exact hd.1.2
  | _ => trivial

/-- What the shape of a line depends on. Whether the text behind a brace looks like fields matters
only where it decides between an entity and a group. -/
theorem shapeForm_congr {r r' : Reading} (top : Bool) (hdialect : r'.dialect = r.dialect)
    (hcurrent : r'.cursor.current = r.cursor.current)
    (hline : r'.cursor.lineHasConnector = r.cursor.lineHasConnector)
    (hbrace : ((r'.cursor.peek 1).kind == .openBrace) = ((r.cursor.peek 1).kind == .openBrace))
    (hbracket : ((r'.cursor.peek 1).kind == .openBracket) =
      ((r.cursor.peek 1).kind == .openBracket)) :
    r'.shapeForm top = r.shapeForm top ∨
      r'.cursor.looksLikeEntity ≠ r.cursor.looksLikeEntity ∧ (r.cursor.peek 1).kind = .openBrace ∧
        (r.shapeForm top = if r.cursor.looksLikeEntity then .entity else .group) ∧
        r'.shapeForm top = if r'.cursor.looksLikeEntity then .entity else .group := by
  by_cases hl : r'.cursor.looksLikeEntity = r.cursor.looksLikeEntity
  · exact Or.inl (by simp only [shapeForm, hdialect, hcurrent, hline, hbrace, hbracket, hl])
  · cases hopen : r.cursor.current.kind.isWord && (r.cursor.peek 1).kind == .openBrace &&
      !(r.dialect != .native && r.cursor.lineHasConnector) with
    | true =>
        refine Or.inr ⟨hl, ?_, by simp only [shapeForm, hopen, if_true], ?_⟩
        · simp only [Bool.and_eq_true, beq_iff_eq] at hopen
          exact hopen.1.2
        · simp only [shapeForm, hdialect, hcurrent, hline, hbrace, hopen, if_true]
    | false =>
        refine Or.inl ?_
        simp only [shapeForm, hdialect, hcurrent, hline, hbrace, hbracket, hopen,
          Bool.false_eq_true, if_false]

/-- What the choice of a form depends on: the dialect, whether there was a header, and a few answers
about the tokens ahead. Two readings that give the same answers choose the same form. -/
theorem form_congr {r r' : Reading} (top : Bool) (hdialect : r'.dialect = r.dialect)
    (hseen : r'.headerSeen = r.headerSeen) (hcurrent : r'.cursor.current = r.cursor.current)
    (hline : r'.cursor.lineHasConnector = r.cursor.lineHasConnector)
    (hname : (r'.cursor.peek 1).kind.isName = (r.cursor.peek 1).kind.isName)
    (hgroup : (r.cursor.peek 1).kind.isName = true →
      ((r'.cursor.peek 2).kind = .openBrace ↔ (r.cursor.peek 2).kind = .openBrace))
    (hbrace : ((r'.cursor.peek 1).kind == .openBrace) = ((r.cursor.peek 1).kind == .openBrace))
    (hbracket : ((r'.cursor.peek 1).kind == .openBracket) =
      ((r.cursor.peek 1).kind == .openBracket)) :
    r'.form top = r.form top ∨
      r'.cursor.looksLikeEntity ≠ r.cursor.looksLikeEntity ∧ (r.cursor.peek 1).kind = .openBrace ∧
        (r.form top = if r.cursor.looksLikeEntity then .entity else .group) ∧
        r'.form top = if r'.cursor.looksLikeEntity then .entity else .group := by
  have hw : r'.wordForm? top = r.wordForm? top := by
    simp only [wordForm?, hdialect, hseen, hcurrent, hline]
  have hg : r'.groupForm? = r.groupForm? := by
    simp only [groupForm?, hdialect, hcurrent, hname]
    by_cases hn : (r.cursor.peek 1).kind.isName = true
    · simp only [hgroup hn]
    · simp [hn]
  have hd : r'.declares = r.declares := by
    simp only [declares, hdialect, hcurrent, hline, hname]
  have hform : r'.form top = r.form top ∨
      r.form top = r.shapeForm top ∧ r'.form top = r'.shapeForm top := by
    simp only [form, hcurrent, hw, hg, hd]
    split
    case h_5 =>
      split
      · exact Or.inl rfl
      · split
        · exact Or.inl rfl
        · split
          · exact Or.inl rfl
          · exact Or.inr ⟨rfl, rfl⟩
    all_goals exact Or.inl rfl
  rcases hform with hsame | ⟨hr, hr'⟩
  · exact Or.inl hsame
  · rw [hr, hr']
    exact shapeForm_congr top hdialect hcurrent hline hbrace hbracket

/-- Text behind a boundary that is quiet up to the line end leaves the form as it is, or the brace
of a group stands in front of it and the first row is looked for in that text. -/
theorem form_append {t : Token} {ys : List Token} {r s : Reading}
    (h : s.cursor.ahead = r.cursor.ahead ++ t :: ys) (ht : isBoundary t.kind = true)
    (hquiet : ∀ depth, hasConnector depth (t :: ys) = false) (hdialect : s.dialect = r.dialect)
    (hseen : s.headerSeen = r.headerSeen) (hend : r.cursor.atEnd = false) (top : Bool) :
    s.form top = r.form top ∨
      s.cursor.looksLikeEntity ≠ r.cursor.looksLikeEntity ∧ (r.cursor.peek 1).kind = .openBrace ∧
        (r.form top = if r.cursor.looksLikeEntity then .entity else .group) ∧
        s.form top = if s.cursor.looksLikeEntity then .entity else .group := by
  have hpos := List.length_pos_iff.mpr (ahead_ne_nil hend)
  have hline : s.cursor.lineHasConnector = r.cursor.lineHasConnector := by
    unfold lineHasConnector
    rw [h, hasConnector_append_of_quiet hquiet]
  have hat {k : Token.Kind} (hk : isInner k = true) {i : Nat} (hi : i ≤ r.cursor.ahead.length) :
      ((s.cursor.peek i).kind == k) = ((r.cursor.peek i).kind == k) :=
    kind_peek_append h ht hi (p := fun j => j == k) fun j hj => by
      rw [eq_of_beq hj]
      exact hk
  have hgroup : (r.cursor.peek 1).kind.isName = true →
      ((s.cursor.peek 2).kind = .openBrace ↔ (r.cursor.peek 2).kind = .openBrace) := by
    intro hname
    have hlt := lt_of_isInner (isInner_of_isName hname)
    simpa using congrArg (· = true) (hat (k := .openBrace) rfl hlt)
  exact form_congr top hdialect hseen (current_append h (ahead_ne_nil hend)) hline
    (kind_peek_append h ht hpos fun k hk => isInner_of_isName hk) hgroup (hat rfl hpos)
    (hat rfl hpos)

end Reading

end Schematic
