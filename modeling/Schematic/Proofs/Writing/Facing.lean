import Schematic.Proofs.Reading.Acceptance
import Schematic.Proofs.Writing.Native
import Schematic.Reading.Run

/-!
# In front of written text

`Cursor.Faces` says that what is ahead of a cursor is the tokens of a written text, wherever it
stood. Passing a piece leaves the cursor in front of the rest, and the readers that take a line or
what stands between two brackets find exactly what was put there.
-/

namespace Schematic

open Token (IsWord)

/-! ## The kinds of written tokens -/

namespace Ink

/-- The kinds of the tokens of a text. Most conditions on what is written are about these alone. -/
def kinds (xs : List Ink) : List Token.Kind := xs.filterMap fun x => x.spelling?.map Prod.fst

theorem map_kind_tokens (p : Place) (xs : List Ink) :
    (tokens p xs).map Token.kind = kinds xs := by
  induction xs generalizing p with
  | nil => rfl
  | cons x xs ih => cases x <;> simp [tokens, kinds, spelling?] <;> exact ih _

theorem kinds_append (xs ys : List Ink) : kinds (xs ++ ys) = kinds xs ++ kinds ys :=
  List.filterMap_append

@[simp] theorem kinds_nil : kinds [] = [] := rfl

@[simp] theorem kinds_word (w : String) (xs : List Ink) :
    kinds (.word w :: xs) = Token.nameKind w.toList :: kinds xs := rfl

@[simp] theorem kinds_quoted (s : String) (xs : List Ink) :
    kinds (.quoted s :: xs) = .string :: kinds xs := rfl

@[simp] theorem kinds_mark (k : Token.Kind) (xs : List Ink) :
    kinds (.mark k :: xs) = k :: kinds xs := rfl

@[simp] theorem kinds_space (xs : List Ink) : kinds (.space :: xs) = kinds xs := rfl

theorem kind_mem_kinds {p : Place} {xs : List Ink} {t : Token} (h : t ∈ tokens p xs) :
    t.kind ∈ kinds xs := by
  rw [← map_kind_tokens p xs]
  exact List.mem_map_of_mem h

end Ink

/-- A longest stretch that ends where the other text begins, because the first element there fails
the test. -/
theorem takeWhile_append_of_head {α : Type} {q : α → Bool} {xs ys : List α}
    (hx : ∀ x ∈ xs, q x = true) (hy : ∀ y ∈ ys.head?, q y = false) :
    (xs ++ ys).takeWhile q = xs := by
  rw [List.takeWhile_append_of_pos hx]
  cases ys with
  | nil => simp
  | cons y ys =>
      have hq := hy y rfl
      simp [hq]

namespace Cursor

/-- Ahead of the cursor are the tokens of the text `xs`, wherever it stands. The place is left open,
so that passing a piece needs no arithmetic. -/
def Faces (c : Cursor) (xs : List Ink) : Prop := ∃ p, c.ahead = Ink.tokens p xs

namespace Faces

variable {c : Cursor} {xs : List Ink}

theorem of_space (h : c.Faces (.space :: xs)) : c.Faces xs := by
  obtain ⟨p, hp⟩ := h
  exact ⟨_, hp⟩

/-- A piece that makes a token is under the cursor, and what follows it is behind that token. This
is how a statement is gone through piece by piece. -/
theorem head {x : Ink} {k : Token.Kind} {s : String} (h : c.Faces (x :: xs))
    (hx : x.spelling? = some (k, s)) (hk : k ≠ .endOfInput) :
    c.current.kind = k ∧ c.current.text = s ∧ c.advance.Faces xs := by
  obtain ⟨p, hp⟩ := h
  have hahead : c.ahead = ⟨k, s, p⟩ :: Ink.tokens (p.after x.chars) xs := by
    rw [hp, Ink.tokens, hx]
  have hcur : c.current = ⟨k, s, p⟩ := by simp [current, hahead]
  have hend : ¬ c.isAt .endOfInput = true := by simpa [isAt, hcur] using hk
  refine ⟨by rw [hcur], by rw [hcur], p.after x.chars, ?_⟩
  rw [advance, if_neg hend]
  simp [skip, hahead]

theorem word {w : String} (hw : IsWord w) (h : c.Faces (.word w :: xs)) :
    c.current.kind.isWord = true ∧ c.current.text = w ∧ c.advance.Faces xs := by
  have hk := hw.isWord_nameKind
  obtain ⟨hkind, htext, hrest⟩ := h.head rfl fun he => by rw [he] at hk; cases hk
  exact ⟨by rw [hkind]; exact hk, htext, hrest⟩

theorem quoted {s : String} (h : c.Faces (.quoted s :: xs)) :
    c.current.kind = .string ∧ c.current.text = s ∧ c.advance.Faces xs :=
  h.head rfl (by decide)

theorem mark {k : Token.Kind} (h : c.Faces (.mark k :: xs)) (hk : k ≠ .endOfInput) :
    c.current.kind = k ∧ c.advance.Faces xs := by
  obtain ⟨hkind, -, hrest⟩ := h.head rfl hk
  exact ⟨hkind, hrest⟩

theorem atEnd_eq_false (h : c.current.kind ≠ .endOfInput) : c.atEnd = false := by
  simpa [atEnd, isAt] using h

theorem ahead_nil (h : c.Faces []) : c.ahead = [] := by
  obtain ⟨p, hp⟩ := h
  exact hp

/-- Skipping the tokens of the first of two texts leaves the cursor in front of the second. -/
theorem skip {ys : List Ink} {p : Place} (h : c.ahead = Ink.tokens p (xs ++ ys)) :
    (c.skip (Ink.tokens p xs).length).Faces ys := by
  refine ⟨p.after (Ink.text xs), ?_⟩
  rw [Ink.tokens_append] at h
  simp [Cursor.skip, h]

end Faces

/-! ## Lines -/

open Native (Line follow lined)

/-- A cursor at the end of a line is in front of the next line when the line end is passed. Behind
the last line there is nothing to pass. -/
theorem faces_pass_newline {c : Cursor} {ls : List Line} (h : c.Faces (follow ls)) :
    (c.pass .newline).Faces (lined ls) := by
  cases ls with
  | nil =>
      have hcur : c.current = c.final := by simp [current, h.ahead_nil]
      have hne : ¬ c.isAt .newline = true := by simp [isAt, hcur, c.final_kind]
      rw [pass, if_neg hne]
      exact h
  | cons l ls =>
      obtain ⟨hkind, hrest⟩ := Faces.mark h (by decide)
      rw [pass, if_pos (by simp [isAt, hkind])]
      exact hrest

theorem head?_tokens_follow {p : Place} {ls : List Line} :
    ∀ t ∈ (Ink.tokens p (follow ls)).head?, t.kind = .newline := by
  intro t ht
  cases ls with
  | nil => cases ht
  | cons l ls => cases ht; rfl

/-- The rest of a line that was written is that line, and the next one comes behind it. -/
theorem faces_restOfLine {c : Cursor} {line : Line} {ls : List Line}
    (h : c.Faces (line ++ follow ls)) (hline : ∀ k ∈ Ink.kinds line, k.endsLine = false) :
    ∃ p, c.restOfLine.1 = Ink.tokens p line ∧ c.restOfLine.2.Faces (lined ls) := by
  obtain ⟨p, hp⟩ := h
  have hup : c.upTo (fun _ => false) = Ink.tokens p line := by
    unfold upTo
    rw [hp, Ink.tokens_append]
    refine takeWhile_append_of_head (fun t ht => ?_) fun t ht => ?_
    · simp [hline _ (Ink.kind_mem_kinds ht)]
    · simp [head?_tokens_follow t ht, Token.Kind.endsLine]
  refine ⟨p, hup, ?_⟩
  unfold restOfLine
  rw [hup]
  exact faces_pass_newline (Faces.skip hp)

/-! ## Between brackets -/

/-- What stands between an opener and its closer is found, without a report. The closer must not
occur in between. -/
theorem faces_enclosed {c : Cursor} {opener : Ink} {closer : Token.Kind} {content xs : List Ink}
    {s : Token.Kind × String} (problem : Problem)
    (h : c.Faces (opener :: (content ++ .mark closer :: xs)))
    (hopener : opener.spelling? = some s) (hs : s.1 ≠ .endOfInput) (hcloser : closer ≠ .endOfInput)
    (hcontent : ∀ k ∈ Ink.kinds content, k ≠ closer ∧ k ≠ .endOfInput) :
    ∃ p, (c.enclosed closer problem).value = Ink.tokens p content ∧
      (c.enclosed closer problem).cursor.Faces xs ∧
      (c.enclosed closer problem).diagnostics = [] := by
  obtain ⟨-, -, p, hp⟩ := h.head hopener hs
  have htake : (c.advance.ahead.takeWhile fun t => t.kind != closer && t.kind != .endOfInput)
      = Ink.tokens p content := by
    rw [hp, Ink.tokens_append]
    refine takeWhile_append_of_head (fun t ht => ?_) fun t ht => ?_
    · obtain ⟨hc, he⟩ := hcontent _ (Ink.kind_mem_kinds ht)
      simp [hc, he]
    · cases ht
      simp
  obtain ⟨hkind, hrest⟩ := Faces.mark (Faces.skip hp) hcloser
  have hpass : (c.advance.skip (Ink.tokens p content).length).isAt closer = true := by
    simp [isAt, hkind]
  refine ⟨p, htake, ?_, ?_⟩
  · simp only [enclosed, htake, pass, hpass, if_true]
    exact hrest
  · have hend : (c.advance.skip (Ink.tokens p content).length).atEnd = false :=
      Faces.atEnd_eq_false (by rw [hkind]; exact hcloser)
    simp [enclosed, htake, hend]

/-! ## Looking for a connector -/

/-- Kinds that neither end the line nor open or close brackets nor connect. The search for a
connector passes them without a change. -/
def isQuiet (k : Token.Kind) : Bool :=
  !k.endsLine && k != .openBracket && k != .closeBracket && !k.isConnector

theorem isQuiet_of_isName {k : Token.Kind} (h : k.isName = true) : isQuiet k = true := by
  cases k <;> first | rfl | cases h

theorem isQuiet_of_isWord {k : Token.Kind} (h : k.isWord = true) : isQuiet k = true :=
  isQuiet_of_isName (Token.Kind.isName_of_isWord h)

theorem hasConnector_append {ts : List Token} (h : ∀ t ∈ ts, isQuiet t.kind = true) (depth : Nat)
    (us : List Token) : hasConnector depth (ts ++ us) = hasConnector depth us := by
  induction ts with
  | nil => rfl
  | cons t ts ih =>
      have ht := h t (List.mem_cons_self ..)
      have hts := ih fun u hu => h u (List.mem_cons_of_mem _ hu)
      rw [List.cons_append, hasConnector, hts]
      cases hk : t.kind <;> simp_all [isQuiet, Token.Kind.endsLine, Token.Kind.isConnector]

/-- A text of quiet pieces has no say in whether a connector stands on the line, in brackets or
outside. -/
theorem hasConnector_quiet (xs ys : List Ink) (h : ∀ k ∈ Ink.kinds xs, isQuiet k = true)
    (depth : Nat) (p : Place) : hasConnector depth (Ink.tokens p (xs ++ ys))
      = hasConnector depth (Ink.tokens (p.after (Ink.text xs)) ys) := by
  rw [Ink.tokens_append]
  exact hasConnector_append (fun t ht => h _ (Ink.kind_mem_kinds ht)) depth _

end Cursor

end Schematic
