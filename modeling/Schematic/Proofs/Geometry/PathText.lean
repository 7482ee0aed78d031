import Schematic.Proofs.Geometry.Decimal

/-!
# Reading the text of a path

The text of a path falls apart at its spaces into letters and decimals, and reading these gives the
commands back with every coordinate replaced by its nearest hundredth.
-/

namespace Schematic

variable {α : Type}

/-! ## Commands over another kind of numbers -/

def Point.map {β : Type} (f : α → β) (p : Point α) : Point β := ⟨f p.x, f p.y⟩

namespace PathCommand

def map {β : Type} (f : α → β) : PathCommand α → PathCommand β
  | .move p => .move (p.map f)
  | .line p => .line (p.map f)
  | .curve c p => .curve (c.map f) (p.map f)

/-- The point where the command ends. -/
def target : PathCommand α → Point α
  | .move p => p
  | .line p => p
  | .curve _ p => p

theorem target_map {β : Type} (f : α → β) (c : PathCommand α) :
    (c.map f).target = c.target.map f := by
  cases c <;> rfl

end PathCommand

/-! ## Reading -/

namespace Path

def point? (x y : List Char) : Option (Point ℚ) := do
  return ⟨(← Decimal.ofChars? x).value, (← Decimal.ofChars? y).value⟩

/-- The commands that the words of a path spell: letters, each with the decimals it takes. This
reader is not part of the program; it says what the text means. -/
def ofWords? : List (List Char) → Option (List (PathCommand ℚ))
  | [] => some []
  | ['M'] :: x :: y :: rest => do return .move (← point? x y) :: (← ofWords? rest)
  | ['L'] :: x :: y :: rest => do return .line (← point? x y) :: (← ofWords? rest)
  | ['Q'] :: u :: v :: x :: y :: rest => do
    return .curve (← point? u v) (← point? x y) :: (← ofWords? rest)
  | _ => none

/-- Splits the text at its spaces and reads the words. -/
def ofText? (s : String) : Option (List (PathCommand ℚ)) :=
  ofWords? (if s = "" then [] else pieces (· == ' ') s.toList)

end Path

/-! ## The words of a command -/

section

variable [Written α]

/-- The nearest hundredth as a number. -/
def Written.hundredth (x : α) : ℚ := (Written.hundredths x).value

namespace PathCommand

/-- Trimming two digits gives the text of the nearest hundredth. The sign is that of the scalar, and
what is left of it in front of zero is taken off last. -/
theorem number_eq (x : α) : number x = (Written.hundredths x).text := by
  have htext :
      (Written.hundredths x).text = String.ofList (Written.hundredths x).decimal.chars := by
    rw [← Hundredths.toList_text, String.ofList_toList]
  rw [number, Hundredths.trimEnd_fixed]
  by_cases hzero : (Written.hundredths x).count = 0
  · have hdecimal : (Written.hundredths x).decimal = ⟨false, ['0'], []⟩ := by
      rw [Hundredths.decimal, hzero]
      rfl
    rw [htext, hdecimal]
    cases Written.negative x <;> rfl
  · have hsign : (Written.hundredths x).decimal.negative = Written.negative x :=
      (Written.negative_eq x hzero).symm
    rw [← hsign]
    exact (if_neg (htext ▸ Hundredths.text_ne _)).trans htext.symm

def spelling (x : α) : List Char := (number x).toList

def spellings : PathCommand α → List (List Char)
  | .move p => [['M'], spelling p.x, spelling p.y]
  | .line p => [['L'], spelling p.x, spelling p.y]
  | .curve c p => [['Q'], spelling c.x, spelling c.y, spelling p.x, spelling p.y]

theorem pieces_number (x : α) : pieces (· == ' ') (number x).toList = [spelling x] := by
  have hspace : ' ' ∉ (number x).toList := by
    rw [number_eq, Hundredths.toList_text]
    exact (Hundredths.isPlain_decimal _).space_notMem
  refine Text.pieces_of_forall fun c hc => ?_
  rw [beq_eq_false_iff_ne]
  rintro rfl
  exact hspace hc

theorem pieces_point (p : Point α) :
    pieces (· == ' ') (point p).toList = [spelling p.x, spelling p.y] := by
  have hpoint : (point p).toList = (number p.x).toList ++ ' ' :: (number p.y).toList := by
    simp [point]
  rw [hpoint, Text.pieces_append _ rfl, pieces_number, pieces_number, List.singleton_append]

theorem pieces_text (c : PathCommand α) : pieces (· == ' ') c.text.toList = c.spellings := by
  have letter (l : Char) (hl : l ≠ ' ') (cs : List Char) :
      pieces (· == ' ') (l :: ' ' :: cs) = [l] :: pieces (· == ' ') cs := by
    have hword : ∀ c ∈ [l], (c == ' ') = false := by simpa using hl
    exact Text.pieces_append_cons hword rfl cs
  cases c with
  | move p =>
      rw [text, String.toList_append, spellings, ← pieces_point]
      exact letter 'M' (by decide) _
  | line p =>
      rw [text, String.toList_append, spellings, ← pieces_point]
      exact letter 'L' (by decide) _
  | curve c p =>
      have htext : (text (.curve c p)).toList =
          'Q' :: ' ' :: ((point c).toList ++ ' ' :: (point p).toList) := by
        simp [text]
      rw [htext, letter 'Q' (by decide), Text.pieces_append _ rfl, pieces_point, pieces_point,
        spellings]
      rfl

end PathCommand

namespace Path

open PathCommand

theorem pieces_text : ∀ {cs : List (PathCommand α)}, cs ≠ [] →
    pieces (· == ' ') (text cs).toList = cs.flatMap spellings
  | [], h => absurd rfl h
  | [c], _ => by
      rw [text, List.map_singleton, String.intercalate_singleton, PathCommand.pieces_text,
        List.flatMap_singleton]
  | c :: d :: cs, _ => by
      have ih := pieces_text (List.cons_ne_nil d cs)
      rw [text, List.map_cons] at ih ⊢
      rw [List.map_cons, Text.toList_joined_cons, Text.pieces_append _ rfl, PathCommand.pieces_text,
        ih]
      exact List.flatMap_cons.symm

theorem text_ne_empty {cs : List (PathCommand α)} (h : cs ≠ []) : text cs ≠ "" := by
  obtain ⟨c, cs, rfl⟩ := List.exists_cons_of_ne_nil h
  intro he
  have hpieces := pieces_text h
  rw [he, List.flatMap_cons] at hpieces
  cases c <;> simp [pieces, spellings] at hpieces

theorem ofChars?_spelling (x : α) :
    Decimal.ofChars? (spelling x) = some (Written.hundredths x).decimal := by
  rw [spelling, number_eq, Hundredths.ofChars?_text]

theorem point?_spelling (p : Point α) :
    point? (spelling p.x) (spelling p.y) = some (p.map Written.hundredth) := by
  simp [point?, ofChars?_spelling, Hundredths.value_decimal, Point.map, Written.hundredth]

theorem ofWords?_spellings (cs : List (PathCommand α)) :
    ofWords? (cs.flatMap spellings) = some (cs.map (PathCommand.map Written.hundredth)) := by
  induction cs with
  | nil => rfl
  | cons c cs ih =>
      rw [List.flatMap_cons]
      cases c <;>
        simp [spellings, ofWords?, point?_spelling, ih, PathCommand.map]

/-- Splitting the text at its spaces and reading letters and decimals gives the commands back, with
every coordinate replaced by its nearest hundredth. -/
theorem ofText?_text (cs : List (PathCommand α)) :
    ofText? (text cs) = some (cs.map (PathCommand.map Written.hundredth)) := by
  rw [ofText?]
  by_cases h : cs = []
  · rw [h]
    rfl
  · rw [if_neg (text_ne_empty h), pieces_text h, ofWords?_spellings]

end Path

end

end Schematic
