import Schematic.Proofs.Token.Splicing
import Schematic.Proofs.Token.Tiling

/-!
# Line by line

A text is scanned line by line. Every rule looks ahead, at what follows a run of dashes, for the
second half of a comment mark or for a closing quote, but a line end is to it what the end of the
input is; the one exception is a string that is still open, which takes the line end for a part of
itself. So where no string is open, scanning may stop at a line end and begin again behind it
(`scan_lines`).
-/

namespace Schematic

namespace Token

/-- Behind a text and a line end the lines are those of a text of its own, further down by the lines
in front. -/
theorem next_behind (cs : List Char) :
    (Place.behind cs).next '\n' = Place.start.lower (cs.count '\n' + 1) := by
  simp only [Place.behind, Place.next, if_true, Place.lower, Place.start, Nat.add_assoc]

/-- The tokens and reports of two texts with a line end between them. Those of the second have their
places lowered, and nothing else about them differs. -/
theorem scan_append_newline {a : String} (h : Quoted .start a.toList) (b : String) :
    scan (a ++ "\n" ++ b) =
      ⟨tokens .start a.toList ++
          ⟨.newline, "\n", .behind a.toList⟩ :: (tokens .start b.toList).map
              (Token.move (.lower (a.toList.count '\n' + 1))) ++
            [endAt ((Place.start.after b.toList).lower (a.toList.count '\n' + 1))],
        reports .start a.toList ++
          (reports .start b.toList).map
            (Diagnostic.move (.lower (a.toList.count '\n' + 1)))⟩ := by
  have hchars : (a ++ "\n" ++ b).toList = a.toList ++ '\n' :: b.toList := by simp
  have hend : Place.start.after (a.toList ++ '\n' :: b.toList) =
      (Place.start.after b.toList).lower (a.toList.count '\n' + 1) := by
    rw [Place.after_append, Place.after_eq_behind, ← Place.after_lower, ← next_behind]
    rfl
  rw [scan_eq, hchars, tokens_newline h, reports_newline h, hend, Place.after_eq_behind,
    next_behind, tokens_lower, reports_lower]

/-- **Line by line.** If no string of `a` is open at its end, the text `a`, a line end and `b` has
the tokens of `a`, the line end where `a` ends, and the tokens of `b` as many lines further down as
there are line ends before it. What is reported is what is reported of `a`, and of `b` further
down. -/
theorem scan_lines {a : String} (h : ∀ d ∈ (scan a).diagnostics, d.problem ≠ .openString)
    (b : String) :
    ∃ ts : List Token, (scan a).tokens = ts ++ [⟨.endOfInput, "", .behind a.toList⟩] ∧
      scan (a ++ "\n" ++ b) =
        ⟨ts ++ ⟨.newline, "\n", .behind a.toList⟩ ::
            (scan b).tokens.map (Token.move (.lower (a.toList.count '\n' + 1))),
          (scan a).diagnostics ++
            (scan b).diagnostics.map (Diagnostic.move (.lower (a.toList.count '\n' + 1)))⟩ := by
  have hquoted : Quoted .start a.toList := h
  refine ⟨tokens .start a.toList, ?_, ?_⟩
  · rw [scan_eq, Place.after_eq_behind]
    rfl
  · rw [scan_append_newline hquoted, scan_eq a, scan_eq b, List.map_append, List.append_assoc]
    rfl

/-- A string over a line end, then half an arrow and half a comment mark at the end of the last
line. -/
def brokenOff : String := "a 'b\nc' --/"

/-- What would go on with the last line, were there no line end between them: an arrow would get its
head, and half a comment mark its other half. -/
def wouldGoOn : String := "> / d-->e ;"

theorem scan_lines_brokenOff :
    (∀ d ∈ (scan brokenOff).diagnostics, d.problem ≠ .openString) ∧
      (scan (brokenOff ++ "\n" ++ wouldGoOn)).tokens =
        [⟨.ident, "a", ⟨1, 1⟩⟩, ⟨.string, "b\nc", ⟨1, 3⟩⟩, ⟨.dash, "--", ⟨2, 4⟩⟩,
          ⟨.other, "/", ⟨2, 6⟩⟩, ⟨.newline, "\n", ⟨2, 7⟩⟩] ++
          (scan wouldGoOn).tokens.map (Token.move (.lower 2)) ∧
      (scan (brokenOff ++ "\n" ++ wouldGoOn)).diagnostics =
        [⟨⟨2, 6⟩, .unknownCharacter '/'⟩, ⟨⟨3, 3⟩, .unknownCharacter '/'⟩,
          ⟨⟨3, 11⟩, .unknownCharacter ';'⟩] := by
  have hclosed : ∀ d ∈ (scan brokenOff).diagnostics, d.problem ≠ .openString := by decide +kernel
  obtain ⟨ts, hts, hscan⟩ := scan_lines hclosed wouldGoOn
  have htokens : (scan brokenOff).tokens =
      [⟨.ident, "a", ⟨1, 1⟩⟩, ⟨.string, "b\nc", ⟨1, 3⟩⟩, ⟨.dash, "--", ⟨2, 4⟩⟩,
        ⟨.other, "/", ⟨2, 6⟩⟩] ++ [⟨.endOfInput, "", .behind brokenOff.toList⟩] := by
    decide +kernel
  obtain rfl := List.append_inj_left' (hts.symm.trans htokens) rfl
  refine ⟨hclosed, ?_, ?_⟩
  · rw [hscan]
    rfl
  · rw [hscan]
    decide +kernel

end Token

end Schematic
