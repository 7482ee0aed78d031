import Schematic.Proofs.Writing.EdgeText

/-!
# Arrows without spaces

Dashes may stand in names, so it is not the characters that tell where a name ends in front of an
arrow. The rule for names asks at each dash whether the run it begins leads to `>`. Inside a name
that does not end in a dash every run leads to another character of that name
(`afterDashes_ne_nil`), and the run behind the name leads to `>`; so the name ends where the arrow
begins, with and without a space between them (`scan_arrow`).
-/

namespace Schematic

namespace Token

open Text (isBlank)
open Piece (shapes_cut)

/-! ## Where a name ends -/

/-- Behind a run of dashes in a text that does not end in a dash, the text goes on. So the run leads
to a character of the text and not to what follows it. -/
theorem afterDashes_ne_nil {cs : List Char} (hne : cs ≠ []) (hlast : cs.getLast? ≠ some '-') :
    afterDashes cs ≠ [] := by
  intro h
  have hall : ∀ c ∈ cs, (c == '-') = true := List.dropWhile_eq_nil_iff.mp h
  have hdash := hall _ (List.getLast_mem hne)
  exact hlast (by rw [List.getLast?_eq_some_getLast hne, eq_of_beq hdash])

/-- A name that does not end in a dash is over in front of anything that continues no name. The
induction is on the name; its dashes lead to its own characters, whatever stands behind. -/
theorem nameTail_append_of_last {cs rest : List Char} (hcs : nameTail cs = cs)
    (hlast : cs.getLast? ≠ some '-') (hrest : nameTail rest = []) : nameTail (cs ++ rest) = cs := by
  induction cs with
  | nil => exact hrest
  | cons c cs ih =>
      obtain ⟨hc, hd, htail⟩ := nameTail_cons_eq hcs
      cases cs with
      | nil =>
          have hdash : c ≠ '-' := fun he => hlast (by rw [he]; rfl)
          simp [nameTail, hc, hdash, hrest]
      | cons d ds =>
          have hlast' : (d :: ds).getLast? ≠ some '-' := by rwa [List.getLast?_cons_cons] at hlast
          -- what a dash of the name leads to stands in the name
          have hahead : (afterDashes (d :: ds ++ rest)).head? = (afterDashes (d :: ds)).head? := by
            have hgoes := afterDashes_ne_nil (List.cons_ne_nil d ds) hlast'
            rw [afterDashes_append hgoes, List.head?_append_of_ne_nil _ hgoes]
          have hcond : (isNameChar c &&
              !(c == '-' && (afterDashes (d :: ds ++ rest)).head? == some '>')) = true := by
            rw [hahead]
            by_cases he : c = '-'
            · rw [hd he]
              simp [hc]
            · simp [hc, he]
          rw [List.cons_append, nameTail, if_pos hcond, ih htail hlast']

/-- The connector has a head, at one end or at both. Dashes alone could be a part of the name in
front of them. -/
def Arrow.hasHead : Arrow → Bool
  | plain _ => false
  | _ => true

/-- No name goes on into an arrow: it begins with a dash of a run that leads to `>`, or with `<`,
which is in no name. -/
theorem nameTail_arrow {a : Arrow} (ha : a.hasHead = true) (rest : List Char) :
    nameTail (a.chars ++ rest) = [] := by
  cases a with
  | greater => rfl
  | forward n =>
      have hahead : afterDashes (List.replicate n '-' ++ '>' :: rest) = '>' :: rest :=
        (dashes_replicate n (by rintro c ⟨⟩; decide)).2
      simp [Arrow.chars, nameTail, hahead]
  | plain n => cases ha
  | both n => rfl
  | backward n => rfl

/-- Behind an arrow, what begins with no dash and no `>` does not continue it. Only a head at the
left needs the condition; behind a head at the right anything may stand. -/
theorem Arrow.over_of_hasHead {a : Arrow} (ha : a.hasHead = true) {rest : List Char}
    (hr : ∀ c ∈ rest.head?, c ≠ '-' ∧ c ≠ '>') : a.Over rest := by
  cases a with
  | plain n => cases ha
  | backward n => exact hr
  | _ => trivial

/-! ## Words and arrows -/

section Glued

variable {x y : String} {a : Arrow}

/-- A word that does not end in a dash is cut off in front of an arrow. Its last character keeps the
two runs of dashes apart. -/
theorem shapes_word_arrow (hx : IsWord x) (hlast : x.toList.getLast? ≠ some '-')
    (ha : a.hasHead = true) (rest : List Char) :
    shapes (x.toList ++ (a.chars ++ rest)) =
      .verbatim (nameKind x.toList) x.toList :: shapes (a.chars ++ rest) := by
  obtain ⟨c, cs, hw⟩ := hx.spelled
  have hlast' : cs.getLast? ≠ some '-' := by
    cases cs with
    | nil => exact nofun
    | cons d ds => rwa [hw.toList, List.getLast?_cons_cons] at hlast
  have htail := nameTail_append_of_last hw.tail hlast' (nameTail_arrow ha rest)
  -- a dash at the head of the word leads to a character of the word
  have hshape : shape c (cs ++ (a.chars ++ rest)) = .verbatim (nameKind (c :: cs)) (c :: cs) := by
    rw [hw.opens.append.shape_eq]
    simp only [nameShape, htail]
  rw [hw.toList]
  exact shapes_cut hshape rfl

/-- An arrow is cut off in front of a word that does not begin with a dash. For a head at the left,
such a dash would make the run longer. -/
theorem shapes_arrow_word (ha : a.hasHead = true) (hy : IsWord y)
    (hfirst : y.toList.head? ≠ some '-') :
    shapes (a.chars ++ y.toList) = .verbatim a.kind a.chars :: shapes y.toList := by
  have hover : a.Over y.toList := Arrow.over_of_hasHead ha fun c hc => by
    refine ⟨?_, ?_⟩
    · rintro rfl
      exact hfirst hc
    · exact ne_of_isNameChar (hy.isNameChar c (List.mem_of_mem_head? hc)) (by decide)
  obtain ⟨c, cs, hchars, hs⟩ := shape_arrow a hover
  rw [hchars] at hs ⊢
  exact shapes_cut hs rfl

end Glued

/-- The tokens and reports of a text that is put together from pieces: each piece says its own, and
nothing is reported. -/
theorem scan_pieces {xs : List Piece} (h : Piece.Apart xs) {text : String}
    (htext : text.toList = Piece.text xs) :
    (scan text).tokens.map spelling = xs.filterMap Piece.spelling? ++ [(.endOfInput, "")] ∧
      (scan text).diagnostics = [] := by
  rw [scan_eq, htext, List.map_append, Piece.map_spelling_text h, Piece.reports_text h]
  exact ⟨rfl, rfl⟩

/-- **Arrows need no spaces.** Between a word that does not end in a dash and a word that does not
begin with one, an arrow is told from the words without spaces around it: with them and without
them the tokens are those of the first word, the arrow and those of the second, and nothing is
reported. -/
theorem scan_arrow {x y : String} (hx : IsWord x) (hlast : x.toList.getLast? ≠ some '-')
    (hy : IsWord y) (hfirst : y.toList.head? ≠ some '-') {a : Arrow} (ha : a.hasHead = true) :
    ∃ k l : Kind, k.isWord = true ∧ l.isWord = true ∧
      (scan x).tokens.map spelling = [(k, x), (.endOfInput, "")] ∧
      (scan y).tokens.map spelling = [(l, y), (.endOfInput, "")] ∧
      ∀ text ∈ [x ++ String.ofList a.chars ++ y, x ++ " " ++ String.ofList a.chars ++ " " ++ y],
        (scan text).tokens.map spelling =
            [(k, x), (a.kind, String.ofList a.chars), (l, y), (.endOfInput, "")] ∧
          (scan text).diagnostics = [] := by
  have hblank : isBlank ' ' = true ∧ ' ' ≠ '\n' := by decide
  have hword {w : String} (hw : IsWord w) : Piece.Apart [.word w] :=
    ⟨hw, fun _ => nofun, trivial⟩
  have hspaced : Piece.Apart [.word x, .blank ' ', .arrow a, .blank ' ', .word y] :=
    ⟨hx, fun _ _ hp => Option.some.inj hp ▸ rfl, hblank, nofun, trivial,
      fun _ _ hp => Option.some.inj hp ▸ rfl, hblank, nofun, hword hy⟩
  have hglued : shapes (x ++ String.ofList a.chars ++ y).toList =
      [.verbatim (nameKind x.toList) x.toList, .verbatim a.kind a.chars,
        .verbatim (nameKind y.toList) y.toList] := by
    obtain ⟨c, cs, h⟩ := hy.spelled
    have hs := h.shape_append (show Breaks [] from nofun)
    have hyshapes : shapes y.toList = [.verbatim (nameKind y.toList) y.toList] := by
      rw [h.toList, ← List.append_nil (c :: cs), shapes_cut hs rfl, shapes_nil, List.append_nil]
    simp only [String.toList_append, String.toList_ofList, List.append_assoc]
    rw [shapes_word_arrow hx hlast ha, shapes_arrow_word ha hy hfirst, hyshapes]
  refine ⟨nameKind x.toList, nameKind y.toList, hx.isWord_nameKind, hy.isWord_nameKind,
    (scan_pieces (hword hx) (by simp [Piece.text, Piece.chars])).1,
    (scan_pieces (hword hy) (by simp [Piece.text, Piece.chars])).1, ?_⟩
  intro text htext
  rcases List.mem_cons.mp htext with rfl | htext
  · refine ⟨?_, ?_⟩
    · rw [scan_eq, List.map_append, map_spelling_tokens, hglued]
      simp [Shape.spelling?, Shape.verbatim, endAt, spelling]
    · rw [scan_eq]
      have hproblems := map_problem_reports .start (x ++ String.ofList a.chars ++ y).toList
      rw [hglued] at hproblems
      exact List.map_eq_nil_iff.mp hproblems
  · obtain rfl := List.mem_singleton.mp htext
    exact scan_pieces hspaced (by simp [Piece.text, Piece.chars])

/-- Dashes at the head and inside of the words, and an arrow that more dashes or a `>` would go on
with. -/
theorem scan_arrow_kebab :
    IsWord "-a--b." ∧ "-a--b.".toList.getLast? ≠ some '-' ∧ IsWord ".5-c" ∧
      ".5-c".toList.head? ≠ some '-' ∧ (Arrow.backward 2).hasHead = true ∧
      ∀ text ∈ ["-a--b.<---.5-c", "-a--b. <--- .5-c"],
        (scan text).tokens.map spelling =
            [(.ident, "-a--b."), (.reverseArrow, "<---"), (.ident, ".5-c"), (.endOfInput, "")] ∧
          (scan text).diagnostics = [] := by
  have hkx : (scan "-a--b.").tokens.map spelling = [(.ident, "-a--b."), (.endOfInput, "")] := by
    decide +kernel
  have hky : (scan ".5-c").tokens.map spelling = [(.ident, ".5-c"), (.endOfInput, "")] := by
    decide +kernel
  have hx : IsWord "-a--b." := ⟨.ident, rfl, hkx⟩
  have hy : IsWord ".5-c" := ⟨.ident, rfl, hky⟩
  have hlast : "-a--b.".toList.getLast? ≠ some '-' := by decide +kernel
  have hfirst : ".5-c".toList.head? ≠ some '-' := by decide +kernel
  obtain ⟨k, l, -, -, hk, hl, htexts⟩ := scan_arrow hx hlast hy hfirst (a := .backward 2) rfl
  obtain rfl : k = .ident := congrArg Prod.fst (List.cons.inj (hk.symm.trans hkx)).1
  obtain rfl : l = .ident := congrArg Prod.fst (List.cons.inj (hl.symm.trans hky)).1
  exact ⟨hx, hlast, hy, hfirst, rfl, htexts⟩

end Token

end Schematic
