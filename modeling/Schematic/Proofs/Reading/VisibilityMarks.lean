import Schematic.Proofs.Reading.FieldRows

/-!
# Visibility marks in front of a row

A mark is a token by itself, except for a dash without a space behind it, which is cut together with
the word it stands in front of. Both ways the row without its mark says what it says alone, so the
mark gives the visibility of the field and changes nothing else (`Declaration.gives_marked`).
-/

namespace Schematic

open Token (unplaced shape nameShape nameTail)

/-! ## The tokens of a marked row -/

/-- The text of a row that begins with a letter, a digit or an underscore: no line end and no
closing brace stands in it, strings and comments aside. -/
structure RowText (row : String) : Prop where
  head : ∃ c ∈ row.toList.head?, Text.isAlphanumeric c = true ∨ c = '_'
  inside : ∀ t ∈ (Token.scan row).tokens, t.kind ≠ .newline ∧ t.kind ≠ .closeBrace

namespace RowText

variable {row : String}

/-- The row is cut into a word and the rest, and a dash in front of it goes with the word. The rest
is the same in both. -/
theorem exists_word (h : RowText row) : ∃ kind c w rest, kind.isWord = true ∧ c ≠ '-' ∧
    unplaced row.toList = ⟨kind, String.ofList (c :: w), .start⟩ :: rest ∧
    unplaced ('-' :: row.toList) = ⟨.ident, String.ofList ('-' :: c :: w), .start⟩ :: rest := by
  obtain ⟨c, hc, hhead⟩ := h.head
  obtain ⟨cs, hcs⟩ := List.head?_eq_some_iff.mp hc
  have hname : Token.isNameChar c = true := by
    unfold Token.isNameChar
    rcases hhead with hc | rfl
    · rw [hc]
      rfl
    · decide
  have hdash : c ≠ '-' := by
    rintro rfl
    rcases hhead with hc | hc
    · revert hc
      decide
    · cases hc
  have hpoint : c ≠ '.' := by
    rintro rfl
    rcases hhead with hc | hc
    · revert hc
      decide
    · cases hc
  have hgt : c ≠ '>' := Token.ne_of_isNameChar hname (by decide)
  have hafter : Token.afterDashes (c :: cs) = c :: cs := by
    rw [Token.afterDashes_cons, if_neg hdash]
  have hopens : Token.OpensName c cs := ⟨hname, fun he => absurd he hdash⟩
  have hopensDash : Token.OpensName '-' (c :: cs) :=
    ⟨by decide, fun _ => ⟨c, by rw [hafter]; rfl, hgt, hname⟩⟩
  have htail : nameTail (c :: cs) = c :: nameTail cs := by simp [nameTail, hname, hdash]
  have hkind : (Token.nameKind (c :: nameTail cs)).isWord = true := by
    unfold Token.nameKind
    rw [List.all_cons]
    simp only [beq_false_of_ne hdash, beq_false_of_ne hpoint, Bool.or_self, Bool.false_and,
      Bool.and_false, Bool.false_eq_true, if_false]
    split <;> rfl
  have hkindDash : Token.nameKind ('-' :: c :: nameTail cs) = .ident := by
    have hdigit : Char.isDigit '-' = false := by decide
    unfold Token.nameKind
    simp [hdash, hpoint, hdigit]
  refine ⟨Token.nameKind (c :: nameTail cs), c, nameTail cs,
    unplaced (cs.drop (nameTail cs).length), hkind, hdash, ?_, ?_⟩
  · rw [hcs, Token.unplaced_cons, hopens.shape_eq]
    rfl
  · rw [hcs, Token.unplaced_cons, hopensDash.shape_eq, nameShape, htail, hkindDash]
    rfl

theorem endsRow_eq_false (h : RowText row) :
    ∀ t ∈ unplaced row.toList, FieldRow.endsRow t = false := by
  intro u hu
  obtain ⟨t, ht, hkind, hend⟩ := Token.exists_of_mem_unplaced hu
  obtain ⟨hline, hbrace⟩ := h.inside t ht
  unfold FieldRow.endsRow
  rw [hkind] at hline hbrace
  revert hend hline hbrace
  cases u.kind <;> decide

end RowText

namespace FieldRow

/-! ## The mark -/

/-- The token is the mark of `v`: a character without another meaning, or a dash with a space behind
it. -/
def IsMark (t : Token) (v : Visibility) : Prop :=
  (t.kind = .other ∨ t.kind = .dash) ∧ markVisibility? t.text = some v

/-- In front of a space a mark is a token, and in front of anything else it is one if it is no
dash. -/
theorem unplaced_mark {m : String} {v : Visibility} (hm : markVisibility? m = some v)
    (cs : List Char) :
    (∃ t, IsMark t v ∧ unplaced (m.toList ++ ' ' :: cs) = t :: unplaced cs) ∧
      ((∃ t, IsMark t v ∧ unplaced (m.toList ++ cs) = t :: unplaced cs) ∨
        m = "-" ∧ v = .nobody) := by
  have hspace : unplaced (' ' :: cs) = unplaced cs := Token.unplaced_cons ' ' cs
  have apart {b : Char} (hv : markVisibility? (String.ofList [b]) = some v)
      (hb : ∀ ds, unplaced (b :: ds) = ⟨.other, String.ofList [b], .start⟩ :: unplaced ds) :
      (∃ t, IsMark t v ∧ unplaced (b :: ' ' :: cs) = t :: unplaced cs) ∧
        ∃ t, IsMark t v ∧ unplaced (b :: cs) = t :: unplaced cs :=
    ⟨⟨_, ⟨Or.inl rfl, hv⟩, by rw [hb, hspace]⟩, ⟨_, ⟨Or.inl rfl, hv⟩, hb cs⟩⟩
  unfold markVisibility? at hm
  split at hm
  all_goals cases hm
  · exact (apart rfl (Token.unplaced_cons '+')).imp_right Or.inl
  · refine ⟨⟨⟨.dash, "-", .start⟩, ⟨Or.inr rfl, rfl⟩, ?_⟩, Or.inr ⟨rfl, rfl⟩⟩
    exact (Token.unplaced_cons '-' (' ' :: cs)).trans (congrArg _ hspace)
  · exact (apart rfl (Token.unplaced_cons '#')).imp_right Or.inl
  · exact (apart rfl (Token.unplaced_cons '~')).imp_right Or.inl

theorem IsMark.inside {v : Visibility} (ht : IsMark t v) :
    t.kind ≠ .comment ∧ endsRow t = false := by
  unfold endsRow
  rcases ht.1 with hk | hk <;> rw [hk] <;> decide

theorem splitMark_of_isMark {v : Visibility} (ht : IsMark t v) (row : List Token) :
    splitMark (t :: row) = (some v, row) := by
  obtain ⟨hkind, hv⟩ := ht
  unfold splitMark
  rcases hkind with hk | hk <;> simp only [hk, hv]

theorem splitMark_of_dash (c : Char) (w : List Char) (p : Place) (row : List Token) :
    splitMark (⟨.ident, String.ofList ('-' :: c :: w), p⟩ :: row) =
      (some .nobody, ⟨.ident, String.ofList (c :: w), ⟨p.line, p.column + 1⟩⟩ :: row) := by
  unfold splitMark
  simp only [String.toList_ofList]

/-- A first character that is neither a dash nor a mark leaves the row as it is. Words do not begin
with the other marks. -/
theorem splitMark_of_word (ht : t.kind.isWord = true) (hdash : t.text.toList.head? ≠ some '-')
    (row : List Token) : splitMark (t :: row) = (none, t :: row) := by
  unfold splitMark
  dsimp only
  split
  · next hk _ => rw [hk] at ht; cases ht
  · next hk _ => rw [hk] at ht; cases ht
  · next htext => rw [htext] at hdash; exact absurd rfl hdash
  · rfl

/-- A field depends on its head by its text, and has the visibility it is given. So a word that a
dash was cut from gives the field it gives alone. -/
theorem field_head (v : Option Visibility) (ht : t.kind.isWord = true) (hu : u.kind.isWord = true)
    (htext : u.text = t.text) (rest : List Token) :
    field v u rest = { field none t rest with visibility := v } := by
  have hmethod : isMethod (u :: rest) = isMethod (t :: rest) := by
    simp only [isMethod, Phrase.closed, List.map_cons, htext]
  have hcomma {w : Token} (hw : w.kind.isWord = true) : (w.kind == .comma) = false := by
    cases hk : w.kind <;> simp_all [Token.Kind.isWord]
  have hsignature (ts : List Token) : Phrase.signature (u :: ts) = Phrase.signature (t :: ts) := by
    cases ts with
    | nil => exact htext
    | cons w ws => simp only [Phrase.signature, Phrase.spaced, htext, ht, hu, hcomma]
  simp only [field, hmethod, hsignature, htext]

theorem unmarked_of_word (v : Option Visibility) (ht : t.kind.isWord = true) (row : List Token) :
    unmarked v (t :: row) = some (field v t (uncommented row)) :=
  unmarked_of_uncommented (uncommented_cons_of_isWord ht row) ht v

end FieldRow

namespace Declaration

open FieldRow

/-- The row gives the field: alone, and in a body wherever it begins behind a line end or the brace
and ends with a line end or the body. -/
structure Gives (dialect : Dialect) (row : String) (f : Field) : Prop where
  read : ∀ p, read? dialect (Token.tokens p row.toList) = some f
  inBody : ∀ owner (brace : Cursor) p before behind, EndsRows before →
    (∀ v ∈ behind.head?, v.kind = .newline) →
    brace.advance.inBody = before ++ (Token.tokens p row.toList ++ behind) →
      (fields dialect owner brace).value =
        readAll dialect before ++ f :: readAll dialect behind

/-- The tokens of a row, wherever it stands, are those that are found without their places. So it is
enough to read the row at one place. -/
theorem gives_of_unplaced {dialect : Dialect} {row : String} {f : Field}
    (hrow : unplaced row.toList = t :: rest) (ht : t.kind ≠ .comment)
    (hends : ∀ v ∈ t :: rest, endsRow v = false) (hread : read? dialect (t :: rest) = some f) :
    Gives dialect row f := by
  have hone (p : Place) : read? dialect (Token.tokens p row.toList) = some f := by
    rw [← hread, ← hrow, ← Token.move_tokens p, read?_move]
  refine ⟨hone, fun owner brace p before behind hbefore hbehind hbody => ?_⟩
  have hmoved := (Token.move_tokens p row.toList).trans hrow
  obtain ⟨u, us, htokens, hu, hus⟩ := List.map_eq_cons_iff.mp hmoved
  have hsingle : readAll dialect (u :: us) = [f] := by
    have hinside : ∀ v ∈ u :: us, endsRow v = false := fun v hv => by
      have hmem := List.mem_map_of_mem (f := Token.move fun _ => .start) hv
      rw [List.map_cons, hu, hus] at hmem
      exact hends (v.move _) hmem
    rw [readAll_row dialect (by rw [← hu] at ht; exact ht) hinside, ← htokens, hone]
    rfl
  show readAll dialect brace.advance.inBody = _
  rw [hbody, readAll_append_inBody dialect hbefore, htokens]
  cases behind with
  | nil => rw [List.append_nil, hsingle, readAll_nil]
  | cons v vs =>
      have hv : v.kind = .newline := hbehind v rfl
      have hempty := readAll_append_newline dialect [] hv vs
      rw [readAll_nil, List.nil_append, List.nil_append] at hempty
      rw [readAll_append_newline dialect _ hv, hsingle, hempty]
      rfl

/-- **Marks in front of a row.** With or without a space behind it, a mark gives the field that the
row gives alone, except that the field has the visibility of the mark. -/
theorem gives_marked {dialect : Dialect} (hmarks : dialect.visibilityMarks = true) {row : String}
    (hrow : RowText row) :
    ∃ f, f.visibility = none ∧ Gives dialect row f ∧
      ∀ m v, markVisibility? m = some v →
        Gives dialect (m ++ row) { f with visibility := some v } ∧
          Gives dialect (m ++ " " ++ row) { f with visibility := some v } := by
  obtain ⟨kind, c, w, rest, hk, hdash, hplain, hglued⟩ := hrow.exists_word
  let head : Token := ⟨kind, String.ofList (c :: w), .start⟩
  have hends : ∀ v ∈ head :: rest, endsRow v = false := hplain ▸ hrow.endsRow_eq_false
  have hread (ts : List Token) : read? dialect ts = unmarked (splitMark ts).1 (splitMark ts).2 := by
    rw [read?_eq, if_pos hmarks]
  have halone (v : Option Visibility) : unmarked v (head :: rest) =
      some { field none head (uncommented rest) with visibility := v } := by
    rw [unmarked_of_word v hk, field_head v hk hk rfl]
  -- a mark that is a token leaves the tokens of the row as they are
  have hmarked {v : Visibility} {marked : String} {t : Token} (ht : IsMark t v)
      (htokens : unplaced marked.toList = t :: unplaced row.toList) :
      Gives dialect marked { field none head (uncommented rest) with visibility := some v } := by
    obtain ⟨hcomment, hend⟩ := ht.inside
    refine gives_of_unplaced htokens hcomment ?_ ?_
    · rw [hplain]
      exact List.forall_mem_cons.mpr ⟨hend, hends⟩
    · rw [hread, splitMark_of_isMark ht, hplain, halone]
  refine ⟨field none head (uncommented rest), rfl, ?_, fun m v hm => ⟨?_, ?_⟩⟩
  · refine gives_of_unplaced hplain (ne_comment_of_isWord (t := head) hk) hends ?_
    rw [hread, splitMark_of_word hk (by simpa using hdash)]
    exact unmarked_of_word none hk rest
  · obtain ⟨-, ⟨t, ht, htokens⟩ | ⟨rfl, rfl⟩⟩ := unplaced_mark hm row.toList
    · exact hmarked ht (by rw [String.toList_append, htokens])
    · have hdashed : unplaced ("-" ++ row).toList =
          ⟨.ident, String.ofList ('-' :: c :: w), .start⟩ :: rest := by
        rw [String.toList_append]
        exact hglued
      let cut : Token := ⟨.ident, String.ofList (c :: w), ⟨1, 2⟩⟩
      refine gives_of_unplaced hdashed nofun ?_ ?_
      · exact List.forall_mem_cons.mpr ⟨rfl, fun v hv => hends v (List.mem_cons_of_mem _ hv)⟩
      · rw [hread, splitMark_of_dash]
        refine (unmarked_of_word (t := cut) _ rfl rest).trans (congrArg some ?_)
        exact field_head (t := head) (u := cut) _ hk rfl rfl (uncommented rest)
  · obtain ⟨⟨t, ht, htokens⟩, -⟩ := unplaced_mark hm row.toList
    refine hmarked ht ?_
    rw [String.toList_append, String.toList_append, List.append_assoc, ← htokens]
    rfl

/-- A body in which one row is marked by a dash in front of its name and one by a hash. -/
def markedBody : String := "\x7b\n  -password string\n  # login(name, pass) : bool\n\x7d"

/-- The cursor at the brace of the body. -/
def markedBrace : Cursor := .ofTokens (Token.scan markedBody).tokens

theorem gives_marked_markedBody :
    Dialect.plantuml.visibilityMarks = true ∧ RowText "login(name, pass) : bool" ∧
      (fields .plantuml "User" markedBrace).value =
        [⟨"password", some "string", [], some .nobody, .field, "password string"⟩,
          ⟨"login(name, pass)", some "bool", [], some .heirs, .method,
            "login(name, pass) bool"⟩] := by
  have hrow : RowText "login(name, pass) : bool" :=
    ⟨⟨'l', rfl, Or.inl (by decide +kernel)⟩, by decide +kernel⟩
  have hplantuml : Dialect.plantuml.visibilityMarks = true := rfl
  obtain ⟨f, -, halone, hmarks⟩ := gives_marked hplantuml hrow
  have hf : f = ⟨"login(name, pass)", some "bool", [], none, .method,
      "login(name, pass) bool"⟩ := by
    have hread := halone.read .start
    have heval : read? .plantuml (Token.tokens .start "login(name, pass) : bool".toList) =
        some ⟨"login(name, pass)", some "bool", [], none, .method, "login(name, pass) bool"⟩ := by
      decide +kernel
    exact Option.some.inj (hread.symm.trans heval)
  have hgives := (hmarks "#" .heirs rfl).2
  let before : List Token := [⟨.newline, "\n", ⟨1, 2⟩⟩, ⟨.ident, "-password", ⟨2, 3⟩⟩,
    ⟨.ident, "string", ⟨2, 13⟩⟩, ⟨.newline, "\n", ⟨2, 19⟩⟩]
  have hbody : markedBrace.advance.inBody = before ++
      (Token.tokens ⟨3, 3⟩ ("#" ++ " " ++ "login(name, pass) : bool").toList ++
        [⟨.newline, "\n", ⟨3, 29⟩⟩]) := by decide +kernel
  refine ⟨hplantuml, hrow, ?_⟩
  rw [hgives.inBody "User" markedBrace ⟨3, 3⟩ before [⟨.newline, "\n", ⟨3, 29⟩⟩]
    (Or.inr ⟨before.take 3, ⟨.newline, "\n", ⟨2, 19⟩⟩, rfl, rfl⟩) (by simp) hbody, hf]
  decide +kernel

end Declaration

end Schematic
