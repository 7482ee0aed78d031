import Schematic.Proofs.Reading.Remarks

/-!
# Rows that begin with two words

In the body of an entity a row that begins with two words is a field, the first word its name and
the second its type, unless it is a method; and a row is a method if both parentheses occur in it,
in whatever tokens (`Declaration.fieldRow_of_words`). So a type with a length, or parentheses in a
quoted text, make a method of the row, which swallows the type (`Declaration.fieldRow_sizedRow`).
-/

namespace Schematic

variable {t u : Token} {rest : List Token}

/-! ## Methods -/

namespace FieldRow

/-- Some text in the row has an opening parenthesis, and some text a closing one. Neither where they
stand nor whether they are quoted is asked, which is how the rows are read. -/
def HasParentheses (row : List Token) : Prop :=
  (∃ t ∈ row, t.kind ≠ .comment ∧ '(' ∈ t.text.toList) ∧
    ∃ t ∈ row, t.kind ≠ .comment ∧ ')' ∈ t.text.toList

theorem mem_closed_iff {ts : List Token} {c : Char} :
    c ∈ (Phrase.closed ts).toList ↔ ∃ t ∈ ts, c ∈ t.text.toList := by
  rw [Phrase.closed, String.toList_join, List.mem_flatMap]
  simp only [List.mem_map, exists_exists_and_eq_and]

theorem isMethod_uncommented_iff (row : List Token) :
    isMethod (uncommented row) = true ↔ HasParentheses row := by
  simp only [isMethod, Bool.and_eq_true, List.contains_iff_mem, mem_closed_iff, uncommented,
    List.mem_filter, bne_iff_ne, HasParentheses, and_assoc]

/-- A signature with two words in front is longer than the first word, as it begins with both. -/
theorem signature_ne (ht : t.kind.isWord = true) (hu : u.kind.isWord = true) :
    Phrase.signature (t :: u :: rest) ≠ t.text := by
  intro h
  have hlength := congrArg String.length h
  simp only [Phrase.signature, Phrase.spaced, ht, hu, Bool.and_self, Bool.true_or, if_true,
    String.length_append] at hlength
  have hspace : (" " : String).length = 1 := rfl
  omega

theorem exists_splitParenthesis (u : Token) (rest : List Token) :
    ∃ more behind, splitParenthesis (u :: rest) = (u :: more, behind) := by
  rw [splitParenthesis]
  split
  · exact ⟨[], rest, rfl⟩
  · exact ⟨_, _, rfl⟩

theorem passColon_of_isWord (hu : u.kind.isWord = true) : passColon (u :: rest) = u :: rest := by
  have hcolon : u.kind ≠ .colon := fun hk => by rw [hk] at hu; cases hu
  cases rest with
  | nil => rfl
  | cons v vs => rw [passColon, if_neg hcolon]

/-- The field is named after the first word and has the second one as its type. This is what the row
says. -/
structure Keeps (f : Field) (t u : Token) : Prop where
  name : f.name = t.text
  type : f.type = some u.text
  memberType : f.memberType = .field

/-- The field is a method that is not named after the first word alone. The type has become a part
of the name. -/
structure Swallows (f : Field) (t : Token) : Prop where
  name : f.name ≠ t.text
  memberType : f.memberType = .method

theorem keeps_field (hu : u.kind.isWord = true) (hmethod : isMethod (t :: u :: rest) = false) :
    Keeps (field none t (u :: rest)) t u := by
  constructor
  all_goals simp [field, hmethod, passColon_of_isWord hu, splitType, hu]

theorem swallows_field (ht : t.kind.isWord = true) (hu : u.kind.isWord = true)
    (hmethod : isMethod (t :: u :: rest) = true) : Swallows (field none t (u :: rest)) t := by
  obtain ⟨more, behind, hsplit⟩ := exists_splitParenthesis u rest
  constructor
  · simp only [field, hmethod, if_true, hsplit]
    exact signature_ne ht hu
  · simp [field, hmethod]

/-! ## Rows of a body -/

theorem endsRow_of_isWord (ht : t.kind.isWord = true) : endsRow t = false := by
  unfold endsRow
  revert ht
  cases t.kind <;> decide

theorem ne_comment_of_isWord (ht : t.kind.isWord = true) : t.kind ≠ .comment :=
  fun hk => by rw [hk] at ht; cases ht

theorem uncommented_cons_of_isWord (ht : t.kind.isWord = true) (ts : List Token) :
    uncommented (t :: ts) = t :: uncommented ts := by
  simp [uncommented, ne_comment_of_isWord ht]

theorem unmarked_of_uncommented {row : List Token} (hrow : uncommented row = t :: rest)
    (ht : t.kind.isWord = true) (v : Option Visibility) :
    unmarked v row = some (field v t rest) := by
  unfold uncommented at hrow
  simp only [unmarked, hrow, ht, if_true]

/-- At a line end a body falls apart into rows that know nothing of each other. -/
theorem readAll_append_newline (dialect : Dialect) (ts : List Token) (ht : t.kind = .newline)
    (us : List Token) :
    readAll dialect (ts ++ t :: us) = readAll dialect ts ++ readAll dialect us := by
  have hcut : (t.kind == .newline) = true := by rw [ht]; rfl
  rw [readAll, rows, Text.pieces_append ts hcut, List.map_append, List.filterMap_append]
  rfl

theorem readAll_nil (dialect : Dialect) : readAll dialect [] = [] := by
  show (List.filterMap (read? dialect) [[]]) = []
  rw [List.filterMap_cons, read?_nil, List.filterMap_nil]

/-- A single row, with no comment in front, gives one field or none. -/
theorem readAll_row (dialect : Dialect) (ht : t.kind ≠ .comment)
    (hrow : ∀ v ∈ t :: rest, endsRow v = false) :
    readAll dialect (t :: rest) = (read? dialect (t :: rest)).toList := by
  have huncut : ∀ v ∈ t :: rest, (v.kind == .newline) = false := by
    intro v hv
    have hends := hrow v hv
    unfold endsRow at hends
    revert hends
    cases v.kind <;> decide
  have hdrop : ((t :: rest).dropWhile fun v => v.kind == .comment) = t :: rest :=
    List.dropWhile_cons_of_neg (by simpa using ht)
  rw [readAll, rows, Text.pieces_of_forall huncut, List.map_singleton, hdrop, List.filterMap_cons,
    List.filterMap_nil]
  cases read? dialect (t :: rest) <;> rfl

end FieldRow

namespace Cursor

/-- The tokens ahead that are still in the body: those before the closing brace, which none in the
body can be. -/
def inBody (c : Cursor) : List Token :=
  c.ahead.takeWhile fun t => t.kind != .closeBrace && t.kind != .endOfInput

/-- The rest of the row at the cursor, up to where a row ends. -/
def row (c : Cursor) : List Token := c.ahead.takeWhile fun t => !FieldRow.endsRow t

end Cursor

namespace Declaration

open FieldRow

variable {c : Cursor}

/-- In a body the row at the cursor comes first. Behind it the body is over or there is a line end,
which is passed with the row. -/
theorem inBody_fieldRow (dialect : Dialect) (c : Cursor) :
    (c.inBody = c.row ∧ (fieldRow dialect c).2.inBody = []) ∨
      ∃ v, v.kind = .newline ∧ c.inBody = c.row ++ v :: (fieldRow dialect c).2.inBody := by
  let inside (t : Token) : Bool := t.kind != .closeBrace && t.kind != .endOfInput
  have hinside : ∀ v ∈ c.row, inside v = true := by
    intro v hv
    have hends := List.mem_takeWhile_imp hv
    unfold endsRow at hends
    revert hends
    simp only [inside]
    cases v.kind <;> decide
  have hskip : (c.skip c.row.length).ahead = c.ahead.dropWhile fun t => !endsRow t :=
    Cursor.ahead_skip_takeWhile c _
  have hstop := List.head?_dropWhile_not (fun t => !endsRow t) c.ahead
  have hbody : c.inBody = c.row ++ (c.ahead.dropWhile fun t => !endsRow t).takeWhile inside := by
    rw [← List.takeWhile_append_of_pos hinside, Cursor.row, List.takeWhile_append_dropWhile]
    rfl
  have hcursor : (fieldRow dialect c).2 = (c.skip c.row.length).pass .newline := rfl
  rw [hcursor, hbody]
  cases hbehind : c.ahead.dropWhile fun t => !endsRow t with
  | nil =>
      rw [hbehind] at hskip
      rw [Cursor.pass_of_nil (by decide) hskip, Cursor.inBody, hskip]
      exact Or.inl ⟨List.append_nil _, rfl⟩
  | cons v vs =>
      rw [hbehind] at hskip hstop
      by_cases hv : v.kind = .newline
      · have hpass := Cursor.ahead_pass hskip (by rw [hv]; decide)
        rw [hv] at hpass
        refine Or.inr ⟨v, hv, ?_⟩
        rw [Cursor.inBody, hpass, List.takeWhile_cons_of_pos (by simp [inside, hv])]
      · have hpass : (c.skip c.row.length).pass .newline = c.skip c.row.length := by
          refine Cursor.pass_of_ne (by decide) fun u hu => ?_
          rw [hskip] at hu
          cases hu
          exact hv
        have hout : ¬ inside v = true := by
          replace hstop : (!endsRow v) = false := hstop
          unfold endsRow at hstop
          revert hstop hv
          simp only [inside]
          cases v.kind <;> decide
        rw [hpass, Cursor.inBody, hskip, List.takeWhile_cons_of_neg hout]
        exact Or.inl ⟨List.append_nil _, rfl⟩

/-- Reading a body is reading the row at the cursor and then what is behind it. So what is shown of
one row at a time holds of a body. -/
theorem readAll_inBody (dialect : Dialect) (hc : c.ahead = t :: rest) (ht : t.kind ≠ .comment)
    (hrow : endsRow t = false) :
    readAll dialect c.inBody =
      (fieldRow dialect c).1.toList ++ readAll dialect (fieldRow dialect c).2.inBody := by
  have hhead : c.row = t :: rest.takeWhile fun v => !endsRow v := by
    rw [Cursor.row, hc, List.takeWhile_cons_of_pos (by rw [hrow]; rfl)]
  have hread : readAll dialect c.row = (fieldRow dialect c).1.toList := by
    show _ = (read? dialect c.row).toList
    rw [hhead]
    refine readAll_row dialect ht fun v hv => ?_
    rw [← hhead] at hv
    simpa using List.mem_takeWhile_imp hv
  rcases inBody_fieldRow dialect c with ⟨hbody, hbehind⟩ | ⟨v, hv, hbody⟩
  · rw [hbody, hbehind, hread, readAll_nil, List.append_nil]
  · rw [hbody, readAll_append_newline dialect _ hv, hread]

/-- What stands before a row of a body: nothing, or rows with their line ends. Either way the row
begins at its first token. -/
def EndsRows (before : List Token) : Prop :=
  before = [] ∨ ∃ ts v, before = ts ++ [v] ∧ v.kind = .newline

theorem readAll_append_inBody (dialect : Dialect) {before : List Token} (hbefore : EndsRows before)
    (ts : List Token) :
    readAll dialect (before ++ ts) = readAll dialect before ++ readAll dialect ts := by
  obtain rfl | ⟨rows, v, rfl, hv⟩ := hbefore
  · rw [readAll_nil, List.nil_append, List.nil_append]
  · rw [List.append_assoc, List.singleton_append, readAll_append_newline dialect rows hv,
      readAll_append_newline dialect rows hv, readAll_nil, List.append_nil]

theorem fieldRow_eq_field (hc : c.ahead = t :: u :: rest) (ht : t.kind.isWord = true)
    (hu : u.kind.isWord = true) :
    ∃ more, uncommented c.row = t :: u :: more ∧
      (fieldRow .native c).1 = some (field none t (u :: more)) := by
  have hrow : uncommented c.row = t :: u :: uncommented (rest.takeWhile fun v => !endsRow v) := by
    rw [Cursor.row, hc, List.takeWhile_cons_of_pos (by rw [endsRow_of_isWord ht]; rfl),
      List.takeWhile_cons_of_pos (by rw [endsRow_of_isWord hu]; rfl),
      uncommented_cons_of_isWord ht, uncommented_cons_of_isWord hu]
  refine ⟨_, hrow, ?_⟩
  show read? .native c.row = _
  rw [read?_eq, if_neg (by decide), unmarked_of_uncommented hrow ht]

/-- **A row that begins with two words.** It is a field, in its place among those of the body, and
has the two words as its name and type exactly if not both parentheses occur in it. If they do, it
is a method under another name. -/
theorem fieldRow_of_words (hc : c.ahead = t :: u :: rest) (ht : t.kind.isWord = true)
    (hu : u.kind.isWord = true) :
    ∃ f, (fieldRow .native c).1 = some f ∧
      (Keeps f t u ↔ ¬ HasParentheses c.row) ∧ (HasParentheses c.row → Swallows f t) ∧
      ∀ owner (brace : Cursor) before, EndsRows before →
        brace.advance.inBody = before ++ c.inBody →
          (fields .native owner brace).value = readAll .native before ++
            f :: readAll .native (fieldRow .native c).2.inBody := by
  obtain ⟨more, hrow, hfield⟩ := fieldRow_eq_field hc ht hu
  have hmethod := isMethod_uncommented_iff c.row
  rw [hrow] at hmethod
  have hswallows : HasParentheses c.row → Swallows (field none t (u :: more)) t :=
    fun hboth => swallows_field ht hu (hmethod.mpr hboth)
  refine ⟨_, hfield, ⟨fun hkeeps hboth => (hswallows hboth).name hkeeps.name, fun hnot => ?_⟩,
    hswallows, fun owner brace before hbefore hbody => ?_⟩
  · exact keeps_field hu (Bool.eq_false_iff.mpr fun htrue => hnot (hmethod.mp htrue))
  · show readAll .native brace.advance.inBody = _
    rw [hbody, readAll_append_inBody .native hbefore,
      readAll_inBody .native hc (ne_comment_of_isWord ht) (endsRow_of_isWord ht), hfield]
    rfl

/-- A row with a quoted text and a comma, and a row behind it. -/
def quotedRow : Cursor :=
  .ofTokens (Token.scan "email varchar \"none (\", unique\nid integer").tokens

theorem fieldRow_of_words_quotedRow :
    ∃ t u rest f, quotedRow.ahead = t :: u :: rest ∧ t.kind.isWord = true ∧
      u.kind.isWord = true ∧ t.text = "email" ∧ u.text = "varchar" ∧
      (fieldRow .native quotedRow).1 = some f ∧ Keeps f t u := by
  have hahead : quotedRow.ahead = ⟨.ident, "email", ⟨1, 1⟩⟩ :: ⟨.ident, "varchar", ⟨1, 7⟩⟩ ::
      quotedRow.ahead.drop 2 := by decide +kernel
  obtain ⟨f, hf, hkeeps, -⟩ := fieldRow_of_words hahead rfl rfl
  refine ⟨_, _, _, f, hahead, rfl, rfl, rfl, rfl, hf, hkeeps.mpr fun hboth => ?_⟩
  have hmethod := (isMethod_uncommented_iff quotedRow.row).mpr hboth
  revert hmethod
  decide +kernel

/-- A row with a type that has a length. -/
def sizedRow : Cursor := .ofTokens (Token.scan "name varchar(255)").tokens

/-- The length makes a method of the row, and the method has no type. The row is one that begins
with two words. -/
theorem fieldRow_sizedRow :
    (∃ t u rest, sizedRow.ahead = t :: u :: rest ∧ t.kind.isWord = true ∧ u.kind.isWord = true ∧
      t.text = "name" ∧ u.text = "varchar") ∧
      (fieldRow .native sizedRow).1 =
        some ⟨"name varchar(255)", none, [], none, .method, "name varchar(255)"⟩ := by
  have hahead : sizedRow.ahead = ⟨.ident, "name", ⟨1, 1⟩⟩ :: ⟨.ident, "varchar", ⟨1, 6⟩⟩ ::
      sizedRow.ahead.drop 2 := by decide +kernel
  exact ⟨⟨_, _, _, hahead, rfl, rfl, rfl, rfl⟩, by decide +kernel⟩

end Declaration

end Schematic
