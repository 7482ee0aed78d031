import Schematic.Proofs.Diagnostic
import Schematic.Proofs.Token.Remarks
import Schematic.Proofs.Token.Tiling
import Schematic.Proofs.Token.Splicing

/-!
# Remarks in a text

At a line end that is no part of a string, blanks and a comment may be put in, and behind it lines
that hold nothing but blanks or a comment (`Remarks`). The tokens of the text then have remarks put
in, those behind the line end stand further down, and nothing more is reported (`remarked_tokens`,
`reports_remarked`). What stands at the line end already may be a comment: then it becomes longer.
-/

namespace Schematic

namespace Place

/-- Where a place is once `n` lines are put in behind the line `line`. Columns stay, as nothing is
put in in front of anything on a line. -/
def spread (line n : Nat) (p : Place) : Place :=
  ⟨if line < p.line then p.line + n else p.line, p.column⟩

theorem spread_of_le {line n : Nat} {p : Place} (h : p.line ≤ line) : p.spread line n = p := by
  simp only [spread, Nat.not_lt.mpr h, if_false]

theorem spread_of_lt {line n : Nat} {p : Place} (h : line < p.line) :
    p.spread line n = p.lower n := by
  simp only [spread, h, if_true, lower]

theorem le_spread (line n : Nat) (p q : Place) :
    (p.spread line n).le (q.spread line n) = p.le q := by
  rw [Bool.eq_iff_iff, le_iff, le_iff]
  simp only [spread]
  split <;> split <;> omega

/-- Behind a text stands another line or a later column. So the place behind tells a text from
nothing. -/
theorem after_cons_ne (p : Place) (c : Char) (cs : List Char) : p.after (c :: cs) ≠ p := by
  have later (cs : List Char) (p : Place) : p.line < (p.after cs).line ∨
      p.after cs = ⟨p.line, p.column + cs.length⟩ := by
    induction cs generalizing p with
    | nil => exact Or.inr rfl
    | cons c cs ih =>
        have hcons : p.after (c :: cs) = (p.next c).after cs := rfl
        rw [hcons]
        by_cases hc : c = '\n'
        · have hline := line_le_after (p.next c) cs
          simp only [next, hc, if_true] at hline ⊢
          omega
        · have hih := ih (p.next c)
          simp only [next, hc, if_false] at hih ⊢
          rw [List.length_cons, Nat.add_comm cs.length, ← Nat.add_assoc]
          exact hih
  intro h
  rcases later (c :: cs) p with hlt | heq
  · rw [h] at hlt
    exact Nat.lt_irrefl _ hlt
  · have hcolumn := congrArg column (h.symm.trans heq)
    simp only [List.length_cons] at hcolumn
    omega

end Place

namespace Token

open Text (isBlank)

/-! ## The texts that are put in -/

/-- Blanks on one line, and maybe a comment behind them. Neither has a line end in it. -/
structure Silence where
  blanks : List Char
  note? : Option (List Char)
  blank : ∀ c ∈ blanks, isBlank c = true ∧ c ≠ '\n'
  line : ∀ note ∈ note?, '\n' ∉ note

/-- The comment of a silence, with its mark, or nothing. -/
def Silence.comment (x : Silence) : List Char :=
  x.note?.elim [] fun note => '/' :: '/' :: note

def Silence.chars (x : Silence) : List Char := x.blanks ++ x.comment

/-- What is put in at a line end, where a blank stands before a comment, and the lines that are put
in behind it. -/
structure Remarks where
  rest : Silence
  lines : List Silence
  apart : rest.note?.isSome = true → rest.blanks ≠ []

/-- Lines, each with a line end before it, so that they can stand behind a text. -/
def Remarks.linesChars : List Silence → List Char
  | [] => []
  | x :: xs => '\n' :: (x.chars ++ linesChars xs)

def Remarks.chars (w : Remarks) : List Char := w.rest.chars ++ linesChars w.lines

/-- Between `before` and `after` a line ends: with a line end that is a token of the whole text, so
no part of a string, or with the text, if that leaves no string open. -/
inductive LineEnd (before : List Char) : List Char → Prop
  | newline {rest : List Char}
      (h : ⟨.newline, "\n", Place.start.after before⟩ ∈ tokens .start (before ++ '\n' :: rest)) :
      LineEnd before ('\n' :: rest)
  | last (h : Quoted .start before) : LineEnd before []

/-! ## From lexeme to lexeme -/

section First

variable {p : Place} {c : Char} {cs source tail : List Char}

/-- A first lexeme that more text behind leaves as it is. Behind it, scanning goes on in the rest
and the new text. -/
theorem lexemes_cons_behind (hcut : c :: cs = source ++ tail)
    (hr : Reads tail source (shape c cs)) (hclosed : (shape c cs).problem? ≠ some .openString)
    {ys : List Char} (hshape : shape c (cs ++ ys) = shape c cs) :
    lexemes p (c :: cs ++ ys) =
      ⟨p, source, shape c cs⟩ :: lexemes (p.after source) (tail ++ ys) := by
  have hcut' : c :: (cs ++ ys) = source ++ (tail ++ ys) := by
    rw [← List.cons_append, hcut, List.append_assoc]
  rw [List.cons_append, lexemes_append_of_reads p hcut'
    (by rw [hshape]; exact hr.behind hclosed _), hshape]

theorem quoted_cons_iff
    (hlex : lexemes p (c :: cs) = ⟨p, source, shape c cs⟩ :: lexemes (p.after source) tail) :
    Quoted p (c :: cs) ↔
      (shape c cs).problem? ≠ some .openString ∧ Quoted (p.after source) tail := by
  have hquoted (p : Place) (cs : List Char) :
      Quoted p cs ↔ ∀ x ∈ lexemes p cs, x.shape.problem? ≠ some .openString := by
    refine ⟨fun h x hx => (stops_of_quoted h x hx).closed, fun h d hd => ?_⟩
    obtain ⟨x, hx, hxd⟩ := List.mem_filterMap.mp hd
    obtain ⟨problem, hproblem, rfl⟩ := Option.map_eq_some_iff.mp hxd
    exact fun he => h x hx (hproblem.trans (congrArg some he))
  rw [hquoted, hquoted, hlex, List.forall_mem_cons]

/-- A lexeme with an open string is all the rest of the text. Its quote does not come again in it.
-/
theorem eq_quotation_of_open (hcut : c :: cs = source ++ tail)
    (hr : Reads tail source (shape c cs)) (hopen : (shape c cs).problem? = some .openString) :
    (c = '"' ∨ c = '\'') ∧ hasBare c cs = false := by
  generalize shape c cs = s at hr hopen
  cases hr with
  | blank => cases hopen
  | newline => cases hopen
  | verbatim => cases hopen
  | unknown => cases hopen
  | closed => cases hopen
  | unclosed hquote hbody hrest =>
      rw [hrest, List.append_nil] at hcut
      obtain ⟨rfl, rfl⟩ := List.cons.inj hcut
      exact ⟨hquote, hbody⟩

end First

/-! ## Strings that reach over a line end -/

/-- The lexemes of a text that begins with a string which is still open at a line end: the string
goes on, so the others begin below that line. -/
theorem string_reaches {quote : Char} (hquote : quote = '"' ∨ quote = '\'') {body : List Char}
    (hbody : hasBare quote body = false) (p : Place) (rest : List Char) :
    ∀ x ∈ lexemes p (quote :: (body ++ '\n' :: rest)), x.shape.kind? = some .string ∨
      (p.after (quote :: body)).line < x.place.line := by
  intro x hx
  obtain ⟨source, tail, hcut, hr, hlex⟩ := lexemes_cons p quote (body ++ '\n' :: rest)
  rw [shape_quote hquote] at hr hlex
  rw [hlex] at hx
  rcases List.mem_cons.mp hx with rfl | hx
  · exact Or.inl rfl
  · refine Or.inr ?_
    have hkind : (stringShape quote (body ++ '\n' :: rest)).kind? = some .string := rfl
    generalize stringShape quote (body ++ '\n' :: rest) = s at hr hkind
    cases hr with
    | blank => cases hkind
    | newline => cases hkind
    | verbatim _ _ hstring => exact absurd (Option.some.inj hkind) hstring
    | unknown => cases hkind
    | unclosed _ _ hrest =>
        rw [hrest, lexemes] at hx
        cases hx
    | @closed other body' _ _ hclose =>
        rw [List.cons_append] at hcut
        obtain ⟨rfl, hcut⟩ := List.cons.inj hcut
        -- the quote that closes the string stands behind the line end
        have hend : ∃ more, body' ++ [quote] = body ++ '\n' :: more := by
          rcases List.append_eq_append_iff.mp hcut with ⟨more, hmore, hrest⟩ | ⟨more, hmore, -⟩
          · cases more with
            | nil =>
                rw [List.append_nil] at hmore
                rw [hmore, hbody] at hclose
                cases hclose
            | cons c more =>
                obtain ⟨rfl, -⟩ := List.cons.inj hrest
                exact ⟨more, hmore⟩
          · rw [hmore, hasBare_append hclose] at hbody
            cases hbody
        obtain ⟨more, hmore⟩ := hend
        have hline := (line_of_mem_lexemes hx).1
        rw [hmore, ← List.cons_append, Place.after_append] at hline
        have hnext := Place.line_le_after ((p.after (quote :: body)).next '\n') more
        exact Nat.lt_of_lt_of_le (Nat.lt_succ_self _) (Nat.le_trans hnext hline)

/-- In front of a line end that is a token no string is open. An open string would have taken the
line end in. The induction is on the lexemes, up to the one at that place. -/
theorem quoted_of_newline {p : Place} {cs rest : List Char} {x : Lexeme}
    (hx : x ∈ lexemes p (cs ++ '\n' :: rest)) (hkind : x.shape.kind? = some .newline)
    (hplace : x.place = p.after cs) : Quoted p cs := by
  induction p, cs using lexemes_induct with
  | nil p =>
      intro d hd
      rw [reports, lexemes] at hd
      cases hd
  | cons p c cs source tail hcut hr hlex ih =>
      by_cases hopen : (shape c cs).problem? = some .openString
      · obtain ⟨hquote, hbody⟩ := eq_quotation_of_open hcut hr hopen
        rcases string_reaches hquote hbody p rest x hx with hs | hlt
        · rw [hkind] at hs
          cases hs
        · rw [hplace] at hlt
          exact absurd hlt (Nat.lt_irrefl _)
      · have hshape := shape_append_of_separates (b := '\n') (by decide) rest ⟨hopen, Or.inl rfl⟩
        rw [lexemes_cons_behind hcut hr hopen hshape] at hx
        refine (quoted_cons_iff hlex).mpr ⟨hopen, ?_⟩
        rcases List.mem_cons.mp hx with rfl | hx
        · exact absurd hplace.symm (Place.after_cons_ne p c cs)
        · refine ih hx ?_
          rw [hplace, hcut, Place.after_append]

theorem LineEnd.quoted {before after : List Char} (h : LineEnd before after) :
    Quoted .start before := by
  cases h with
  | last h => exact h
  | newline h =>
      obtain ⟨x, hx, ht⟩ := List.mem_filterMap.mp h
      obtain ⟨kind, hkind, ht⟩ := Option.map_eq_some_iff.mp ht
      refine quoted_of_newline hx (hkind.trans (congrArg some ?_)) ?_
      · exact congrArg Token.kind ht
      · exact congrArg Token.place ht

/-! ## The tokens of a text are tidy -/

/-- A line end or a comment says something else than a closing bracket. An edge line tells brackets
by their texts alone, so this must be known of every token. -/
theorem silent_of_mem_tokens {p : Place} {cs : List Char} {t : Token} (ht : t ∈ tokens p cs)
    (hkind : Remarked.Mute t) : t.text ∉ EdgeLine.closers := by
  obtain ⟨c, cs', hk, htext⟩ := shape_of_mem_tokens ht
  have hstring : t.kind ≠ .string := fun he => by
    rcases hkind with h | h <;> cases h.symm.trans he
  -- a closing bracket is the first character of its token, and that character decides the kind
  have hfirst {b : Char} (h : t.text = String.ofList [b]) : c = b :=
    eq_of_text hk hstring (String.ofList_injective (htext.symm.trans h))
  intro hmem
  simp only [EdgeLine.closers, List.mem_cons, List.not_mem_nil, or_false] at hmem
  rcases hmem with hmem | hmem | hmem
  · obtain rfl := hfirst (b := ']') hmem
    rcases hkind with h | h <;> cases h.symm.trans (Option.some.inj hk).symm
  · obtain rfl := hfirst (b := '\x7d') hmem
    rcases hkind with h | h <;> cases h.symm.trans (Option.some.inj hk).symm
  · obtain rfl := hfirst (b := ')') hmem
    rcases hkind with h | h <;> cases h.symm.trans (Option.some.inj hk).symm

theorem tidy_tokens (p : Place) (cs : List Char) : Remarked.Tidy (tokens p cs) := by
  intro t ht
  have hend := kind_of_mem_tokens ht
  have hnewline : t.kind = .newline → Silent .newline t := fun hk =>
    ⟨hk, silent_of_mem_tokens ht (Or.inl hk)⟩
  have hcomment : t.kind = .comment → Silent .comment t := fun hk =>
    ⟨hk, silent_of_mem_tokens ht (Or.inr hk)⟩
  cases hk : t.kind with
  | newline => exact Or.inr (Or.inl (hnewline hk))
  | comment => exact Or.inr (Or.inr (hcomment hk))
  | endOfInput => exact absurd hk hend
  | _ => exact Or.inl rfl

/-! ## What is put in at the line end -/

/-- A comment mark makes the rest of the line a comment, so a line that begins with it is a single
lexeme. -/
theorem lexemes_comment {c : Char} {cs : List Char} (h : startsComment c cs = true)
    (hline : '\n' ∉ cs) (p : Place) :
    lexemes p (c :: cs) = [⟨p, c :: cs, .verbatim .comment (c :: cs)⟩] := by
  have hall : cs.takeWhile (· != '\n') = cs := by
    refine List.takeWhile_eq_self_iff.mpr fun d hd => ?_
    rw [bne_iff_ne]
    rintro rfl
    exact hline hd
  have hshape := shape_of_startsComment h
  rw [hall] at hshape
  rw [lexemes, hshape]
  simp [Shape.verbatim, lexemes]

section Trailing

variable {w : List Char} {b : Char}

/-- At the end of a line, blanks and what follows them are cut by themselves, or they make a comment
that ends the line longer. -/
theorem lexemes_trailing (hb : isBlank b = true) (hw : '\n' ∉ b :: w) (p : Place)
    {cs : List Char} (h : Quoted p cs) :
    lexemes p (cs ++ b :: w) = lexemes p cs ++ lexemes (p.after cs) (b :: w) ∨
      ∃ xs q source, lexemes p cs = xs ++ [⟨q, source, .verbatim .comment source⟩] ∧
        lexemes p (cs ++ b :: w) =
          xs ++ [⟨q, source ++ b :: w, .verbatim .comment (source ++ b :: w)⟩] := by
  induction p, cs using lexemes_induct with
  | nil p => exact Or.inl (by rw [lexemes.eq_def p []]; rfl)
  | cons p c cs source tail hcut hr hlex ih =>
      obtain ⟨hclosed, htail⟩ := (quoted_cons_iff hlex).mp h
      -- a lexeme that is not a comment up to the end of the text stays as it is
      have hstays (hshape : shape c (cs ++ b :: w) = shape c cs) :
          lexemes p (c :: cs ++ b :: w) =
              lexemes p (c :: cs) ++ lexemes (p.after (c :: cs)) (b :: w) ∨
            ∃ xs q source, lexemes p (c :: cs) = xs ++ [⟨q, source, .verbatim .comment source⟩] ∧
              lexemes p (c :: cs ++ b :: w) =
                xs ++ [⟨q, source ++ b :: w, .verbatim .comment (source ++ b :: w)⟩] := by
        rw [lexemes_cons_behind hcut hr hclosed hshape, hlex]
        rcases ih htail with hsplit | ⟨xs, q, last, hxs, hlong⟩
        · rw [hsplit, ← Place.after_append, ← hcut]
          exact Or.inl rfl
        · rw [hxs, hlong]
          exact Or.inr ⟨_ :: xs, q, last, rfl, rfl⟩
      by_cases hkind : (shape c cs).kind? = some .comment
      · have hstart := startsComment_of_kind hkind
        have hstart' : startsComment c (cs ++ b :: w) = true := by
          rw [startsComment_append (separates_of_isBlank hb), hstart]
        by_cases hline : '\n' ∈ cs
        · obtain ⟨front, back, rfl⟩ := List.append_of_mem hline
          refine hstays ?_
          rw [shape_of_startsComment hstart, shape_of_startsComment hstart', List.append_assoc,
            List.cons_append, takeWhile_append_cons (by decide), takeWhile_append_cons (by decide)]
        · have hline' : '\n' ∉ cs ++ b :: w := by
            rw [List.mem_append, not_or]
            exact ⟨hline, hw⟩
          exact Or.inr ⟨[], p, c :: cs, lexemes_comment hstart hline p,
            lexemes_comment hstart' hline' p⟩
      · exact hstays (shape_append_of_separates (separates_of_isBlank hb) w ⟨hclosed, Or.inr hkind⟩)

end Trailing

/-! ## Blanks and a comment -/

theorem lexemes_blank {c : Char} (hblank : isBlank c = true) (hline : c ≠ '\n') (p : Place)
    (cs : List Char) :
    lexemes p (c :: cs) = ⟨p, [c], ⟨none, [], 0, none⟩⟩ :: lexemes (p.next c) cs := by
  have hshape : shape c cs = ⟨none, [], 0, none⟩ := by simp [shape, hline, hblank]
  rw [lexemes, hshape]
  rfl

theorem lexemes_blanks {blanks : List Char} (h : ∀ c ∈ blanks, isBlank c = true ∧ c ≠ '\n')
    (p : Place) (cs : List Char) :
    tokens p (blanks ++ cs) = tokens (p.after blanks) cs ∧
      reports p (blanks ++ cs) = reports (p.after blanks) cs := by
  induction blanks generalizing p with
  | nil => exact ⟨rfl, rfl⟩
  | cons c blanks ih =>
      obtain ⟨hblank, hline⟩ := h c (List.mem_cons_self ..)
      obtain ⟨htokens, hreports⟩ := ih (fun d hd => h d (List.mem_cons_of_mem c hd)) (p.next c)
      have hlex := lexemes_blank hblank hline p (blanks ++ cs)
      have hafter : p.after (c :: blanks) = (p.next c).after blanks := rfl
      rw [hafter, ← htokens, ← hreports, List.cons_append, tokens, reports, hlex]
      exact ⟨rfl, rfl⟩

namespace Silence

variable (x : Silence) (p : Place)

/-- A silence makes a comment or no token, and no report, wherever it stands. -/
theorem tokens_chars : (tokens p x.chars = [] ∨ ∃ t : Token, t.kind = .comment ∧
    tokens p x.chars = [t]) ∧ reports p x.chars = [] := by
  obtain ⟨htokens, hreports⟩ := lexemes_blanks x.blank p x.comment
  have hline := x.line
  rw [chars, htokens, hreports, comment]
  cases hnote : x.note? with
  | none =>
      rw [Option.elim_none, tokens, reports, lexemes]
      exact ⟨Or.inl rfl, rfl⟩
  | some note =>
      have hstart : startsComment '/' ('/' :: note) = true := rfl
      have hlex := lexemes_comment hstart (by simpa using hline note hnote) (p.after x.blanks)
      rw [Option.elim_some, tokens, reports, hlex]
      exact ⟨Or.inr ⟨_, rfl, rfl⟩, rfl⟩

theorem newline_notMem_chars : '\n' ∉ x.chars := by
  have hline := x.line
  rw [chars, List.mem_append, not_or]
  refine ⟨fun h => (x.blank _ h).2 rfl, ?_⟩
  rw [comment]
  cases hnote : x.note? with
  | none => exact List.not_mem_nil
  | some note => simpa using hline note hnote

theorem quoted_chars : Quoted p x.chars := by
  intro d hd
  rw [(x.tokens_chars p).2] at hd
  cases hd

/-- The comment of a silence is a remark where the line ends behind it. Without a comment nothing is
put in. -/
theorem remarked {fresh : Bool} {ts us : List Token} (hus : ∀ u ∈ us.head?, Silent .newline u)
    (h : Remarked fresh ts us) : Remarked fresh ts (tokens p x.chars ++ us) := by
  rcases (x.tokens_chars p).1 with htokens | ⟨t, ht, htokens⟩
  · rw [htokens]
    exact h
  · have hmem : t ∈ tokens p x.chars := by rw [htokens]; exact List.mem_singleton.mpr rfl
    rw [htokens]
    exact .remark ⟨ht, silent_of_mem_tokens hmem (Or.inr ht)⟩ (fun v hv => (hus v hv).kind) h

end Silence

/-! ## At a line end -/

/-- The text is over or begins with a line end. Only there may lines be put in in front of it. -/
def EndsLine (cs : List Char) : Prop := ∀ c ∈ cs.head?, c = '\n'

theorem LineEnd.endsLine {before after : List Char} (h : LineEnd before after) :
    EndsLine after := by
  cases h with
  | newline => exact fun c hc => (Option.some.inj hc).symm
  | last => exact nofun

theorem lexemes_append_endsLine {p : Place} {cs rest : List Char} (h : Quoted p cs)
    (hrest : EndsLine rest) :
    lexemes p (cs ++ rest) = lexemes p cs ++ lexemes (p.after cs) rest := by
  cases rest with
  | nil => rw [List.append_nil, lexemes.eq_def (p.after cs) [], List.append_nil]
  | cons c rest =>
      obtain rfl := hrest c rfl
      exact lexemes_append (by decide) p cs (stops_of_quoted h)

/-- Texts that are cut apart have their tokens and reports apart, since both are taken from the
lexemes one by one. -/
theorem tokens_reports_append {p : Place} {cs rest : List Char}
    (h : lexemes p (cs ++ rest) = lexemes p cs ++ lexemes (p.after cs) rest) :
    tokens p (cs ++ rest) = tokens p cs ++ tokens (p.after cs) rest ∧
      reports p (cs ++ rest) = reports p cs ++ reports (p.after cs) rest := by
  rw [tokens, reports, h, List.filterMap_append, List.filterMap_append]
  exact ⟨rfl, rfl⟩

theorem tokens_append {p : Place} {cs rest : List Char} (h : Quoted p cs)
    (hrest : EndsLine rest) : tokens p (cs ++ rest) = tokens p cs ++ tokens (p.after cs) rest :=
  (tokens_reports_append (lexemes_append_endsLine h hrest)).1

theorem reports_append {p : Place} {cs rest : List Char} (h : Quoted p cs)
    (hrest : EndsLine rest) :
    reports p (cs ++ rest) = reports p cs ++ reports (p.after cs) rest :=
  (tokens_reports_append (lexemes_append_endsLine h hrest)).2

theorem tokens_lineEnd (p : Place) (cs : List Char) :
    tokens p ('\n' :: cs) = ⟨.newline, "\n", p⟩ :: tokens (p.next '\n') cs := by
  rw [tokens, lexemes_newline]
  rfl

theorem reports_lineEnd (p : Place) (cs : List Char) :
    reports p ('\n' :: cs) = reports (p.next '\n') cs := by
  rw [reports, lexemes_newline]
  rfl

theorem silent_newline (p : Place) : Silent .newline ⟨.newline, "\n", p⟩ where
  kind := rfl
  text := by
    show "\n" ∉ EdgeLine.closers
    decide

theorem head?_tokens {cs : List Char} (h : EndsLine cs) (p : Place) :
    ∀ t ∈ (tokens p cs).head?, Silent .newline t := by
  cases cs with
  | nil =>
      intro t ht
      rw [tokens, lexemes] at ht
      cases ht
  | cons c cs =>
      obtain rfl := h c rfl
      rw [tokens_lineEnd]
      exact fun t ht => Option.some.inj ht ▸ silent_newline p

theorem endsLine_linesChars (xs : List Silence) {rest : List Char} (h : EndsLine rest) :
    EndsLine (Remarks.linesChars xs ++ rest) := by
  cases xs with
  | nil => exact h
  | cons x xs => exact fun c hc => (Option.some.inj hc).symm

/-- Lines that say nothing, in front of a line end or of the end of the text. The induction is on
these lines, each of which is a blank line with or without a comment. -/
theorem remarked_lines {ts : List Token} {rest : List Char} (hrest : EndsLine rest)
    (hts : ∀ t ∈ ts.head?, Silent .newline t) (xs : List Silence) (p : Place)
    (h : Remarked false ts (tokens (p.after (Remarks.linesChars xs)) rest)) :
    Remarked false ts (tokens p (Remarks.linesChars xs ++ rest)) := by
  induction xs generalizing p with
  | nil => exact h
  | cons x xs ih =>
      have hnext := ih ((p.next '\n').after x.chars) (by
        rw [← Place.after_append]
        exact h)
      have hend := endsLine_linesChars xs hrest
      rw [Remarks.linesChars, List.cons_append, List.append_assoc, tokens_lineEnd,
        tokens_append (x.quoted_chars _) hend]
      cases ts with
      | nil =>
          exact .blank (silent_newline p) (Or.inr rfl)
            (x.remarked _ (head?_tokens hend _) hnext.mono)
      | cons t ts =>
          have ht := hts t rfl
          exact .newline ht (silent_newline p)
            (x.remarked _ (head?_tokens hend _) (hnext.tail ht.kind))

theorem reports_lines (xs : List Silence) (p : Place) {rest : List Char} (hrest : EndsLine rest) :
    reports p (Remarks.linesChars xs ++ rest) =
      reports (p.after (Remarks.linesChars xs)) rest := by
  induction xs generalizing p with
  | nil => rfl
  | cons x xs ih =>
      rw [Remarks.linesChars, List.cons_append, List.append_assoc, reports_lineEnd,
        reports_append (x.quoted_chars _) (endsLine_linesChars xs hrest),
        (x.tokens_chars _).2, List.nil_append, ih, ← Place.after_append]
      rfl

/-- What is put in at the line end itself. With blanks in front it is cut by itself, or it makes a
comment that stands there longer (`lexemes_trailing`). -/
theorem remarked_rest (w : Remarks) {p : Place} {cs : List Char} (hcs : Quoted p cs)
    {ts us : List Token} (hus : ∀ u ∈ us.head?, Silent .newline u) (h : Remarked false ts us) :
    Remarked true (tokens p cs ++ ts) (tokens p (cs ++ w.rest.chars) ++ us) ∧
      reports p (cs ++ w.rest.chars) = reports p cs := by
  have htidy := tidy_tokens p cs
  cases hblanks : w.rest.blanks with
  | nil =>
      have hchars : w.rest.chars = [] := by
        have hnote : w.rest.note? = none := by
          cases hnote : w.rest.note? with
          | none => rfl
          | some note => exact absurd hblanks (w.apart (by rw [hnote]; rfl))
        rw [Silence.chars, Silence.comment, hblanks, hnote]
        rfl
      rw [hchars, List.append_nil]
      exact ⟨.append htidy h, rfl⟩
  | cons b blanks =>
      have hchars : w.rest.chars = b :: (blanks ++ w.rest.comment) := by
        rw [Silence.chars, hblanks]
        rfl
      have hb := (w.rest.blank b (by rw [hblanks]; exact List.mem_cons_self ..)).1
      have hline := w.rest.newline_notMem_chars
      have hrest := w.rest.remarked (p.after cs) hus h
      obtain ⟨-, hreports⟩ := w.rest.tokens_chars (p.after cs)
      rw [hchars] at hline hrest hreports ⊢
      rcases lexemes_trailing hb hline p hcs with hsplit | ⟨xs, q, source, hxs, hlong⟩
      · obtain ⟨htok, hrep⟩ := tokens_reports_append hsplit
        rw [htok, hrep, hreports, List.append_assoc, List.append_nil]
        exact ⟨.append htidy hrest, rfl⟩
      · -- the text ends in a comment, and that is longer now
        have htok : tokens p cs =
            xs.filterMap Lexeme.token? ++ [⟨.comment, String.ofList source, q⟩] := by
          rw [tokens, hxs, List.filterMap_append]
          rfl
        have htok' : tokens p (cs ++ b :: (blanks ++ w.rest.comment)) =
            xs.filterMap Lexeme.token? ++ [⟨.comment,
              String.ofList (source ++ b :: (blanks ++ w.rest.comment)), q⟩] := by
          rw [tokens, hlong, List.filterMap_append]
          rfl
        have hlast : ∀ {ts : List Token} {t : Token}, t ∈ ts ++ [t] := by simp
        have hshort := silent_of_mem_tokens (htok ▸ hlast) (Or.inr rfl)
        have hlonger := silent_of_mem_tokens (htok' ▸ hlast) (Or.inr rfl)
        refine ⟨?_, ?_⟩
        · rw [htok] at htidy
          rw [htok, htok', List.append_assoc, List.append_assoc]
          refine .append (fun t ht => htidy t (List.mem_append_left _ ht)) ?_
          exact .comment ⟨rfl, hshort⟩ ⟨rfl, hlonger⟩ h
        · rw [reports, hlong, reports, hxs, List.filterMap_append, List.filterMap_append]
          rfl

/-! ## The whole text -/

theorem Remarks.count_chars (w : Remarks) : w.chars.count '\n' = w.lines.length := by
  have hquiet (x : Silence) : x.chars.count '\n' = 0 :=
    List.count_eq_zero.mpr x.newline_notMem_chars
  have hlines (xs : List Silence) : (linesChars xs).count '\n' = xs.length := by
    induction xs with
    | nil => rfl
    | cons x xs ih => simp [linesChars, hquiet, ih]
  rw [chars, List.count_append, hquiet, hlines, Nat.zero_add]

/-- What stands behind the line end stands further down. The line end itself is on the old line and
does not move. -/
theorem remarked_after {rest : List Char} (h : EndsLine rest) {p q : Place} {n : Nat}
    (hq : q.line = p.line + n) :
    Remarked false ((tokens p rest).map (Token.move (.spread p.line n))) (tokens q rest) ∧
      reports q rest = (reports p rest).map (Diagnostic.move (.spread p.line n)) := by
  cases rest with
  | nil =>
      simp only [tokens, reports, lexemes, List.filterMap_nil, List.map_nil]
      exact ⟨.nil, trivial⟩
  | cons c rest =>
      obtain rfl := h c rfl
      have hnext : q.next '\n' = (p.next '\n').lower n := by
        simp only [Place.next, if_true, Place.lower, hq, Nat.add_right_comm]
      have hbelow {r : Place} (hr : (p.next '\n').line ≤ r.line) : r.spread p.line n = r.lower n :=
        Place.spread_of_lt hr
      have htokens : (tokens (p.next '\n') rest).map (Token.move (.spread p.line n)) =
          (tokens (p.next '\n') rest).map (Token.move (.lower n)) := by
        refine List.map_congr_left fun t ht => ?_
        rw [Token.move, hbelow (line_of_mem_tokens ht).1]
        rfl
      have hreports : (reports (p.next '\n') rest).map (Diagnostic.move (.spread p.line n)) =
          (reports (p.next '\n') rest).map (Diagnostic.move (.lower n)) := by
        refine List.map_congr_left fun d hd => ?_
        rw [Diagnostic.move, hbelow (line_of_mem_reports hd).1]
        rfl
      rw [tokens_lineEnd, tokens_lineEnd, reports_lineEnd, reports_lineEnd, List.map_cons, htokens,
        hreports, hnext, tokens_lower, reports_lower, ← tokens_lower]
      exact ⟨.newline (silent_newline _) (silent_newline q) (.refl (tidy_tokens _ _)), rfl⟩

/-- The tokens of a text with remarks put in are those of the text with remarks put in, and its
reports are those of the text. -/
theorem remarked_tokens {before after : List Char} (h : LineEnd before after) (w : Remarks) :
    let f := Place.spread (Place.start.after before).line w.lines.length
    Remarked true ((tokens .start (before ++ after)).map (Token.move f))
        (tokens .start (before ++ w.chars ++ after)) ∧
      reports .start (before ++ w.chars ++ after) =
        (reports .start (before ++ after)).map (Diagnostic.move f) := by
  intro f
  have hquoted := h.quoted
  have hend := h.endsLine
  have hsplit : before ++ w.chars ++ after =
      (before ++ w.rest.chars) ++ (Remarks.linesChars w.lines ++ after) := by
    simp only [Remarks.chars, List.append_assoc]
  have hline : ((Place.start.after (before ++ w.rest.chars)).after
      (Remarks.linesChars w.lines)).line = (Place.start.after before).line + w.lines.length := by
    rw [← Place.after_append, List.append_assoc, ← Remarks.chars, Place.after_eq_behind,
      Place.after_eq_behind]
    simp only [Place.behind, List.count_append, w.count_chars, Nat.add_assoc]
  obtain ⟨hafter, hreports⟩ := remarked_after hend hline
  have hfirst : ∀ t ∈ ((tokens (Place.start.after before) after).map (Token.move f)).head?,
      Silent .newline t := by
    intro t ht
    rw [List.head?_map] at ht
    obtain ⟨u, hu, rfl⟩ := Option.map_eq_some_iff.mp ht
    obtain ⟨hkind, htext⟩ := head?_tokens hend _ u hu
    exact ⟨hkind, htext⟩
  have hlines := remarked_lines hend hfirst w.lines _ hafter
  have hhead := head?_tokens (endsLine_linesChars w.lines hend)
    (Place.start.after (before ++ w.rest.chars))
  obtain ⟨htokens, hrest⟩ := remarked_rest w hquoted hhead hlines
  have hquoted' : Quoted .start (before ++ w.rest.chars) := by
    rw [Quoted, hrest]
    exact hquoted
  -- what stands in front of the line end stays where it is
  have hstays {p : Place} (hp : p.line ≤ (Place.start.after before).line) : f p = p :=
    Place.spread_of_le hp
  have hkeep : (tokens .start before).map (Token.move f) = tokens .start before := by
    refine (List.map_congr_left fun t ht => ?_).trans (List.map_id _)
    rw [Token.move, hstays (line_of_mem_tokens ht).2]
    rfl
  have hkeep' : (reports .start before).map (Diagnostic.move f) = reports .start before := by
    refine (List.map_congr_left fun d hd => ?_).trans (List.map_id _)
    rw [Diagnostic.move, hstays (line_of_mem_reports hd).2]
    rfl
  rw [hsplit, tokens_append hquoted hend, List.map_append, hkeep,
    tokens_append hquoted' (endsLine_linesChars w.lines hend), reports_append hquoted hend,
    List.map_append, hkeep', reports_append hquoted' (endsLine_linesChars w.lines hend), hrest,
    reports_lines w.lines _ hend, hreports]
  exact ⟨htokens, rfl⟩

end Token

end Schematic
