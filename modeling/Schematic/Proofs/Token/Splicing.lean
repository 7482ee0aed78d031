import Schematic.Proofs.Token.Sources

/-!
# Text behind a separator

Lexemes do not reach over a blank or a bracket: only a string without its closing quote does, and a
comment reaches over everything but a line end. So a text in which neither happens is cut the same
whatever comes behind it, and what comes behind a line end is cut as a text of its own, further down
(`lexemes_append`, `lexemes_lower`).
-/

namespace Schematic

namespace Place

/-- The place `n` lines further down, in the same column. A text behind others begins a line, so its
columns stay. -/
def lower (n : Nat) (p : Place) : Place := ⟨p.line + n, p.column⟩

theorem after_lower (n : Nat) (p : Place) (cs : List Char) :
    (p.lower n).after cs = (p.after cs).lower n := by
  induction cs generalizing p with
  | nil => rfl
  | cons c cs ih =>
      have hnext : (p.lower n).next c = (p.next c).lower n := by
        unfold next lower
        split
        · simp only [Nat.add_right_comm]
        · rfl
      show ((p.lower n).next c).after cs = ((p.next c).after cs).lower n
      rw [hnext, ih]

end Place

/-- The token elsewhere. It says what it said. -/
def Token.move (f : Place → Place) (t : Token) : Token := { t with place := f t.place }

/-- The report elsewhere. What it is about stays as it is. -/
def Diagnostic.move (f : Place → Place) (d : Diagnostic) : Diagnostic := ⟨f d.place, d.problem⟩

namespace Token

open Text (isBlank)

/-! ## One lexeme -/

/-- The character is part of no name, connector or comment mark that begins before it. Blanks and
brackets are such characters. -/
def separates (b : Char) : Bool := !isNameChar b && b != '>' && b != '/' && b != '%'

theorem ne_of_isBlank {b : Char} (hb : isBlank b = true) {c : Char} (hc : isBlank c = false) :
    b ≠ c := fun he => by
  rw [he, hc] at hb
  cases hb

theorem separates_of_isBlank {b : Char} (hb : isBlank b = true) : separates b = true := by
  have hname : isNameChar b = false := by
    cases hname : isNameChar b with
    | false => rfl
    | true => rw [isBlank_of_isNameChar hname] at hb; cases hb
  have hgt := ne_of_isBlank hb (c := '>') (by decide)
  have hslash := ne_of_isBlank hb (c := '/') (by decide)
  have hpercent := ne_of_isBlank hb (c := '%') (by decide)
  simp [separates, hname, hgt, hslash, hpercent]

section Separator

variable {b : Char} {rest : List Char}

theorem isNameChar_of_separates (hb : separates b = true) : isNameChar b = false := by
  simp only [separates, Bool.and_eq_true, Bool.not_eq_true'] at hb
  exact hb.1.1.1

theorem ne_of_separates (hb : separates b = true) {c : Char} (hc : separates c = false) : b ≠ c :=
  fun he => by
    rw [he, hc] at hb
    cases hb

theorem breaks_of_separates (hb : separates b = true) : Breaks (b :: rest) := by
  rintro c ⟨⟩
  exact ⟨isNameChar_of_separates hb, ne_of_separates hb (by decide)⟩

theorem dashes_append_of_separates (hb : separates b = true) (cs : List Char) :
    dashes (cs ++ b :: rest) = dashes cs :=
  takeWhile_append_cons (by simpa using ne_of_separates hb (c := '-') (by decide)) cs rest

/-- Behind the dashes stands what stood there before, or the separator, and neither rule that asks
tells this from nothing. -/
theorem head?_afterDashes_append (hb : separates b = true) (cs rest : List Char) :
    (afterDashes (cs ++ b :: rest)).head? = (afterDashes cs).head? ∨
      (afterDashes cs).head? = none ∧ (afterDashes (cs ++ b :: rest)).head? = some b := by
  cases hd : afterDashes cs with
  | nil =>
      rw [afterDashes_append_of_nil hd, afterDashes_of_breaks (breaks_of_separates hb)]
      exact Or.inr ⟨rfl, rfl⟩
  | cons d ds =>
      rw [afterDashes_append (by simp [hd]), hd]
      exact Or.inl rfl

theorem arrow_append_of_separates (hb : separates b = true) (cs : List Char) :
    ((afterDashes (cs ++ b :: rest)).head? == some '>') = ((afterDashes cs).head? == some '>') := by
  rcases head?_afterDashes_append hb cs rest with h | ⟨h, h'⟩
  · rw [h]
  · have hne : b ≠ '>' := ne_of_separates hb (by decide)
    simp [h, h', hne]

theorem nameTail_append_of_separates (hb : separates b = true) (cs : List Char) :
    nameTail (cs ++ b :: rest) = nameTail cs := by
  induction cs with
  | nil => exact nameTail_of_breaks (breaks_of_separates hb)
  | cons c cs ih => simp only [List.cons_append, nameTail, arrow_append_of_separates hb, ih]

theorem dashShape_append (hb : separates b = true) (cs : List Char) :
    dashShape (cs ++ b :: rest) = dashShape cs := by
  have hname : nameShape '-' (cs ++ b :: rest) = nameShape '-' cs := by
    simp only [nameShape, nameTail_append_of_separates hb]
  unfold dashShape
  rw [dashes_append_of_separates hb, hname]
  rcases head?_afterDashes_append hb cs rest with h | ⟨h, h'⟩
  · rw [h]
  · have hgt : (b == '>') = false := by simpa using ne_of_separates hb (c := '>') (by decide)
    simp only [h, h', hgt, isNameChar_of_separates hb, Bool.false_eq_true, if_false]

theorem angleShape_append (hb : separates b = true) (cs : List Char) :
    angleShape (cs ++ b :: rest) = angleShape cs := by
  unfold angleShape
  rw [arrow_append_of_separates hb, dashes_append_of_separates hb]

theorem startsComment_append (hb : separates b = true) (c : Char) (cs : List Char) :
    startsComment c (cs ++ b :: rest) = startsComment c cs := by
  cases cs with
  | nil =>
      have h₁ : b ≠ '/' := ne_of_separates hb (by decide)
      have h₂ : b ≠ '%' := ne_of_separates hb (by decide)
      simp [startsComment, h₁, h₂]
  | cons d cs => rfl

/-- Nothing in the lexeme reaches over the separator. An open string reaches over everything, and a
comment over all but a line end. -/
structure Stops (b : Char) (s : Shape) : Prop where
  closed : s.problem? ≠ some .openString
  comment : b = '\n' ∨ s.kind? ≠ some .comment

theorem shape_append_of_separates (hb : separates b = true) {c : Char} {cs : List Char}
    (rest : List Char) (h : Stops b (shape c cs)) : shape c (cs ++ b :: rest) = shape c cs := by
  obtain ⟨hclosed, hcomment⟩ := h
  unfold shape at hclosed hcomment ⊢
  rw [startsComment_append hb]
  split
  · rfl
  · next hn =>
    split
    · rfl
    · next hblank =>
      split
      · next hc =>
        simp only [hn, hblank, hc, if_true, Bool.false_eq_true, if_false] at hcomment
        rcases hcomment with rfl | hk
        · rw [takeWhile_append_cons (by decide)]
        · exact absurd rfl hk
      · next hc =>
        split
        · exact dashShape_append hb cs
        · next hd =>
          split
          · exact angleShape_append hb cs
          · next hlt =>
            split
            · rfl
            · next hgt =>
              split
              · next hq =>
                simp only [hn, hblank, hc, hd, hlt, hgt, hq, if_true, Bool.false_eq_true,
                  if_false] at hclosed
                cases hquote : (quotation c cs).closed with
                | true => simp only [stringShape, quotation_append hquote]
                | false => simp [stringShape, hquote] at hclosed
              · split
                · simp only [nameShape, nameTail_append_of_separates hb]
                · rfl

/-! ## Whole texts -/

theorem lexemes_append (hb : separates b = true) (p : Place) (cs : List Char)
    (h : ∀ x ∈ lexemes p cs, Stops b x.shape) :
    lexemes p (cs ++ b :: rest) = lexemes p cs ++ lexemes (p.after cs) (b :: rest) := by
  induction p, cs using lexemes_induct with
  | nil p =>
      rw [lexemes.eq_def p []]
      rfl
  | cons p c cs source tail hcut hr hlex ih =>
      have hstop : Stops b (shape c cs) := h _ (by rw [hlex]; exact List.mem_cons_self ..)
      have hshape := shape_append_of_separates hb rest hstop
      have hcut' : c :: (cs ++ b :: rest) = source ++ (tail ++ b :: rest) := by
        rw [← List.cons_append, hcut, List.append_assoc]
      have htail := ih fun x hx => h x (by rw [hlex]; exact List.mem_cons_of_mem _ hx)
      have hafter : (p.after source).after tail = p.after (c :: cs) := by
        rw [hcut, Place.after_append]
      rw [List.cons_append, lexemes_append_of_reads p hcut'
        (by rw [hshape]; exact hr.behind hstop.closed _), hshape, htail, hafter, hlex,
        List.cons_append]

end Separator

/-! ## Tokens and reports -/

/-- The tokens of a text that begins at `p`, without a mark for the end. So tokens of texts can be
put one behind the other. -/
def tokens (p : Place) (cs : List Char) : List Token := (lexemes p cs).filterMap Lexeme.token?

/-- What is tolerated in a text that begins at `p`: strings that are not closed and characters that
mean nothing. -/
def reports (p : Place) (cs : List Char) : List Diagnostic :=
  (lexemes p cs).filterMap Lexeme.diagnostic?

theorem scan_eq (text : String) :
    scan text = ⟨tokens .start text.toList ++ [endAt (Place.start.after text.toList)],
      reports .start text.toList⟩ := rfl

theorem kind_of_mem_tokens {p : Place} {cs : List Char} {t : Token} (h : t ∈ tokens p cs) :
    t.kind ≠ .endOfInput := by
  obtain ⟨x, hx, ht⟩ := List.mem_filterMap.mp h
  obtain ⟨rest, hr⟩ := reads_of_mem_lexemes hx
  obtain ⟨kind, hkind, rfl⟩ := Option.map_eq_some_iff.mp ht
  exact fun he => hr.kind_ne (hkind.trans (congrArg some he))

theorem shape_of_mem_tokens {p : Place} {cs : List Char} {t : Token} (h : t ∈ tokens p cs) :
    ∃ c cs', (shape c cs').kind? = some t.kind ∧ t.text = String.ofList (shape c cs').text := by
  obtain ⟨x, hx, ht⟩ := List.mem_filterMap.mp h
  obtain ⟨kind, hkind, rfl⟩ := Option.map_eq_some_iff.mp ht
  obtain ⟨c, cs', hs⟩ := shape_of_mem_lexemes hx
  exact ⟨c, cs', hs ▸ hkind, by rw [hs]⟩

/-- In a text, a mark and the kind of its token are the same thing, strings aside. A string may say
anything. -/
theorem kind_eq_iff_of_mem_tokens {p : Place} {cs : List Char} {t : Token} {b : Char} {kind : Kind}
    (hb : punctuation? b = some kind) (h : t ∈ tokens p cs) :
    t.kind = kind ↔ t.text = String.ofList [b] ∧ t.kind ≠ .string := by
  obtain ⟨c, cs', hkind, htext⟩ := shape_of_mem_tokens h
  constructor
  · rintro rfl
    refine ⟨by rw [htext, text_of_punctuation hb hkind], fun hstring => ?_⟩
    rw [hstring] at hb
    unfold punctuation? at hb
    split at hb <;> cases hb
  · rintro ⟨hmark, hstring⟩
    obtain rfl := eq_of_text hkind hstring (String.ofList_injective (htext.symm.trans hmark))
    rw [shape_punctuation hb] at hkind
    exact (Option.some.inj hkind).symm

theorem line_of_mem_tokens {p : Place} {cs : List Char} {t : Token} (h : t ∈ tokens p cs) :
    p.line ≤ t.place.line ∧ t.place.line ≤ (p.after cs).line := by
  obtain ⟨x, hx, ht⟩ := List.mem_filterMap.mp h
  obtain ⟨kind, -, rfl⟩ := Option.map_eq_some_iff.mp ht
  exact line_of_mem_lexemes hx

theorem line_of_mem_reports {p : Place} {cs : List Char} {d : Diagnostic}
    (h : d ∈ reports p cs) : p.line ≤ d.place.line ∧ d.place.line ≤ (p.after cs).line := by
  obtain ⟨x, hx, hd⟩ := List.mem_filterMap.mp h
  obtain ⟨problem, -, rfl⟩ := Option.map_eq_some_iff.mp hd
  exact line_of_mem_lexemes hx

/-- No string of the text lacks its closing quote. That is just what lets a line end behind it be
one. -/
def Quoted (p : Place) (cs : List Char) : Prop := ∀ d ∈ reports p cs, d.problem ≠ .openString

theorem stops_of_quoted {p : Place} {cs : List Char} (h : Quoted p cs) :
    ∀ x ∈ lexemes p cs, Stops '\n' x.shape := by
  intro x hx
  refine ⟨fun hs => ?_, Or.inl rfl⟩
  have hmem : (⟨x.place, .openString⟩ : Diagnostic) ∈ reports p cs :=
    List.mem_filterMap.mpr ⟨x, hx, by simp [Lexeme.diagnostic?, hs]⟩
  exact h _ hmem rfl

theorem lexemes_newline (p : Place) (cs : List Char) :
    lexemes p ('\n' :: cs) =
      ⟨p, ['\n'], .verbatim .newline ['\n']⟩ :: lexemes (p.next '\n') cs := by
  rw [lexemes]
  rfl

/-- The tokens in front of a line end and behind it, with the line end between them as a token. -/
theorem tokens_newline {p : Place} {cs : List Char} (h : Quoted p cs) (rest : List Char) :
    tokens p (cs ++ '\n' :: rest) = tokens p cs ++
      ⟨.newline, "\n", p.after cs⟩ :: tokens ((p.after cs).next '\n') rest := by
  unfold tokens
  rw [lexemes_append (by decide) p cs (stops_of_quoted h), lexemes_newline,
    List.filterMap_append]
  rfl

theorem reports_newline {p : Place} {cs : List Char} (h : Quoted p cs) (rest : List Char) :
    reports p (cs ++ '\n' :: rest) =
      reports p cs ++ reports ((p.after cs).next '\n') rest := by
  unfold reports
  rw [lexemes_append (by decide) p cs (stops_of_quoted h), lexemes_newline,
    List.filterMap_append]
  rfl

/-! ## Further down -/

/-- A text further down has its lexemes further down. The induction is on the lexemes; no rule asks
where it is. -/
theorem lexemes_lower (n : Nat) (p : Place) (cs : List Char) :
    lexemes (p.lower n) cs = (lexemes p cs).map fun x => { x with place := x.place.lower n } := by
  fun_induction lexemes p cs with
  | case1 p => rw [lexemes]; rfl
  | case2 p c cs s source ih =>
      rw [lexemes, List.map_cons, ← ih, Place.after_lower]

theorem tokens_lower (n : Nat) (p : Place) (cs : List Char) :
    tokens (p.lower n) cs = (tokens p cs).map (Token.move (Place.lower n)) := by
  rw [tokens, lexemes_lower, List.filterMap_map, tokens, List.map_filterMap]
  refine congrArg (fun g => (lexemes p cs).filterMap g) (funext fun x => ?_)
  simp only [Function.comp_apply, Lexeme.token?, Option.map_map]
  rfl

theorem reports_lower (n : Nat) (p : Place) (cs : List Char) :
    reports (p.lower n) cs = (reports p cs).map (Diagnostic.move (Place.lower n)) := by
  rw [reports, lexemes_lower, List.filterMap_map, reports, List.map_filterMap]
  refine congrArg (fun g => (lexemes p cs).filterMap g) (funext fun x => ?_)
  simp only [Function.comp_apply, Lexeme.diagnostic?, Option.map_map]
  rfl

/-! ## Wherever a text stands

Where a text begins makes no difference to its tokens except for their places. `unplaced` forgets
these, and what holds of it holds of the text at every place. -/

/-- The tokens of a text as if each stood at the start. Readers make the same of them, and texts can
be put together without counting places. -/
def unplaced (cs : List Char) : List Token := (tokens .start cs).map (Token.move fun _ => .start)

theorem shapes_eq (p q : Place) (cs : List Char) :
    (lexemes p cs).map Lexeme.shape = (lexemes q cs).map Lexeme.shape := by
  fun_induction lexemes p cs generalizing q with
  | case1 p => rw [lexemes]
  | case2 p c cs s source ih => rw [lexemes, List.map_cons, List.map_cons, ih]

theorem move_tokens (p : Place) (cs : List Char) :
    (tokens p cs).map (Token.move fun _ => .start) = unplaced cs := by
  have spelled (q : Place) : (tokens q cs).map (Token.move fun _ => .start) =
      ((lexemes q cs).map Lexeme.shape).filterMap fun s =>
        s.kind?.map fun kind => ⟨kind, String.ofList s.text, .start⟩ := by
    rw [tokens, List.map_filterMap, List.filterMap_map]
    refine congrArg (fun g => (lexemes q cs).filterMap g) (funext fun x => ?_)
    simp only [Function.comp_apply, Lexeme.token?, Option.map_map]
    rfl
  rw [unplaced, spelled p, spelled .start, shapes_eq p .start]

/-- A token of a text, wherever the text stands, has the kind of one in the text alone. So kinds can
be asked of what scanning gives. -/
theorem exists_of_mem_unplaced {text : String} {u : Token} (h : u ∈ unplaced text.toList) :
    ∃ t ∈ (scan text).tokens, t.kind = u.kind ∧ u.kind ≠ .endOfInput := by
  obtain ⟨t, ht, rfl⟩ := List.mem_map.mp h
  have hend : t.kind ≠ .endOfInput := kind_of_mem_tokens ht
  refine ⟨t, ?_, rfl, hend⟩
  rw [scan_eq]
  exact List.mem_append_left _ ht

/-- The token of the first lexeme, if it makes one, and the tokens behind it. This is how a text is
scanned from its front without places. -/
theorem unplaced_cons (c : Char) (cs : List Char) :
    unplaced (c :: cs) =
      ((shape c cs).kind?.map fun kind => ⟨kind, String.ofList (shape c cs).text, .start⟩).toList ++
        unplaced (cs.drop (shape c cs).extra) := by
  rw [unplaced, tokens, lexemes, List.filterMap_cons,
    ← move_tokens (Place.start.after (c :: cs.take (shape c cs).extra))]
  unfold Lexeme.token?
  cases (shape c cs).kind? <;> rfl

/-- A word in front of what does not continue it is one token, and the rest is scanned as it is
alone. -/
theorem unplaced_word {w : String} (h : IsWord w) {rest : List Char} (hr : Breaks rest) :
    unplaced (w.toList ++ rest) = ⟨nameKind w.toList, w, .start⟩ :: unplaced rest := by
  obtain ⟨c, cs, hs⟩ := h.spelled
  have hw : String.ofList (c :: cs) = w := by rw [← hs.toList, String.ofList_toList]
  have hdrop : (cs ++ rest).drop ((c :: cs).length - 1) = rest := List.drop_left
  rw [hs.toList, List.cons_append, unplaced_cons, hs.shape_append hr]
  simp only [Shape.verbatim, hdrop, hw]
  rfl

/-- In a text with all strings closed and without comments no lexeme reaches over a separator,
whichever that is. -/
theorem stops_of_tokens {b : Char} {p : Place} {cs : List Char} (h : Quoted p cs)
    (hcomment : ∀ t ∈ tokens p cs, t.kind ≠ .comment) : ∀ x ∈ lexemes p cs, Stops b x.shape := by
  intro x hx
  refine ⟨(stops_of_quoted h x hx).closed, Or.inr fun hk => ?_⟩
  have hmem : (⟨.comment, String.ofList x.shape.text, x.place⟩ : Token) ∈ tokens p cs :=
    List.mem_filterMap.mpr ⟨x, hx, by simp [Lexeme.token?, hk]⟩
  exact hcomment _ hmem rfl

theorem unplaced_space {cs : List Char} (h : ∀ x ∈ lexemes .start cs, Stops ' ' x.shape)
    (rest : List Char) : unplaced (cs ++ ' ' :: rest) = unplaced cs ++ unplaced rest := by
  have hspace : ∀ p, lexemes p (' ' :: rest) =
      ⟨p, [' '], ⟨none, [], 0, none⟩⟩ :: lexemes (p.next ' ') rest := fun p => by
    rw [lexemes]
    rfl
  rw [unplaced, tokens, lexemes_append (by decide) _ _ h, hspace, List.filterMap_append,
    List.map_append, ← move_tokens ((Place.start.after cs).next ' ') rest]
  rfl

theorem unplaced_newline {cs : List Char} (h : Quoted .start cs) (rest : List Char) :
    unplaced (cs ++ '\n' :: rest) = unplaced cs ++ ⟨.newline, "\n", .start⟩ :: unplaced rest := by
  rw [unplaced, tokens_newline h, List.map_append, List.map_cons,
    ← move_tokens ((Place.start.after cs).next '\n') rest]
  rfl

theorem unplaced_nil : unplaced [] = [] := by simp [unplaced, tokens, lexemes]

theorem unplaced_blank (cs : List Char) : unplaced (' ' :: cs) = unplaced cs :=
  unplaced_cons ' ' cs

theorem unplaced_lineEnd (rest : List Char) :
    unplaced ('\n' :: rest) = ⟨.newline, "\n", .start⟩ :: unplaced rest :=
  unplaced_cons '\n' rest

theorem unplaced_closeBrace (rest : List Char) :
    unplaced ('}' :: rest) = ⟨.closeBrace, "\x7d", .start⟩ :: unplaced rest :=
  unplaced_cons '}' rest

end Token

end Schematic
