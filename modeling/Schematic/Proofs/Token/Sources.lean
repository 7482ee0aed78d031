import Mathlib.Data.List.TakeWhile
import Schematic.Proofs.Token.Names

/-!
# What a rule takes

Each rule of the scanner takes a stretch from the head of the text. `shape_reads` says, for all
rules at once, what such a stretch can be and what is made of it: a blank, a mark or a name taken
as it stands, or a quotation with its escapes undone. Everything about whole texts follows from
it by going from lexeme to lexeme.
-/

namespace Schematic

namespace Place

theorem after_append (p : Place) (xs ys : List Char) :
    p.after (xs ++ ys) = (p.after xs).after ys := List.foldl_append

theorem line_le_after (p : Place) (cs : List Char) : p.line ≤ (p.after cs).line := by
  induction cs generalizing p with
  | nil => exact Nat.le_refl _
  | cons c cs ih =>
      refine Nat.le_trans ?_ (ih (p.next c))
      unfold next
      split
      · exact Nat.le_succ _
      · exact Nat.le_refl _

end Place

namespace Token

open Text (isBlank)

/-! ## Quotations -/

/-- What the body of a quotation says. A backslash stands for the character behind it; with none
behind it, it stands for nothing. -/
def unescape : List Char → List Char
  | [] => []
  | ['\\'] => []
  | '\\' :: c :: cs => c :: unescape cs
  | c :: cs => c :: unescape cs

/-- The quote stands in the text, and not as the character behind a backslash. Such a quote would
close a string. -/
def hasBare (quote : Char) : List Char → Bool
  | [] => false
  | ['\\'] => false
  | '\\' :: _ :: cs => hasBare quote cs
  | c :: cs => c == quote || hasBare quote cs

theorem unescape_cons {c : Char} (h : c ≠ '\\') (cs : List Char) :
    unescape (c :: cs) = c :: unescape cs := by
  rw [unescape]
  · exact fun he _ => h he
  · exact fun _ _ he _ => h he

theorem hasBare_cons {c : Char} (h : c ≠ '\\') (quote : Char) (cs : List Char) :
    hasBare quote (c :: cs) = (c == quote || hasBare quote cs) := by
  rw [hasBare]
  · exact fun he _ => h he
  · exact fun _ _ he _ => h he

theorem hasBare_append {quote : Char} {xs : List Char} (h : hasBare quote xs = true)
    (ys : List Char) : hasBare quote (xs ++ ys) = true := by
  fun_induction hasBare quote xs with
  | case1 => cases h
  | case2 => cases h
  | case3 c cs ih => simpa only [List.cons_append, hasBare] using ih h
  | case4 c cs hlone hescape ih =>
      have hc : c = '\\' → False := by
        intro hc
        cases cs with
        | nil => exact hlone hc rfl
        | cons d cs => exact hescape d cs hc rfl
      rw [List.cons_append, hasBare_cons hc]
      rw [Bool.or_eq_true] at h ⊢
      exact h.imp_right ih

theorem shape_quote {quote : Char} (h : quote = '"' ∨ quote = '\'') (cs : List Char) :
    shape quote cs = stringShape quote cs := by
  rcases h with rfl | rfl <;> rfl

/-- A closed quotation ends at the first bare quote, and what is in front of it is the body. The
induction is that of reading it, two characters at a time behind a backslash. -/
theorem quotation_closed {quote : Char} (hq : quote ≠ '\\') {cs : List Char}
    (h : (quotation quote cs).closed = true) :
    ∃ body rest, cs = body ++ quote :: rest ∧
      quotation quote cs = ⟨unescape body, body.length + 1, true⟩ ∧
      hasBare quote body = false ∧ hasBare quote (body ++ [quote]) = true := by
  fun_induction quotation quote cs with
  | case1 => cases h
  | case2 => cases h
  | case3 c cs q ih =>
      obtain ⟨body, rest, rfl, he, hbare, hclose⟩ := ih h
      refine ⟨'\\' :: c :: body, rest, rfl, ?_, hbare, hclose⟩
      simp only [q, he, unescape, List.length_cons]
  | case4 c cs hlone hescape heq =>
      obtain rfl := eq_of_beq heq
      refine ⟨[], cs, rfl, rfl, rfl, ?_⟩
      rw [List.nil_append, hasBare_cons hq, beq_self_eq_true, Bool.true_or]
  | case5 c cs hlone hescape hne q ih =>
      obtain ⟨body, rest, rfl, he, hbare, hclose⟩ := ih h
      have hc : c ≠ '\\' := fun hc => by
        cases body with
        | nil => exact hescape _ _ hc rfl
        | cons d body => exact hescape _ _ hc rfl
      refine ⟨c :: body, rest, rfl, ?_, ?_, ?_⟩
      · simp only [q, he, unescape_cons hc, List.length_cons]
      · rw [hasBare_cons hc, hbare, Bool.or_false]
        simpa using hne
      · rw [List.cons_append, hasBare_cons hc, hclose, Bool.or_true]

/-- An open quotation takes all there is, and there is no bare quote in it. The induction is that of
a closed one. -/
theorem quotation_open {quote : Char} {cs : List Char}
    (h : (quotation quote cs).closed = false) :
    quotation quote cs = ⟨unescape cs, cs.length, false⟩ ∧ hasBare quote cs = false := by
  fun_induction quotation quote cs with
  | case1 => exact ⟨rfl, rfl⟩
  | case2 => exact ⟨rfl, rfl⟩
  | case3 c cs q ih =>
      obtain ⟨he, hbare⟩ := ih h
      refine ⟨?_, hbare⟩
      simp only [q, he, unescape, List.length_cons]
  | case4 => cases h
  | case5 c cs hlone hescape hne q ih =>
      obtain ⟨he, hbare⟩ := ih h
      have hc : c ≠ '\\' := fun hc => by
        cases cs with
        | nil => exact hlone hc rfl
        | cons d cs => exact hescape _ _ hc rfl
      refine ⟨?_, ?_⟩
      · simp only [q, he, unescape_cons hc, List.length_cons]
      · rw [hasBare_cons hc, hbare, Bool.or_false]
        simpa using hne

/-- What follows the closing quote has no part in a quotation, as it has been read to its end. -/
theorem quotation_append {quote : Char} {cs : List Char} (h : (quotation quote cs).closed = true)
    (rest : List Char) : quotation quote (cs ++ rest) = quotation quote cs := by
  fun_induction quotation quote cs with
  | case1 => cases h
  | case2 => cases h
  | case3 c cs q ih => simp only [List.cons_append, quotation, ih h, q]
  | case4 c cs hlone hescape heq =>
      rw [List.cons_append, quotation]
      · rw [if_pos heq]
      · intro hc _
        cases cs with
        | nil => exact hlone hc rfl
        | cons d cs => exact hescape d cs hc rfl
      · intro d ds hc _
        cases cs with
        | nil => exact hlone hc rfl
        | cons d cs => exact hescape d cs hc rfl
  | case5 c cs hlone hescape hne q ih =>
      have hc : c ≠ '\\' := fun hc => by
        cases cs with
        | nil => exact hlone hc rfl
        | cons d cs => exact hescape d cs hc rfl
      rw [List.cons_append, quotation]
      · rw [if_neg hne, ih h]
      · exact fun he _ => hc he
      · exact fun _ _ he _ => hc he

/-! ## Stretches taken as they stand -/

theorem takeWhile_append_cons {α : Type} {q : α → Bool} {y : α} (hy : q y = false)
    (xs ys : List α) :
    (xs ++ y :: ys).takeWhile q = xs.takeWhile q := by
  induction xs with
  | nil => simp [hy]
  | cons x xs ih =>
      rw [List.cons_append, List.takeWhile_cons, List.takeWhile_cons, ih]

theorem dashes_append_afterDashes (cs : List Char) : dashes cs ++ afterDashes cs = cs :=
  List.takeWhile_append_dropWhile

theorem dashes_isPrefix (cs : List Char) : dashes cs <+: cs := List.takeWhile_prefix _

/-- The dashes and the `>` behind them stand at the head of the text, so an arrow is a stretch of
it. -/
theorem arrow_isPrefix {cs : List Char} (h : (afterDashes cs).head? = some '>') :
    dashes cs ++ ['>'] <+: cs := by
  obtain ⟨tail, ht⟩ := List.head?_eq_some_iff.mp h
  refine ⟨tail, ?_⟩
  rw [List.append_assoc, List.singleton_append, ← ht, dashes_append_afterDashes]

theorem newline_notMem_dashes (cs : List Char) : '\n' ∉ dashes cs := fun h =>
  absurd (List.mem_takeWhile_imp h) (by decide)

theorem nameTail_isPrefix (cs : List Char) : nameTail cs <+: cs := by
  induction cs with
  | nil => exact List.prefix_rfl
  | cons c cs ih =>
      rw [nameTail]
      split
      · exact (List.cons_prefix_cons).mpr ⟨rfl, ih⟩
      · exact List.nil_prefix

theorem isNameChar_of_mem_nameTail {c : Char} {cs : List Char} (h : c ∈ nameTail cs) :
    isNameChar c = true := by
  induction cs with
  | nil => cases h
  | cons d cs ih =>
      rw [nameTail] at h
      split at h
      · next hd =>
        rcases List.mem_cons.mp h with rfl | h
        · exact (Bool.and_eq_true_iff.mp hd).1
        · exact ih h
      · cases h

theorem nameKind_cases (text : List Char) :
    nameKind text = .dash ∨ nameKind text = .number ∨ nameKind text = .ident := by
  unfold nameKind
  split
  · exact Or.inl rfl
  · split
    · exact Or.inr (Or.inl rfl)
    · exact Or.inr (Or.inr rfl)

/-! ## Every rule -/

/-- What a rule may take from the head of a text, with `rest` behind it, and what it makes of
it. -/
inductive Reads (rest : List Char) : List Char → Shape → Prop
  | blank {c : Char} (hblank : isBlank c = true) (hline : c ≠ '\n') :
      Reads rest [c] ⟨none, [], 0, none⟩
  | newline : Reads rest ['\n'] (.verbatim .newline ['\n'])
  | verbatim {kind : Kind} {source : List Char} (hne : source ≠ []) (hline : '\n' ∉ source)
      (hstring : kind ≠ .string) (hend : kind ≠ .endOfInput) :
      Reads rest source (.verbatim kind source)
  | unknown {c : Char} (hline : c ≠ '\n') :
      Reads rest [c] ⟨some .other, [c], 0, some (.unknownCharacter c)⟩
  | closed {quote : Char} {body : List Char} (hquote : quote = '"' ∨ quote = '\'')
      (hbody : hasBare quote body = false) (hclose : hasBare quote (body ++ [quote]) = true) :
      Reads rest (quote :: (body ++ [quote])) ⟨some .string, unescape body, body.length + 1, none⟩
  | unclosed {quote : Char} {body : List Char} (hquote : quote = '"' ∨ quote = '\'')
      (hbody : hasBare quote body = false) (hrest : rest = []) :
      Reads rest (quote :: body) ⟨some .string, unescape body, body.length, some .openString⟩

theorem Reads.length {rest source : List Char} {s : Shape} (h : Reads rest source s) :
    source.length = s.extra + 1 := by
  cases h with
  | blank => rfl
  | newline => rfl
  | verbatim hne =>
      have hpos := List.length_pos_iff.mpr hne
      simp only [Shape.verbatim]
      omega
  | unknown => rfl
  | closed => simp
  | unclosed => rfl

/-- Only an unclosed string depends on what comes behind it: it must be nothing. -/
theorem Reads.behind {rest source : List Char} {s : Shape} (h : Reads rest source s)
    (hs : s.problem? ≠ some .openString) (rest' : List Char) : Reads rest' source s := by
  cases h with
  | blank hblank hline => exact .blank hblank hline
  | newline => exact .newline
  | verbatim hne hline hstring hend => exact .verbatim hne hline hstring hend
  | unknown hline => exact .unknown hline
  | closed hquote hbody hclose => exact .closed hquote hbody hclose
  | unclosed => exact absurd rfl hs

/-- The shape is what a rule may make of some stretch at the head of `cs`. What is left of the text
comes behind it. -/
def Takes (cs : List Char) (s : Shape) : Prop :=
  ∃ source rest, cs = source ++ rest ∧ Reads rest source s

theorem takes_verbatim {kind : Kind} {c : Char} {text cs : List Char} (hp : text <+: cs)
    (hc : c ≠ '\n') (hline : '\n' ∉ text) (hstring : kind ≠ .string) (hend : kind ≠ .endOfInput) :
    Takes (c :: cs) (.verbatim kind (c :: text)) := by
  obtain ⟨rest, rfl⟩ := hp
  refine ⟨c :: text, rest, rfl, .verbatim (List.cons_ne_nil _ _) ?_ hstring hend⟩
  rintro (_ | ⟨_, h⟩)
  · exact hc rfl
  · exact hline h

theorem takes_nameShape {c : Char} {cs : List Char} (hc : isNameChar c = true) :
    Takes (c :: cs) (nameShape c cs) := by
  have hline : '\n' ∉ nameTail cs := fun h =>
    absurd (isNameChar_of_mem_nameTail h) (by decide)
  have hne := ne_of_isNameChar hc (d := '\n') (by decide)
  simp only [nameShape]
  rcases nameKind_cases (c :: nameTail cs) with hk | hk | hk <;> rw [hk] <;>
    exact takes_verbatim (nameTail_isPrefix cs) hne hline (by decide) (by decide)

theorem takes_dashShape (cs : List Char) : Takes ('-' :: cs) (dashShape cs) := by
  have hdash : Takes ('-' :: cs) (.verbatim .dash ('-' :: dashes cs)) :=
    takes_verbatim (dashes_isPrefix cs) (by decide) (newline_notMem_dashes cs) (by decide)
      (by decide)
  unfold dashShape
  split
  · exact hdash
  · next d hhead =>
    split
    · next hgt =>
      obtain rfl := eq_of_beq hgt
      refine takes_verbatim (arrow_isPrefix hhead) (by decide) ?_ (by decide) (by decide)
      simp [newline_notMem_dashes]
    · split
      · exact takes_nameShape (by decide)
      · exact hdash

theorem takes_angleShape (cs : List Char) : Takes ('<' :: cs) (angleShape cs) := by
  unfold angleShape
  split
  · next hhead =>
    refine takes_verbatim (arrow_isPrefix (eq_of_beq hhead)) (by decide) ?_ (by decide) (by decide)
    simp [newline_notMem_dashes]
  · split
    · exact takes_verbatim List.nil_prefix (by decide) (by simp) (by decide) (by decide)
    · exact takes_verbatim (dashes_isPrefix cs) (by decide) (newline_notMem_dashes cs) (by decide)
        (by decide)

theorem takes_stringShape {quote : Char} (hquote : quote = '"' ∨ quote = '\'') (cs : List Char) :
    Takes (quote :: cs) (stringShape quote cs) := by
  have hback : quote ≠ '\\' := by rcases hquote with rfl | rfl <;> decide
  unfold stringShape
  cases hc : (quotation quote cs).closed with
  | true =>
      obtain ⟨body, rest, rfl, he, hbody, hclose⟩ := quotation_closed hback hc
      refine ⟨quote :: (body ++ [quote]), rest, by simp, ?_⟩
      simp only [he, if_true]
      exact .closed hquote hbody hclose
  | false =>
      obtain ⟨he, hbody⟩ := quotation_open hc
      refine ⟨quote :: cs, [], by simp, ?_⟩
      simp only [he, Bool.false_eq_true, if_false]
      exact .unclosed hquote hbody rfl

theorem shape_reads (c : Char) (cs : List Char) :
    ∃ source rest, c :: cs = source ++ rest ∧ Reads rest source (shape c cs) := by
  suffices h : Takes (c :: cs) (shape c cs) from h
  unfold shape
  split
  · next hn =>
    obtain rfl := eq_of_beq hn
    exact ⟨['\n'], cs, rfl, .newline⟩
  · next hn =>
    have hline : c ≠ '\n' := by simpa using hn
    split
    · next hblank => exact ⟨[c], cs, rfl, .blank hblank hline⟩
    · split
      · refine takes_verbatim (List.takeWhile_prefix _) hline ?_ (by decide) (by decide)
        exact fun h => absurd (List.mem_takeWhile_imp h) (by decide)
      · split
        · next hd =>
          obtain rfl := eq_of_beq hd
          exact takes_dashShape cs
        · split
          · next hlt =>
            obtain rfl := eq_of_beq hlt
            exact takes_angleShape cs
          · split
            · next hgt =>
              obtain rfl := eq_of_beq hgt
              exact takes_verbatim List.nil_prefix (by decide) (by simp) (by decide) (by decide)
            · split
              · next hq =>
                refine takes_stringShape ?_ cs
                simpa using hq
              · split
                · next hname => exact takes_nameShape hname
                · split
                  · next kind hp =>
                    refine takes_verbatim List.nil_prefix hline (by simp) ?_ ?_ <;>
                    · rintro rfl
                      unfold punctuation? at hp
                      split at hp <;> cases hp
                  · exact ⟨[c], cs, rfl, .unknown hline⟩

/-! ## Line ends and comments -/

theorem shape_of_startsComment {c : Char} {cs : List Char} (h : startsComment c cs = true) :
    shape c cs = .verbatim .comment (c :: cs.takeWhile (· != '\n')) := by
  have hc : c = '/' ∨ c = '%' := by
    simp only [startsComment, Bool.or_eq_true, Bool.and_eq_true, beq_iff_eq] at h
    exact h.imp And.left And.left
  have hline : (c == '\n') = false := by rcases hc with rfl | rfl <;> rfl
  have hblank : isBlank c = false := by rcases hc with rfl | rfl <;> rfl
  simp only [shape, hline, hblank, h, Bool.false_eq_true, if_false, if_true]

/-- What the first character decides. Only a line end makes a line end, only a comment mark a
comment, and only a mark the token of that mark. -/
theorem kind_cases {c : Char} {cs : List Char} {kind : Kind}
    (h : (shape c cs).kind? = some kind) :
    c = '\n' ∧ kind = .newline ∨ startsComment c cs = true ∧ kind = .comment ∨
      punctuation? c = some kind ∧ shape c cs = .verbatim kind [c] ∨
      kind ∈ [Kind.ident, .number, .string, .greater, .less, .arrow, .dash, .bidirectional,
        .reverseArrow, .other] := by
  have hname (text : List Char) : nameKind text ∈ [Kind.ident, .number, .string, .greater, .less,
      .arrow, .dash, .bidirectional, .reverseArrow, .other] := by
    rcases nameKind_cases text with hk | hk | hk <;> rw [hk] <;> decide
  unfold shape at h ⊢
  split at h
  · next hn => exact Or.inl ⟨eq_of_beq hn, (Option.some.inj h).symm⟩
  · next hn =>
    split at h
    · cases h
    · next hblank =>
      split at h
      · next hstart => exact Or.inr (Or.inl ⟨hstart, (Option.some.inj h).symm⟩)
      · next hstart =>
        refine Or.inr (Or.inr ?_)
        split at h
        · refine Or.inr ?_
          unfold dashShape at h
          split at h
          · cases h
            decide
          · split at h
            · cases h
              decide
            · split at h <;> cases h
              · exact hname _
              · decide
        · next hd =>
          split at h
          · refine Or.inr ?_
            unfold angleShape at h
            split at h
            · cases h
              decide
            · split at h <;> cases h <;> decide
          · next hlt =>
            split at h
            · cases h
              exact Or.inr (by decide)
            · next hgt =>
              split at h
              · cases h
                exact Or.inr (by decide)
              · next hq =>
                split at h
                · cases h
                  exact Or.inr (hname _)
                · next hc =>
                  split at h
                  · next hp =>
                    obtain rfl := Option.some.inj h
                    refine Or.inl ⟨hp, ?_⟩
                    simp only [hn, hblank, hstart, hd, hlt, hgt, hq, hc, Bool.false_eq_true,
                      if_false]
                  · cases h
                    exact Or.inr (by decide)

theorem newline_of_kind {c : Char} {cs : List Char} (h : (shape c cs).kind? = some .newline) :
    c = '\n' := by
  rcases kind_cases h with ⟨hc, -⟩ | ⟨-, he⟩ | ⟨hp, -⟩ | hmem
  · exact hc
  · cases he
  · unfold punctuation? at hp
    split at hp <;> cases hp
  · simp at hmem

theorem startsComment_of_kind {c : Char} {cs : List Char}
    (h : (shape c cs).kind? = some .comment) : startsComment c cs = true := by
  rcases kind_cases h with ⟨-, he⟩ | ⟨hstart, -⟩ | ⟨hp, -⟩ | hmem
  · cases he
  · exact hstart
  · unfold punctuation? at hp
    split at hp <;> cases hp
  · simp at hmem

/-- A token of one character is the first character, unless that is a quote. A string of one
character begins with its quote. -/
theorem eq_of_text {c b : Char} {cs : List Char} {kind : Kind}
    (h : (shape c cs).kind? = some kind) (hstring : kind ≠ .string)
    (htext : (shape c cs).text = [b]) : c = b := by
  obtain ⟨source, rest, hcut, hr⟩ := shape_reads c cs
  generalize shape c cs = s at hr h htext
  cases hr with
  | blank => cases h
  | newline => exact (List.cons.inj hcut).1.trans (List.cons.inj htext).1
  | verbatim =>
      obtain rfl : _ = [b] := htext
      exact (List.cons.inj hcut).1
  | unknown => exact (List.cons.inj hcut).1.trans (List.cons.inj htext).1
  | closed => exact absurd (Option.some.inj h).symm hstring
  | unclosed => exact absurd (Option.some.inj h).symm hstring

theorem punctuation?_inj {b c : Char} {kind : Kind} (hb : punctuation? b = some kind)
    (hc : punctuation? c = some kind) : b = c := by
  unfold punctuation? at hb hc
  split at hb <;> cases hb <;> split at hc <;> first | rfl | cases hc

theorem shape_punctuation {b : Char} {kind : Kind} (hb : punctuation? b = some kind)
    (cs : List Char) : shape b cs = .verbatim kind [b] := by
  unfold punctuation? at hb
  split at hb <;> cases hb <;> rfl

/-- A token of the kind of a mark is that mark. No other rule makes tokens of these kinds. -/
theorem text_of_punctuation {b c : Char} {cs : List Char} {kind : Kind}
    (hb : punctuation? b = some kind) (h : (shape c cs).kind? = some kind) :
    (shape c cs).text = [b] := by
  rcases kind_cases h with ⟨-, rfl⟩ | ⟨-, rfl⟩ | ⟨hp, hs⟩ | hmem
  · unfold punctuation? at hb
    split at hb <;> cases hb
  · unfold punctuation? at hb
    split at hb <;> cases hb
  · rw [hs, punctuation?_inj hb hp]
    rfl
  · unfold punctuation? at hb
    split at hb <;> cases hb <;> simp at hmem

/-! ## Whole texts -/

theorem lexemes_append_of_reads {c : Char} {cs source rest : List Char} (p : Place)
    (h : c :: cs = source ++ rest) (hr : Reads rest source (shape c cs)) :
    lexemes p (c :: cs) = ⟨p, source, shape c cs⟩ :: lexemes (p.after source) rest := by
  have hlen := hr.length
  cases source with
  | nil => simp at hlen
  | cons d ds =>
      rw [List.cons_append] at h
      obtain ⟨rfl, rfl⟩ := List.cons.inj h
      have hextra : (shape c (ds ++ rest)).extra = ds.length := by
        rw [List.length_cons] at hlen
        omega
      rw [lexemes, hextra, List.take_left, List.drop_left]

/-- The first lexeme of a text, and the lexemes behind it. Source and rest make up the text, and the
source is what the shape says. -/
theorem lexemes_cons (p : Place) (c : Char) (cs : List Char) :
    ∃ source rest, c :: cs = source ++ rest ∧ Reads rest source (shape c cs) ∧
      lexemes p (c :: cs) = ⟨p, source, shape c cs⟩ :: lexemes (p.after source) rest := by
  obtain ⟨source, rest, h, hr⟩ := shape_reads c cs
  exact ⟨source, rest, h, hr, lexemes_append_of_reads p h hr⟩

/-- Induction over a text by its lexemes. In a step the text is cut behind its first lexeme, whose
shape and source are at hand. -/
@[elab_as_elim]
theorem lexemes_induct {motive : Place → List Char → Prop} (nil : ∀ p, motive p [])
    (cons : ∀ p c cs source tail, c :: cs = source ++ tail → Reads tail source (shape c cs) →
      lexemes p (c :: cs) = ⟨p, source, shape c cs⟩ :: lexemes (p.after source) tail →
      motive (p.after source) tail → motive p (c :: cs))
    (p : Place) (cs : List Char) : motive p cs := by
  induction hn : cs.length using Nat.strong_induction_on generalizing p cs with
  | h n ih =>
    cases cs with
    | nil => exact nil p
    | cons c cs =>
        obtain ⟨source, tail, hcut, hr, hlex⟩ := lexemes_cons p c cs
        have hlen := hr.length
        have hshort : tail.length < n := by
          rw [← hn, hcut, List.length_append]
          omega
        exact cons p c cs source tail hcut hr hlex (ih _ hshort _ tail rfl)

/-- Every lexeme is what some rule took, in front of some rest of the text. -/
theorem reads_of_mem_lexemes {p : Place} {cs : List Char} {x : Lexeme} (h : x ∈ lexemes p cs) :
    ∃ rest, Reads rest x.source x.shape := by
  induction p, cs using lexemes_induct with
  | nil p =>
      rw [lexemes] at h
      cases h
  | cons p c cs source tail hcut hr hlex ih =>
      rw [hlex] at h
      rcases List.mem_cons.mp h with rfl | h
      · exact ⟨tail, hr⟩
      · exact ih h

theorem shape_of_mem_lexemes {p : Place} {cs : List Char} {x : Lexeme} (h : x ∈ lexemes p cs) :
    ∃ c cs', x.shape = shape c cs' := by
  induction p, cs using lexemes_induct with
  | nil p =>
      rw [lexemes] at h
      cases h
  | cons p c cs source tail hcut hr hlex ih =>
      rw [hlex] at h
      rcases List.mem_cons.mp h with rfl | h
      · exact ⟨c, cs, rfl⟩
      · exact ih h

theorem Reads.kind_ne {rest source : List Char} {s : Shape} (h : Reads rest source s) :
    s.kind? ≠ some .endOfInput := by
  cases h with
  | verbatim _ _ _ hend => exact fun he => hend (Option.some.inj he)
  | _ => exact fun he => by cases he

/-- A lexeme begins inside its text, on a line between the first and the last. -/
theorem line_of_mem_lexemes {p : Place} {cs : List Char} {x : Lexeme} (h : x ∈ lexemes p cs) :
    p.line ≤ x.place.line ∧ x.place.line ≤ (p.after cs).line := by
  induction p, cs using lexemes_induct with
  | nil p =>
      rw [lexemes] at h
      cases h
  | cons p c cs source tail hcut hr hlex ih =>
      rw [hlex] at h
      rw [hcut, Place.after_append]
      rcases List.mem_cons.mp h with rfl | h
      · exact ⟨Nat.le_refl _,
          Nat.le_trans (Place.line_le_after p source) (Place.line_le_after _ tail)⟩
      · obtain ⟨hlow, hhigh⟩ := ih h
        exact ⟨Nat.le_trans (Place.line_le_after p source) hlow, hhigh⟩

end Token

end Schematic
