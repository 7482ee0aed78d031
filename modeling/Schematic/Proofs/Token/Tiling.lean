import Mathlib.Data.List.Induction
import Schematic.Proofs.Reading.Movement
import Schematic.Proofs.Success
import Schematic.Proofs.Token.Sources
import Schematic.Reading.Text

/-!
# The tokens tile the text

Every token stands for a stretch of the text, its span. The spans lie one behind the other, only
blanks fall between them, and each token says what its span says and begins where its span begins.
So no character is lost or read twice, and the lines of a document can be counted in its text.
-/

namespace Schematic

/-- A stretch of a text: the offsets of its first character and of the first behind it. Offsets
count from the start of the text. -/
structure Span where
  start : Nat
  stop : Nat
deriving Repr, DecidableEq

namespace Span

def slice (s : Span) (cs : List Char) : List Char := (cs.take s.stop).drop s.start

def Holds (s : Span) (i : Nat) : Prop := s.start ≤ i ∧ i < s.stop

theorem slice_append (before source rest : List Char) :
    slice ⟨before.length, before.length + source.length⟩ (before ++ (source ++ rest)) = source := by
  simp only [slice]
  rw [List.take_length_add_append, List.take_left, List.drop_left]

end Span

/-! ## Places -/

namespace Place

/-- The place behind a text, by counting: its newlines, and the characters since the last one.
Scanning keeps a place along instead, and comes to the same. -/
def behind (cs : List Char) : Place :=
  ⟨1 + cs.count '\n', 1 + (cs.reverse.takeWhile (· != '\n')).length⟩

theorem after_eq_behind (cs : List Char) : start.after cs = behind cs := by
  induction cs using List.reverseRecOn with
  | nil => rfl
  | append_singleton cs c ih =>
      rw [after_append, ih]
      show (behind cs).next c = behind (cs ++ [c])
      by_cases hc : c = '\n'
      · simp [next, behind, hc, Nat.add_assoc]
      · simp [next, behind, hc, Nat.add_comm]

end Place

namespace Token

open Text (isBlank)

/-! ## Tokens and their spans -/

/-- `source` is a string that says `text`: behind an opening quote a body in which that quote is
always escaped, and behind the body the closing quote. A string that ends with the input can do
without it. -/
def IsQuoted (source text : List Char) (atEnd : Prop) : Prop :=
  ∃ quote body, (quote = '"' ∨ quote = '\'') ∧ text = unescape body ∧ hasBare quote body = false ∧
    (source = quote :: (body ++ [quote]) ∧ hasBare quote (body ++ [quote]) = true ∨
      source = quote :: body ∧ atEnd)

/-- The token stands for the span: it begins where the span does and says what stands there, for a
string without its quotes and escapes. -/
structure Marks (cs : List Char) (t : Token) (s : Span) : Prop where
  nonempty : s.start < s.stop
  within : s.stop ≤ cs.length
  kind : t.kind ≠ .endOfInput
  verbatim : t.kind ≠ .string → t.text.toList = s.slice cs
  quoted : t.kind = .string → IsQuoted (s.slice cs) t.text.toList (s.stop = cs.length)
  place : t.place = .behind (cs.take s.start)

/-- From the offset `n` on, the spans are those of the tokens, and only blanks that do not end a
line stand outside of them. -/
structure Tiles (cs : List Char) (n : Nat) (ts : List Token) (spans : List Span) : Prop where
  marks : List.Forall₂ (Marks cs) ts spans
  ordered : spans.Pairwise fun s t => s.stop ≤ t.start
  later : ∀ s ∈ spans, n ≤ s.start
  blank : ∀ i c, n ≤ i → cs[i]? = some c → (∀ s ∈ spans, ¬ s.Holds i) →
    isBlank c = true ∧ c ≠ '\n'
  newline : ∀ i, n ≤ i → cs[i]? = some '\n' → ∃ t s, (t, s) ∈ ts.zip spans ∧ s.Holds i ∧
    (t.kind = .newline ∧ s = ⟨i, i + 1⟩ ∨ t.kind = .string)

section Tiles

variable {cs : List Char} {ts : List Token} {spans : List Span}

theorem Tiles.nil : Tiles cs cs.length [] [] where
  marks := .nil
  ordered := .nil
  later := by simp
  blank := by
    intro i c hi hc
    have := (List.getElem?_eq_some_iff.mp hc).1
    omega
  newline := by
    intro i hi hc
    have := (List.getElem?_eq_some_iff.mp hc).1
    omega

/-- A blank in front of what is tiled belongs to no span. It must not be a newline, which would be
lost. -/
theorem Tiles.skip {n : Nat} {c : Char} (h : Tiles cs (n + 1) ts spans) (hc : cs[n]? = some c)
    (hblank : isBlank c = true) (hline : c ≠ '\n') : Tiles cs n ts spans where
  marks := h.marks
  ordered := h.ordered
  later s hs := Nat.le_of_succ_le (h.later s hs)
  blank i d hi hd hout := by
    rcases Nat.eq_or_lt_of_le hi with rfl | hi
    · obtain rfl : c = d := Option.some.inj (hc.symm.trans hd)
      exact ⟨hblank, hline⟩
    · exact h.blank i d hi hd hout
  newline i hi hd := by
    rcases Nat.eq_or_lt_of_le hi with rfl | hi
    · exact absurd (Option.some.inj (hc.symm.trans hd)) hline
    · exact h.newline i hi hd

/-- A token in front of what is tiled, with its span. A newline in the span is the token itself, or
stands in a string. -/
theorem Tiles.cons {t : Token} {s : Span} (h : Tiles cs s.stop ts spans) (ht : Marks cs t s)
    (hline : ∀ i, s.Holds i → cs[i]? = some '\n' →
      t.kind = .newline ∧ s = ⟨i, i + 1⟩ ∨ t.kind = .string) :
    Tiles cs s.start (t :: ts) (s :: spans) where
  marks := .cons ht h.marks
  ordered := List.pairwise_cons.mpr ⟨h.later, h.ordered⟩
  later u hu := by
    have hlt := ht.nonempty
    rcases List.mem_cons.mp hu with rfl | hu
    · exact Nat.le_refl _
    · have := h.later u hu
      omega
  blank i c hi hc hout := by
    have hnot : ¬ s.Holds i := hout s (List.mem_cons_self ..)
    refine h.blank i c ?_ hc fun u hu => hout u (List.mem_cons_of_mem _ hu)
    exact Nat.not_lt.mp fun hlt => hnot ⟨hi, hlt⟩
  newline i hi hc := by
    by_cases hlt : i < s.stop
    · exact ⟨t, s, List.mem_cons_self .., ⟨hi, hlt⟩, hline i ⟨hi, hlt⟩ hc⟩
    · obtain ⟨u, v, hmem, hrest⟩ := h.newline i (Nat.not_lt.mp hlt) hc
      exact ⟨u, v, List.mem_cons_of_mem _ hmem, hrest⟩

end Tiles

/-! ## One lexeme -/

section Lexeme

variable {before source rest : List Char} {s : Shape}

/-- A token says what the stretch says that its rule took. The cases are the rules. -/
theorem Reads.marks (h : Reads rest source s) {t : Token}
    (ht : Lexeme.token? ⟨.behind before, source, s⟩ = some t) :
    Marks (before ++ (source ++ rest)) t ⟨before.length, before.length + source.length⟩ := by
  have hpos : 0 < source.length := by rw [h.length]; omega
  obtain ⟨kind, hkind, rfl⟩ := Option.map_eq_some_iff.mp ht
  refine ⟨by simp only; omega, by simp, ?_, ?_, ?_, by rw [List.take_left]⟩
  all_goals
    simp only [Span.slice_append, String.toList_ofList]
  · exact fun he => h.kind_ne (hkind.trans (congrArg some he))
  · intro hs
    cases h with
    | blank => cases hkind
    | newline => rfl
    | verbatim => rfl
    | unknown => rfl
    | closed => exact absurd (Option.some.inj hkind).symm hs
    | unclosed => exact absurd (Option.some.inj hkind).symm hs
  · intro hs
    subst hs
    cases h with
    | blank => cases hkind
    | newline => cases hkind
    | verbatim _ _ hstring => exact absurd (Option.some.inj hkind) hstring
    | unknown => cases hkind
    | @closed quote body hquote hbody hclose =>
        exact ⟨quote, body, hquote, rfl, hbody, Or.inl ⟨rfl, hclose⟩⟩
    | @unclosed quote body hquote hbody hrest =>
        exact ⟨quote, body, hquote, rfl, hbody, Or.inr ⟨rfl, by simp [hrest]⟩⟩

/-- A newline is a token by itself or stands in a string. No other rule takes one. -/
theorem Reads.newline_cases (h : Reads rest source s) {kind : Kind} (hkind : s.kind? = some kind)
    (hmem : '\n' ∈ source) : kind = .newline ∧ source = ['\n'] ∨ kind = .string := by
  cases h with
  | blank _ hline => simp at hmem; exact absurd hmem.symm hline
  | newline => exact Or.inl ⟨(Option.some.inj hkind).symm, rfl⟩
  | verbatim _ hline => exact absurd hmem hline
  | unknown hline => simp at hmem; exact absurd hmem.symm hline
  | closed => exact Or.inr (Option.some.inj hkind).symm
  | unclosed => exact Or.inr (Option.some.inj hkind).symm

end Lexeme

/-! ## A whole text -/

/-- The tokens of what comes behind `before` tile it. The induction goes over the lexemes, and
`before` grows by the stretch of each. -/
theorem exists_tiles (before cs : List Char) :
    ∃ spans, Tiles (before ++ cs) before.length
      ((lexemes (.behind before) cs).filterMap Lexeme.token?) spans := by
  induction hn : cs.length using Nat.strong_induction_on generalizing before cs with
  | h n ih =>
    cases cs with
    | nil =>
        rw [lexemes, List.append_nil]
        exact ⟨[], .nil⟩
    | cons c cs =>
        obtain ⟨source, rest, hcut, hr, hlex⟩ := lexemes_cons (.behind before) c cs
        have hlen := hr.length
        have hplace : (Place.behind before).after source = .behind (before ++ source) := by
          rw [← Place.after_eq_behind, ← Place.after_eq_behind, Place.after_append]
        have hshort : rest.length < n := by
          rw [← hn, hcut, List.length_append]
          omega
        obtain ⟨spans, hspans⟩ := ih _ hshort (before ++ source) rest rfl
        rw [hlex, hplace, List.filterMap_cons]
        rw [List.append_assoc, ← hcut, List.length_append] at hspans
        cases ht : Lexeme.token? ⟨.behind before, source, shape c cs⟩ with
        | none =>
            have hkind : (shape c cs).kind? = none := Option.map_eq_none_iff.mp ht
            generalize shape c cs = s at hr hkind
            cases hr with
            | @blank d hblank hline =>
                obtain ⟨rfl, rfl⟩ := List.cons.inj hcut
                exact ⟨spans, hspans.skip (by simp) hblank hline⟩
            | _ => cases hkind
        | some t =>
            refine ⟨⟨before.length, before.length + source.length⟩ :: spans,
              Tiles.cons hspans (hcut ▸ hr.marks ht) ?_⟩
            rintro i ⟨hi, hstop⟩ hc
            simp only at hi hstop
            obtain ⟨kind, hkind, rfl⟩ := Option.map_eq_some_iff.mp ht
            have hget : source[i - before.length]? = some '\n' := by
              rw [hcut, List.getElem?_append_right hi, List.getElem?_append_left (by omega)] at hc
              exact hc
            rcases hr.newline_cases hkind (List.mem_of_getElem? hget) with ⟨hk, rfl⟩ | hk
            · refine Or.inl ⟨hk, ?_⟩
              rw [List.length_singleton] at hstop ⊢
              obtain rfl : i = before.length := by omega
              rfl
            · exact Or.inr hk

/-! ## Counting lines -/

theorem Tiles.line_le {cs : List Char} {n : Nat} {ts : List Token} {spans : List Span}
    (h : Tiles cs n ts spans) : ∀ t ∈ ts, t.place.line ≤ 1 + cs.count '\n' := by
  intro t ht
  obtain ⟨s, -, hs⟩ := forall₂_exists_right h.marks ht
  rw [hs.place]
  exact Nat.add_le_add_left (List.Sublist.count_le _ (List.take_sublist _ _)) 1

theorem le_lineCount {n : Nat} {ts : List Token} (h : ∀ t ∈ ts, t.place.line ≤ n) (last : Token)
    (hlast : last.place.line = n) : Reading.lineCount (ts ++ [last]) = n := by
  have hfold : ∀ m ≤ n, ts.foldl (fun n t => max n t.place.line) m ≤ n := by
    induction ts with
    | nil => exact fun m hm => hm
    | cons t ts ih =>
        intro m hm
        have ht := h t (List.mem_cons_self ..)
        exact ih (fun u hu => h u (List.mem_cons_of_mem _ hu)) _ (Nat.max_le.mpr ⟨hm, ht⟩)
  have hle := hfold 0 (Nat.zero_le n)
  rw [Reading.lineCount, List.foldl_append]
  show max _ last.place.line = n
  omega

/-- The tokens of a text tile it, and behind them stands the one mark for the end, at the place
where the text ends. A document has as many lines as its text, in whatever dialect it is read. -/
theorem scan_tiles (text : String) :
    ∃ ts spans, (scan text).tokens = ts ++ [⟨.endOfInput, "", .behind text.toList⟩] ∧
      Tiles text.toList 0 ts spans ∧
      ∀ dialect?, (Reading.ofText text dialect?).document.lineCount
        = 1 + text.toList.count '\n' := by
  have htokens : (scan text).tokens = (lexemes .start text.toList).filterMap Lexeme.token? ++
      [endAt (.behind text.toList)] := by
    simp only [scan, Place.after_eq_behind]
  obtain ⟨spans, hspans⟩ := exists_tiles [] text.toList
  refine ⟨_, spans, htokens, hspans, fun dialect? => ?_⟩
  show Reading.lineCount ((Cursor.ofTokens (scan text).tokens).ahead ++
    [(Cursor.ofTokens (scan text).tokens).final]) = _
  rw [htokens, Cursor.ofTokens_append_endAt]
  exact le_lineCount hspans.line_le _ rfl

/-- A string over a line end whose last quote is escaped runs to the end of the text. -/
example : (scan "a\n'b\\'\n").tokens =
    [⟨.ident, "a", ⟨1, 1⟩⟩, ⟨.newline, "\n", ⟨1, 2⟩⟩, ⟨.string, "b'\n", ⟨2, 1⟩⟩,
      ⟨.endOfInput, "", ⟨3, 1⟩⟩] := by
  decide +kernel

end Token

end Schematic
