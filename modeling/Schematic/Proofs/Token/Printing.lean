import Schematic.Proofs.Token.Splicing
import Schematic.Proofs.Writing.Ink

/-!
# Printed tokens

A list of tokens is printed with one space between two tokens, so that none runs into the next,
and with no space in front of a line end, so that a comment in front of it ends where it ended.
Scanning what was printed gives the same tokens again (`scan_print`). The argument has two parts:

- A lexeme cut out of its text is read as before (`shape_keeps`): no rule looks behind the stretch
  it takes, except to see that the stretch is over. A string is the exception; it is printed with
  quotes and escapes of its own.
- Behind a printed token stands a blank or nothing, so the token is read as if it stood alone
  (`shapes_written`).
-/

namespace Schematic

namespace Token

open Text (isBlank)

/-! ## Printing -/

/-- How a token is written: a string between double quotes and with escapes, anything else as it
stands. -/
def written (kind : Kind) (text : List Char) : List Char :=
  if kind = .string then '"' :: (text.flatMap Ink.escaped ++ ['"']) else text

/-- What is written between a token of the kind and the token before it. A space in front of a line
end would become part of a comment there. -/
def gap (kind : Kind) : List Char := if kind = .newline then [] else [' ']

/-- What is written behind a token: the other tokens, each with its gap. -/
def printTail : List Token → List Char
  | [] => []
  | t :: ts => gap t.kind ++ (written t.kind t.text.toList ++ printTail ts)

def print : List Token → String
  | [] => ""
  | t :: ts => String.ofList (written t.kind t.text.toList ++ printTail ts)

/-! ## A lexeme alone -/

/-- The shape is that of its own text, which begins with `c`. So the lexeme can be printed and read
alone. -/
def Keeps (c : Char) (s : Shape) : Prop := ∃ cs, s.text = c :: cs ∧ shape c cs = s

theorem dashes_dashes (cs : List Char) : dashes (dashes cs) = dashes cs := List.takeWhile_idem

theorem afterDashes_dashes (cs : List Char) : afterDashes (dashes cs) = [] :=
  List.dropWhile_eq_nil_iff.mpr fun _ hc => List.mem_takeWhile_imp (p := (· == '-')) hc

theorem dashes_arrow (cs : List Char) : dashes (dashes cs ++ ['>']) = dashes cs := by
  have h := takeWhile_append_cons (q := (· == '-')) (y := '>') (by decide) (dashes cs) []
  exact h.trans (dashes_dashes cs)

theorem afterDashes_arrow (cs : List Char) : afterDashes (dashes cs ++ ['>']) = ['>'] := by
  rw [afterDashes_append_of_nil (afterDashes_dashes cs)]
  rfl

/-- Nothing but `>` ends a name early, so a text of name characters is all of a name. The induction
is on the characters. -/
theorem nameTail_of_forall {cs : List Char} (h : ∀ c ∈ cs, isNameChar c = true) :
    nameTail cs = cs := by
  induction cs with
  | nil => rfl
  | cons c cs ih =>
      have htail : ∀ d ∈ cs, isNameChar d = true := fun d hd => h d (List.mem_cons_of_mem c hd)
      have hgt : ((afterDashes cs).head? == some '>') = false := by
        cases ha : afterDashes cs with
        | nil => rfl
        | cons d ds =>
            have hd : d ∈ cs := (List.dropWhile_suffix _).subset (ha ▸ List.mem_cons_self ..)
            have hne := ne_of_isNameChar (htail d hd) (d := '>') (by decide)
            simpa using hne
      rw [nameTail, h c (List.mem_cons_self ..), hgt, ih htail]
      simp

theorem nameTail_nameTail (cs : List Char) : nameTail (nameTail cs) = nameTail cs :=
  nameTail_of_forall fun _ hc => isNameChar_of_mem_nameTail hc

/-- A name reaches over its dashes and the name character behind them. Cut out of its text, it still
has that character behind the dashes. -/
theorem head?_afterDashes_nameTail {cs : List Char} {d : Char}
    (h : (afterDashes cs).head? = some d) (hd : isNameChar d = true) :
    (afterDashes (nameTail cs)).head? = some d := by
  induction cs with
  | nil => cases h
  | cons c cs ih =>
      rw [afterDashes_cons] at h
      by_cases hc : c = '-'
      · rw [if_pos hc] at h
        have hgt : ((afterDashes cs).head? == some '>') = false := by
          rw [h]
          simpa using ne_of_isNameChar hd (d := '>') (by decide)
        have hname : isNameChar c = true := by
          rw [hc]
          decide
        rw [nameTail, hname, hgt, Bool.and_false, Bool.not_false, Bool.and_self, if_pos rfl,
          afterDashes_cons, if_pos hc]
        exact ih h
      · rw [if_neg hc] at h
        obtain rfl : c = d := Option.some.inj h
        have hdash : (c == '-') = false := by simpa using hc
        rw [nameTail, hd, hdash, Bool.false_and, Bool.not_false, Bool.and_self, if_pos rfl,
          afterDashes_cons, if_neg hc]
        rfl

theorem keeps_nameShape {c : Char} {cs : List Char} (h : OpensName c cs) :
    Keeps c (nameShape c cs) := by
  have hopens : OpensName c (nameTail cs) := by
    refine ⟨h.nameChar, fun hc => ?_⟩
    obtain ⟨d, hhead, hgt, hname⟩ := h.dashes hc
    exact ⟨d, head?_afterDashes_nameTail hhead hname, hgt, hname⟩
  refine ⟨nameTail cs, rfl, ?_⟩
  rw [hopens.shape_eq, nameShape, nameTail_nameTail]
  rfl

theorem keeps_dashShape (cs : List Char) : Keeps '-' (dashShape cs) := by
  have hdash : Keeps '-' (.verbatim .dash ('-' :: dashes cs)) := by
    refine ⟨dashes cs, rfl, ?_⟩
    show dashShape (dashes cs) = _
    rw [dashShape, afterDashes_dashes, dashes_dashes]
    rfl
  unfold dashShape
  split
  · exact hdash
  · next d hhead =>
    split
    · refine ⟨dashes cs ++ ['>'], rfl, ?_⟩
      show dashShape (dashes cs ++ ['>']) = _
      rw [dashShape, afterDashes_arrow, dashes_arrow]
      rfl
    · next hgt =>
      split
      · next hname =>
        exact keeps_nameShape ⟨by decide, fun _ => ⟨d, hhead, by simpa using hgt, hname⟩⟩
      · exact hdash

theorem keeps_angleShape (cs : List Char) : Keeps '<' (angleShape cs) := by
  unfold angleShape
  split
  · refine ⟨dashes cs ++ ['>'], rfl, ?_⟩
    show angleShape (dashes cs ++ ['>']) = _
    rw [angleShape, afterDashes_arrow, dashes_arrow]
    rfl
  · split
    · exact ⟨[], rfl, rfl⟩
    · next hdashes =>
      refine ⟨dashes cs, rfl, ?_⟩
      show angleShape (dashes cs) = _
      rw [angleShape, afterDashes_dashes, dashes_dashes, if_neg hdashes]
      rfl

/-- Half a comment mark opens no comment when it stands at the end. -/
theorem startsComment_nil (c : Char) : startsComment c [] = false := by simp [startsComment]

theorem startsComment_takeWhile {c : Char} {cs : List Char} (h : startsComment c cs = true) :
    startsComment c (cs.takeWhile (· != '\n')) = true := by
  cases cs with
  | nil => exact h
  | cons d cs =>
      have hd : (d != '\n') = true := by
        unfold startsComment at h
        simp at h
        rcases h with ⟨-, rfl⟩ | ⟨-, rfl⟩ <;> decide
      rw [List.takeWhile_cons, if_pos hd]
      exact h

/-- Every lexeme but a string and a blank is read alone as in its text. The cases are the rules:
none of them looks behind what it takes, except to see that it is over. -/
theorem shape_keeps {c : Char} {cs : List Char} (hkind : (shape c cs).kind? ≠ none)
    (hstring : (shape c cs).kind? ≠ some .string) : Keeps c (shape c cs) := by
  unfold shape at hkind hstring ⊢
  split
  · next hn =>
    rw [eq_of_beq hn]
    exact ⟨[], rfl, rfl⟩
  · next hn =>
    split
    · next hblank => simp [hn, hblank] at hkind
    · next hblank =>
      split
      · next hcomment =>
        refine ⟨cs.takeWhile (· != '\n'), rfl, ?_⟩
        simp only [shape, hn, hblank, startsComment_takeWhile hcomment, List.takeWhile_idem,
          if_true, Bool.false_eq_true, if_false]
      · next hcomment =>
        split
        · next hd =>
          rw [eq_of_beq hd]
          exact keeps_dashShape cs
        · next hd =>
          split
          · next hlt =>
            rw [eq_of_beq hlt]
            exact keeps_angleShape cs
          · next hlt =>
            split
            · next hgt =>
              rw [eq_of_beq hgt]
              exact ⟨[], rfl, rfl⟩
            · next hgt =>
              split
              · next hq => simp [hn, hblank, hcomment, hd, hlt, hgt, hq, stringShape] at hstring
              · next hq =>
                split
                · next hname =>
                  exact keeps_nameShape ⟨hname, fun hc => absurd (beq_iff_eq.mpr hc) hd⟩
                · next hname =>
                  -- a mark or a character without a meaning is a lexeme of its own
                  cases hp : punctuation? c <;> refine ⟨[], rfl, ?_⟩ <;>
                    simp only [shape, hn, hblank, startsComment_nil, hd, hlt, hgt, hq, hname, hp,
                      Bool.false_eq_true, if_false]

/-! ## A lexeme printed -/

/-- The text `d :: ds` is how a token of the kind is written, and it is one lexeme, which says what
the shape says. Only an open string is closed. -/
structure Prints (kind : Kind) (s : Shape) (d : Char) (ds : List Char) : Prop where
  chars : written kind s.text = d :: ds
  kind : (shape d ds).kind? = some kind
  text : (shape d ds).text = s.text
  extra : (shape d ds).extra = ds.length
  problem : (shape d ds).problem? = s.problem?.filter (· ≠ .openString)

theorem shape_quoted (text : List Char) :
    shape '"' (text.flatMap Ink.escaped ++ ['"']) =
      ⟨some .string, text, (text.flatMap Ink.escaped).length + 1, none⟩ := by
  show stringShape '"' _ = _
  rw [stringShape, Ink.quotation_escaped]
  rfl

theorem exists_prints {c : Char} {cs : List Char} {kind : Kind}
    (h : (shape c cs).kind? = some kind) : ∃ d ds, Prints kind (shape c cs) d ds := by
  obtain ⟨source, rest, -, hr⟩ := shape_reads c cs
  by_cases hstring : kind = .string
  · subst hstring
    have hproblem : (shape c cs).problem?.filter (· ≠ .openString) = none := by
      generalize shape c cs = s at h hr
      cases hr with
      | unknown => cases h
      | unclosed => rfl
      | _ => rfl
    have hs := shape_quoted (shape c cs).text
    refine ⟨'"', (shape c cs).text.flatMap Ink.escaped ++ ['"'], ?_, ?_, ?_, ?_, ?_⟩
    · rw [written, if_pos rfl]
    · rw [hs]
    · rw [hs]
    · rw [hs, List.length_append, List.length_singleton]
    · rw [hs, hproblem]
  · obtain ⟨ds, htext, hs⟩ := shape_keeps (by rw [h]; exact nofun)
      (by rw [h]; exact fun he => hstring (Option.some.inj he))
    refine ⟨c, ds, ?_, hs ▸ h, congrArg _ hs, ?_, ?_⟩
    · rw [written, if_neg hstring, htext]
    · rw [hs]
      generalize shape c cs = s at h hr htext
      cases hr with
      | blank => cases h
      | newline => exact congrArg List.length (List.cons.inj htext).2
      | verbatim => exact congrArg (List.length · - 1) htext
      | unknown => exact congrArg List.length (List.cons.inj htext).2
      | closed => exact absurd (Option.some.inj h).symm hstring
      | unclosed => exact absurd (Option.some.inj h).symm hstring
    · rw [hs]
      generalize shape c cs = s at h hr
      cases hr with
      | unclosed => exact absurd (Option.some.inj h).symm hstring
      | _ => rfl

/-- What may stand behind a token that is read as if it stood alone: a blank, and only a line end
behind a comment. -/
def Fenced (kind : Kind) (tail : List Char) : Prop :=
  ∀ b ∈ tail.head?, isBlank b = true ∧ (b = '\n' ∨ kind ≠ .comment)

theorem Prints.shape_append {kind : Kind} {s : Shape} {d : Char} {ds tail : List Char}
    (h : Prints kind s d ds) (htail : Fenced kind tail) : shape d (ds ++ tail) = shape d ds := by
  cases tail with
  | nil => rw [List.append_nil]
  | cons b rest =>
      obtain ⟨hb, hline⟩ := htail b rfl
      refine shape_append_of_separates (separates_of_isBlank hb) rest ⟨fun hopen => ?_, ?_⟩
      · rw [h.problem] at hopen
        exact absurd rfl (of_decide_eq_true (Option.filter_eq_some_iff.mp hopen).2)
      · rw [h.kind]
        exact hline.imp_right fun hk he => hk (Option.some.inj he)

/-! ## Whole texts -/

/-- What the lexemes of a text are, wherever it stands. Places are left out, since printing changes
all of them. -/
def shapes (cs : List Char) : List Shape := (lexemes .start cs).map Lexeme.shape

/-- What a lexeme says, if it makes a token. Blanks and unknown characters make none. -/
def Shape.spelling? (s : Shape) : Option (Kind × String) :=
  s.kind?.map fun kind => (kind, String.ofList s.text)

theorem map_spelling_tokens (p : Place) (cs : List Char) :
    (tokens p cs).map spelling = (shapes cs).filterMap Shape.spelling? := by
  rw [shapes, shapes_eq .start p, tokens, List.map_filterMap, List.filterMap_map]
  refine congrArg (fun g => (lexemes p cs).filterMap g) (funext fun x => ?_)
  simp only [Function.comp_apply, Lexeme.token?, Option.map_map]
  rfl

theorem map_problem_reports (p : Place) (cs : List Char) :
    (reports p cs).map Diagnostic.problem = (shapes cs).filterMap Shape.problem? := by
  rw [shapes, shapes_eq .start p, reports, List.map_filterMap, List.filterMap_map]
  refine congrArg (fun g => (lexemes p cs).filterMap g) (funext fun x => ?_)
  simp only [Function.comp_apply, Lexeme.diagnostic?, Option.map_map]
  exact Option.map_id'

theorem shapes_nil : shapes [] = [] := by
  rw [shapes, lexemes]
  rfl

theorem shapes_space (cs : List Char) : shapes (' ' :: cs) = ⟨none, [], 0, none⟩ :: shapes cs := by
  rw [shapes, lexemes, List.map_cons, shapes_eq _ .start]
  rfl

theorem Prints.shapes {kind : Kind} {s : Shape} {d : Char} {ds tail : List Char}
    (h : Prints kind s d ds) (htail : Fenced kind tail) :
    shapes (written kind s.text ++ tail) = shape d ds :: shapes tail := by
  have hs := h.shape_append htail
  rw [h.chars, List.cons_append, Token.shapes,
    Ink.lexemes_cons_append _ (by rw [hs]; exact h.extra), hs, List.map_cons, shapes_eq _ .start]
  rfl

/-- The space in front of a token says nothing: it is a lexeme of its own that makes no token and no
report. -/
theorem filterMap_shapes_gap {α : Type} {g : Shape → Option α} (hg : g ⟨none, [], 0, none⟩ = none)
    (kind : Kind) (cs : List Char) :
    (shapes (gap kind ++ cs)).filterMap g = (shapes cs).filterMap g := by
  unfold gap
  split
  · rfl
  · rw [List.singleton_append, shapes_space, List.filterMap_cons, hg]

/-! ## The tokens of a text -/

theorem text_of_newline {p : Place} {cs : List Char} {t : Token} (h : t ∈ tokens p cs)
    (hkind : t.kind = .newline) : t.text = "\n" := by
  obtain ⟨c, cs', hk, htext⟩ := shape_of_mem_tokens h
  obtain rfl := newline_of_kind (hk.trans (congrArg some hkind))
  exact htext

/-- A comment ends where the line ends, so it stands before a line end or is the last of its text.
-/
theorem head?_of_comment {c : Char} {cs source rest : List Char} (hcut : c :: cs = source ++ rest)
    (hr : Reads rest source (shape c cs)) (h : (shape c cs).kind? = some .comment) :
    ∀ b ∈ rest.head?, b = '\n' := by
  have hshape := shape_of_startsComment (startsComment_of_kind h)
  have hlen : source.length = (c :: cs.takeWhile (· != '\n')).length := by
    rw [hr.length, hshape]
    rfl
  have hparts : (c :: cs.takeWhile (· != '\n')) ++ cs.dropWhile (· != '\n') = source ++ rest := by
    rw [List.cons_append, List.takeWhile_append_dropWhile, hcut]
  obtain ⟨-, rfl⟩ := List.append_inj hparts hlen.symm
  intro b hb
  have hnot := List.head?_dropWhile_not (· != '\n') cs
  rw [hb] at hnot
  simpa using hnot

theorem fenced_printTail {c : Char} {cs source rest : List Char} {kind : Kind} (p : Place)
    (hcut : c :: cs = source ++ rest) (hr : Reads rest source (shape c cs))
    (h : (shape c cs).kind? = some kind) : Fenced kind (printTail (tokens p rest)) := by
  intro b hb
  cases hts : tokens p rest with
  | nil =>
      rw [hts] at hb
      cases hb
  | cons t ts =>
      have ht : t ∈ tokens p rest := hts ▸ List.mem_cons_self ..
      rw [hts, printTail] at hb
      by_cases hline : t.kind = .newline
      · rw [gap, if_pos hline, hline, written, if_neg nofun, text_of_newline ht hline] at hb
        obtain rfl : '\n' = b := Option.some.inj hb
        exact ⟨by decide, Or.inl rfl⟩
      · rw [gap, if_neg hline] at hb
        obtain rfl : ' ' = b := Option.some.inj hb
        refine ⟨by decide, Or.inr ?_⟩
        rintro rfl
        -- behind a comment stands a line end or nothing
        have hhead := head?_of_comment hcut hr h
        cases rest with
        | nil =>
            rw [tokens, lexemes] at hts
            cases hts
        | cons d rest =>
            obtain rfl := hhead d rfl
            rw [tokens, lexemes_newline] at hts
            obtain ⟨rfl, -⟩ := List.cons.inj hts
            exact hline rfl

/-- The tokens of a text, printed behind something else, say the same. The induction is on the
lexemes; the report about an open string is gone, as printing closes it. -/
theorem shapes_printTail (p : Place) (cs : List Char) :
    (shapes (printTail (tokens p cs))).filterMap Shape.spelling? =
        (shapes cs).filterMap Shape.spelling? ∧
      (shapes (printTail (tokens p cs))).filterMap Shape.problem? =
        (shapes cs).filterMap fun s => s.problem?.filter (· ≠ .openString) := by
  induction p, cs using lexemes_induct with
  | nil p =>
      have htokens : tokens p [] = [] := by
        rw [tokens, lexemes]
        rfl
      rw [htokens, printTail, shapes_nil]
      exact ⟨rfl, rfl⟩
  | cons p c cs source tail hcut hr hlex ih =>
      obtain ⟨ihspell, ihproblem⟩ := ih
      have hshapes : shapes (c :: cs) = shape c cs :: shapes tail := by
        rw [shapes, shapes_eq .start p, hlex, List.map_cons, shapes_eq _ .start]
        rfl
      cases hkind : (shape c cs).kind? with
      | none =>
          have hproblem : (shape c cs).problem? = none := by
            generalize shape c cs = s at hkind hr
            cases hr with
            | blank => rfl
            | _ => cases hkind
          have htokens : tokens p (c :: cs) = tokens (p.after source) tail := by
            rw [tokens, hlex, List.filterMap_cons, Lexeme.token?, hkind]
            rfl
          rw [htokens, ihspell, ihproblem, hshapes, List.filterMap_cons, List.filterMap_cons,
            hproblem, Shape.spelling?, hkind]
          exact ⟨rfl, rfl⟩
      | some kind =>
          obtain ⟨d, ds, hprints⟩ := exists_prints hkind
          have htokens : tokens p (c :: cs) =
              ⟨kind, String.ofList (shape c cs).text, p⟩ :: tokens (p.after source) tail := by
            rw [tokens, hlex, List.filterMap_cons, Lexeme.token?, hkind]
            rfl
          have hspell : (shape d ds).spelling? = (shape c cs).spelling? := by
            rw [Shape.spelling?, Shape.spelling?, hprints.kind, hprints.text, hkind]
          have hfenced := fenced_printTail (p.after source) hcut hr hkind
          rw [htokens, printTail, filterMap_shapes_gap rfl, filterMap_shapes_gap rfl,
            String.toList_ofList, hprints.shapes hfenced, hshapes]
          simp only [List.filterMap_cons, hspell, hprints.problem, ihspell, ihproblem, and_self]

theorem problem_of_mem_reports {p : Place} {cs : List Char} {d : Diagnostic}
    (h : d ∈ reports p cs) : d.problem = .openString ∨ ∃ c, d.problem = .unknownCharacter c := by
  obtain ⟨x, hx, hd⟩ := List.mem_filterMap.mp h
  obtain ⟨problem, hproblem, rfl⟩ := Option.map_eq_some_iff.mp hd
  obtain ⟨rest, hr⟩ := reads_of_mem_lexemes hx
  generalize x.source = source, x.shape = s at hproblem hr
  cases hr with
  | unknown => exact Or.inr ⟨_, (Option.some.inj hproblem).symm⟩
  | unclosed => exact Or.inl (Option.some.inj hproblem).symm
  | _ => cases hproblem

/-- Printing the tokens of a text and scanning again gives the same tokens. What is reported of the
printed text are the characters without a meaning that were reported of the text. -/
theorem scan_print (text : String) :
    (scan (print ((scan text).tokens.filter (·.kind ≠ .endOfInput)))).tokens.map spelling =
        (scan text).tokens.map spelling ∧
      (∀ d ∈ (scan (print ((scan text).tokens.filter (·.kind ≠ .endOfInput)))).diagnostics,
        ∃ c, d.problem = .unknownCharacter c) ∧
      (scan (print ((scan text).tokens.filter (·.kind ≠ .endOfInput)))).diagnostics.map
          Diagnostic.problem =
        ((scan text).diagnostics.map Diagnostic.problem).filter (· ≠ .openString) := by
  have hfilter :
      (scan text).tokens.filter (·.kind ≠ .endOfInput) = tokens .start text.toList := by
    rw [scan_eq, List.filter_append, List.filter_eq_self.mpr]
    · exact List.append_nil _
    · exact fun t ht => decide_eq_true (kind_of_mem_tokens ht)
  -- the first token has nothing in front of it
  have hprint {α : Type} {g : Shape → Option α} (hg : g ⟨none, [], 0, none⟩ = none)
      (ts : List Token) :
      (shapes (print ts).toList).filterMap g = (shapes (printTail ts)).filterMap g := by
    cases ts with
    | nil => rfl
    | cons t ts => rw [print, String.toList_ofList, printTail, filterMap_shapes_gap hg]
  obtain ⟨hspell, hproblem⟩ := shapes_printTail .start text.toList
  have hproblems : (reports .start (print (tokens .start text.toList)).toList).map
      Diagnostic.problem = ((reports .start text.toList).map Diagnostic.problem).filter
        (· ≠ .openString) := by
    rw [map_problem_reports, map_problem_reports, hprint rfl, hproblem, List.filter_filterMap]
  rw [hfilter, scan_eq, scan_eq]
  refine ⟨?_, fun d hd => ?_, hproblems⟩
  · rw [List.map_append, List.map_append, map_spelling_tokens, map_spelling_tokens, hprint rfl,
      hspell]
    rfl
  · have hmem := List.mem_map_of_mem (f := Diagnostic.problem) hd
    rw [hproblems] at hmem
    have hclosed := of_decide_eq_true (List.mem_filter.mp hmem).2
    exact (problem_of_mem_reports hd).resolve_left hclosed

/-- A dash run and a half comment keep their kinds; the open string is closed. -/
example : print ((scan "a-->b / -.c // d\n'e\"").tokens.filter (·.kind ≠ .endOfInput)) =
    "a --> b / -.c // d\n \"e\\\"\"" := by decide +kernel

end Token

end Schematic
