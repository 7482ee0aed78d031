import Schematic.Proofs.Reading.Passing
import Schematic.Proofs.Token.Insertion

/-!
# Remarks say nothing

A text with comments and blank lines put in says what it said before, in every dialect, and shows
the same dialect (`ofText_insert`). Its tokens have remarks put in, so the reading is that of the
tokens moved to their new places; moving is by lines and keeps their order, so the dialect is found
by the same tokens and the reports come in the same order.
-/

namespace Schematic

/-! ## Detection -/

namespace Dialect

variable {f : Place → Place}

/-- The mark for the end shows no dialect. So it is left out of what is compared. -/
theorem detectFrom_append_endAt (previous : Option Nat) (ts : List Token) (p : Place) :
    detectFrom previous (ts ++ [Token.endAt p]) = detectFrom previous ts := by
  induction ts generalizing previous with
  | nil => simp [detectFrom, opensPlantuml, opensMermaid, Token.endAt]
  | cons t ts ih =>
      have hopens : opensPlantuml t (ts ++ [Token.endAt p]) = opensPlantuml t ts := by
        cases ts with
        | nil => simp [opensPlantuml, Token.endAt]
        | cons u ts => rfl
      simp only [List.cons_append, detectFrom, hopens, ih]

theorem detect_append_endAt (ts : List Token) (p : Place) :
    detect (ts ++ [Token.endAt p]) = detectFrom none (significant ts) := by
  have hlast : [Token.endAt p].filter (fun t => t.kind != .newline && t.kind != .comment) =
      [Token.endAt p] := rfl
  rw [detect, significant, List.filter_append, hlast, List.take_append, significant]
  cases detectionWindow - (ts.filter fun t => t.kind != .newline && t.kind != .comment).length with
  | zero => rw [List.take_zero, List.append_nil]
  | succ n =>
      rw [List.take_succ_cons, List.take_nil]
      exact detectFrom_append_endAt none _ p

/-- Only whether two tokens stand on one line counts. A move that keeps lines apart shows the same.
-/
theorem detectFrom_move {line : Nat → Nat} (hf : ∀ p, (f p).line = line p.line)
    (hline : Function.Injective line) (previous : Option Nat) (ts : List Token) :
    detectFrom (previous.map line) (ts.map (Token.move f)) = detectFrom previous ts := by
  induction ts generalizing previous with
  | nil => rfl
  | cons t ts ih =>
      have hplantuml : opensPlantuml (t.move f) (ts.map (Token.move f)) = opensPlantuml t ts := by
        cases ts <;> rfl
      have hprevious : (previous.map line != some (line t.place.line)) =
          (previous != some t.place.line) := by
        cases previous with
        | none => rfl
        | some n => simp [bne, hline.eq_iff]
      have hmermaid : opensMermaid (previous.map line) (t.move f) = opensMermaid previous t := by
        show (previous.map line != some (f t.place).line && _ && _) = _
        rw [hf, hprevious]
        rfl
      have hrest := ih (some t.place.line)
      rw [List.map_cons, detectFrom, detectFrom, hplantuml, hmermaid, ← hrest]
      simp only [Option.map_some, Token.move, hf]

/-- Remarks show no dialect. Detection leaves line ends and comments out, so it looks at the same
tokens in both texts, moved in the second. -/
theorem detect_remarked {fresh : Bool} {line : Nat → Nat} (hf : ∀ p, (f p).line = line p.line)
    (hline : Function.Injective line) {ts us : List Token}
    (h : Token.Remarked fresh (ts.map (Token.move f)) us) (p q : Place) :
    detect (us ++ [Token.endAt q]) = detect (ts ++ [Token.endAt p]) := by
  have hfilter := h.filter_eq (p := fun t => t.kind != .newline && t.kind != .comment)
    (fun t ht => by rw [ht]; rfl) (fun t ht => by rw [ht]; rfl)
  have hmoved : significant us = (significant ts).map (Token.move f) := by
    rw [significant, significant, ← hfilter, filter_move fun _ => rfl, List.map_take]
  rw [detect_append_endAt, detect_append_endAt, hmoved]
  exact detectFrom_move hf hline none _

end Dialect

/-! ## Readings -/

namespace Reading

/-- A run over tokens with remarks put in is the run without them, moved. Only the cursor has passed
more tokens in the end. -/
theorem run_start_remarked {f : Place → Place} {ts us : List Token}
    (h : Token.Remarked true (ts.map (Token.move f)) us) (d : Dialect) (p q : Place) :
    ∃ c, (start d (us ++ [Token.endAt q])).run =
      { (start d (ts ++ [Token.endAt p])).run.move f 0 with cursor := c } := by
  have hstart : Remarked ((start d (ts ++ [Token.endAt p])).move f 0)
      (start d (us ++ [Token.endAt q])) := by
    rw [start_eq, start_eq]
    exact ⟨rfl, h⟩
  refine ⟨(start d (us ++ [Token.endAt q])).run.cursor, ?_⟩
  rw [← run_move]
  exact run_remarked hstart

/-- A document has as many lines as its text. It is the line of the mark for the end, which comes
behind all line ends. -/
theorem lineCount_ofText (text : String) (dialect? : Option Dialect) :
    (ofText text dialect?).document.lineCount = 1 + text.toList.count '\n' := by
  show lineCount ((Cursor.ofTokens (Token.scan text).tokens).ahead ++
    [(Cursor.ofTokens (Token.scan text).tokens).final]) = _
  have hend : (Place.start.after text.toList).line = 1 + text.toList.count '\n' := by
    rw [Place.after_eq_behind]
    rfl
  rw [Token.scan_eq, Cursor.ofTokens_append_endAt, ← hend]
  exact Token.le_lineCount (fun t ht => (Token.line_of_mem_tokens ht).2) _ rfl

theorem document_ofText (text : String) (dialect? : Option Dialect) :
    (ofText text dialect?).document =
      ((start (dialect?.getD (Dialect.detect (Token.scan text).tokens))
        (Token.scan text).tokens).run.document
          (ofText text dialect?).document.lineCount).classified := rfl

theorem diagnostics_ofText (text : String) (dialect? : Option Dialect) :
    (ofText text dialect?).diagnostics =
      Diagnostic.sorted ((Token.scan text).diagnostics ++
        (start (dialect?.getD (Dialect.detect (Token.scan text).tokens))
          (Token.scan text).tokens).run.diagnostics) := rfl

/-- **Remarks say nothing.** At a line end that is no part of a string, comments and blank lines may
be put in: the text shows the same dialect, and its document, whether in a given dialect or in the
one it shows, is the same but for the number of lines. The reports are the same, and those behind
the line end stand further down by the lines that were put in. -/
theorem ofText_insert {before after : String} (h : Token.LineEnd before.toList after.toList)
    (w : Token.Remarks) (dialect? : Option Dialect) :
    let s := before ++ after
    let s' := before ++ String.ofList w.chars ++ after
    let n := w.lines.length
    Dialect.detect (Token.scan s').tokens = Dialect.detect (Token.scan s).tokens ∧
      (ofText s' dialect?).document =
        { (ofText s dialect?).document with
          lineCount := (ofText s dialect?).document.lineCount + n } ∧
      (ofText s' dialect?).diagnostics = (ofText s dialect?).diagnostics.map
        (Diagnostic.move (.spread (1 + before.toList.count '\n') n)) := by
  intro s s' n
  let f := Place.spread (1 + before.toList.count '\n') n
  let r := (start (dialect?.getD (Dialect.detect (Token.scan s).tokens)) (Token.scan s).tokens).run
  have hs : s.toList = before.toList ++ after.toList := String.toList_append
  have hs' : s'.toList = before.toList ++ w.chars ++ after.toList := by
    simp only [s', String.toList_append, String.toList_ofList]
  have hline : (Place.start.after before.toList).line = 1 + before.toList.count '\n' := by
    rw [Place.after_eq_behind]
    rfl
  obtain ⟨htokens, hreports⟩ := Token.remarked_tokens h w
  rw [hline, ← hs, ← hs'] at htokens hreports
  have hinjective : Function.Injective fun m =>
      if 1 + before.toList.count '\n' < m then m + n else m := by
    intro a b hab
    simp only at hab
    split at hab <;> split at hab <;> omega
  have hdetect : Dialect.detect (Token.scan s').tokens = Dialect.detect (Token.scan s).tokens := by
    rw [Token.scan_eq, Token.scan_eq]
    exact Dialect.detect_remarked (fun _ => rfl) hinjective htokens _ _
  obtain ⟨c, hrun⟩ := run_start_remarked htokens
    (dialect?.getD (Dialect.detect (Token.scan s).tokens)) (Place.start.after s.toList)
    (Place.start.after s'.toList)
  have hcount : (ofText s' dialect?).document.lineCount =
      (ofText s dialect?).document.lineCount + n := by
    rw [lineCount_ofText, lineCount_ofText, hs, hs']
    simp only [List.count_append, w.count_chars]
    omega
  refine ⟨hdetect, ?_, ?_⟩
  · rw [document_ofText s', hdetect, hcount, Token.scan_eq s', hrun]
    rfl
  · calc (ofText s' dialect?).diagnostics
        = Diagnostic.sorted ((Token.reports .start s.toList).map (Diagnostic.move f) ++
            r.diagnostics.map (Diagnostic.move f)) := by
          rw [diagnostics_ofText s', hdetect, Token.scan_eq s', hrun, hreports]
          rfl
      _ = (Diagnostic.sorted (Token.reports .start s.toList ++ r.diagnostics)).map
            (Diagnostic.move f) := by
          rw [← List.map_append, Diagnostic.sorted_move (Place.le_spread _ _)]
      _ = (ofText s dialect?).diagnostics.map (Diagnostic.move f) := rfl

/-- A comment behind a field, a blank line, and a comment on a line of its own. -/
def fieldRemarks : Token.Remarks where
  rest := ⟨[' '], some " key".toList, List.forall_mem_singleton.mpr ⟨rfl, by decide⟩,
    fun _ h => Option.some.inj h ▸ by decide⟩
  lines := [⟨[], none, nofun, nofun⟩,
    ⟨['\t'], some " [end".toList, List.forall_mem_singleton.mpr ⟨rfl, by decide⟩,
      fun _ h => Option.some.inj h ▸ by decide⟩]
  apart := nofun

/-- They are put in between two rows of an entity, in front of a brace that closes nothing. The
report about it moves down with it. -/
theorem ofText_insert_fieldRemarks :
    Token.LineEnd "T \x7b\n  a int".toList "\n  b\n\x7d\n\x7d".toList ∧
      (ofText "T \x7b\n  a int // key\n\n\t// [end\n  b\n\x7d\n\x7d").document =
        { (ofText "T \x7b\n  a int\n  b\n\x7d\n\x7d").document with
          lineCount := (ofText "T \x7b\n  a int\n  b\n\x7d\n\x7d").document.lineCount + 2 } ∧
      (ofText "T \x7b\n  a int // key\n\n\t// [end\n  b\n\x7d\n\x7d").diagnostics =
        (ofText "T \x7b\n  a int\n  b\n\x7d\n\x7d").diagnostics.map
          (Diagnostic.move (.spread 2 2)) := by
  have h : Token.LineEnd "T \x7b\n  a int".toList "\n  b\n\x7d\n\x7d".toList :=
    .newline (by decide +kernel)
  exact ⟨h, (ofText_insert h fieldRemarks none).2⟩

end Reading

end Schematic
