import Schematic.Proofs.Reading.Effect
import Schematic.Proofs.Token.Splicing

/-!
# Places do not matter

Readers look at the kinds and the texts of tokens. Where a token stands is only copied into
reports, so moving all tokens by a function of places moves the reports in the same way and changes
nothing else (`run_move`). The function is arbitrary: with one that leaves the places of a text
where they are and no others, it follows that reports are made at tokens and nowhere else.
-/

namespace Schematic

variable {f : Place → Place}

@[simp] theorem Token.kind_move (t : Token) : (t.move f).kind = t.kind := rfl

@[simp] theorem Token.text_move (t : Token) : (t.move f).text = t.text := rfl

@[simp] theorem Token.isKeyword_move (t : Token) (w : String) :
    (t.move f).isKeyword w = t.isKeyword w := rfl

/-! ## Lists of tokens -/

section Lists

variable {ts : List Token} {p : Token → Bool}

theorem takeWhile_move (hp : ∀ t : Token, p (t.move f) = p t) (ts : List Token) :
    (ts.map (Token.move f)).takeWhile p = (ts.takeWhile p).map (Token.move f) := by
  rw [List.takeWhile_map]
  congr 2
  exact funext hp

theorem dropWhile_move (hp : ∀ t : Token, p (t.move f) = p t) (ts : List Token) :
    (ts.map (Token.move f)).dropWhile p = (ts.dropWhile p).map (Token.move f) := by
  rw [List.dropWhile_map]
  congr 2
  exact funext hp

theorem filter_move (hp : ∀ t : Token, p (t.move f) = p t) (ts : List Token) :
    (ts.map (Token.move f)).filter p = (ts.filter p).map (Token.move f) := by
  rw [List.filter_map]
  congr 2
  exact funext hp

theorem texts_move (ts : List Token) :
    (ts.map (Token.move f)).map Token.text = ts.map Token.text := by
  rw [List.map_map]
  rfl

end Lists

namespace Phrase

theorem joined_move (ts : List Token) : joined (ts.map (Token.move f)) = joined ts := by
  simp only [joined]
  rw [filter_move fun _ => rfl, texts_move]

theorem pairs_move (ts : List Token) : pairs (ts.map (Token.move f)) = pairs ts := by
  fun_induction pairs ts with
  | case1 => simp [pairs]
  | case2 t ht => simp [pairs, ht]
  | case3 t ht u rest hu ih =>
      rw [List.map_cons, List.map_cons, pairs]
      simp only [Token.kind_move, Token.text_move, ht, hu, if_true]
      rw [takeWhile_move fun _ => rfl, joined_move, dropWhile_move fun _ => rfl, ih]
  | case4 t ht u rest hu ih =>
      rw [List.map_cons] at ih
      rw [List.map_cons, List.map_cons, pairs]
      simp only [Token.kind_move, Token.text_move, ht, hu, if_true, if_false]
      rw [ih]
  | case5 t ts ht ih =>
      rw [List.map_cons, pairs.eq_def]
      simp only [Token.kind_move, ht]
      exact ih

theorem bracketAttributes_move (dialect : Dialect) (ts : List Token) :
    bracketAttributes dialect (ts.map (Token.move f)) = bracketAttributes dialect ts := by
  simp only [bracketAttributes, keyValues, pairs_move, joined_move]

end Phrase

/-! ## Field rows -/

namespace FieldRow

/-- The signature only depends on what its tokens say; its first token may have been cut. That one
is given separately, as no move makes it. -/
theorem signature_move {head head' : Token} (hk : head'.kind = head.kind)
    (ht : head'.text = head.text) (ts : List Token) :
    Phrase.signature (head' :: ts.map (Token.move f)) = Phrase.signature (head :: ts) := by
  induction ts generalizing head head' with
  | nil => exact ht
  | cons t ts ih =>
      have hspaced : Phrase.spaced head' (t.move f) = Phrase.spaced head t := by
        simp only [Phrase.spaced, hk, Token.kind_move]
      rw [List.map_cons, Phrase.signature, Phrase.signature,
        @ih t (t.move f) rfl rfl, ht, hspaced]

theorem splitParenthesis_move (ts : List Token) :
    splitParenthesis (ts.map (Token.move f)) =
      ((splitParenthesis ts).1.map (Token.move f), (splitParenthesis ts).2.map (Token.move f)) := by
  induction ts with
  | nil => rfl
  | cons t ts ih =>
      by_cases ht : t.text = ")" <;> simp [splitParenthesis, ih, ht]

theorem passColon_move (ts : List Token) :
    passColon (ts.map (Token.move f)) = (passColon ts).map (Token.move f) := by
  match ts with
  | [] => rfl
  | [t] => rfl
  | t :: u :: rest => by_cases ht : t.kind = .colon <;> simp [passColon, ht]

theorem splitType_move (ts : List Token) :
    splitType (ts.map (Token.move f)) =
      ((splitType ts).1, (splitType ts).2.map (Token.move f)) := by
  cases ts with
  | nil => rfl
  | cons t ts => by_cases ht : t.kind.isWord = true <;> simp [splitType, ht]

theorem field_move (v : Option Visibility) {head head' : Token} (hk : head'.kind = head.kind)
    (ht : head'.text = head.text) (ts : List Token) :
    field v head' (ts.map (Token.move f)) = field v head ts := by
  have hmethod : isMethod (head' :: ts.map (Token.move f)) = isMethod (head :: ts) := by
    simp only [isMethod, Phrase.closed, List.map_cons, texts_move, ht]
  have hsplit : (if isMethod (head :: ts) then splitParenthesis (ts.map (Token.move f))
      else ([], ts.map (Token.move f))) =
      let parts := if isMethod (head :: ts) then splitParenthesis ts else ([], ts)
      (parts.1.map (Token.move f), parts.2.map (Token.move f)) := by
    split
    · exact splitParenthesis_move ts
    · rfl
  simp only [field, hmethod, hsplit, signature_move hk ht, ht, passColon_move, splitType_move]
  rw [filter_move fun _ => rfl, texts_move]

/-- The field in a row whose mark has been taken off. It is what reading a row comes down to. -/
def unmarked (v : Option Visibility) (row : List Token) : Option Field :=
  match row.filter fun t => t.kind != .comment with
  | [] => none
  | head :: rest => if head.kind.isWord then some (field v head rest) else none

theorem unmarked_cons_move (v : Option Visibility) (head head' : Token)
    (hk : head'.kind = head.kind) (ht : head'.text = head.text) (row : List Token)
    (hrow : unmarked v (row.map (Token.move f)) = unmarked v row) :
    unmarked v (head' :: row.map (Token.move f)) = unmarked v (head :: row) := by
  by_cases hc : head.kind = .comment
  · have hc' : head'.kind = .comment := hk.trans hc
    simpa [unmarked, hc, hc'] using hrow
  · have hfield := field_move (f := f) v hk ht (row.filter fun t => t.kind != .comment)
    have hfilter := filter_move (f := f) (p := fun t => t.kind != .comment) (fun _ => rfl) row
    simp only [unmarked, List.filter_cons, hk, hfilter, bne_iff_ne, ne_eq, hc, not_false_eq_true,
      if_true, hfield]

theorem unmarked_move (v : Option Visibility) (row : List Token) :
    unmarked v (row.map (Token.move f)) = unmarked v row := by
  induction row with
  | nil => rfl
  | cons t row ih => exact unmarked_cons_move v t (t.move f) rfl rfl row ih

theorem read?_eq (dialect : Dialect) (row : List Token) :
    read? dialect row =
      if dialect.visibilityMarks then unmarked (splitMark row).1 (splitMark row).2
      else unmarked none row := by
  by_cases h : dialect.visibilityMarks = true <;> simp only [read?, h] <;> rfl

theorem read?_move (dialect : Dialect) (row : List Token) :
    read? dialect (row.map (Token.move f)) = read? dialect row := by
  rw [read?_eq, read?_eq]
  split
  · cases row with
    | nil => rfl
    | cons t ts =>
        -- the mark may be cut off the first name, which then keeps no place of the text
        simp only [List.map_cons, splitMark, Token.kind_move, Token.text_move]
        split
        · exact unmarked_move _ ts
        · exact unmarked_move _ ts
        · next c cs _ _ =>
          exact unmarked_cons_move (some .nobody)
            ⟨.ident, String.ofList (c :: cs), ⟨t.place.line, t.place.column + 1⟩⟩
            ⟨.ident, String.ofList (c :: cs), ⟨(f t.place).line, (f t.place).column + 1⟩⟩
            rfl rfl ts (unmarked_move _ ts)
        · exact unmarked_move _ (t :: ts)
  · exact unmarked_move none row

theorem pieces_move (cut : Token → Bool) (hcut : ∀ t : Token, cut (t.move f) = cut t)
    (ts : List Token) :
    pieces cut (ts.map (Token.move f)) = (pieces cut ts).map (List.map (Token.move f)) := by
  induction ts with
  | nil => rfl
  | cons t ts ih =>
      simp only [List.map_cons, pieces, hcut, ih]
      split
      · rfl
      · cases pieces cut ts <;> rfl

theorem readAll_move (dialect : Dialect) (ts : List Token) :
    readAll dialect (ts.map (Token.move f)) = readAll dialect ts := by
  have hrows : rows (ts.map (Token.move f)) = (rows ts).map (List.map (Token.move f)) := by
    simp only [rows]
    rw [pieces_move (fun t => t.kind == .newline) fun _ => rfl, List.map_map, List.map_map]
    exact List.map_congr_left fun row _ => dropWhile_move (fun _ => rfl) row
  rw [readAll, hrows, List.filterMap_map]
  refine congrArg (fun g => (rows ts).filterMap g) (funext fun row => ?_)
  exact read?_move dialect row

end FieldRow

/-! ## Cursors -/

/-- The cursor in the moved text, of which `n` more tokens are behind it. With another text in
front, `n` is the number of its tokens. -/
def Cursor.move (f : Place → Place) (n : Nat) (c : Cursor) : Cursor :=
  ⟨n + c.passed, c.ahead.map (Token.move f), c.final.move f, c.final_kind⟩

def Taken.move {α : Type} (f : Place → Place) (n : Nat) (e : Taken α) : Taken α :=
  ⟨e.value, e.cursor.move f n, e.diagnostics.map (Diagnostic.move f)⟩

namespace Cursor

variable {n : Nat} {c : Cursor}

theorem peek_move (c : Cursor) (i : Nat) : (c.move f n).peek i = (c.peek i).move f := by
  simp only [peek, move, List.getElem?_map]
  cases c.ahead[i]? <;> rfl

theorem current_move (c : Cursor) : (c.move f n).current = c.current.move f := by
  simp only [current, move]
  cases c.ahead <;> rfl

@[simp] theorem isAt_move (c : Cursor) (k : Token.Kind) : (c.move f n).isAt k = c.isAt k := by
  simp only [isAt, current_move, Token.kind_move]

@[simp] theorem atEnd_move (c : Cursor) : (c.move f n).atEnd = c.atEnd := isAt_move c _

theorem skip_move (c : Cursor) (m : Nat) : (c.move f n).skip m = (c.skip m).move f n := by
  simp [skip, move, Nat.add_assoc]

theorem advance_move (c : Cursor) : (c.move f n).advance = c.advance.move f n := by
  unfold advance
  rw [isAt_move]
  split
  · rfl
  · exact skip_move c 1

theorem pass_move (c : Cursor) (k : Token.Kind) :
    (c.move f n).pass k = (c.pass k).move f n := by
  unfold pass
  rw [isAt_move]
  split
  · exact advance_move c
  · rfl

theorem upTo_move {stop : Token → Bool} (hs : ∀ t : Token, stop (t.move f) = stop t)
    (c : Cursor) : (c.move f n).upTo stop = (c.upTo stop).map (Token.move f) :=
  takeWhile_move (fun t => by simp only [Token.kind_move, hs]) c.ahead

theorem restOfLine_move {stop : Token → Bool} (hs : ∀ t : Token, stop (t.move f) = stop t)
    (c : Cursor) : (c.move f n).restOfLine stop =
      ((c.restOfLine stop).1.map (Token.move f), (c.restOfLine stop).2.move f n) := by
  simp only [restOfLine, upTo_move hs, List.length_map, skip_move, pass_move]

theorem hasConnector_move (depth : Nat) (ts : List Token) :
    hasConnector depth (ts.map (Token.move f)) = hasConnector depth ts := by
  induction ts generalizing depth with
  | nil => rfl
  | cons t ts ih => simp only [List.map_cons, hasConnector, Token.kind_move, ih]

@[simp] theorem lineHasConnector_move (c : Cursor) :
    (c.move f n).lineHasConnector = c.lineHasConnector := hasConnector_move 0 c.ahead

theorem beginsWithRow_move (ts : List Token) :
    beginsWithRow (ts.map (Token.move f)) = beginsWithRow ts := by
  induction ts with
  | nil => rfl
  | cons t ts ih =>
      have hhead : ((ts.map (Token.move f)).head?.any fun u => u.kind.isName) =
          ts.head?.any fun u => u.kind.isName := by cases ts <;> rfl
      simp only [List.map_cons, beginsWithRow, Token.kind_move, ih, hhead]

@[simp] theorem looksLikeEntity_move (c : Cursor) :
    (c.move f n).looksLikeEntity = c.looksLikeEntity := by
  simp only [looksLikeEntity, move, ← List.map_drop, beginsWithRow_move]

theorem enclosed_move (c : Cursor) (closer : Token.Kind) (problem : Problem) :
    (c.move f n).enclosed closer problem =
      ⟨(c.enclosed closer problem).value.map (Token.move f),
        (c.enclosed closer problem).cursor.move f n,
        (c.enclosed closer problem).diagnostics.map (Diagnostic.move f)⟩ := by
  have hcontent : ((c.advance.move f n).ahead.takeWhile
      fun t => t.kind != closer && t.kind != .endOfInput) =
      (c.advance.ahead.takeWhile fun t => t.kind != closer && t.kind != .endOfInput).map
        (Token.move f) := takeWhile_move (fun _ => rfl) c.advance.ahead
  simp only [enclosed, advance_move, hcontent, List.length_map, skip_move, pass_move, atEnd_move,
    current_move]
  congr 1
  split <;> rfl

end Cursor

/-! ## Entities -/

namespace Declaration

variable {n : Nat}

theorem attributes_move (dialect : Dialect) (owner : String) (c : Cursor) :
    attributes dialect owner (c.move f n) = (attributes dialect owner c).move f n := by
  unfold attributes
  rw [Cursor.isAt_move]
  split
  · simp only [Cursor.enclosed_move, Phrase.bracketAttributes_move, Taken.move]
  · rfl

theorem body_move (dialect : Dialect) (owner : String) (c : Cursor) :
    bodyTaken dialect owner (c.move f n) = (bodyTaken dialect owner c).move f n := by
  unfold bodyTaken
  rw [Cursor.isAt_move]
  split
  · simp only [fields, Cursor.enclosed_move, FieldRow.readAll_move, Taken.move]
  · rfl

theorem entity_move (dialect : Dialect) (id : String) (known : KeyedList String String)
    (c : Cursor) :
    entityTaken dialect id known (c.move f n) = (entityTaken dialect id known c).move f n := by
  simp only [entityTaken, attributes_move, Taken.move, body_move, Cursor.pass_move, List.map_append]

theorem titled_move (dialect : Dialect) (c : Cursor) :
    titled dialect (c.move f n) =
      ((titled dialect c).1, (titled dialect c).2.1, (titled dialect c).2.2.move f n) := by
  simp only [titled, Cursor.advance_move, Cursor.current_move, Cursor.peek_move, aliased,
    Token.kind_move, Token.text_move, Token.isKeyword_move]
  split <;> rfl

theorem keyword_move (dialect : Dialect) (c : Cursor) :
    keywordTaken dialect (c.move f n) = (keywordTaken dialect c).move f n := by
  simp only [keywordTaken, Cursor.advance_move, titled_move, Cursor.current_move, Token.text_move,
    passDecorations]
  rw [Cursor.upTo_move fun _ => rfl, List.length_map, Cursor.skip_move, entity_move]

end Declaration

/-! ## Edge lines -/

namespace EdgeLine

theorem span_move (opener : Token) (closer : String) (depth : Nat) (ts : List Token) :
    span (opener.move f) closer depth (ts.map (Token.move f)) =
      ((span opener closer depth ts).1.map (Token.move f),
        (span opener closer depth ts).2.map (List.map (Token.move f))) := by
  induction ts generalizing depth with
  | nil => rfl
  | cons t ts ih =>
      simp only [List.map_cons, span, Token.kind_move, Token.text_move, ih]
      split
      · rfl
      · split
        · cases depth <;> rfl
        · rfl

theorem bar?_move (ts : List Token) :
    bar? (ts.map (Token.move f)) =
      (bar? ts).map fun b => (b.1.map (Token.move f), b.2.map (Token.move f)) := by
  unfold bar?
  rw [dropWhile_move fun _ => rfl, takeWhile_move fun _ => rfl]
  cases ts.dropWhile fun t => t.kind != .pipe <;> rfl

theorem barLabel?_move (dialect : Dialect) (t : Token) (ts : List Token) :
    barLabel? dialect (t.move f) (ts.map (Token.move f)) =
      (barLabel? dialect t ts).map fun b => (b.1.map (Token.move f), b.2.map (Token.move f)) := by
  unfold barLabel?
  rw [Token.kind_move, bar?_move]
  split <;> rfl

/-- A reduction with its reports moved. Nothing else in it has a place. -/
def Progress.move (f : Place → Place) (p : Progress) : Progress :=
  { p with diagnostics := p.diagnostics.map (Diagnostic.move f) }

theorem token_move (p : Progress) (t : Token) :
    (p.move f).token (t.move f) = (p.token t).move f := by
  simp only [Progress.token, Token.kind_move, Token.text_move]
  split
  · simp only [Progress.word, Progress.move]; split <;> rfl
  · simp only [Progress.word, Progress.move]; split <;> rfl
  · rfl
  · simp only [Progress.string, Progress.move]; split <;> rfl
  · split <;> rfl

theorem labelled_move (p : Progress) (text : String) :
    (p.move f).labelled text = (p.labelled text).move f := by
  unfold Progress.labelled
  split <;> rfl

theorem declare_move (p : Progress) (dialect : Dialect) (ts : List Token) :
    (p.move f).declare dialect (ts.map (Token.move f)) = (p.declare dialect ts).move f := by
  simp only [Progress.declare, Progress.move, Phrase.bracketAttributes_move]
  split
  · split <;> rfl
  · rfl

theorem reduce_span {dialect : Dialect} {t : Token} {closer : String}
    (h : spanCloser? dialect t = some closer) (p : Progress) (ts : List Token) :
    reduce dialect p (t :: ts) =
      reduce dialect
        (({ p with diagnostics := p.diagnostics ++
            if (span t closer 0 ts).2.isNone then [⟨t.place, .openSpan t.text⟩] else [] } :
          Progress).declare dialect (span t closer 0 ts).1)
        ((span t closer 0 ts).2.getD []) := by
  rw [reduce]
  simp only [h]
  congr 2
  split <;> simp

theorem reduce_colon {dialect : Dialect} {t : Token} (h : spanCloser? dialect t = none)
    (hk : t.kind = .colon) (p : Progress) (ts : List Token) :
    reduce dialect p (t :: ts) = p.labelled (Phrase.joined ts) := by
  rw [reduce]
  simp only [h, hk, if_true]

theorem reduce_bar {dialect : Dialect} {t : Token} {ts between rest : List Token}
    (h : spanCloser? dialect t = none) (hk : t.kind ≠ .colon)
    (hb : barLabel? dialect t ts = some (between, rest)) (p : Progress) :
    reduce dialect p (t :: ts) = reduce dialect (p.labelled (Phrase.joined between)) rest := by
  rw [reduce]
  simp only [h, hk, if_false]
  split
  · next hb' =>
    rw [hb] at hb'
    cases hb'
    rfl
  · next hb' => rw [hb] at hb'; cases hb'

theorem reduce_token {dialect : Dialect} {t : Token} {ts : List Token}
    (h : spanCloser? dialect t = none) (hk : t.kind ≠ .colon)
    (hb : barLabel? dialect t ts = none) (p : Progress) :
    reduce dialect p (t :: ts) = reduce dialect (p.token t) ts := by
  rw [reduce]
  simp only [h, hk, if_false]
  split
  · next hb' => rw [hb] at hb'; cases hb'
  · rfl

/-- The kinds of tokens that open no span and give no label in any dialect. They are what chains are
made of. -/
def isPlain (k : Token.Kind) : Bool := k.isName || k == .comma || k.isConnector

theorem isPlain_of_isWord {k : Token.Kind} (h : k.isWord = true) : isPlain k = true := by
  cases k <;> first | rfl | cases h

theorem Progress.token_of_isWord {t : Token} (h : t.kind.isWord = true) (p : Progress) :
    p.token t = p.word t.text := by
  unfold Progress.token
  cases hk : t.kind <;> first | rfl | (rw [hk] at h; cases h)

theorem reduce_plain {dialect : Dialect} {t : Token} {ts : List Token} {p : Progress}
    (h : isPlain t.kind = true) : reduce dialect p (t :: ts) = reduce dialect (p.token t) ts := by
  refine reduce_token ?_ ?_ ?_ p
  · unfold spanCloser?
    cases hk : t.kind <;> simp_all [isPlain, Token.Kind.isName, Token.Kind.isConnector]
  · rintro hk
    simp [hk, isPlain, Token.Kind.isName, Token.Kind.isConnector] at h
  · unfold barLabel?
    rw [if_neg]
    rintro ⟨hk, -⟩
    simp [hk, isPlain, Token.Kind.isName, Token.Kind.isConnector] at h

theorem reduce_move (dialect : Dialect) (p : Progress) (ts : List Token) :
    reduce dialect (p.move f) (ts.map (Token.move f)) = (reduce dialect p ts).move f := by
  fun_induction reduce dialect p ts with
  | case1 p => rw [List.map_nil, reduce]
  | case2 p t ts closer hc s q ih =>
      rw [List.map_cons, reduce_span (t := t.move f) hc, ← ih, ← declare_move, span_move]
      have hrest : ((s.2.map (List.map (Token.move f))).getD []) =
          (s.2.getD []).map (Token.move f) := by cases s.2 <;> rfl
      have hreports : ({ p.move f with diagnostics := (p.move f).diagnostics ++
          if (s.2.map (List.map (Token.move f))).isNone then
            [⟨(t.move f).place, .openSpan (t.move f).text⟩] else [] } : Progress) = q.move f := by
        unfold q
        cases s.2 <;> simp [Progress.move, Token.move, Diagnostic.move]
      rw [hrest, hreports]
  | case3 p t ts hc hk =>
      rw [List.map_cons, reduce_colon (t := t.move f) hc hk, Phrase.joined_move, labelled_move]
  | case4 p t ts hc hk between rest hb ih =>
      have hb' : barLabel? dialect (t.move f) (ts.map (Token.move f)) =
          some (between.map (Token.move f), rest.map (Token.move f)) := by
        rw [barLabel?_move, hb]
        rfl
      rw [List.map_cons, reduce_bar (t := t.move f) hc hk hb', Phrase.joined_move, labelled_move,
        ih]
  | case5 p t ts hc hk hb ih =>
      have hb' : barLabel? dialect (t.move f) (ts.map (Token.move f)) = none := by
        rw [barLabel?_move, hb]
        rfl
      rw [List.map_cons, reduce_token (t := t.move f) hc hk hb', token_move, ih]

theorem read_move (dialect : Dialect) (ts : List Token) :
    read dialect (ts.map (Token.move f)) =
      { read dialect ts with
        diagnostics := (read dialect ts).diagnostics.map (Diagnostic.move f) } := by
  simp only [read]
  rw [show Progress.start = Progress.start.move f from rfl, reduce_move]
  rfl

end EdgeLine

/-! ## Readings -/

namespace Reading

variable {n : Nat}

def OpenGroup.move (f : Place → Place) (g : OpenGroup) : OpenGroup :=
  { g with opener := g.opener.move f }

/-- The reading of the moved text: reports and the openers of groups are moved, and the cursor with
what it sees. -/
def move (f : Place → Place) (n : Nat) (r : Reading) : Reading :=
  { r with
    cursor := r.cursor.move f n
    diagnostics := r.diagnostics.map (Diagnostic.move f)
    openGroups := r.openGroups.map (OpenGroup.move f) }

def Effect.move (f : Place → Place) (n : Nat) (e : Effect) : Effect :=
  { e with
    cursor := e.cursor.move f n
    diagnostics := e.diagnostics.map (Diagnostic.move f)
    opened := e.opened.map fun o => { o with opener := o.opener.move f } }

theorem effect_move (dialect : Dialect) (c : Cursor) (top : Bool) (form : Form) :
    effect dialect (c.move f n) top form = (effect dialect c top form).move f n := by
  have line (c : Cursor) : (c.move f n).restOfLine =
      (c.restOfLine.1.map (Token.move f), c.restOfLine.2.move f n) :=
    Cursor.restOfLine_move (fun _ => rfl) c
  cases form with
  | blank => simp [effect, Effect.move, Cursor.advance_move]
  | passed => simp [effect, Effect.move, line]
  | header type =>
      simp only [effect, Effect.move, Cursor.advance_move, line]
      cases c.advance.restOfLine.1 <;> rfl
  | directive =>
      simp [effect, Effect.move, Cursor.advance_move, line, Cursor.current_move,
        Phrase.joined_move]
  | keywordGroup =>
      simp [effect, Effect.move, Effect.opening, Cursor.advance_move, Cursor.current_move]
  | endBlock =>
      simp only [effect, Effect.move, Cursor.advance_move, line, Cursor.current_move]
      cases c.advance.restOfLine.1 <;> rfl
  | declaration =>
      simp [effect, Effect.move, Effect.declaring, Declaration.keyword_move, Taken.move]
  | group =>
      simp [effect, Effect.move, Effect.opening, Cursor.advance_move, Cursor.current_move]
  | entity =>
      simp [effect, Effect.move, Effect.declaring, Declaration.entity_move, Taken.move,
        Cursor.advance_move, Cursor.current_move]
  | edges => simp [effect, Effect.move, line, EdgeLine.read_move]
  | metadata =>
      simp [effect, Effect.move, Cursor.advance_move, line, Cursor.current_move,
        Phrase.joined_move]
  | lone =>
      simp only [effect, Effect.move, Cursor.advance_move, Cursor.current_move]
      rw [Cursor.restOfLine_move fun _ => rfl]
      rfl
  | stray =>
      simp only [effect, Effect.move, Cursor.advance_move, Cursor.current_move, strayReports,
        Token.kind_move, Token.text_move]
      congr 1
      split
      · rfl
      · split <;> rfl

theorem form_move (r : Reading) (top : Bool) : (r.move f n).form top = r.form top := by
  have hdialect : (r.move f n).dialect = r.dialect := rfl
  have hcursor : (r.move f n).cursor = r.cursor.move f n := rfl
  have hseen : (r.move f n).headerSeen = r.headerSeen := rfl
  simp only [form, wordForm?, groupForm?, declares, shapeForm, hdialect, hcursor, hseen,
    Cursor.current_move, Cursor.peek_move, Token.kind_move, Token.text_move,
    Cursor.lineHasConnector_move, Cursor.looksLikeEntity_move]
  rfl

theorem closing?_move (c : Cursor) (g : OpenGroup) :
    closing? (c.move f n) (OpenGroup.move f g) =
      (closing? c g).map fun x => ⟨x.cursor.move f n, x.diagnostics.map (Diagnostic.move f)⟩ := by
  have hcloser : (OpenGroup.move f g).closer = g.closer := rfl
  have hproblem : OpenGroup.problem (OpenGroup.move f g) = OpenGroup.problem g := rfl
  simp only [closing?, Cursor.atEnd_move, Cursor.isAt_move, Cursor.current_move,
    Token.isKeyword_move, Cursor.advance_move, hcloser, hproblem]
  rw [Cursor.restOfLine_move fun _ => rfl]
  split
  · rfl
  · cases g.closer with
    | brace => cases c.isAt .closeBrace <;> rfl
    | endWord => cases c.current.isKeyword "end" <;> rfl

theorem finished_move (r : Reading) : (r.move f n).finished = r.finished := by
  simp [finished, move]

theorem apply_move (e : Effect) (r : Reading) :
    (e.move f n).apply (r.move f n) = (e.apply r).move f n := by
  cases ho : e.opened with
  | none =>
      rw [apply_eq _ _ ho, apply_eq _ _ (by simp [Effect.move, ho])]
      simp [move, Effect.move]
  | some o => simp [Effect.apply, Effect.move, ho, move, push, OpenGroup.move]

theorem step_move {r : Reading} (h : r.finished = false) :
    (r.move f n).step = r.step.move f n := by
  rcases step_spec h with ⟨g, outer, x, hg, hx, hs⟩ | ⟨hend, hstays, hs⟩
  · have hg' : (r.move f n).openGroups = OpenGroup.move f g :: outer.map (OpenGroup.move f) := by
      simp [move, hg]
    have hx' := closing?_move (f := f) (n := n) r.cursor g
    rw [hx, Option.map_some] at hx'
    rw [step_of_closing hg' hx', hs]
    simp [Closing.apply, move, OpenGroup.move]
  · have hstays' : (r.move f n).Stays := by
      intro k hk
      cases hg : r.openGroups with
      | nil => simp [move, hg] at hk
      | cons g outer =>
          have hx := hstays g (by rw [hg]; rfl)
          simp only [move, hg, List.map_cons, List.head?_cons, Option.mem_some_iff] at hk
          rw [← hk]
          exact (closing?_move r.cursor g).trans (by rw [hx]; rfl)
    have htop : (r.move f n).atTop = r.atTop := by simp [atTop, move]
    have hnext : (r.move f n).next = r.next.move f n := by
      rw [next, htop, form_move]
      exact effect_move r.dialect r.cursor _ _
    rw [step_of_stays (r := r.move f n) (by simpa [move] using hend) hstays', hnext, apply_move, hs]

/-- A text is read the same wherever its tokens stand; the reports stand where the tokens do. The
induction is on the run, and a step commutes with the move. -/
theorem run_move (r : Reading) : (r.move f n).run = r.run.move f n := by
  fun_induction run r with
  | case1 r h => rw [run, if_pos (by rw [finished_move, h])]
  | case2 r h ih =>
      rw [run, if_neg (by rw [finished_move]; exact h), step_move (Bool.eq_false_iff.mpr h), ih]

end Reading

end Schematic
