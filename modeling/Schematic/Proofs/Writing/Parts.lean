import Schematic.Proofs.KeyedList
import Schematic.Proofs.Writing.Facing

/-!
# The parts of a line read back

What the native dialect writes between brackets, on the rows of an entity and on an edge line is
what is read from the tokens of these texts.
-/

namespace Schematic

open Token (IsWord)
open Text (trim IsSolid)

namespace Phrase

/-- A single text stands for itself once the blanks at its ends are gone. What is written has none
there. -/
theorem joined_string (s : String) (p : Place) : joined [⟨.string, s, p⟩] = trim s := by
  simp [joined]

/-- A key, a colon and a single value in front of a comma or the end are a pair, and the others are
read behind the comma. -/
theorem pairs_keyed {t u v : Token} {rest : List Token} (ht : t.kind.isName = true)
    (hu : u.kind = .colon) (hv : v.kind ≠ .comma) (hrest : ∀ w ∈ rest.head?, w.kind = .comma) :
    pairs (t :: u :: v :: rest) = (t.text, joined [v]) :: pairs rest := by
  have htake : (v :: rest).takeWhile (fun w => w.kind != .comma) = [v] := by
    rw [← List.singleton_append]
    refine takeWhile_append_of_head (fun w hw => ?_) fun w hw => ?_
    · rw [List.mem_singleton.mp hw]
      simpa using hv
    · simp [hrest w hw]
  have hdrop : (v :: rest).dropWhile (fun w => w.kind != .comma) = rest := by
    have happ := List.takeWhile_append_dropWhile (p := fun w : Token => w.kind != .comma)
      (l := v :: rest)
    rw [htake] at happ
    exact (List.cons.inj happ).2
  rw [pairs, if_pos ht]
  simp only [hu, if_true, htake, hdrop]

theorem pairs_comma {t : Token} (ht : t.kind = .comma) (ts : List Token) :
    pairs (t :: ts) = pairs ts := by
  rw [pairs.eq_def]
  simp [ht, Token.Kind.isName]

end Phrase

namespace Native

/-! ## Attributes -/

theorem head?_moreAttributes (as : List (String × String)) (p : Place) :
    ∀ t ∈ (Ink.tokens p (moreAttributes as)).head?, t.kind = .comma := by
  intro t ht
  cases as with
  | nil => cases ht
  | cons a as => cases ht; rfl

theorem pairs_keyed {a : String × String} (hw : IsWord a.1) (ht : trim a.2 = a.2)
    {as : List (String × String)} (ih : ∀ p, Phrase.pairs (Ink.tokens p (moreAttributes as)) = as)
    (p : Place) : Phrase.pairs (Ink.tokens p (keyed a ++ moreAttributes as)) = a :: as := by
  have hname := Token.Kind.isName_of_isWord hw.isWord_nameKind
  obtain ⟨key, s⟩ := a
  simp only [keyed, List.cons_append, List.nil_append, Ink.tokens, Ink.spelling?] at hname ⊢
  rw [Phrase.pairs_keyed hname rfl (by simp) (head?_moreAttributes as _), ih,
    Phrase.joined_string, show trim s = s from ht]

theorem pairs_moreAttributes {as : List (String × String)}
    (h : ∀ a ∈ as, IsWord a.1 ∧ trim a.2 = a.2) (p : Place) :
    Phrase.pairs (Ink.tokens p (moreAttributes as)) = as := by
  induction as generalizing p with
  | nil => simp [moreAttributes, Ink.tokens, Phrase.pairs]
  | cons a as ih =>
      obtain ⟨hw, ht⟩ := h a (List.mem_cons_self ..)
      have has := ih fun b hb => h b (List.mem_cons_of_mem _ hb)
      simp only [moreAttributes, Ink.tokens, Ink.spelling?]
      rw [Phrase.pairs_comma rfl]
      exact pairs_keyed hw ht has _

theorem pairs_attributes {as : List (String × String)}
    (h : ∀ a ∈ as, IsWord a.1 ∧ trim a.2 = a.2) (p : Place) :
    Phrase.pairs (Ink.tokens p (attributes as)) = as := by
  cases as with
  | nil => simp [attributes, Ink.tokens, Phrase.pairs]
  | cons a as =>
      obtain ⟨hw, ht⟩ := h a (List.mem_cons_self ..)
      have has := pairs_moreAttributes fun b hb => h b (List.mem_cons_of_mem _ hb)
      exact pairs_keyed hw ht has p

theorem isQuiet_keyed {a : String × String} (h : IsWord a.1) :
    ∀ k ∈ Ink.kinds (keyed a), Cursor.isQuiet k = true := by
  have hname := Cursor.isQuiet_of_isWord h.isWord_nameKind
  intro k hk
  simp only [keyed, Ink.kinds_word, Ink.kinds_mark, Ink.kinds_space, Ink.kinds_quoted,
    Ink.kinds_nil, List.mem_cons, List.not_mem_nil, or_false] at hk
  rcases hk with rfl | rfl | rfl
  · exact hname
  · rfl
  · rfl

theorem isQuiet_moreAttributes {as : List (String × String)} (h : ∀ a ∈ as, IsWord a.1) :
    ∀ k ∈ Ink.kinds (moreAttributes as), Cursor.isQuiet k = true := by
  induction as with
  | nil => intro k hk; cases hk
  | cons a as ih =>
      intro k hk
      rw [moreAttributes, Ink.kinds_mark, Ink.kinds_space, Ink.kinds_append, List.mem_cons,
        List.mem_append] at hk
      rcases hk with rfl | hk | hk
      · rfl
      · exact isQuiet_keyed (h a (List.mem_cons_self ..)) k hk
      · exact ih (fun b hb => h b (List.mem_cons_of_mem _ hb)) k hk

theorem isQuiet_attributes {as : List (String × String)} (h : ∀ a ∈ as, IsWord a.1) :
    ∀ k ∈ Ink.kinds (attributes as), Cursor.isQuiet k = true := by
  cases as with
  | nil => intro k hk; cases hk
  | cons a as =>
      intro k hk
      rw [attributes, Ink.kinds_append, List.mem_append] at hk
      rcases hk with hk | hk
      · exact isQuiet_keyed (h a (List.mem_cons_self ..)) k hk
      · exact isQuiet_moreAttributes (fun b hb => h b (List.mem_cons_of_mem _ hb)) k hk

/-! ## Rows -/

theorem texts_moreWords (ws : List String) (p : Place) :
    (Ink.tokens p (moreWords ws)).map Token.text = ws := by
  induction ws generalizing p with
  | nil => rfl
  | cons w ws ih =>
      simp only [moreWords, Ink.tokens, Ink.spelling?, List.map_cons, ih]

theorem isWord_moreWords {ws : List String} (h : ∀ w ∈ ws, IsWord w) :
    ∀ k ∈ Ink.kinds (moreWords ws), k.isWord = true := by
  induction ws with
  | nil => intro k hk; cases hk
  | cons w ws ih =>
      have hw := (h w (List.mem_cons_self ..)).isWord_nameKind
      have hws := ih fun v hv => h v (List.mem_cons_of_mem _ hv)
      simpa [moreWords, hw] using hws

/-- No word has a parenthesis, so a row of words is no method, whatever the words are. -/
theorem isMethod_of_isWord {ts : List Token} (h : ∀ t ∈ ts, IsWord t.text) :
    FieldRow.isMethod ts = false := by
  have hno : '(' ∉ (Phrase.closed ts).toList := by
    intro hm
    unfold Phrase.closed at hm
    rw [String.toList_join, List.mem_flatMap] at hm
    obtain ⟨s, hs, hc⟩ := hm
    obtain ⟨t, ht, rfl⟩ := List.mem_map.mp hs
    exact absurd ((h t ht).isNameChar _ hc) (by decide)
  simp [FieldRow.isMethod, hno]

/-- A row of one word is a name, and a field without a type. -/
theorem field_nil {t : Token} (h : IsWord t.text) :
    FieldRow.field none t [] = ⟨t.text, none, [], none, .field, t.text⟩ := by
  have hmethod : FieldRow.isMethod [t] = false :=
    isMethod_of_isWord fun u hu => by rw [List.mem_singleton.mp hu]; exact h
  have hne := h.isSolid.ne_empty
  have hnone : ∀ w ∈ ([] : List String), IsSolid w := fun w hw => absurd hw List.not_mem_nil
  have htrim := Text.trim_joined hnone
  have hwords := Text.words_joined hnone
  rw [String.intercalate_nil] at htrim hwords
  simp [FieldRow.field, hmethod, FieldRow.passColon, FieldRow.splitType, hne, hwords, htrim]

/-- A row of more words is a name, a type and constraints. Words have no parentheses, commas or
marks that would say otherwise. -/
theorem field_cons {t u : Token} {us : List Token} (h : ∀ v ∈ t :: u :: us, IsWord v.text)
    (hkind : ∀ v ∈ t :: u :: us, v.kind.isWord = true) :
    FieldRow.field none t (u :: us) = ⟨t.text, some u.text, us.map Token.text, none, .field,
      " ".intercalate (t.text :: u.text :: us.map Token.text)⟩ := by
  have hmethod := isMethod_of_isWord h
  have hu := hkind u (List.mem_cons_of_mem _ (List.mem_cons_self ..))
  have hcolon : u.kind ≠ .colon := fun he => by rw [he] at hu; cases hu
  have hpass : FieldRow.passColon (u :: us) = u :: us := by
    cases us with
    | nil => rfl
    | cons v vs => simp [FieldRow.passColon, hcolon]
  have hcomma : us.filter (fun v => v.kind != .comma) = us := by
    refine List.filter_eq_self.mpr fun v hv => ?_
    have hv := hkind v (List.mem_cons_of_mem _ (List.mem_cons_of_mem _ hv))
    cases hk : v.kind <;> simp_all [Token.Kind.isWord]
  have hsolid : ∀ w ∈ us.map Token.text, IsSolid w := by
    intro w hw
    obtain ⟨v, hv, rfl⟩ := List.mem_map.mp hw
    exact (h v (List.mem_cons_of_mem _ (List.mem_cons_of_mem _ hv))).isSolid
  have htne := (h t (List.mem_cons_self ..)).isSolid.ne_empty
  have hune := (h u (List.mem_cons_of_mem _ (List.mem_cons_self ..))).isSolid.ne_empty
  simp only [FieldRow.field, hmethod, Bool.false_eq_true, if_false, hpass, FieldRow.splitType, hu,
    if_true, hcomma, Text.trim_joined hsolid, Text.words_joined hsolid, Option.getD_some]
  congr 1
  by_cases hus : us = []
  · subst hus
    simp [htne, hune]
  · have hne : " ".intercalate (us.map Token.text) ≠ "" := fun he =>
      hus (by simpa using (Text.joined_eq_empty_iff hsolid).mp he)
    have hus' : us.map Token.text ≠ [] := by simpa using hus
    simp [htne, hune, hne, String.intercalate_cons_of_ne_nil hus']

/-- A row of words is read as the field that was written with these words. The field is plain, so
its words are all there is to it. -/
theorem read?_words {f : Field} (hf : PlainField f) {t : Token} {ts : List Token}
    (htext : (t :: ts).map Token.text = f.words)
    (hkind : ∀ u ∈ t :: ts, u.kind.isWord = true) :
    FieldRow.read? .native (t :: ts) = some f := by
  have hwords : ∀ u ∈ t :: ts, IsWord u.text := fun u hu =>
    hf.words _ (htext ▸ List.mem_map_of_mem hu)
  have hfilter : (t :: ts).filter (fun u => u.kind != .comment) = t :: ts := by
    refine List.filter_eq_self.mpr fun u hu => ?_
    have hu := hkind u hu
    cases hk : u.kind <;> simp_all [Token.Kind.isWord]
  have hhead := hkind t (List.mem_cons_self ..)
  have hraw := hf.raw
  rw [← htext] at hraw
  simp only [FieldRow.read?, Dialect.visibilityMarks, Bool.false_eq_true, if_false, hfilter, hhead,
    if_true, Option.some.injEq]
  obtain ⟨name, type, constraints, visibility, memberType, raw⟩ := f
  obtain rfl : visibility = none := hf.visibility
  obtain rfl : memberType = .field := hf.memberType
  obtain ⟨rfl, hrest⟩ := List.cons.inj htext
  cases type with
  | none =>
      obtain rfl : constraints = [] := hf.constraints rfl
      obtain rfl : ts = [] := by simpa using hrest
      obtain rfl : raw = t.text := by simpa using hraw
      exact field_nil (hwords t (List.mem_cons_self ..))
  | some type =>
      cases ts with
      | nil => simp at hrest
      | cons u us =>
          obtain ⟨rfl, rfl⟩ : u.text = type ∧ us.map Token.text = constraints := by
            simpa using hrest
          obtain rfl := hraw
          exact field_cons hwords hkind

theorem read?_row {f : Field} (hf : PlainField f) (p : Place) :
    FieldRow.read? .native (Ink.tokens p (row f)) = some f := by
  have hname := (hf.words _ (List.mem_cons_self ..)).isWord_nameKind
  have hmore : ∀ w ∈ f.type.toList ++ f.constraints, IsWord w :=
    fun w hw => hf.words w (List.mem_cons_of_mem _ hw)
  simp only [row, Ink.tokens, Ink.spelling?]
  refine read?_words hf ?_ fun u hu => ?_
  · rw [List.map_cons, texts_moreWords]
    rfl
  · rcases List.mem_cons.mp hu with rfl | hu
    · exact hname
    · exact isWord_moreWords hmore _ (Ink.kind_mem_kinds hu)

theorem readAll_append {ts us : List Token} {t : Token} (hts : ∀ u ∈ ts, u.kind.isWord = true)
    (ht : t.kind = .newline) :
    FieldRow.readAll .native (ts ++ t :: us)
      = (FieldRow.read? .native ts).toList ++ FieldRow.readAll .native us := by
  have hline : ∀ u ∈ ts, (u.kind == .newline) = false ∧ (u.kind == .comment) = false := by
    intro u hu
    have hu := hts u hu
    cases hk : u.kind <;> simp_all [Token.Kind.isWord]
  have hdrop : ts.dropWhile (fun u => u.kind == .comment) = ts := by
    cases ts with
    | nil => rfl
    | cons u us => simp [(hline u (List.mem_cons_self ..)).2]
  unfold FieldRow.readAll FieldRow.rows
  rw [Text.pieces_append_cons (fun u hu => (hline u hu).1) (by simp [ht]), List.map_cons, hdrop,
    List.filterMap_cons]
  cases FieldRow.read? .native ts <;> rfl

/-- The rows between two braces, where `line` is what stands at the opening brace. It is empty for
an entity; the induction on the fields needs it for the row before. -/
theorem readAll_rows {fs : List Field} (hfs : ∀ f ∈ fs, PlainField f) {line : Line}
    (hline : ∀ k ∈ Ink.kinds line, k.isWord = true) (p : Place) :
    FieldRow.readAll .native (Ink.tokens p (line ++ (follow (fs.map row) ++ [.mark .newline])))
      = (FieldRow.read? .native (Ink.tokens p line)).toList ++ fs := by
  have hword : ∀ u ∈ Ink.tokens p line, u.kind.isWord = true := fun u hu =>
    hline _ (Ink.kind_mem_kinds hu)
  rw [Ink.tokens_append]
  induction fs generalizing line p with
  | nil =>
      simp only [List.map_nil, follow, List.nil_append, Ink.tokens, Ink.spelling?]
      rw [readAll_append hword rfl]
      rfl
  | cons f fs ih =>
      have hf := hfs f (List.mem_cons_self ..)
      have hname := (hf.words _ (List.mem_cons_self ..)).isWord_nameKind
      have hmore := isWord_moreWords fun w hw => hf.words w (List.mem_cons_of_mem _ hw)
      have hrow : ∀ k ∈ Ink.kinds (row f), k.isWord = true := by
        simpa [row, hname] using hmore
      simp only [List.map_cons, follow, List.cons_append, Ink.tokens, Ink.spelling?,
        List.append_assoc]
      rw [readAll_append hword rfl, Ink.tokens_append,
        ih (fun g hg => hfs g (List.mem_cons_of_mem _ hg)) hrow _
          (fun u hu => hrow _ (Ink.kind_mem_kinds hu)), read?_row hf]
      rfl

/-! ## Edges -/

open EdgeLine (reduce)

/-- A token that opens no span and gives no label is taken by itself, and the reduction goes on
behind it. -/
theorem reduce_token {t : Token} (p : EdgeLine.Progress) (ts : List Token)
    (hspan : EdgeLine.spanCloser? .native t = none) (hcolon : t.kind ≠ .colon) :
    reduce .native p (t :: ts) = reduce .native (p.token t) ts := by
  rw [reduce]
  simp only [hspan, hcolon, if_false]
  split
  · next hb => simp [EdgeLine.barLabel?, Dialect.barLabels] at hb
  · rfl

theorem reduce_word {t : Token} (p : EdgeLine.Progress) (ts : List Token)
    (ht : t.kind.isWord = true) :
    reduce .native p (t :: ts) = reduce .native (p.word t.text) ts := by
  have hp : p.token t = p.word t.text := by
    cases hk : t.kind <;> simp_all [EdgeLine.Progress.token, Token.Kind.isWord]
  rw [reduce_token, hp]
  · cases hk : t.kind <;> simp_all [EdgeLine.spanCloser?, Token.Kind.isWord]
  · intro hk
    rw [hk] at ht
    cases ht

theorem reduce_string {t : Token} (p : EdgeLine.Progress) (ts : List Token)
    (ht : t.kind = .string) :
    reduce .native p (t :: ts) = reduce .native (p.string t.text) ts := by
  rw [reduce_token]
  · simp [EdgeLine.Progress.token, ht]
  · simp [EdgeLine.spanCloser?, ht]
  · simp [ht]

theorem reduce_connector {t : Token} (p : EdgeLine.Progress) (ts : List Token) {k : EdgeKind}
    (ht : t.kind = connector k) :
    reduce .native p (t :: ts) = reduce .native (p.connector k false) ts := by
  have hp : p.token t = p.connector k false := by
    cases k <;> simp [EdgeLine.Progress.token, ht, connector, Token.Kind.edgeKind?] <;> rfl
  rw [reduce_token, hp]
  · cases k <;> simp [EdgeLine.spanCloser?, ht, connector]
  · cases k <;> simp [ht, connector]

theorem reduce_label {l : Option String} (hl : ∀ s ∈ l, s ≠ "" ∧ trim s = s)
    (p : EdgeLine.Progress) (hp : p.label = none) (q : Place) :
    reduce .native p (Ink.tokens q (label l)) = { p with label := l } := by
  cases l with
  | none =>
      simp only [label, Ink.tokens, reduce]
      cases p
      cases hp
      rfl
  | some s =>
      obtain ⟨hne, ht⟩ := hl s rfl
      simp only [label, Ink.tokens, Ink.spelling?]
      rw [reduce]
      simp [EdgeLine.spanCloser?, Phrase.joined_string, ht, EdgeLine.Progress.labelled, hne]

/-- A text behind ids waits for the connector. Without a text nothing waits, so both cases of a side
are one equation. -/
theorem reduce_near {p : EdgeLine.Progress} {ids : List String} {rest : List Link}
    (hchain : p.chain = .ends ids :: rest) (hside : p.side = none) (s : Option String)
    (xs : List Ink) (q : Place) :
    ∃ q', reduce .native p (Ink.tokens q (side s ++ xs))
      = reduce .native { p with side := s } (Ink.tokens q' xs) := by
  cases s with
  | none =>
      cases p
      cases hside
      exact ⟨q, rfl⟩
  | some s =>
      simp only [side, List.cons_append, List.nil_append, Ink.tokens, Ink.spelling?]
      have hp : p.string s = { p with side := some s } := by
        rw [EdgeLine.Progress.string, hchain]
      rw [reduce_string p _ rfl, hp]
      exact ⟨_, rfl⟩

/-- A text behind a connector belongs to it. Without a text the connector has none, so both cases of
a side are one equation. -/
theorem reduce_far {p : EdgeLine.Progress} {c : Connector} {rest : List Link}
    (hchain : p.chain = .connector c :: rest) (hafter : c.after = none) (s : Option String)
    (xs : List Ink) (q : Place) :
    ∃ q', reduce .native p (Ink.tokens q (side s ++ xs))
      = reduce .native { p with chain := .connector { c with after := s } :: rest }
          (Ink.tokens q' xs) := by
  cases s with
  | none =>
      cases p
      cases c
      cases hchain
      cases hafter
      exact ⟨q, rfl⟩
  | some s =>
      simp only [side, List.cons_append, List.nil_append, Ink.tokens, Ink.spelling?]
      have hp : p.string s
          = { p with chain := .connector { c with after := some s } :: rest } := by
        rw [EdgeLine.Progress.string, hchain]
      rw [reduce_string p _ rfl, hp]
      exact ⟨_, rfl⟩

/-- The tokens of an edge line, reduced, are its three links and its label. The line is gone through
piece by piece. -/
theorem reduce_edge {e : Edge} (he : PlainEdge e) (p : Place) :
    reduce .native .start (Ink.tokens p (edge e)) =
      ⟨[.ends [e.target], .connector ⟨e.kind, false, e.cardinality.bind Cardinality.source,
        e.cardinality.bind Cardinality.target⟩, .ends [e.source]], e.label, false, none, [],
        []⟩ := by
  have hs := he.source.isWord_nameKind
  have ht := he.target.isWord_nameKind
  simp only [edge, Ink.tokens, Ink.spelling?]
  rw [reduce_word _ _ hs]
  obtain ⟨q, hq⟩ := reduce_near (p := EdgeLine.Progress.start.word e.source) rfl rfl
    (e.cardinality.bind Cardinality.source) (.mark (connector e.kind) :: .space ::
      (side (e.cardinality.bind Cardinality.target) ++ (.word e.target :: label e.label))) _
  rw [hq]
  simp only [Ink.tokens, Ink.spelling?]
  rw [reduce_connector _ _ rfl]
  obtain ⟨q', hq'⟩ := reduce_far (p := EdgeLine.Progress.connector _ e.kind false) rfl rfl
    (e.cardinality.bind Cardinality.target) (.word e.target :: label e.label) _
  rw [hq']
  simp only [Ink.tokens, Ink.spelling?]
  rw [reduce_word _ _ ht, reduce_label he.label _ rfl]
  rfl

/-- An edge line is read as the edge that was written on it: the links expand to one edge, and its
cardinality is there if a side is. -/
theorem read_edge {e : Edge} (he : PlainEdge e) (p : Place) :
    EdgeLine.read .native (Ink.tokens p (edge e)) = ⟨[e], [], []⟩ := by
  have hcard : (if (e.cardinality.bind Cardinality.source).isSome ||
      (e.cardinality.bind Cardinality.target).isSome then
        some (⟨e.cardinality.bind Cardinality.source, e.cardinality.bind Cardinality.target⟩ :
          Cardinality)
      else none) = e.cardinality := by
    cases hc : e.cardinality with
    | none => rfl
    | some c =>
        have hside := he.cardinality c hc
        simp only [Option.bind_some, Bool.or_eq_true, hside, if_true]
  simp only [EdgeLine.read, reduce_edge he, List.reverse_cons, List.reverse_nil, List.nil_append,
    List.cons_append, EdgeLine.expand, EdgeLine.across, Bool.false_eq_true, if_false, hcard,
    List.flatMap_cons, List.flatMap_nil, List.map_cons, List.map_nil, List.append_nil]

end Native

end Schematic
