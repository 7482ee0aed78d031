import Schematic.Proofs.Reading.Appending
import Schematic.Proofs.Reading.Contents

/-!
# Readers pass over remarks

Two cursors are compared of which the second sees remarks put in between the tokens that the first
one sees. Inside a line both are at the same token, if it says something, and a reader finds the
same from there. The rest of a line leaves them at the beginnings of two lines, where the second may
see blank lines; brackets, which reach over line ends, leave them inside one.
-/

namespace Schematic

open Token

namespace Cursor

variable {fresh : Bool} {ts us : List Token} {c d : Cursor} {t : Token}

/-! ## Looking ahead -/

theorem hasConnector_comment {u : Token} (hu : u.kind = .comment) (depth : Nat)
    (us : List Token) : hasConnector depth (u :: us) = hasConnector depth us := by
  simp [hasConnector, hu, Token.Kind.endsLine, Token.Kind.isConnector]

/-- The rest of a line has the same connectors. The induction is on the way the remarks are put in;
a comment is no connector, and blank lines come behind the line only. -/
theorem hasConnector_remarked (h : Remarked fresh ts us) (hline : fresh = false) (depth : Nat) :
    hasConnector depth us = hasConnector depth ts := by
  have hnewline {u : Token} (hu : Silent .newline u) (us : List Token) (depth : Nat) :
      hasConnector depth (u :: us) = false := Reading.hasConnector_of_newline hu.kind us depth
  induction h generalizing depth with
  | nil => rfl
  | loud _ _ ih => simp only [hasConnector, ih rfl]
  | newline ht hu _ _ => rw [hnewline ht, hnewline hu]
  | comment ht hu _ ih =>
      rw [hasConnector_comment ht.kind, hasConnector_comment hu.kind, ih hline]
  | remark hu _ _ ih => rw [hasConnector_comment hu.kind, ih hline]
  | blank hu hnil _ _ =>
      obtain rfl := hnil.resolve_left (by rw [hline]; exact Bool.false_ne_true)
      rw [hnewline hu]
      rfl

theorem beginsWithRow_mute {u : Token} (hu : Remarked.Mute u) (us : List Token) :
    beginsWithRow (u :: us) = beginsWithRow us := by
  rcases hu with hk | hk <;> simp only [beginsWithRow, hk]

theorem beginsWithRow_remarked (h : Remarked fresh ts us) :
    beginsWithRow us = beginsWithRow ts := by
  refine h.eq_of_skips (fun u us hu => beginsWithRow_mute hu us) ?_
  intro t ts us _ h further
  have hhead : (us.head?.any fun u => u.kind.isName) = ts.head?.any fun u => u.kind.isName := by
    have hnone {zs : List Token} (hzs : ∀ z ∈ zs.head?, Remarked.Mute z) :
        (zs.head?.any fun u => u.kind.isName) = false := by
      cases hz : zs.head? with
      | none => rfl
      | some z => exact Phrase.isName_of_mute (hzs z hz)
    rcases h.head_cases rfl with ⟨_, _, _, -, rfl, rfl, -⟩ | ⟨hts, hus⟩
    · rfl
    · rw [hnone hts, hnone hus]
  simp only [beginsWithRow, further h (Nat.le_refl _), hhead]

/-! ## The token under the cursor -/

theorem atEnd_of_loud (h : c.ahead = t :: ts) (ht : t.kind.isLoud = true) : c.atEnd = false := by
  rw [atEnd, isAt_cons h]
  cases hk : t.kind <;> simp_all [Token.Kind.isLoud]

theorem ahead_advance (h : c.ahead = t :: ts) (ht : t.kind.isLoud = true) :
    c.advance.ahead = ts :=
  ahead_advance_cons h (atEnd_of_loud h ht)

theorem isLoud_of_isName {k : Token.Kind} (h : k.isName = true) : k.isLoud = true := by
  cases k <;> first | rfl | cases h

/-- Inside a line both cursors are at one token that says something, or neither is. In the second
case nothing more is said on the line. -/
theorem current_cases (h : Remarked false c.ahead d.ahead) :
    (∃ t ts us, t.kind.isLoud = true ∧ c.ahead = t :: ts ∧ d.ahead = t :: us ∧
      Remarked false ts us) ∨ c.current.kind.isLoud = false ∧ d.current.kind.isLoud = false := by
  have hmute {c : Cursor} (hc : ∀ t ∈ c.ahead.head?, Remarked.Mute t) :
      c.current.kind.isLoud = false := by
    cases ha : c.ahead with
    | nil =>
        simp only [current, ha, List.headD_nil, c.final_kind]
        rfl
    | cons t ts =>
        rw [ha] at hc
        rw [current_cons ha]
        exact (hc t rfl).isLoud
  rcases h.head_cases rfl with ⟨t, ts, us, ht, hc, hd, hrest⟩ | ⟨hc, hd⟩
  · exact Or.inl ⟨t, ts, us, ht, hc, hd, hrest⟩
  · exact Or.inr ⟨hmute hc, hmute hd⟩

theorem current_remarked (h : Remarked false c.ahead d.ahead)
    (hc : c.current.kind.isLoud = true) :
    ∃ ts us, c.ahead = c.current :: ts ∧ d.ahead = c.current :: us ∧ Remarked false ts us := by
  rcases current_cases h with ⟨t, ts, us, -, hc, hd, hrest⟩ | ⟨hmute, -⟩
  · rw [current_cons hc]
    exact ⟨ts, us, hc, hd, hrest⟩
  · rw [hc] at hmute
    cases hmute

/-- What is only true of kinds that say something is true of both tokens or of neither. Most
questions of readers are of this kind. -/
theorem kind_current_remarked (h : Remarked false c.ahead d.ahead) {p : Token.Kind → Bool}
    (hp : ∀ k, p k = true → k.isLoud = true) : p d.current.kind = p c.current.kind := by
  have hquiet {k : Token.Kind} (hk : k.isLoud = false) : p k = false := by
    cases hpk : p k with
    | false => rfl
    | true =>
        rw [hp k hpk] at hk
        cases hk
  rcases current_cases h with ⟨t, ts, us, -, hc, hd, -⟩ | ⟨hc, hd⟩
  · rw [current_cons hc, current_cons hd]
  · rw [hquiet hc, hquiet hd]

theorem isAt_remarked (h : Remarked false c.ahead d.ahead) {k : Token.Kind}
    (hk : k.isLoud = true) : d.isAt k = c.isAt k :=
  kind_current_remarked h (p := fun j => j == k) fun j hj => by
    rw [eq_of_beq hj]
    exact hk

/-! ## The readers of the cursor -/

/-- Behind the end of a line both are at the beginning of one, where the second may see lines of
remarks. -/
theorem remarked_pass_newline (h : Remarked false c.ahead d.ahead) :
    Remarked true (c.pass .newline).ahead (d.pass .newline).ahead := by
  have passed {c : Cursor} {u : Token} {us : List Token} (hc : c.ahead = u :: us)
      (hu : u.kind = .newline) : (c.pass .newline).ahead = us := by
    have hpass := ahead_pass hc (by rw [hu]; exact nofun)
    rw [hu] at hpass
    exact hpass
  have stays {c : Cursor} (hc : ∀ u ∈ c.ahead.head?, u.kind ≠ .newline) : c.pass .newline = c :=
    pass_of_ne nofun hc
  have empty {c : Cursor} (hc : c.ahead = []) : c.pass .newline = c := pass_of_nil nofun hc
  have apart {u : Token} {us : List Token} (hu : u.kind ≠ .newline) :
      ∀ v ∈ (u :: us).head?, v.kind ≠ .newline := by
    intro v hv
    rw [← Option.some.inj hv]
    exact hu
  generalize hts : c.ahead = ts at h
  generalize hus : d.ahead = us at h
  cases h with
  | nil =>
      rw [empty hts, empty hus, hts, hus]
      exact .nil
  | @loud _ t ts us ht h =>
      have hline : t.kind ≠ .newline := Kind.ne_of_isLoud ht rfl
      rw [stays (c := c) (by rw [hts]; exact apart hline),
        stays (c := d) (by rw [hus]; exact apart hline), hts, hus]
      exact .loud ht h
  | newline ht hu h =>
      rw [passed hts ht.kind, passed hus hu.kind]
      exact h
  | @comment _ t u ts us ht hu h =>
      have hline : t.kind ≠ .newline := by rw [ht.kind]; exact nofun
      have hline' : u.kind ≠ .newline := by rw [hu.kind]; exact nofun
      rw [stays (c := c) (by rw [hts]; exact apart hline),
        stays (c := d) (by rw [hus]; exact apart hline'), hts, hus]
      exact .comment ht hu h.mono
  | @remark _ u _ us hu hend h =>
      have hline : u.kind ≠ .newline := by rw [hu.kind]; exact nofun
      rw [stays (c := d) (by rw [hus]; exact apart hline), hus]
      -- the comment stands in front of a line end, which may be the one the first cursor passes
      by_cases hat : ∀ v ∈ c.ahead.head?, v.kind ≠ .newline
      · rw [stays hat, hts]
        exact .remark hu hend h.mono
      · push Not at hat
        obtain ⟨v, hv, hk⟩ := hat
        obtain ⟨vs, hvs⟩ := List.head?_eq_some_iff.mp hv
        rw [passed hvs hk]
        rw [hts.symm.trans hvs] at h
        exact .remark hu hend (h.tail hk)
  | blank hu hnil h =>
      obtain rfl := hnil.resolve_left Bool.false_ne_true
      rw [empty hts, passed hus hu.kind, hts]
      exact h

theorem restOfLine_remarked (h : Remarked false c.ahead d.ahead) (stop : Token → Bool)
    (hstop : ∀ t : Token, t.kind = .comment → stop t = false) :
    Remarked false (c.restOfLine stop).1 (d.restOfLine stop).1 ∧
      Remarked true (c.restOfLine stop).2.ahead (d.restOfLine stop).2.ahead := by
  have hcomment : ∀ t : Token, t.kind = .comment → (!t.kind.endsLine && !stop t) = true := by
    intro t ht
    rw [hstop t ht, ht]
    rfl
  have hnewline : ∀ t : Token, t.kind = .newline → (!t.kind.endsLine && !stop t) = false := by
    intro t ht
    rw [ht]
    rfl
  refine ⟨h.takeWhile hcomment hnewline (Or.inr rfl), remarked_pass_newline ?_⟩
  rw [upTo, upTo, ahead_skip_takeWhile, ahead_skip_takeWhile]
  exact h.dropWhile hcomment hnewline (Or.inr rfl)

/-- What brackets enclose, over lines, and what is behind them. The closer says something, so it is
the same token for both. -/
theorem enclosed_remarked (h : c.ahead = t :: ts) (h' : d.ahead = t :: us)
    (ht : t.kind.isLoud = true) (hrest : Remarked false ts us) (closer : Token.Kind)
    (hcloser : closer.isLoud = true) (problem : Problem) :
    Remarked false (c.enclosed closer problem).value (d.enclosed closer problem).value ∧
      (d.enclosed closer problem).diagnostics = (c.enclosed closer problem).diagnostics ∧
      Remarked false (c.enclosed closer problem).cursor.ahead
        (d.enclosed closer problem).cursor.ahead := by
  have hinside {k : Token.Kind} (hk : k = .comment ∨ k = .newline) :
      (k != closer && k != .endOfInput) = true := by
    have hne : closer ≠ k := Kind.ne_of_isLoud hcloser (by rcases hk with rfl | rfl <;> rfl)
    rcases hk with rfl | rfl <;> simpa using hne.symm
  have hcomment : ∀ t : Token, t.kind = .comment →
      (t.kind != closer && t.kind != .endOfInput) = true := fun t ht => hinside (Or.inl ht)
  have hnewline : ∀ t : Token, t.kind = .newline →
      (t.kind != closer && t.kind != .endOfInput) = true := fun t ht => hinside (Or.inr ht)
  have hc := ahead_advance h ht
  have hd := ahead_advance h' ht
  rw [← hc, ← hd] at hrest
  have hcontent := hrest.takeWhile hcomment hnewline (Or.inl rfl)
  have hskip (c : Cursor) := ahead_skip_takeWhile c.advance fun t =>
    t.kind != closer && t.kind != .endOfInput
  simp only [enclosed, current_cons h, current_cons h']
  refine ⟨hcontent, ?_⟩
  rcases hrest.dropWhile_cases hcomment hnewline rfl with
    ⟨u, xs, ys, hstop, hu, hts, hus, hbehind⟩ | ⟨hts, hus⟩
  · have hend : u.kind ≠ .endOfInput := Kind.ne_of_isLoud hu rfl
    obtain rfl : u.kind = closer := by simpa [hend] using hstop
    have hcx := (hskip c).trans hts
    have hdx := (hskip d).trans hus
    rw [atEnd_of_loud hcx hu, atEnd_of_loud hdx hu, ahead_pass hcx hend, ahead_pass hdx hend]
    exact ⟨rfl, hbehind⟩
  · have hcx := (hskip c).trans hts
    have hdx := (hskip d).trans hus
    have hend : closer ≠ .endOfInput := Kind.ne_of_isLoud hcloser rfl
    rw [atEnd_of_ahead_nil hcx, atEnd_of_ahead_nil hdx, pass_of_nil hend hcx, pass_of_nil hend hdx,
      hcx, hdx]
    exact ⟨rfl, .nil⟩

end Cursor

/-! ## Entities -/

namespace Declaration

open Cursor

variable {c d : Cursor}

theorem attributes_remarked (dialect : Dialect) (owner : String)
    (h : Remarked false c.ahead d.ahead) :
    (attributes dialect owner d).value = (attributes dialect owner c).value ∧
      (attributes dialect owner d).diagnostics = (attributes dialect owner c).diagnostics ∧
      Remarked false (attributes dialect owner c).cursor.ahead
        (attributes dialect owner d).cursor.ahead := by
  have hat := isAt_remarked h (k := .openBracket) rfl
  unfold attributes
  rw [hat]
  split
  · next hc =>
    have hloud : c.current.kind.isLoud = true := by rw [eq_of_beq hc]; rfl
    obtain ⟨ts, us, hts, hus, hrest⟩ := current_remarked h hloud
    obtain ⟨hcontent, hdiag, hbehind⟩ :=
      enclosed_remarked hts hus hloud hrest .closeBracket rfl (.openAttributes owner)
    exact ⟨Phrase.bracketAttributes_remarked dialect hcontent, hdiag, hbehind⟩
  · exact ⟨rfl, rfl, h⟩

theorem body_remarked (dialect : Dialect) (owner : String) (h : Remarked false c.ahead d.ahead) :
    (bodyTaken dialect owner d).value = (bodyTaken dialect owner c).value ∧
      (bodyTaken dialect owner d).diagnostics = (bodyTaken dialect owner c).diagnostics ∧
      Remarked false (bodyTaken dialect owner c).cursor.ahead
        (bodyTaken dialect owner d).cursor.ahead := by
  have hat := isAt_remarked h (k := .openBrace) rfl
  unfold bodyTaken
  rw [hat]
  split
  · next hc =>
    have hloud : c.current.kind.isLoud = true := by rw [eq_of_beq hc]; rfl
    obtain ⟨ts, us, hts, hus, hrest⟩ := current_remarked h hloud
    obtain ⟨hcontent, hdiag, hbehind⟩ :=
      enclosed_remarked hts hus hloud hrest .closeBrace rfl (.openFields owner)
    exact ⟨congrArg some (FieldRow.readAll_remarked dialect hcontent), hdiag, hbehind⟩
  · exact ⟨rfl, rfl, h⟩

theorem entity_remarked (dialect : Dialect) (id : String) (known : KeyedList String String)
    (h : Remarked false c.ahead d.ahead) :
    (entityTaken dialect id known d).value = (entityTaken dialect id known c).value ∧
      (entityTaken dialect id known d).diagnostics = (entityTaken dialect id known c).diagnostics ∧
      Remarked true (entityTaken dialect id known c).cursor.ahead
        (entityTaken dialect id known d).cursor.ahead := by
  obtain ⟨hvalue, hdiag, hrest⟩ := attributes_remarked dialect id h
  obtain ⟨hvalue', hdiag', hrest'⟩ := body_remarked dialect id hrest
  refine ⟨?_, ?_, remarked_pass_newline hrest'⟩
  · simp only [entityTaken, hvalue, hvalue']
  · simp only [entityTaken, hdiag, hdiag']

/-- Between `first as second` no remark can stand: they are on one line. So the name and the label
are the same, and both cursors are past them. -/
theorem titled_remarked (dialect : Dialect) (h : Remarked false c.ahead d.ahead)
    (hc : c.current.kind.isLoud = true) :
    (titled dialect d).1 = (titled dialect c).1 ∧
      (titled dialect d).2.1 = (titled dialect c).2.1 ∧
      Remarked false (titled dialect c).2.2.ahead (titled dialect d).2.2.ahead := by
  obtain ⟨ts, us, hts, hus, hrest⟩ := current_remarked h hc
  have hcur : d.current = c.current := current_cons hus
  rw [← ahead_advance hts hc, ← ahead_advance hus hc] at hrest
  have plain (h : (c.advance.current.isKeyword "as" && (c.advance.peek 1).kind.isName) = false)
      (h' : (d.advance.current.isKeyword "as" && (d.advance.peek 1).kind.isName) = false) :
      (titled dialect d).1 = (titled dialect c).1 ∧
        (titled dialect d).2.1 = (titled dialect c).2.1 ∧
        Remarked false (titled dialect c).2.2.ahead (titled dialect d).2.2.ahead := by
    simp only [titled, h, h', Bool.false_eq_true, if_false, hcur]
    exact ⟨trivial, trivial, hrest⟩
  cases hloud : c.advance.current.kind.isLoud with
  | false =>
      have hloud' : d.advance.current.kind.isLoud = false := by
        rw [kind_current_remarked hrest fun _ hk => hk, hloud]
      have hquiet {t : Token} (ht : t.kind.isLoud = false) : t.isKeyword "as" = false := by
        have hne : t.kind ≠ .ident := by
          intro he
          rw [he] at ht
          cases ht
        simp [Token.isKeyword, hne]
      exact plain (by rw [hquiet hloud, Bool.false_and]) (by rw [hquiet hloud', Bool.false_and])
  | true =>
      obtain ⟨xs, ys, hxs, hys, hrest'⟩ := current_remarked hrest hloud
      have hcur' : d.advance.current = c.advance.current := current_cons hys
      have hend := atEnd_of_loud hxs hloud
      have hend' := atEnd_of_loud hys hloud
      rw [← ahead_advance hxs hloud, ← ahead_advance hys hloud] at hrest'
      have hname : (d.advance.peek 1).kind.isName = (c.advance.peek 1).kind.isName := by
        rw [← current_advance hend, ← current_advance hend']
        exact kind_current_remarked hrest' fun _ hk => isLoud_of_isName hk
      cases has : c.advance.current.isKeyword "as" && (c.advance.peek 1).kind.isName with
      | false => exact plain has (by rw [hcur', hname, has])
      | true =>
          have hsecond : c.advance.advance.current.kind.isLoud = true := by
            rw [current_advance hend]
            exact isLoud_of_isName (Bool.and_eq_true_iff.mp has).2
          obtain ⟨vs, ws, hvs, hws, hrest''⟩ := current_remarked hrest' hsecond
          have hcur'' : d.advance.advance.current = c.advance.advance.current := current_cons hws
          rw [← ahead_advance hvs hsecond, ← ahead_advance hws hsecond] at hrest''
          simp only [titled, hcur, hcur', hname, has, if_true, hcur'']
          exact ⟨trivial, trivial, hrest''⟩

theorem passDecorations_remarked (h : Remarked false c.ahead d.ahead) :
    Remarked false (passDecorations c).ahead (passDecorations d).ahead := by
  unfold passDecorations upTo
  rw [ahead_skip_takeWhile, ahead_skip_takeWhile]
  have hcomment : ∀ t : Token, t.kind = .comment →
      (!t.kind.endsLine && !(t.kind == .openBracket || t.kind == .openBrace)) = true := by
    intro t ht
    rw [ht]
    rfl
  have hnewline : ∀ t : Token, t.kind = .newline →
      (!t.kind.endsLine && !(t.kind == .openBracket || t.kind == .openBrace)) = false := by
    intro t ht
    rw [ht]
    rfl
  exact h.dropWhile hcomment hnewline (Or.inr rfl)

theorem keyword_remarked (dialect : Dialect) (h : Remarked false c.ahead d.ahead)
    (hc : c.current.kind.isLoud = true) (hname : (c.peek 1).kind.isName = true) :
    (keywordTaken dialect d).value = (keywordTaken dialect c).value ∧
      (keywordTaken dialect d).diagnostics = (keywordTaken dialect c).diagnostics ∧
      Remarked true (keywordTaken dialect c).cursor.ahead
        (keywordTaken dialect d).cursor.ahead := by
  obtain ⟨ts, us, hts, hus, hrest⟩ := current_remarked h hc
  have hcur : d.current = c.current := current_cons hus
  rw [← ahead_advance hts hc, ← ahead_advance hus hc] at hrest
  rw [← current_advance (atEnd_of_loud hts hc)] at hname
  obtain ⟨hid, hlabel, hbehind⟩ := titled_remarked dialect hrest (isLoud_of_isName hname)
  simp only [keywordTaken, hid, hlabel, hcur]
  exact entity_remarked dialect _ _ (passDecorations_remarked hbehind)

end Declaration

end Schematic
