import Schematic.Reading.Run

/-!
# How far a reader moves the cursor

A reader goes on by some number of tokens, and none of those it passes is a mark for the end of the
input. `Cursor.Reaches` says so, `Cursor.room` is the bound, and there is one lemma for each reader.
The relation is transitive, so a reader made of others moves the way they do; that positions and
remaining tokens always add up to the same number is read off it at the end.
-/

namespace Schematic

namespace Cursor

/-- Of a complete list the last token is kept apart, as it is what a cursor sees when nothing is
ahead. -/
theorem ofTokens_append_endAt (ts : List Token) (p : Place) :
    ofTokens (ts ++ [Token.endAt p]) = ⟨0, ts, Token.endAt p, rfl⟩ := by
  simp [ofTokens, Token.endAt]

/-! ## Room before the end -/

/-- How many tokens are ahead before the first mark for the end of the input. This is how far a
reader may go. -/
def room (c : Cursor) : Nat := (c.ahead.takeWhile fun t => t.kind != .endOfInput).length

/-- `d` is `c` moved on by tokens none of which is a mark for the end of the input. Neither the list
nor its last token changes, so a cursor is told by how far it went. -/
def Reaches (c d : Cursor) : Prop := ∃ n, n ≤ c.room ∧ d = c.skip n

theorem room_le_length (c : Cursor) : c.room ≤ c.ahead.length :=
  (List.takeWhile_prefix _).length_le

theorem skip_zero (c : Cursor) : c.skip 0 = c := by simp [skip]

theorem skip_skip (c : Cursor) (m n : Nat) : (c.skip m).skip n = c.skip (m + n) := by
  have h : min m c.ahead.length + min n (c.ahead.length - m) = min (m + n) c.ahead.length := by
    omega
  simp [skip, Nat.add_assoc, h]

/-- What a predicate holds of from the front, counted behind the first `n` of it. The induction is
on the list, along with the number. -/
theorem length_takeWhile_drop {p : Token → Bool} :
    ∀ {ts : List Token} {n : Nat}, n ≤ (ts.takeWhile p).length →
      ((ts.drop n).takeWhile p).length = (ts.takeWhile p).length - n
  | _, 0, _ => rfl
  | [], n + 1, h => by simp at h
  | t :: ts, n + 1, h => by
      by_cases ht : p t = true
      · simp only [List.takeWhile_cons, ht, if_true, List.length_cons] at h ⊢
        rw [List.drop_succ_cons, length_takeWhile_drop (by omega)]
        omega
      · simp [ht] at h

theorem length_takeWhile_le {p q : Token → Bool} (h : ∀ t, p t = true → q t = true) :
    ∀ ts : List Token, (ts.takeWhile p).length ≤ (ts.takeWhile q).length
  | [] => Nat.le_refl _
  | t :: ts => by
      by_cases ht : p t = true
      · simp only [List.takeWhile_cons, ht, h t ht, if_true, List.length_cons]
        exact Nat.succ_le_succ (length_takeWhile_le h ts)
      · simp [ht]

theorem room_skip {c : Cursor} {n : Nat} (h : n ≤ c.room) : (c.skip n).room = c.room - n :=
  length_takeWhile_drop h

namespace Reaches

theorem refl (c : Cursor) : c.Reaches c := ⟨0, Nat.zero_le _, (skip_zero c).symm⟩

theorem trans {c d e : Cursor} (h : c.Reaches d) (h' : d.Reaches e) : c.Reaches e := by
  obtain ⟨m, hm, rfl⟩ := h
  obtain ⟨n, hn, rfl⟩ := h'
  rw [room_skip hm] at hn
  exact ⟨m + n, by omega, skip_skip c m n⟩

/-- What is passed and what is ahead always make up the whole list. So a cursor that has passed more
has less ahead. -/
theorem passed_add_length {c d : Cursor} (h : c.Reaches d) :
    d.passed + d.ahead.length = c.passed + c.ahead.length := by
  obtain ⟨n, hn, rfl⟩ := h
  have hr := room_le_length c
  simp only [skip, List.length_drop]
  omega

theorem passed_le {c d : Cursor} (h : c.Reaches d) : d.passed ≤ c.passed + c.room := by
  obtain ⟨n, hn, rfl⟩ := h
  simp only [skip]
  omega

end Reaches

/-! ## The readers of the cursor -/

theorem room_pos {c : Cursor} (h : c.atEnd = false) : 0 < c.room := by
  cases hc : c.ahead with
  | nil => rw [atEnd_of_ahead_nil hc] at h; cases h
  | cons t ts =>
      have ht : t.kind ≠ .endOfInput := by
        simpa [atEnd, isAt, current, hc] using h
      simp [room, hc, ht]

theorem reaches_advance (c : Cursor) : c.Reaches c.advance := by
  unfold advance
  split
  · exact .refl c
  · next h => exact ⟨1, room_pos (Bool.eq_false_iff.mpr h), rfl⟩

theorem reaches_pass (c : Cursor) (kind : Token.Kind) : c.Reaches (c.pass kind) := by
  unfold pass
  split
  · exact reaches_advance c
  · exact .refl c

/-- A run of tokens among which there is no end of the input can be passed as a whole. Most readers
take a run of this kind. -/
theorem reaches_skip_takeWhile (c : Cursor) {p : Token → Bool}
    (h : ∀ t, p t = true → (t.kind != .endOfInput) = true) :
    c.Reaches (c.skip (c.ahead.takeWhile p).length) :=
  ⟨_, length_takeWhile_le h _, rfl⟩

theorem reaches_upTo (c : Cursor) (stop : Token → Bool) :
    c.Reaches (c.skip (c.upTo stop).length) := by
  refine reaches_skip_takeWhile c fun t ht => ?_
  cases hk : t.kind <;> simp_all [Token.Kind.endsLine]

theorem reaches_restOfLine (c : Cursor) (stop : Token → Bool) :
    c.Reaches (c.restOfLine stop).2 :=
  (reaches_upTo c stop).trans (reaches_pass _ _)

theorem reaches_enclosed (c : Cursor) (closer : Token.Kind) (problem : Problem) :
    c.Reaches (c.enclosed closer problem).cursor := by
  refine (reaches_advance c).trans (Reaches.trans ?_ (reaches_pass _ _))
  refine reaches_skip_takeWhile _ fun t ht => ?_
  rw [Bool.and_eq_true] at ht
  exact ht.2

end Cursor

/-! ## Entities -/

namespace Declaration

theorem reaches_attributes (dialect : Dialect) (owner : String) (c : Cursor) :
    c.Reaches (attributes dialect owner c).cursor := by
  unfold attributes
  split
  · exact c.reaches_enclosed .closeBracket (.openAttributes owner)
  · exact .refl c

theorem reaches_body (dialect : Dialect) (owner : String) (c : Cursor) :
    c.Reaches (bodyTaken dialect owner c).cursor := by
  unfold bodyTaken
  split
  · exact c.reaches_enclosed .closeBrace (.openFields owner)
  · exact .refl c

theorem reaches_entity (dialect : Dialect) (id : String) (known : KeyedList String String)
    (c : Cursor) : c.Reaches (entityTaken dialect id known c).cursor :=
  ((reaches_attributes dialect id c).trans (reaches_body dialect id _)).trans
    (Cursor.reaches_pass _ _)

theorem reaches_titled (dialect : Dialect) (c : Cursor) :
    c.Reaches (titled dialect c).2.2 := by
  have h := c.reaches_advance
  simp only [titled]
  split
  · exact (h.trans (Cursor.reaches_advance _)).trans (Cursor.reaches_advance _)
  · exact h

theorem reaches_keyword (dialect : Dialect) (c : Cursor) :
    c.Reaches (keywordTaken dialect c).cursor :=
  ((c.reaches_advance.trans (reaches_titled dialect _)).trans (Cursor.reaches_upTo _ _)).trans
    (reaches_entity dialect _ _ _)

end Declaration

/-! ## Statements -/

namespace Reading

theorem cursor_addEntity (r : Reading) (e : Taken Entity) : (r.addEntity e).cursor = e.cursor :=
  rfl

theorem cursor_edgeLine (r : Reading) : r.edgeLine.cursor = r.cursor.restOfLine.2 := rfl

theorem openGroups_addEntity (r : Reading) (e : Taken Entity) :
    (r.addEntity e).openGroups = r.openGroups := rfl

theorem openGroups_edgeLine (r : Reading) : r.edgeLine.openGroups = r.openGroups := rfl

/-- Going into a group in braces passes its name and its brace. If it is not refused, both were
there. -/
theorem eq_push_of_openBraces {r s : Reading} (h : r.openBraces = .ok s) :
    s = r.push r.cursor.current.text r.cursor.current .brace r.cursor.advance.advance := by
  simp only [openBraces, Cursor.expectName, Cursor.expect, bind, Except.bind] at h
  by_cases hn : r.cursor.current.kind.isName = true
  · by_cases hb : r.cursor.advance.isAt .openBrace = true
    · simpa only [hn, hb, if_true, pure, Except.pure, Except.ok.injEq, eq_comm] using h
    · simp [hn, hb] at h
  · simp [hn] at h

theorem reaches_openBraces {r s : Reading} (h : r.openBraces = .ok s) :
    r.cursor.Reaches s.cursor := by
  rw [eq_push_of_openBraces h]
  exact (Cursor.reaches_advance _).trans (Cursor.reaches_advance _)

theorem reaches_take {r s : Reading} {top : Bool} {f : Form} (h : r.take top f = .ok s) :
    r.cursor.Reaches s.cursor := by
  have line := fun stop => (r.cursor.reaches_advance).trans
    (Cursor.reaches_restOfLine r.cursor.advance stop)
  cases f with
  | keywordGroup => exact (r.cursor.reaches_advance).trans (reaches_openBraces h)
  | group => exact reaches_openBraces h
  | entity =>
      rw [take_entity] at h
      split at h
      · cases h
        exact (r.cursor.reaches_advance).trans
          (Declaration.reaches_entity r.dialect r.cursor.current.text .empty _)
      · cases h
  | metadata =>
      simp only [take, metadataLine, Cursor.expectName] at h
      split at h
      · cases h
        exact line _
      · cases h
  | blank => cases h; exact r.cursor.reaches_advance
  | passed => cases h; exact r.cursor.reaches_restOfLine _
  | header type => cases h; exact line _
  | directive => cases h; exact line _
  | endBlock => cases h; exact line _
  | declaration =>
      cases (take_declaration r top).symm.trans h
      rw [cursor_addEntity]
      exact Declaration.reaches_keyword r.dialect r.cursor
  | edges =>
      simp only [take, Except.ok.injEq] at h
      subst h
      rw [cursor_edgeLine]
      exact r.cursor.reaches_restOfLine _
  | lone => cases h; exact line _
  | stray =>
      cases h
      simp only [stray]
      split
      · exact r.cursor.reaches_advance
      · split <;> exact r.cursor.reaches_advance

theorem reaches_close? {r s : Reading} {g : OpenGroup} {outer : List OpenGroup}
    (h : r.close? g outer = some s) : r.cursor.Reaches s.cursor := by
  unfold close? at h
  split at h
  · cases h
    exact .refl _
  · split at h
    · split at h
      · cases h
        exact r.cursor.reaches_advance
      · cases h
    · split at h
      · cases h
        exact r.cursor.reaches_restOfLine _
      · cases h

end Reading

end Schematic
