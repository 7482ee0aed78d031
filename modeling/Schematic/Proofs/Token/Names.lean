import Schematic.Proofs.Text.Words
import Schematic.Token.Scan

/-!
# Words as lexemes

A word is a text that scanning makes one identifier or one number of. From that alone it follows
how the word is cut when other text comes behind it: `IsWord.shape_append` says that the same
lexeme is found, as long as what follows neither continues a name nor turns trailing dashes into an
arrow.
-/

namespace Schematic

/-- What a token says, its place aside: its kind and its text. -/
def Token.spelling (t : Token) : Token.Kind × String := (t.kind, t.text)

namespace Token

open Text (isBlank isAlphanumeric IsSolid)

/-- Scanning the text gives one identifier or number, and that is the whole text. It is said by
scanning rather than by characters, so it is what a user can check. -/
def IsWord (w : String) : Prop :=
  ∃ kind : Kind, kind.isWord = true ∧
    (scan w).tokens.map spelling = [(kind, w), (.endOfInput, "")]

/-- What follows a name so that the name is over: nothing, or a character that is neither part of a
name nor the head of an arrow. -/
def Breaks (rest : List Char) : Prop := ∀ c ∈ rest.head?, isNameChar c = false ∧ c ≠ '>'

/-! ## Classes of characters -/

theorem isBlank_cases {c : Char} (h : isBlank c = true) :
    c.toNat ∈ [9, 10, 11, 12, 13, 28, 29, 30, 31, 32] ++ Text.wideBlanks := by
  simp only [isBlank, Bool.or_eq_true, beq_iff_eq, decide_eq_true_eq, List.contains_iff_mem] at h
  rw [List.mem_append]
  rcases h with ((h | h) | h) | h
  · exact Or.inl (by simp [h])
  · have : c.toNat = 9 ∨ c.toNat = 10 ∨ c.toNat = 11 ∨ c.toNat = 12 ∨ c.toNat = 13 := by omega
    exact Or.inl (by simp; omega)
  · have : c.toNat = 28 ∨ c.toNat = 29 ∨ c.toNat = 30 ∨ c.toNat = 31 := by omega
    exact Or.inl (by simp; omega)
  · exact Or.inr h

/-- No blank may stand in a name; the blanks are few enough to go through the table. So a blank ends
every name. -/
theorem isBlank_of_isNameChar {c : Char} (h : isNameChar c = true) : isBlank c = false := by
  have all : ∀ n ∈ [9, 10, 11, 12, 13, 28, 29, 30, 31, 32] ++ Text.wideBlanks,
      isNameChar (Char.ofNat n) = false := by decide +kernel
  cases hb : isBlank c with
  | false => rfl
  | true =>
      have hc := all c.toNat (isBlank_cases hb)
      rw [Char.ofNat_toNat, h] at hc
      cases hc

theorem ne_of_isNameChar {c d : Char} (h : isNameChar c = true) (hd : isNameChar d = false) :
    c ≠ d := fun he => by
  rw [he, hd] at h
  cases h

/-! ## Dashes in front of other text -/

theorem afterDashes_cons (c : Char) (cs : List Char) :
    afterDashes (c :: cs) = if c = '-' then afterDashes cs else c :: cs := by
  by_cases hc : c = '-' <;> simp [afterDashes, hc]

theorem afterDashes_append {cs : List Char} (h : afterDashes cs ≠ []) (rest : List Char) :
    afterDashes (cs ++ rest) = afterDashes cs ++ rest := by
  induction cs with
  | nil => exact absurd rfl h
  | cons c cs ih =>
      rw [List.cons_append, afterDashes_cons, afterDashes_cons]
      rw [afterDashes_cons] at h
      by_cases hc : c = '-'
      · simp only [hc, if_true] at h ⊢
        exact ih h
      · simp [hc]

theorem afterDashes_append_of_nil {cs : List Char} (h : afterDashes cs = []) (rest : List Char) :
    afterDashes (cs ++ rest) = afterDashes rest := by
  induction cs with
  | nil => rfl
  | cons c cs ih =>
      rw [afterDashes_cons] at h
      by_cases hc : c = '-'
      · simp only [hc, if_true] at h
        rw [List.cons_append, afterDashes_cons, if_pos hc]
        exact ih h
      · simp [hc] at h

theorem afterDashes_of_breaks {rest : List Char} (h : Breaks rest) : afterDashes rest = rest := by
  cases rest with
  | nil => rfl
  | cons c cs =>
      have hc : c ≠ '-' := fun he => by
        have := (h c rfl).1
        rw [he] at this
        exact absurd this (by decide)
      rw [afterDashes_cons, if_neg hc]

theorem arrow_append {cs rest : List Char} (h : Breaks rest)
    (ha : ((afterDashes cs).head? == some '>') = false) :
    ((afterDashes (cs ++ rest)).head? == some '>') = false := by
  cases hd : afterDashes cs with
  | nil =>
      rw [afterDashes_append_of_nil hd, afterDashes_of_breaks h]
      cases hr : rest with
      | nil => rfl
      | cons c tail =>
          have hc := (h c (by simp [hr])).2
          simpa using hc
  | cons c tail =>
      rw [afterDashes_append (by simp [hd]), hd]
      rw [hd] at ha
      exact ha

/-! ## Names in front of other text -/

theorem nameTail_of_breaks {rest : List Char} (h : Breaks rest) : nameTail rest = [] := by
  cases rest with
  | nil => rfl
  | cons c cs => simp [nameTail, (h c rfl).1]

theorem nameTail_cons_eq {c : Char} {cs : List Char} (h : nameTail (c :: cs) = c :: cs) :
    isNameChar c = true ∧ (c = '-' → ((afterDashes cs).head? == some '>') = false) ∧
      nameTail cs = cs := by
  rw [nameTail] at h
  split at h
  · next hc =>
    simp only [Bool.and_eq_true, Bool.not_eq_true', Bool.and_eq_false_iff] at hc
    refine ⟨hc.1, fun he => ?_, (List.cons.inj h).2⟩
    rcases hc.2 with hd | hd
    · simp [he] at hd
    · exact hd
  · cases h

theorem nameTail_append {cs rest : List Char} (h : Breaks rest) (hcs : nameTail cs = cs) :
    nameTail (cs ++ rest) = cs := by
  induction cs with
  | nil => exact nameTail_of_breaks h
  | cons c cs ih =>
      obtain ⟨hc, hd, htail⟩ := nameTail_cons_eq hcs
      have hcond : (isNameChar c &&
          !(c == '-' && (afterDashes (cs ++ rest)).head? == some '>')) = true := by
        by_cases he : c = '-'
        · rw [arrow_append h (hd he)]
          simp [hc]
        · simp [hc, he]
      rw [List.cons_append, nameTail, if_pos hcond, ih htail]

theorem forall_isNameChar {cs : List Char} (h : nameTail cs = cs) :
    ∀ c ∈ cs, isNameChar c = true := by
  induction cs with
  | nil => intro c hc; cases hc
  | cons c cs ih =>
      obtain ⟨hc, -, htail⟩ := nameTail_cons_eq h
      intro d hd
      rcases List.mem_cons.mp hd with rfl | hd
      · exact hc
      · exact ih htail d hd

theorem length_nameTail_le (cs : List Char) : (nameTail cs).length ≤ cs.length := by
  induction cs with
  | nil => exact Nat.le_refl _
  | cons c cs ih =>
      rw [nameTail]
      split
      · exact Nat.succ_le_succ ih
      · exact Nat.zero_le _

/-! ## The shape of a word -/

/-- The text `c :: cs` begins with a name: its first character is one of a name, and if it is a
dash, then the dashes do not make a connector. -/
structure OpensName (c : Char) (cs : List Char) : Prop where
  nameChar : isNameChar c = true
  dashes : c = '-' → ∃ d, (afterDashes cs).head? = some d ∧ d ≠ '>' ∧ isNameChar d = true

/-- Only the rule for names makes words. So a word token tells how its text began. -/
theorem shape_isWord {c : Char} {cs : List Char} {k : Kind} (hk : k.isWord = true)
    (h : (shape c cs).kind? = some k) : shape c cs = nameShape c cs ∧ OpensName c cs := by
  have other : ∀ {j : Kind}, j.isWord = false → some j ≠ some k := by
    rintro j hj he
    rw [Option.some.inj he, hk] at hj
    cases hj
  unfold shape at h ⊢
  split at h
  · exact absurd h (other rfl)
  · next hn =>
    split at h
    · cases h
    · next hb =>
      split at h
      · exact absurd h (other rfl)
      · next hcomment =>
        split at h
        · next hd =>
          have hc : c = '-' := by simpa using hd
          simp only [hn, hb, hcomment, hd, if_true, Bool.false_eq_true, if_false]
          unfold dashShape at h ⊢
          split at h
          · exact absurd h (other rfl)
          · next d hhead =>
            split at h
            · exact absurd h (other rfl)
            · next hgt =>
              split at h
              · next hname =>
                simp only [hgt, hname, if_true, Bool.false_eq_true, if_false]
                refine ⟨by rw [hc], ⟨by rw [hc]; decide, fun _ => ⟨d, hhead, ?_, hname⟩⟩⟩
                simpa using hgt
              · exact absurd h (other rfl)
        · next hd =>
          split at h
          · unfold angleShape at h
            split at h
            · exact absurd h (other rfl)
            · split at h <;> exact absurd h (other rfl)
          · next hlt =>
            split at h
            · exact absurd h (other rfl)
            · next hgt =>
              split at h
              · exact absurd h (other rfl)
              · next hq =>
                split at h
                · next hname =>
                  simp only [hn, hb, hcomment, hd, hlt, hgt, hq, hname, if_true,
                    Bool.false_eq_true, if_false]
                  refine ⟨trivial, ⟨hname, fun he => ?_⟩⟩
                  simp [he] at hd
                · split at h
                  · next kind hp =>
                    refine absurd h (other ?_)
                    unfold punctuation? at hp
                    split at hp <;> cases hp <;> rfl
                  · exact absurd h (other rfl)

/-- A text that begins with a name is cut by the rule for names. For a dash in front that is the
case in which the rule for dashes hands over. -/
theorem OpensName.shape_eq {c : Char} {cs : List Char} (h : OpensName c cs) :
    shape c cs = nameShape c cs := by
  have hb := isBlank_of_isNameChar h.nameChar
  have hne : ∀ {d : Char}, isNameChar d = false → (c == d) = false := fun hd => by
    simpa using ne_of_isNameChar h.nameChar hd
  have hcomment : startsComment c cs = false := by
    simp [startsComment, hne (d := '/') (by decide), hne (d := '%') (by decide)]
  unfold shape
  simp only [hb, hcomment, hne (d := '\n') (by decide), Bool.false_eq_true, if_false]
  by_cases hd : c = '-'
  · obtain ⟨d, hhead, hgt, hname⟩ := h.dashes hd
    have hgt' : (d == '>') = false := by simpa using hgt
    simp [hd, dashShape, hhead, hgt', hname]
  · have hd' : (c == '-') = false := by simpa using hd
    simp only [hd', hne (d := '<') (by decide), hne (d := '>') (by decide),
      hne (d := '"') (by decide), hne (d := '\'') (by decide), h.nameChar, Bool.false_eq_true,
      if_false, Bool.or_self, if_true]

theorem OpensName.append {c : Char} {cs rest : List Char} (h : OpensName c cs) :
    OpensName c (cs ++ rest) := by
  refine ⟨h.nameChar, fun hd => ?_⟩
  obtain ⟨d, hhead, hgt, hname⟩ := h.dashes hd
  refine ⟨d, ?_, hgt, hname⟩
  cases ha : afterDashes cs with
  | nil => simp [ha] at hhead
  | cons e es =>
      rw [afterDashes_append (by simp [ha]), ha]
      rw [ha] at hhead
      exact hhead

/-! ## Words -/

/-- A word token is no longer than the text it was cut from. So if it is all of the text, its lexeme
is the first and the only one. -/
theorem length_text_le (p : Place) (cs : List Char) :
    ∀ t ∈ (lexemes p cs).filterMap Lexeme.token?, t.kind.isWord = true →
      t.text.length ≤ cs.length := by
  fun_induction lexemes p cs with
  | case1 p => intro t ht; cases ht
  | case2 p c cs s source ih =>
      intro t ht hk
      have later : t ∈ (lexemes (p.after source) (cs.drop s.extra)).filterMap Lexeme.token? →
          t.text.length ≤ (c :: cs).length := fun h => by
        have hle := ih t h hk
        rw [List.length_drop] at hle
        rw [List.length_cons]
        omega
      rw [List.filterMap_cons] at ht
      split at ht
      · exact later ht
      · next u hu =>
        rcases List.mem_cons.mp ht with rfl | ht
        · obtain ⟨k, hkind, rfl⟩ := Option.map_eq_some_iff.mp hu
          have hs : s = nameShape c cs := (shape_isWord hk hkind).1
          have hle := length_nameTail_le cs
          simp only [hs, nameShape, Shape.verbatim, String.length_ofList, List.length_cons]
          omega
        · exact later ht

/-- What a word is made of: it begins with a name, and the name is all of it. Every word is of this
kind, and lemmas about words use nothing else. -/
structure Spelled (w : String) (c : Char) (cs : List Char) : Prop where
  toList : w.toList = c :: cs
  opens : OpensName c cs
  tail : nameTail cs = cs
  kind : (nameKind (c :: cs)).isWord = true

theorem IsWord.spelled {w : String} (h : IsWord w) : ∃ c cs, Spelled w c cs := by
  obtain ⟨k, hk, hw⟩ := h
  have hone : ((lexemes .start w.toList).filterMap Lexeme.token?).map spelling = [(k, w)] := by
    have hends : ((lexemes .start w.toList).filterMap Lexeme.token?).map spelling
        ++ [(.endOfInput, "")] = [(k, w)] ++ [(.endOfInput, "")] := by
      simpa [scan, endAt, spelling] using hw
    exact List.append_cancel_right hends
  obtain ⟨t, ht, hspell⟩ := List.map_eq_singleton_iff.mp hone
  simp only [spelling, Prod.mk.injEq] at hspell
  obtain ⟨rfl, rfl⟩ := hspell
  cases hcs : t.text.toList with
  | nil => simp [hcs, lexemes] at ht
  | cons c cs =>
      rw [hcs, lexemes, List.filterMap_cons] at ht
      split at ht
      · -- a blank comes first, so the word would be cut from a text shorter than itself
        have hle := length_text_le _ _ t (by rw [ht]; exact List.mem_cons_self ..) hk
        rw [← String.length_toList, hcs, List.length_drop, List.length_cons] at hle
        omega
      · next u hu =>
        obtain ⟨rfl, -⟩ := List.cons.inj ht
        obtain ⟨j, hkind, htok⟩ := Option.map_eq_some_iff.mp hu
        rw [← htok] at hk hcs
        obtain ⟨hs, ho⟩ := shape_isWord hk hkind
        simp only [hs, nameShape, Shape.verbatim, String.toList_ofList] at hcs hkind
        rw [Option.some.injEq] at hkind
        refine ⟨c, cs, ?_, ho, (List.cons.inj hcs).2, ?_⟩
        · rw [← htok, String.toList_ofList, hs]
          exact hcs
        · rw [← hcs, hkind]
          exact hk

namespace Spelled

variable {w : String} {c : Char} {cs : List Char}

/-- The word is cut off in front of anything that does not continue it: the name ends there, and its
kind was settled by its characters. -/
theorem shape_append (h : Spelled w c cs) {rest : List Char} (hr : Breaks rest) :
    shape c (cs ++ rest) = .verbatim (nameKind (c :: cs)) (c :: cs) := by
  rw [h.opens.append.shape_eq]
  simp only [nameShape, nameTail_append hr h.tail]

theorem isNameChar_of_mem (h : Spelled w c cs) : ∀ d ∈ c :: cs, isNameChar d = true := by
  intro d hd
  rcases List.mem_cons.mp hd with rfl | hd
  · exact h.opens.nameChar
  · exact forall_isNameChar h.tail d hd

end Spelled

theorem IsWord.isNameChar {w : String} (h : IsWord w) : ∀ c ∈ w.toList, isNameChar c = true := by
  obtain ⟨c, cs, hs⟩ := h.spelled
  rw [hs.toList]
  exact hs.isNameChar_of_mem

theorem IsWord.isSolid {w : String} (h : IsWord w) : IsSolid w := by
  obtain ⟨c, cs, hs⟩ := h.spelled
  exact ⟨by simp [hs.toList], fun d hd => isBlank_of_isNameChar (h.isNameChar d hd)⟩

theorem IsWord.isWord_nameKind {w : String} (h : IsWord w) :
    (nameKind w.toList).isWord = true := by
  obtain ⟨c, cs, hs⟩ := h.spelled
  rw [hs.toList]
  exact hs.kind

end Token

end Schematic
