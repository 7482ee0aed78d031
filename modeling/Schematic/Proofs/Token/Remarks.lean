import Schematic.Reading.EdgeLine

/-!
# Remarks among tokens

A comment at the end of a line and a line that holds nothing or only a comment are remarks: tokens
that stand between other tokens and say nothing. `Remarked` relates a token list to one in which
remarks were put in. It is an inductive relation, with one constructor for each thing that can stand
at the head of the two lists, so what a reader makes of both is compared by induction on it. The
flag says whether the lists begin at the beginning of a line, for only there may a line end be put
in.
-/

namespace Schematic

namespace EdgeLine

/-- The texts that close a span on an edge line. They close it whatever the kinds of their tokens
are. -/
def closers : List String := ["]", "\x7d", ")"]

theorem mem_closers {dialect : Dialect} {t : Token} {closer : String}
    (h : spanCloser? dialect t = some closer) : closer ∈ closers := by
  unfold spanCloser? at h
  split at h
  · cases h
    decide
  · split at h <;> cases h
    decide
  · split at h <;> cases h
    decide
  · cases h

end EdgeLine

namespace Token

/-- The token says something: it is no line end, no comment and no end of the input. Such tokens are
the same in both lists. -/
def Kind.isLoud : Kind → Bool
  | .newline | .comment | .endOfInput => false
  | _ => true

theorem Kind.ne_of_isLoud {k j : Kind} (hk : k.isLoud = true) (hj : j.isLoud = false) : k ≠ j := by
  rintro rfl
  rw [hk] at hj
  cases hj

/-- A line end or a comment, whose text closes no span. For tokens of a text the second part always
holds (`silent_of_mem_tokens`). -/
structure Silent (kind : Kind) (t : Token) : Prop where
  kind : t.kind = kind
  text : t.text ∉ EdgeLine.closers

/-- The second list is the first with remarks put in, and the places of line ends and the texts of
comments may differ. With `fresh` the lists begin at the beginning of a line. -/
inductive Remarked : Bool → List Token → List Token → Prop
  | nil {fresh : Bool} : Remarked fresh [] []
  | loud {fresh : Bool} {t : Token} {ts us : List Token} (ht : t.kind.isLoud = true)
      (h : Remarked false ts us) : Remarked fresh (t :: ts) (t :: us)
  | newline {fresh : Bool} {t u : Token} {ts us : List Token} (ht : Silent .newline t)
      (hu : Silent .newline u) (h : Remarked true ts us) : Remarked fresh (t :: ts) (u :: us)
  | comment {fresh : Bool} {t u : Token} {ts us : List Token} (ht : Silent .comment t)
      (hu : Silent .comment u) (h : Remarked fresh ts us) : Remarked fresh (t :: ts) (u :: us)
  | remark {fresh : Bool} {u : Token} {ts us : List Token} (hu : Silent .comment u)
      (hend : ∀ v ∈ us.head?, v.kind = .newline) (h : Remarked fresh ts us) :
      Remarked fresh ts (u :: us)
  | blank {fresh : Bool} {u : Token} {ts us : List Token} (hu : Silent .newline u)
      (hfresh : fresh = true ∨ ts = []) (h : Remarked true ts us) : Remarked fresh ts (u :: us)

namespace Remarked

variable {fresh : Bool} {ts us xs : List Token} {p : Token → Bool}

/-- What may be put in inside a line may be put in at its beginning, where blank lines are allowed
in addition. -/
theorem mono (h : Remarked fresh ts us) : Remarked true ts us := by
  induction h with
  | nil => exact .nil
  | loud ht h _ => exact .loud ht h
  | newline ht hu h _ => exact .newline ht hu h
  | comment ht hu _ ih => exact .comment ht hu ih
  | remark hu hend _ ih => exact .remark hu hend ih
  | blank hu _ h _ => exact .blank hu (Or.inl rfl) h

/-- Each token says something or is silent. This leaves out marks for the end, of which there is
none but the last. -/
def Tidy (ts : List Token) : Prop :=
  ∀ t ∈ ts, t.kind.isLoud = true ∨ Silent .newline t ∨ Silent .comment t

/-- Remarks behind a stretch of tokens are remarks in the whole list. The induction is on the
stretch, each token of which stands in both lists. -/
theorem append (hxs : Tidy xs) (h : Remarked false ts us) :
    Remarked fresh (xs ++ ts) (xs ++ us) := by
  induction xs generalizing fresh with
  | nil =>
      cases fresh with
      | false => exact h
      | true => exact h.mono
  | cons x xs ih =>
      have hrest : ∀ {fresh}, Remarked fresh (xs ++ ts) (xs ++ us) :=
        ih fun t ht => hxs t (List.mem_cons_of_mem x ht)
      rcases hxs x (List.mem_cons_self ..) with hx | hx | hx
      · exact .loud hx hrest
      · exact .newline hx hx hrest
      · exact .comment hx hx hrest

theorem refl (hxs : Tidy xs) : Remarked fresh xs xs := by
  have h : Remarked fresh (xs ++ []) (xs ++ []) := append hxs .nil
  rw [List.append_nil] at h
  exact h

/-! ## What both lists have in common -/

/-- The tokens that say something are the same, in the same order, and so are those among them that
a test picks. -/
theorem filter_eq (h : Remarked fresh ts us) (hnewline : ∀ t, t.kind = .newline → p t = false)
    (hcomment : ∀ t, t.kind = .comment → p t = false) : ts.filter p = us.filter p := by
  induction h with
  | nil => rfl
  | loud _ _ ih => rw [List.filter_cons, List.filter_cons, ih]
  | newline ht hu _ ih => simp [hnewline _ ht.kind, hnewline _ hu.kind, ih]
  | comment ht hu _ ih => simp [hcomment _ ht.kind, hcomment _ hu.kind, ih]
  | remark hu _ _ ih => simp [hcomment _ hu.kind, ih]
  | blank hu _ _ ih => simp [hnewline _ hu.kind, ih]

/-- A line end or a comment. Both are passed between statements, whatever their texts are. -/
def Mute (t : Token) : Prop := t.kind = .newline ∨ t.kind = .comment

theorem Mute.isLoud {t : Token} (h : Mute t) : t.kind.isLoud = false := by
  rcases h with h | h <;> rw [h] <;> rfl

/-- A reader that passes over line ends and comments reads both lists alike, if it does so where
they begin with a token that says something. There it may go on anywhere further down. -/
theorem eq_of_skips {α : Type} {f : List Token → α}
    (hmute : ∀ (u : Token) (us : List Token), Mute u → f (u :: us) = f us)
    (hloud : ∀ (t : Token) (ts us : List Token), t.kind.isLoud = true → Remarked false ts us →
      (∀ {fresh : Bool} {xs ys : List Token}, Remarked fresh xs ys → ys.length ≤ us.length →
        f ys = f xs) → f (t :: us) = f (t :: ts))
    (h : Remarked fresh ts us) : f us = f ts := by
  induction hn : us.length using Nat.strongRecOn generalizing fresh ts us with
  | ind n ih =>
      have further {fresh : Bool} {xs ys : List Token} (hys : Remarked fresh xs ys)
          (hlt : ys.length < us.length) : f ys = f xs := ih _ (hn ▸ hlt) hys rfl
      cases h with
      | nil => rfl
      | loud ht h =>
          exact hloud _ _ _ ht h fun hys hle => further hys (Nat.lt_succ_of_le hle)
      | newline ht hu h =>
          rw [hmute _ _ (Or.inl hu.kind), hmute _ _ (Or.inl ht.kind),
            further h (Nat.lt_succ_self _)]
      | comment ht hu h =>
          rw [hmute _ _ (Or.inr hu.kind), hmute _ _ (Or.inr ht.kind),
            further h (Nat.lt_succ_self _)]
      | remark hu _ h => rw [hmute _ _ (Or.inr hu.kind), further h (Nat.lt_succ_self _)]
      | blank hu _ h => rw [hmute _ _ (Or.inl hu.kind), further h (Nat.lt_succ_self _)]

/-- Inside a line both lists begin with one token that says something, or neither does. Only at the
beginning of a line may a line end stand in front of such a token. -/
theorem head_cases (h : Remarked fresh ts us) (hline : fresh = false) :
    (∃ t ts' us', t.kind.isLoud = true ∧ ts = t :: ts' ∧ us = t :: us' ∧
      Remarked false ts' us') ∨ (∀ t ∈ ts.head?, Mute t) ∧ (∀ u ∈ us.head?, Mute u) := by
  have newline : ∀ {t : Token} {ts : List Token}, Silent .newline t → ∀ u ∈ (t :: ts).head?,
      Mute u := fun ht u hu => Or.inl (Option.some.inj hu ▸ ht.kind)
  have comment : ∀ {t : Token} {ts : List Token}, Silent .comment t → ∀ u ∈ (t :: ts).head?,
      Mute u := fun ht u hu => Or.inr (Option.some.inj hu ▸ ht.kind)
  induction h with
  | nil => exact Or.inr ⟨by simp, by simp⟩
  | loud ht h _ => exact Or.inl ⟨_, _, _, ht, rfl, rfl, h⟩
  | newline ht hu _ _ => exact Or.inr ⟨newline ht, newline hu⟩
  | comment ht hu _ _ => exact Or.inr ⟨comment ht, comment hu⟩
  | remark hu hend _ ih =>
      refine Or.inr ⟨?_, comment hu⟩
      rcases ih hline with ⟨t, ts, us, ht, rfl, rfl, -⟩ | ⟨hts, -⟩
      · rw [hend t rfl] at ht
        cases ht
      · exact hts
  | blank hu hnil _ _ =>
      obtain rfl := hnil.resolve_left (by rw [hline]; exact Bool.false_ne_true)
      exact Or.inr ⟨by simp, newline hu⟩

/-- A line end may be passed in the first list alone: then one was put into the second. Its own line
end is taken for one that was put in. -/
theorem tail {t : Token} (h : Remarked fresh (t :: ts) us) (ht : t.kind = .newline) :
    Remarked true ts us := by
  generalize hxs : t :: ts = xs at h
  induction h with
  | nil => cases hxs
  | loud hloud _ _ =>
      cases hxs
      exact absurd ht (Kind.ne_of_isLoud hloud rfl)
  | newline _ hu h _ =>
      cases hxs
      exact .blank hu (Or.inl rfl) h
  | comment hcomment _ _ _ =>
      cases hxs
      have hkind := hcomment.kind
      rw [ht] at hkind
      cases hkind
  | remark hu hend _ ih => exact .remark hu hend (ih hxs)
  | blank hu _ _ ih => exact .blank hu (Or.inl rfl) (ih hxs)

/-! ## Cutting

A reader takes a stretch of tokens. It does not stop at a comment, and if it stops at a line end it
begins inside a line. -/

section Cut

variable {passes : Bool} (hcomment : ∀ t : Token, t.kind = .comment → p t = true)
  (hnewline : ∀ t : Token, t.kind = .newline → p t = passes)

include hcomment hnewline

/-- The stretches. If the test goes on over line ends, or inside a line, both end at the same token.
-/
theorem takeWhile (h : Remarked fresh ts us) (hline : passes = true ∨ fresh = false) :
    Remarked fresh (ts.takeWhile p) (us.takeWhile p) := by
  induction h with
  | nil => exact .nil
  | @loud _ t _ _ ht _ ih =>
      simp only [List.takeWhile_cons]
      cases p t with
      | true => exact .loud ht (ih (Or.inr rfl))
      | false => exact .nil
  | newline ht hu _ ih =>
      simp only [List.takeWhile_cons, hnewline _ ht.kind, hnewline _ hu.kind]
      cases passes with
      | true => exact .newline ht hu (ih (Or.inl rfl))
      | false => exact .nil
  | comment ht hu _ ih =>
      simp only [List.takeWhile_cons, hcomment _ ht.kind, hcomment _ hu.kind]
      exact .comment ht hu (ih hline)
  | @remark _ u _ us hu hend _ ih =>
      simp only [List.takeWhile_cons, hcomment _ hu.kind]
      refine .remark hu (fun v hv => ?_) (ih hline)
      obtain ⟨tail, htail⟩ := (List.takeWhile_prefix p (l := us))
      refine hend v ?_
      rw [← htail, List.head?_append, hv]
      rfl
  | blank hu hfresh _ ih =>
      simp only [List.takeWhile_cons, hnewline _ hu.kind]
      cases passes with
      | true =>
          refine .blank hu (hfresh.imp_right fun hnil => ?_) (ih (Or.inl rfl))
          rw [hnil, List.takeWhile_nil]
      | false =>
          obtain rfl := hline.resolve_left Bool.false_ne_true
          obtain rfl := hfresh.resolve_left Bool.false_ne_true
          exact .nil

/-- What lies behind them, where both lists are inside a line. -/
theorem dropWhile (h : Remarked fresh ts us) (hline : passes = true ∨ fresh = false) :
    Remarked false (ts.dropWhile p) (us.dropWhile p) := by
  induction h with
  | nil => exact .nil
  | @loud _ t _ _ ht h ih =>
      simp only [List.dropWhile_cons]
      cases p t with
      | true => exact ih (Or.inr rfl)
      | false => exact .loud ht h
  | newline ht hu h ih =>
      simp only [List.dropWhile_cons, hnewline _ ht.kind, hnewline _ hu.kind]
      cases passes with
      | true => exact ih (Or.inl rfl)
      | false => exact .newline ht hu h
  | comment ht hu _ ih =>
      simp only [List.dropWhile_cons, hcomment _ ht.kind, hcomment _ hu.kind]
      exact ih hline
  | remark hu _ _ ih =>
      simp only [List.dropWhile_cons, hcomment _ hu.kind]
      exact ih hline
  | blank hu hfresh h ih =>
      simp only [List.dropWhile_cons, hnewline _ hu.kind]
      cases passes with
      | true => exact ih (Or.inl rfl)
      | false =>
          obtain rfl := hline.resolve_left Bool.false_ne_true
          obtain rfl := hfresh.resolve_left Bool.false_ne_true
          exact .blank hu (Or.inr rfl) h

/-- Behind a stretch that goes over line ends stands the same token, or nothing. What ends such a
stretch says something. -/
theorem dropWhile_cases (h : Remarked fresh ts us) (hpasses : passes = true) :
    (∃ t ts' us', p t = false ∧ t.kind.isLoud = true ∧ ts.dropWhile p = t :: ts' ∧
      us.dropWhile p = t :: us' ∧ Remarked false ts' us') ∨
    ts.dropWhile p = [] ∧ us.dropWhile p = [] := by
  have stops : ∀ {ts : List Token}, (∀ t ∈ (ts.dropWhile p).head?, Mute t) →
      ts.dropWhile p = [] := by
    intro ts hts
    cases hd : ts.dropWhile p with
    | nil => rfl
    | cons t ts' =>
        have hstop := List.head?_dropWhile_not p ts
        rw [hd] at hts hstop
        rcases hts t rfl with ht | ht
        · simp [hnewline t ht, hpasses] at hstop
        · simp [hcomment t ht] at hstop
  rcases (h.dropWhile hcomment hnewline (Or.inl hpasses)).head_cases rfl with
    ⟨t, ts', us', ht, hts, hus, hrest⟩ | ⟨hts, hus⟩
  · have hstop := List.head?_dropWhile_not p ts
    rw [hts] at hstop
    exact Or.inl ⟨t, ts', us', by simpa using hstop, ht, hts, hus, hrest⟩
  · exact Or.inr ⟨stops hts, stops hus⟩

end Cut

end Remarked

end Token

end Schematic
