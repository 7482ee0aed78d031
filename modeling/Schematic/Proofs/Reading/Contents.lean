import Schematic.Proofs.Reading.Relocation
import Schematic.Proofs.Text.Words
import Schematic.Proofs.Token.Remarks

/-!
# Remarks leave no trace in contents

The readers that turn a stretch of tokens into a text, a list of attributes, fields or edges pass
over line ends and comments, each in its own way: by a filter, because no rule is about them, or
because an empty row is no field. Each reader finds the same in two lists of which the second has
remarks put in.
-/

namespace Schematic

open Token

variable {fresh : Bool} {ts us : List Token}

/-! ## Texts and attributes -/

namespace Phrase

theorem joined_remarked (h : Remarked fresh ts us) : joined us = joined ts := by
  unfold joined
  rw [h.filter_eq (fun t ht => by rw [ht]; rfl) (fun t ht => by rw [ht]; rfl)]

theorem pairs_of_not_name {t : Token} (ht : t.kind.isName = false) (ts : List Token) :
    pairs (t :: ts) = pairs ts := by
  rw [pairs.eq_def]
  simp only [ht, Bool.false_eq_true, if_false]

/-- A key without a colon is a flag. The end of the list counts as anything that is no colon. -/
theorem pairs_flag {t : Token} (ht : t.kind.isName = true)
    (hts : ∀ u ∈ ts.head?, u.kind ≠ .colon) : pairs (t :: ts) = (t.text, "true") :: pairs ts := by
  cases ts with
  | nil => simp [pairs, ht]
  | cons u rest =>
      rw [pairs]
      simp only [ht, if_true, hts u rfl, if_false]

theorem pairs_value {t u : Token} (ht : t.kind.isName = true) (hu : u.kind = .colon)
    (rest : List Token) :
    pairs (t :: u :: rest) = (t.text, joined (rest.takeWhile fun v => v.kind != .comma)) ::
      pairs (rest.dropWhile fun v => v.kind != .comma) := by
  rw [pairs]
  simp only [ht, hu, if_true]

theorem isName_of_mute {t : Token} (h : Remarked.Mute t) : t.kind.isName = false := by
  rcases h with h | h <;> rw [h] <;> rfl

/-- A list of pairs is read by its keys, and a value reaches over line ends. The induction is on the
way the remarks are put in; they are neither keys nor parts of values. -/
theorem pairs_remarked (h : Remarked fresh ts us) : pairs us = pairs ts := by
  refine h.eq_of_skips (fun u us hu => pairs_of_not_name (isName_of_mute hu) us) ?_
  intro t ts us _ h further
  cases hname : t.kind.isName with
  | false => rw [pairs_of_not_name hname, pairs_of_not_name hname, further h (Nat.le_refl _)]
  | true =>
      rcases h.head_cases rfl with ⟨u, xs, ys, -, rfl, rfl, hrest⟩ | ⟨hts, hus⟩
      · by_cases hcolon : u.kind = .colon
        · have hcomment : ∀ v : Token, v.kind = .comment → (v.kind != .comma) = true :=
            fun v hv => by rw [hv]; rfl
          have hnewline : ∀ v : Token, v.kind = .newline → (v.kind != .comma) = true :=
            fun v hv => by rw [hv]; rfl
          have hvalue := hrest.takeWhile hcomment hnewline (Or.inl rfl)
          have hbehind := hrest.dropWhile hcomment hnewline (Or.inl rfl)
          have hle := (List.dropWhile_sublist (fun v : Token => v.kind != .comma)
            (l := ys)).length_le
          rw [pairs_value hname hcolon, pairs_value hname hcolon, joined_remarked hvalue,
            further hbehind (Nat.le_succ_of_le hle)]
        · have hhead {zs : List Token} : ∀ v ∈ (u :: zs).head?, v.kind ≠ .colon :=
            fun v hv => Option.some.inj hv ▸ hcolon
          rw [pairs_flag hname hhead, pairs_flag hname hhead, further h (Nat.le_refl _)]
      · have hmute {zs : List Token} (hzs : ∀ v ∈ zs.head?, Remarked.Mute v) :
            ∀ v ∈ zs.head?, v.kind ≠ .colon := by
          intro v hv he
          rcases hzs v hv with hk | hk <;> rw [he] at hk <;> cases hk
        rw [pairs_flag hname (hmute hus), pairs_flag hname (hmute hts), further h (Nat.le_refl _)]

theorem bracketAttributes_remarked (dialect : Dialect) (h : Remarked fresh ts us) :
    bracketAttributes dialect us = bracketAttributes dialect ts := by
  simp only [bracketAttributes, keyValues, pairs_remarked h, joined_remarked h]

end Phrase

/-! ## Field rows -/

section Pieces

variable {α : Type} {cut keep : α → Bool}

/-- Elements may be taken out of the pieces after the cut or before it, as long as none that is cut
at is taken out. -/
theorem pieces_filter (h : ∀ x, cut x = true → keep x = true) (xs : List α) :
    pieces cut (xs.filter keep) = (pieces cut xs).map (List.filter keep) := by
  induction xs with
  | nil => rfl
  | cons x xs ih =>
      cases hx : cut x with
      | true => simp [h x hx, pieces, hx, ih]
      | false =>
          obtain ⟨p, ps, hps⟩ := List.exists_cons_of_ne_nil (pieces_ne_nil cut xs)
          rw [hps, List.map_cons] at ih
          cases hk : keep x with
          | true => simp [hk, pieces, hx, ih, hps]
          | false => simp [hk, pieces, hx, ih, hps]

end Pieces

namespace FieldRow

/-- The tokens that are no comments, which are those that rows of fields are read from. -/
def uncommented (row : List Token) : List Token := row.filter fun t => t.kind != .comment

theorem uncommented_uncommented (row : List Token) :
    uncommented (uncommented row) = uncommented row := by
  simp [uncommented, List.filter_filter]

theorem unmarked_uncommented (v : Option Visibility) (row : List Token) :
    unmarked v (uncommented row) = unmarked v row := by
  have h := uncommented_uncommented row
  unfold uncommented at h
  simp only [unmarked, uncommented, h]

/-- The comments before a row are passed, and those in it count for nothing. So a row is read as if
it had none. -/
theorem read?_uncommented (dialect : Dialect) (row : List Token) :
    read? dialect (row.dropWhile fun t => t.kind == .comment) =
      read? dialect (uncommented row) := by
  induction row with
  | nil => rfl
  | cons t row ih =>
      by_cases ht : t.kind = .comment
      · simpa [uncommented, ht] using ih
      · have hdrop : ((t :: row).dropWhile fun t => t.kind == .comment) = t :: row := by simp [ht]
        have hfilter : uncommented (t :: row) = t :: uncommented row := by simp [uncommented, ht]
        have hcons (v : Option Visibility) {u : Token} (hu : u.kind ≠ .comment) :
            unmarked v (u :: uncommented row) = unmarked v (u :: row) := by
          have hrow := uncommented_uncommented row
          unfold uncommented at hrow
          simp only [unmarked, uncommented, List.filter_cons, hu, bne_iff_ne, ne_eq,
            not_false_eq_true, if_true, hrow]
        rw [hdrop, hfilter, read?_eq, read?_eq]
        -- the mark is looked for in the first token alone
        split
        · simp only [splitMark]
          split
          · exact (unmarked_uncommented _ row).symm
          · exact (unmarked_uncommented _ row).symm
          · exact (hcons _ (by simp)).symm
          · exact (hcons _ ht).symm
        · exact (hcons _ ht).symm

theorem readAll_eq (dialect : Dialect) (body : List Token) :
    readAll dialect body =
      (pieces (fun t => t.kind == .newline) (uncommented body)).filterMap (read? dialect) := by
  have hkeep : ∀ t : Token, (t.kind == .newline) = true → (t.kind != .comment) = true :=
    fun t ht => by rw [eq_of_beq ht]; rfl
  rw [uncommented, pieces_filter hkeep, readAll, rows, List.filterMap_map, List.filterMap_map]
  exact congrArg (fun g => List.filterMap g _) (funext fun row => read?_uncommented dialect row)

theorem read?_nil (dialect : Dialect) : read? dialect [] = none := by
  rw [read?_eq]
  split <;> rfl

/-- Behind the beginning `xs` of a row the same fields are read. A remark is put in either inside a
row, where it is a comment, or between rows, where it is one more row without a field. -/
theorem filterMap_pieces_remarked (dialect : Dialect) (h : Remarked fresh ts us) {xs : List Token}
    (hxs : ∀ x ∈ xs, (x.kind == .newline) = false) (hfresh : fresh = true → xs = []) :
    (pieces (fun t => t.kind == .newline) (xs ++ uncommented us)).filterMap (read? dialect) =
      (pieces (fun t => t.kind == .newline) (xs ++ uncommented ts)).filterMap (read? dialect) := by
  have hpass {u : Token} (hu : u.kind = .comment) (us : List Token) :
      uncommented (u :: us) = uncommented us := by simp [uncommented, hu]
  have hkeep {u : Token} (hu : u.kind ≠ .comment) (us : List Token) :
      uncommented (u :: us) = u :: uncommented us := by simp [uncommented, hu]
  have hcut {u : Token} (hu : u.kind = .newline) (us : List Token) :
      uncommented (u :: us) = u :: uncommented us := hkeep (by rw [hu]; exact nofun) us
  have hnone : ∀ x ∈ ([] : List Token), (x.kind == .newline) = false := nofun
  induction h generalizing xs with
  | nil => rfl
  | @loud _ t ts us ht _ ih =>
      have hcomment : t.kind ≠ .comment := Kind.ne_of_isLoud ht rfl
      have hnewline : t.kind ≠ .newline := Kind.ne_of_isLoud ht rfl
      have hrow : ∀ x ∈ xs ++ [t], (x.kind == .newline) = false := by
        intro x hx
        rcases List.mem_append.mp hx with hx | hx
        · exact hxs x hx
        · rw [List.mem_singleton.mp hx]
          simpa using hnewline
      have hih := ih hrow nofun
      simp only [List.append_assoc, List.singleton_append] at hih
      rw [hkeep hcomment, hkeep hcomment]
      exact hih
  | @newline _ t u _ _ ht hu _ ih =>
      have hih := ih hnone fun _ => rfl
      rw [hcut ht.kind, hcut hu.kind, Text.pieces_append_cons hxs (by simp [hu.kind]),
        Text.pieces_append_cons hxs (by simp [ht.kind]), List.filterMap_cons, List.filterMap_cons]
      simp only [List.nil_append] at hih
      rw [hih]
  | comment ht hu _ ih =>
      rw [hpass ht.kind, hpass hu.kind]
      exact ih hxs hfresh
  | remark hu _ _ ih =>
      rw [hpass hu.kind]
      exact ih hxs hfresh
  | @blank _ u ts us hu hempty _ ih =>
      have hih := ih hnone fun _ => rfl
      simp only [List.nil_append] at hih
      rw [hcut hu.kind, Text.pieces_append_cons hxs (by simp [hu.kind]), List.filterMap_cons, hih]
      rcases hempty with htrue | rfl
      · rw [hfresh htrue, read?_nil, List.nil_append]
      · rw [show uncommented [] = [] from rfl, List.append_nil, Text.pieces_of_forall hxs]
        simp [pieces, read?_nil, List.filterMap_cons]

theorem readAll_remarked (dialect : Dialect) (h : Remarked fresh ts us) :
    readAll dialect us = readAll dialect ts := by
  have hnone : ∀ x ∈ ([] : List Token), (x.kind == .newline) = false := nofun
  rw [readAll_eq, readAll_eq]
  exact filterMap_pieces_remarked dialect h hnone fun _ => rfl

end FieldRow

/-! ## Edge lines -/

namespace EdgeLine

theorem span_silent {opener u : Token} {closer : String} {k : Token.Kind} (hu : Silent k u)
    (hopener : opener.kind ≠ k) (hcloser : closer ∈ closers) (depth : Nat) (us : List Token) :
    span opener closer depth (u :: us) =
      (u :: (span opener closer depth us).1, (span opener closer depth us).2) := by
  have hopens : ¬ (u.kind = opener.kind ∧ u.text = opener.text) := fun h =>
    hopener (h.1.symm.trans hu.kind)
  have hcloses : ¬ (u.text = closer ∧ u.kind ≠ .string) := fun h => hu.text (h.1 ▸ hcloser)
  simp only [span, hopens, hcloses, if_false]

theorem head?_span {opener v : Token} {closer : String} {depth : Nat}
    (h : v ∈ (span opener closer depth us).1.head?) : v ∈ us.head? := by
  cases us with
  | nil => cases h
  | cons u us =>
      simp only [span] at h
      split at h
      · exact h
      · split at h
        · cases depth with
          | zero => cases h
          | succ depth => exact h
        · exact h

/-- What a span encloses, and what lies behind its closer. Remarks can stand in either; they open
and close nothing, so the same closer ends the span in both lists. -/
theorem span_remarked {opener : Token} {closer : String} (hopener : opener.kind.isLoud = true)
    (hcloser : closer ∈ closers) (depth : Nat) (h : Remarked fresh ts us) :
    Remarked fresh (span opener closer depth ts).1 (span opener closer depth us).1 ∧
      ((span opener closer depth ts).2 = none ∧ (span opener closer depth us).2 = none ∨
        ∃ xs ys, (span opener closer depth ts).2 = some xs ∧
          (span opener closer depth us).2 = some ys ∧ Remarked false xs ys) := by
  have hnewline : opener.kind ≠ .newline := Kind.ne_of_isLoud hopener rfl
  have hcomment : opener.kind ≠ .comment := Kind.ne_of_isLoud hopener rfl
  induction h generalizing depth with
  | nil => exact ⟨.nil, Or.inl ⟨rfl, rfl⟩⟩
  | @loud _ t ts us ht h ih =>
      simp only [span]
      split
      · exact ⟨.loud ht (ih (depth + 1)).1, (ih (depth + 1)).2⟩
      · split
        · cases depth with
          | zero => exact ⟨.nil, Or.inr ⟨ts, us, rfl, rfl, h⟩⟩
          | succ depth => exact ⟨.loud ht (ih depth).1, (ih depth).2⟩
        · exact ⟨.loud ht (ih depth).1, (ih depth).2⟩
  | newline ht hu _ ih =>
      rw [span_silent ht hnewline hcloser, span_silent hu hnewline hcloser]
      exact ⟨.newline ht hu (ih depth).1, (ih depth).2⟩
  | comment ht hu _ ih =>
      rw [span_silent ht hcomment hcloser, span_silent hu hcomment hcloser]
      exact ⟨.comment ht hu (ih depth).1, (ih depth).2⟩
  | remark hu hend _ ih =>
      rw [span_silent hu hcomment hcloser]
      exact ⟨.remark hu (fun v hv => hend v (head?_span hv)) (ih depth).1, (ih depth).2⟩
  | blank hu hfresh _ ih =>
      rw [span_silent hu hnewline hcloser]
      refine ⟨.blank hu (hfresh.imp_right fun hnil => ?_) (ih depth).1, (ih depth).2⟩
      rw [hnil]
      rfl

theorem bar?_remarked (h : Remarked fresh ts us) :
    (bar? ts = none ∧ bar? us = none) ∨
      ∃ between xs between' ys, bar? ts = some (between, xs) ∧ bar? us = some (between', ys) ∧
        Phrase.joined between' = Phrase.joined between ∧ Remarked false xs ys := by
  have hcomment : ∀ t : Token, t.kind = .comment → (t.kind != .pipe) = true :=
    fun t ht => by rw [ht]; rfl
  have hnewline : ∀ t : Token, t.kind = .newline → (t.kind != .pipe) = true :=
    fun t ht => by rw [ht]; rfl
  unfold bar?
  rcases h.dropWhile_cases hcomment hnewline rfl with
    ⟨t, xs, ys, -, -, hts, hus, hrest⟩ | ⟨hts, hus⟩
  · rw [hts, hus]
    exact Or.inr ⟨_, _, _, _, rfl, rfl,
      Phrase.joined_remarked (h.takeWhile hcomment hnewline (Or.inl rfl)), hrest⟩
  · rw [hts, hus]
    exact Or.inl ⟨rfl, rfl⟩

theorem barLabel?_remarked (dialect : Dialect) (t : Token) (h : Remarked fresh ts us) :
    (barLabel? dialect t ts = none ∧ barLabel? dialect t us = none) ∨
      ∃ between xs between' ys, barLabel? dialect t ts = some (between, xs) ∧
        barLabel? dialect t us = some (between', ys) ∧
        Phrase.joined between' = Phrase.joined between ∧ Remarked false xs ys := by
  unfold barLabel?
  split
  · exact bar?_remarked h
  · exact Or.inl ⟨rfl, rfl⟩

/-- A line end or a comment does nothing on an edge line: it is neither a link of the chain nor text
of a label. -/
theorem reduce_mute {dialect : Dialect} {t : Token} (ht : Remarked.Mute t) (p : Progress)
    (ts : List Token) : reduce dialect p (t :: ts) = reduce dialect p ts := by
  have hspan : spanCloser? dialect t = none := by
    rcases ht with hk | hk <;> simp [spanCloser?, hk]
  have hcolon : t.kind ≠ .colon := by rcases ht with hk | hk <;> rw [hk] <;> exact nofun
  have hbar : barLabel? dialect t ts = none := by
    rcases ht with hk | hk <;> simp [barLabel?, hk]
  have htoken : p.token t = p := by
    rcases ht with hk | hk <;> simp [Progress.token, hk, Token.Kind.edgeKind?]
  rw [reduce_token hspan hcolon hbar, htoken]

theorem reduce_remarked (dialect : Dialect) (p : Progress) (h : Remarked fresh ts us) :
    reduce dialect p us = reduce dialect p ts := by
  refine congrFun (h.eq_of_skips (f := fun ts p => reduce dialect p ts) (fun u us hu =>
    funext fun p => reduce_mute hu p us) ?_) p
  intro t ts us ht h further
  funext p
  have behind {fresh : Bool} {xs ys : List Token} (p : Progress) (hys : Remarked fresh xs ys)
      (hle : ys.length ≤ us.length) : reduce dialect p ys = reduce dialect p xs :=
    congrFun (further hys hle) p
  cases hspan : spanCloser? dialect t with
  | some closer =>
      obtain ⟨hcontent, hbehind⟩ := span_remarked ht (mem_closers hspan) 0 h
      have hattributes := Phrase.bracketAttributes_remarked dialect hcontent
      have hlength := length_span_rest t closer 0 us
      rw [reduce_span hspan, reduce_span hspan]
      simp only [Progress.declare, hattributes]
      rcases hbehind with ⟨hts, hus⟩ | ⟨xs, ys, hts, hus, hrest⟩
      · rw [hts, hus]
      · rw [hus, Option.getD_some] at hlength
        rw [hts, hus]
        exact behind _ hrest hlength
  | none =>
      by_cases hcolon : t.kind = .colon
      · rw [reduce_colon hspan hcolon, reduce_colon hspan hcolon, Phrase.joined_remarked h]
      · rcases barLabel?_remarked dialect t h with
          ⟨hts, hus⟩ | ⟨between, xs, between', ys, hts, hus, hjoined, hrest⟩
        · rw [reduce_token hspan hcolon hts, reduce_token hspan hcolon hus,
            behind _ h (Nat.le_refl _)]
        · rw [reduce_bar hspan hcolon hts, reduce_bar hspan hcolon hus, hjoined]
          exact behind _ hrest (Nat.le_of_lt (length_of_barLabel? hus))

theorem read_remarked (dialect : Dialect) (h : Remarked fresh ts us) :
    read dialect us = read dialect ts := by
  simp only [read, reduce_remarked dialect .start h]

end EdgeLine

end Schematic
