import Mathlib.Data.List.Chain
import Mathlib.Data.List.Induction
import Schematic.Dialect.Detection
import Schematic.Proofs.Token.Printing
import Schematic.Proofs.Token.Tiling

/-!
# Where detection stops

A text is Mermaid because of one token, the first header word that leads its line (`telling?`).
Detection knows the lines on which tokens begin but not those on which they end, so it takes a word
for the first of its line also behind a string that ends on that line (`telling?_spec`). No other
token reaches over a line end.
-/

namespace Schematic

theorem Place.line_after_of_notMem {cs : List Char} (h : '\n' ∉ cs) (p : Place) :
    (p.after cs).line = p.line := by
  induction cs generalizing p with
  | nil => rfl
  | cons c cs ih =>
      obtain ⟨hc, hcs⟩ := not_or.mp (List.mem_cons.not.mp h)
      have hnext : (p.next c).line = p.line := by rw [next, if_neg (Ne.symm hc)]
      exact (ih hcs (p.next c)).trans hnext

namespace Token

/-! ## Neighbours -/

/-- What holds of a token and the one behind it: the second begins on the line of the first unless
there is a line end in the first, and a comment ends where the line ends. -/
structure Adjacent (t u : Token) : Prop where
  line : t.kind = .newline ∨ t.kind = .string ∧ '\n' ∈ t.text.toList ∨
    u.place.line = t.place.line
  comment : t.kind = .comment → u.kind = .newline

theorem mem_unescape {c : Char} (hc : c ≠ '\\') {body : List Char} (h : c ∈ body) :
    c ∈ unescape body := by
  fun_induction unescape body with
  | case1 => exact h
  | case2 => exact absurd (List.mem_singleton.mp h) hc
  | case3 d cs ih =>
      rcases List.mem_cons.mp h with rfl | h
      · exact absurd rfl hc
      · exact (List.mem_cons.mp h).elim (fun he => he ▸ List.mem_cons_self ..)
          fun h => List.mem_cons_of_mem _ (ih h)
  | case4 d cs _ _ ih =>
      exact (List.mem_cons.mp h).elim (fun he => he ▸ List.mem_cons_self ..)
        fun h => List.mem_cons_of_mem _ (ih h)

/-- A string in whose source a line ends says so: only quotes and backslashes are left out of its
text. -/
theorem Reads.newline_mem_text {source rest : List Char} {s : Shape} (h : Reads rest source s)
    (hkind : s.kind? = some .string) (hmem : '\n' ∈ source) : '\n' ∈ s.text := by
  have hbody {quote : Char} {body : List Char} (hquote : quote = '"' ∨ quote = '\'')
      (hmem : '\n' ∈ quote :: (body ++ [quote])) : '\n' ∈ unescape body := by
    refine mem_unescape (by decide) ?_
    rcases hquote with rfl | rfl <;> simpa using hmem
  cases h with
  | blank => cases hkind
  | newline => cases hkind
  | verbatim _ _ hstring => exact absurd (Option.some.inj hkind) hstring
  | unknown => cases hkind
  | closed hquote => exact hbody hquote hmem
  | unclosed hquote => exact hbody hquote (List.mem_append_left [_] hmem)

/-- Only blanks stand in front of the first token, and they end no line. -/
theorem line_of_mem_head? (p : Place) (cs : List Char) :
    ∀ t ∈ (tokens p cs).head?, t.place.line = p.line := by
  induction p, cs using lexemes_induct with
  | nil p =>
      rw [tokens, lexemes]
      intro t ht
      cases ht
  | cons p c cs source tail hcut hr hlex ih =>
      intro t ht
      rw [tokens, hlex, List.filterMap_cons] at ht
      cases hfirst : Lexeme.token? ⟨p, source, shape c cs⟩ with
      | some u =>
          obtain ⟨kind, -, rfl⟩ := Option.map_eq_some_iff.mp hfirst
          rw [hfirst] at ht
          obtain rfl := Option.some.inj ht
          rfl
      | none =>
          rw [hfirst] at ht
          have hkind : (shape c cs).kind? = none := Option.map_eq_none_iff.mp hfirst
          have hline : '\n' ∉ source := by
            generalize shape c cs = s at hr hkind
            cases hr with
            | blank _ hline => simpa using Ne.symm hline
            | _ => cases hkind
          exact (ih t ht).trans (Place.line_after_of_notMem hline p)

/-- The tokens of a text, one behind the other. The induction goes over the lexemes, and the place
behind each is the place the next one is read at. -/
theorem isChain_tokens (p : Place) (cs : List Char) : (tokens p cs).IsChain Adjacent := by
  induction p, cs using lexemes_induct with
  | nil p =>
      rw [tokens, lexemes]
      exact .nil
  | cons p c cs source tail hcut hr hlex ih =>
      rw [tokens, hlex, List.filterMap_cons]
      cases hfirst : Lexeme.token? ⟨p, source, shape c cs⟩ with
      | none => exact ih
      | some t =>
          obtain ⟨kind, hkind, rfl⟩ := Option.map_eq_some_iff.mp hfirst
          refine List.isChain_cons.mpr ⟨fun u hu => ⟨?_, ?_⟩, ih⟩
          · by_cases hmem : '\n' ∈ source
            · rcases hr.newline_cases hkind hmem with ⟨hk, -⟩ | hk
              · exact Or.inl hk
              · subst hk
                refine Or.inr (Or.inl ⟨rfl, ?_⟩)
                rw [String.toList_ofList]
                exact hr.newline_mem_text hkind hmem
            · refine Or.inr (Or.inr ?_)
              rw [line_of_mem_head? _ _ u hu, Place.line_after_of_notMem hmem]
          · intro hk
            have hend := head?_of_comment hcut hr (hkind.trans (congrArg some hk))
            cases tail with
            | nil =>
                rw [lexemes] at hu
                cases hu
            | cons b tail =>
                obtain rfl := hend b rfl
                rw [lexemes_newline] at hu
                obtain rfl := Option.some.inj hu
                rfl

end Token

namespace Dialect

/-! ## The token that tells -/

/-- Line ends and comments do not count. -/
def counts (t : Token) : Bool := t.kind != .newline && t.kind != .comment

/-- The header word at which detection stops, if it stops at one. This is the loop of the detection
with the token in the place of the answer. -/
def tellingFrom (previous : Option Nat) : List Token → Option Token
  | [] => none
  | t :: ts =>
    if opensPlantuml t ts then none
    else if opensMermaid previous t then some t
    else tellingFrom (some t.place.line) ts

/-- The header word because of which a text is Mermaid. -/
def telling? (tokens : List Token) : Option Token := tellingFrom none (significant tokens)

theorem isSome_tellingFrom (previous : Option Nat) (ts : List Token) :
    (tellingFrom previous ts).isSome = true ↔ detectFrom previous ts = .mermaid := by
  fun_induction tellingFrom previous ts with
  | case1 => simp [detectFrom]
  | case2 previous t ts h => simp [detectFrom, h]
  | case3 previous t ts h h' => simp [detectFrom, h, h']
  | case4 previous t ts h h' ih => simpa [detectFrom, h, h'] using ih

/-- The word that tells leads its line as far as detection can see: the last token that counts in
front of it begins on another line. -/
theorem tellingFrom_filter {previous : Option Nat} {n : Nat} {ts : List Token} {k : Token}
    (h : tellingFrom previous ((ts.filter counts).take n) = some k) :
    ∃ front tail, ts = front ++ k :: tail ∧ k.kind = .ident ∧
      (headerType? (Text.lower k.text)).isSome = true ∧
      ((front.filter counts).getLast?.map fun t => t.place.line).or previous ≠
        some k.place.line := by
  induction ts generalizing previous n with
  | nil =>
      rw [List.filter_nil, List.take_nil] at h
      cases h
  | cons t ts ih =>
      by_cases ht : counts t = true
      · rw [List.filter_cons_of_pos ht] at h
        cases n with
        | zero => cases h
        | succ n =>
            rw [List.take_succ_cons, tellingFrom] at h
            split at h
            · cases h
            · split at h
              · next hm =>
                obtain rfl := Option.some.inj h
                simp only [opensMermaid, Bool.and_eq_true, bne_iff_ne, beq_iff_eq] at hm
                exact ⟨[], ts, rfl, hm.1.2, hm.2, hm.1.1⟩
              · obtain ⟨front, tail, rfl, hkind, htype, hline⟩ := ih h
                refine ⟨t :: front, tail, rfl, hkind, htype, ?_⟩
                rw [List.filter_cons_of_pos ht, List.getLast?_cons]
                cases hlast : (front.filter counts).getLast? <;> simpa [hlast] using hline
      · rw [List.filter_cons_of_neg ht] at h
        obtain ⟨front, tail, rfl, hkind, htype, hline⟩ := ih h
        refine ⟨t :: front, tail, rfl, hkind, htype, ?_⟩
        rwa [List.filter_cons_of_neg ht]

/-- Behind these tokens a line begins. -/
def LineStart (front : List Token) : Prop := ∀ u ∈ front.getLast?, u.kind = .newline

/-- A text is Mermaid because of a header word that begins a line or stands behind a string in which
a line ends. Any other token in front of it would be on its line, and then detection sees that the
word does not lead. -/
theorem telling?_spec {p : Place} {cs : List Char} {last : Token} (hlast : last.kind ≠ .ident)
    (h : detect (Token.tokens p cs ++ [last]) = .mermaid) :
    ∃ front k tail, Token.tokens p cs = front ++ k :: tail ∧
      telling? (Token.tokens p cs ++ [last]) = some k ∧ k.kind = .ident ∧
      (headerType? (Text.lower k.text)).isSome = true ∧
      (LineStart front ∨ ∃ u ∈ front.getLast?, u.kind = .string ∧ '\n' ∈ u.text.toList) := by
  obtain ⟨k, hk⟩ := Option.isSome_iff_exists.mp ((isSome_tellingFrom _ _).mpr h)
  obtain ⟨front, rest, hsplit, hkind, htype, hline⟩ := tellingFrom_filter hk
  have htokens : ∃ tail, Token.tokens p cs = front ++ k :: tail := by
    rcases List.eq_nil_or_concat rest with rfl | ⟨tail, t, rfl⟩
    · obtain ⟨-, hend⟩ := List.append_inj' hsplit rfl
      rw [(List.cons.inj hend).1] at hlast
      exact absurd hkind hlast
    · rw [List.concat_eq_append, ← List.cons_append, ← List.append_assoc] at hsplit
      exact ⟨tail, (List.append_inj' hsplit rfl).1⟩
  obtain ⟨tail, htokens⟩ := htokens
  refine ⟨front, k, tail, htokens, hk, hkind, htype, ?_⟩
  have hchain := Token.isChain_tokens p cs
  rw [htokens] at hchain
  rcases List.eq_nil_or_concat front with rfl | ⟨front, u, rfl⟩
  · exact Or.inl fun u hu => by cases hu
  · rw [List.concat_eq_append] at hchain hline ⊢
    rw [LineStart, List.getLast?_concat]
    have hnext : Token.Adjacent u k := by
      rw [List.append_assoc] at hchain
      exact (List.isChain_cons_cons.mp hchain.right_of_append).1
    rcases hnext.line with hu | hu | hu
    · exact Or.inl fun v hv => Option.some.inj hv ▸ hu
    · exact Or.inr ⟨u, rfl, hu⟩
    · -- on one line, the token in front is no comment, and so it counts
      by_cases hnewline : u.kind = .newline
      · exact Or.inl fun v hv => Option.some.inj hv ▸ hnewline
      · have hcomment : u.kind ≠ .comment := fun he => by
          rw [hnext.comment he] at hkind
          cases hkind
        have hcounts : counts u = true := by simp [counts, hnewline, hcomment]
        rw [List.filter_append, List.filter_cons_of_pos hcounts] at hline
        simp [hu] at hline

end Dialect

end Schematic
