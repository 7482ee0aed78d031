import Schematic.Proofs.Dialect.Detection
import Schematic.Proofs.Reading.Overruns

/-!
# The Mermaid header

Detection takes a text for Mermaid because of a header word that leads a line, wherever that line
is. The reader takes a header word for the header if it begins a statement at the top level and no
header came before, wherever on its line it stands. So the two can differ about which word is the
header, and about whether there is one at all. They agree exactly if the lines in front of the word
that detection found are complete (`ofText_detected`): nothing in them is left open, and no header
is among them.
-/

namespace Schematic

namespace Reading

open Cursor

variable {r : Reading} {k : Token} {tail : List Token} {type : String}

/-! ## Header words that begin a statement -/

/-- The reading comes to `ts` at the top level and takes the first of these tokens for the
header. -/
def ReadsHeader (ts : List Token) (r : Reading) : Prop :=
  ∃ q type, Leads r q ∧ q.openGroups = [] ∧ q.cursor.ahead = ts ∧ q.form true = .header type

theorem header_of_form {top : Bool} (h : r.form top = .header type) :
    top = true ∧ r.headerSeen = false ∧ r.cursor.current.kind = .ident ∧
      Dialect.headerType? (Text.lower r.cursor.current.text) = some type := by
  have hword : r.wordForm? top = some (.header type) := chosenBy_of_form h
  simp only [wordForm?] at hword
  split at hword
  · cases hword
  · next hident =>
    split at hword
    · next type' htype =>
      obtain rfl : type' = type := by simpa using hword
      split at htype
      · next hm => exact ⟨hm.1, hm.2.2, by simpa using hident, htype⟩
      · cases htype
    · split at hword
      · cases top <;> simp at hword
      · split at hword <;> cases hword

theorem form_of_header (hd : r.dialect = .mermaid) (hs : r.headerSeen = false)
    (hk : r.cursor.current.kind = .ident)
    (htype : Dialect.headerType? (Text.lower r.cursor.current.text) = some type) :
    r.form true = .header type := by
  simp [form, wordForm?, hd, hs, hk, htype]

/-! ## The diagram type -/

theorem directive_of_form {top : Bool} (h : r.form top = .directive) :
    Text.lower r.cursor.current.text ∈ r.dialect.directiveWords := by
  have hword : r.wordForm? top = some .directive := chosenBy_of_form h
  simp only [wordForm?] at hword
  split at hword
  · cases hword
  · split at hword
    · cases hword
    · split at hword
      · next hd => simpa using (Bool.and_eq_true_iff.mp hd).1
      · split at hword <;> cases hword

theorem metadataLines_of_form {top : Bool} (h : r.form top = .metadata) :
    r.dialect.metadataLines = true := by
  have hshape : r.shapeForm top = .metadata := chosenBy_of_form h
  simp only [shapeForm] at hshape
  split at hshape
  · split at hshape <;> cases hshape
  · split at hshape
    · cases hshape
    · split at hshape
      · cases hshape
      · split at hshape
        · split at hshape
          · next hm => exact (Bool.and_eq_true_iff.mp hm).2
          · cases hshape
        · cases hshape

/-- A directive does not name the diagram type, and Mermaid has no other metadata lines. So a header
is all that can. -/
theorem type_notMem_entries (hd : r.dialect = .mermaid) {top : Bool}
    (h : ∀ type, r.form top ≠ .header type) :
    "type" ∉ (effect r.dialect r.cursor top (r.form top)).entries.map Prod.fst := by
  cases hf : r.form top with
  | header type => exact absurd hf (h type)
  | directive =>
      have hword := directive_of_form hf
      simp only [hd, Dialect.directiveWords, List.mem_cons, List.not_mem_nil, or_false] at hword
      simp only [effect, List.map_cons, List.map_nil, List.mem_singleton, directiveEntry]
      rcases hword with hw | hw | hw <;> rw [hw] <;> split <;> simp
  | metadata =>
      have hlines := metadataLines_of_form hf
      rw [hd] at hlines
      cases hlines
  | _ => simp [effect, Effect.declaring, Effect.opening]

/-- A step that reads no header leaves the diagram type as it is, and whether there was a header. -/
theorem step_of_no_header (hd : r.dialect = .mermaid) (hf : r.finished = false)
    (h : r.openGroups = [] → ∀ type, r.form true ≠ .header type) :
    r.step.headerSeen = r.headerSeen ∧ r.step.metadata.get? "type" = r.metadata.get? "type" := by
  rcases step_spec hf with ⟨g, outer, x, -, -, hs⟩ | ⟨-, -, hs⟩
  · rw [hs]
    exact ⟨rfl, rfl⟩
  · have hnot : ∀ type, r.form r.atTop ≠ .header type := by
      intro type htype
      have htop := (header_of_form htype).1
      rw [htop] at htype
      exact h (by simpa [atTop] using htop) type htype
    rw [hs, headerSeen_apply, metadata_apply]
    refine ⟨?_, KeyedList.get?_putAll_of_not_mem (type_notMem_entries hd hnot)⟩
    have hheader : r.next.header = false := by
      unfold next
      cases hform : r.form r.atTop with
      | header type => exact absurd hform (hnot type)
      | _ => rfl
    rw [hheader, Bool.or_false]

/-- The header declares the diagram type. The direction it may give as well has a key of its own. -/
theorem step_of_header (hg : r.openGroups = []) (hform : r.form true = .header type) :
    r.step.headerSeen = true ∧ r.step.metadata.get? "type" = some (.text type) := by
  have hend : r.cursor.atEnd = false := by
    simp [atEnd, isAt, (header_of_form hform).2.2.1]
  have hkey : "type" ∉ (headerDirection r.cursor.advance.restOfLine.1).map Prod.fst := by
    unfold headerDirection
    split
    · split <;> simp
    · exact List.not_mem_nil
  rw [step_of_form hg hend hform, headerSeen_apply, metadata_apply]
  refine ⟨Bool.or_true _, ?_⟩
  show ((r.metadata.put "type" (.text type)).putAll _).get? "type" = _
  rw [KeyedList.get?_putAll_of_not_mem hkey, KeyedList.get?_put_self]

/-- Behind the header nothing changes the diagram type. The induction is on the run; a second header
word is no header. -/
theorem run_of_headerSeen (hd : r.dialect = .mermaid) (hs : r.headerSeen = true) :
    r.run.headerSeen = true ∧ r.run.metadata.get? "type" = r.metadata.get? "type" := by
  fun_induction run r with
  | case1 r _ => exact ⟨hs, rfl⟩
  | case2 r hf ih =>
      have hf : r.finished = false := Bool.eq_false_iff.mpr hf
      obtain ⟨hseen, htype⟩ := step_of_no_header hd hf fun _ type hform => by
        rw [(header_of_form hform).2.1] at hs
        cases hs
      obtain ⟨hrun, htype'⟩ := ih ((dialect_step hf).trans hd) (hseen.trans hs)
      exact ⟨hrun, htype'.trans htype⟩

/-- The header that is read declares the diagram type of the document, which is that of its word. -/
theorem ReadsHeader.run (h : ReadsHeader (k :: tail) r) :
    r.run.headerSeen = true ∧ ∃ type, Dialect.headerType? (Text.lower k.text) = some type ∧
      r.run.metadata.get? "type" = some (.text type) := by
  obtain ⟨q, type, hlead, hg, ha, hform⟩ := h
  obtain ⟨-, -, hident, htype⟩ := header_of_form hform
  have hcurrent : q.cursor.current = k := by simp [current, ha]
  have hf : q.finished = false := by simp [finished, atEnd, isAt, hident]
  obtain ⟨hseen, hstep⟩ := step_of_header hg hform
  obtain ⟨hrun, hkeep⟩ :=
    run_of_headerSeen ((dialect_step hf).trans (mermaid_of_form hform)) hseen
  rw [hlead.run_eq, run_of_not_finished hf]
  exact ⟨hrun, type, hcurrent ▸ htype, hkeep.trans hstep⟩

/-- Without a header that is read the document has no diagram type. The induction is on the run, no
step of which reads one. -/
theorem run_of_no_header (hd : r.dialect = .mermaid) (h : ∀ ts, ¬ ReadsHeader ts r) :
    r.run.headerSeen = r.headerSeen ∧ r.run.metadata.get? "type" = r.metadata.get? "type" := by
  fun_induction run r with
  | case1 r _ => exact ⟨rfl, rfl⟩
  | case2 r hf ih =>
      have hf : r.finished = false := Bool.eq_false_iff.mpr hf
      obtain ⟨hseen, htype⟩ := step_of_no_header hd hf fun hg type hform =>
        h r.cursor.ahead ⟨r, type, .refl, hg, rfl, hform⟩
      obtain ⟨hseen', htype'⟩ := ih ((dialect_step hf).trans hd) fun ts hts => by
        obtain ⟨q, type, hlead, hq⟩ := hts
        exact h ts ⟨q, type, .step hf hlead, hq⟩
      exact ⟨hseen'.trans hseen, htype'.trans htype⟩

/-! ## The lines in front of the header -/

/-- Read by themselves, the tokens leave nothing open and declare no diagram type. Whatever else
they do is of no matter to a header behind them. -/
def Complete (ts : List Token) : Prop :=
  Closed (ofTokens .mermaid ts).diagnostics ∧
    (ofTokens .mermaid ts).document.metadata.get? "type" = none

theorem ReadsHeader.exists_cons {ts : List Token} (h : ReadsHeader ts r) :
    ∃ k tail, ts = k :: tail := by
  obtain ⟨q, type, -, -, rfl, hform⟩ := h
  have hident := (header_of_form hform).2.2.1
  refine List.exists_cons_of_ne_nil (ahead_ne_nil ?_)
  simp [atEnd, isAt, hident]

theorem complete_iff {ts : List Token} : Complete ts ↔
    Closed (start .mermaid ts).run.diagnostics ∧ (start .mermaid ts).run.headerSeen = false := by
  refine and_congr_right fun _ => ?_
  show (start .mermaid ts).run.metadata.get? "type" = none ↔ _
  by_cases h : ∃ us, ReadsHeader us (start .mermaid ts)
  · obtain ⟨us, hus⟩ := h
    obtain ⟨k, tail, rfl⟩ := hus.exists_cons
    obtain ⟨hseen, type, -, htype⟩ := hus.run
    simp [hseen, htype]
  · obtain ⟨hseen, htype⟩ := run_of_no_header (r := start .mermaid ts) rfl (not_exists.mp h)
    rw [hseen, htype]
    exact ⟨fun _ => rfl, fun _ => rfl⟩

theorem complete_nil : Complete [] := by
  have hrun : (start .mermaid []).run = start .mermaid [] := run_eq_steps (n := 0) rfl
  rw [complete_iff, hrun]
  exact ⟨closed_nil, rfl⟩

/-- A header word that begins the text is the header. Nothing stands in front of it. -/
theorem readsHeader_start (hk : k.kind = .ident)
    (htype : Dialect.headerType? (Text.lower k.text) = some type) (p : Place) :
    ReadsHeader (k :: tail) (start .mermaid (k :: tail ++ [Token.endAt p])) := by
  refine ⟨_, type, .refl, rfl, ?_, ?_⟩
  · rw [start_eq]
  · rw [start_eq]
    exact form_of_header rfl rfl hk htype

/-- A header word that begins a line is the header if and only if the lines in front of it are
complete. -/
theorem readsHeader_iff {ts : List Token} {t : Token} (hts : Unbroken ts) (ht : t.kind = .newline)
    (hk : k.kind = .ident) (htype : Dialect.headerType? (Text.lower k.text) = some type)
    (p : Place) :
    ReadsHeader (k :: tail) (start .mermaid (ts ++ t :: k :: tail ++ [Token.endAt p])) ↔
      Complete ts := by
  have hahead := ahead_start hts .mermaid
  have hno : Unbroken (start .mermaid ts).cursor.ahead := hahead.symm ▸ hts
  have hx : Extends t (k :: tail) (start .mermaid ts)
      (start .mermaid (ts ++ t :: k :: tail ++ [Token.endAt p])) := by
    refine ⟨rfl, Or.inl ?_⟩
    rw [hahead, start_eq]
  rw [complete_iff]
  constructor
  · rintro ⟨q, type', hlead, hg, ha, hform⟩
    have hclosed := closed_of_leads hx ht hk hno closed_nil hlead ha hg
    obtain ⟨s, hlead', ha', -, hs⟩ := run_extends hx ht hno hclosed
    have hend : q.cursor.atEnd = false := by simp [atEnd, isAt, (header_of_form hform).2.2.1]
    obtain rfl := hlead.unique hlead' hend (ha'.trans ha.symm)
    have hseen : q.headerSeen = (start .mermaid ts).run.headerSeen := by rw [hs]
    exact ⟨hclosed, hseen ▸ (header_of_form hform).2.1⟩
  · rintro ⟨hclosed, hseen⟩
    obtain ⟨s, hlead, ha, -, hs⟩ := run_extends hx ht hno hclosed
    have hcurrent : s.cursor.current = k := by simp [current, ha]
    refine ⟨s, type, hlead, ?_, ha, form_of_header ?_ ?_ (hcurrent ▸ hk) (hcurrent ▸ htype)⟩
    · rw [hs]
      exact openGroups_run _
    · rw [hs]
      exact dialect_run _
    · rw [hs]
      exact hseen

/-! ## Detection and reading -/

/-- The header word `k` at which detection stops, between `front` and `tail`, and what reading the
text makes of it. -/
structure Detected (text : String) (front : List Token) (k : Token) (tail : List Token)
    (type : String) : Prop where
  tokens : (Token.scan text).tokens =
    front ++ k :: tail ++ [Token.endAt (Place.start.after text.toList)]
  telling : Dialect.telling? (Token.scan text).tokens = some k
  header : Dialect.headerType? (Text.lower k.text) = some type
  /-- It begins a line, or a line ends in the string before it. -/
  leads : Dialect.LineStart front ∨
    ∃ u ∈ front.getLast?, u.kind = .string ∧ '\n' ∈ u.text.toList
  /-- If it begins a line, it is the header exactly if the lines in front of it are complete. -/
  consumed : Dialect.LineStart front →
    (ReadsHeader (k :: tail) (start .mermaid (Token.scan text).tokens) ↔ Complete front.dropLast)
  /-- The header declares the type of the document. -/
  declares : ReadsHeader (k :: tail) (start .mermaid (Token.scan text).tokens) →
    (ofText text).document.metadata.get? "type" = some (.text type)

theorem ofText_detected (text : String)
    (h : Dialect.detect (Token.scan text).tokens = .mermaid) :
    (ofText text).document.dialect = .mermaid ∧
      ((∀ ts, ¬ ReadsHeader ts (start .mermaid (Token.scan text).tokens)) →
        (ofText text).document.metadata.get? "type" = none) ∧
      ∃ front k tail type, Detected text front k tail type := by
  have hread : (ofText text).document =
      ((start .mermaid (Token.scan text).tokens).run.document
        (lineCount ((start .mermaid (Token.scan text).tokens).cursor.ahead ++
          [(start .mermaid (Token.scan text).tokens).cursor.final]))).classified := by
    simp only [ofText, ofTokensIn, ofTokens, Option.getD_none, h]
  have hmeta : (ofText text).document.metadata =
      (start .mermaid (Token.scan text).tokens).run.metadata := by
    rw [hread]
    rfl
  refine ⟨?_, fun hnone => ?_, ?_⟩
  · rw [hread]
    exact dialect_run _
  · rw [hmeta]
    exact (run_of_no_header rfl hnone).2
  · rw [Token.scan_eq] at h
    obtain ⟨front, k, tail, htokens, htelling, hk, htype, hleads⟩ :=
      Dialect.telling?_spec (by simp [Token.endAt]) h
    obtain ⟨type, htype⟩ := Option.isSome_iff_exists.mp htype
    have hscan : (Token.scan text).tokens =
        front ++ k :: tail ++ [Token.endAt (Place.start.after text.toList)] := by
      rw [Token.scan_eq, htokens]
    refine ⟨front, k, tail, type, hscan, ?_, htype, hleads, fun hline => ?_, fun hheader => ?_⟩
    · rw [Token.scan_eq]
      exact htelling
    · rw [hscan]
      rcases List.eq_nil_or_concat front with rfl | ⟨ts, t, rfl⟩
      · exact iff_of_true (readsHeader_start hk htype _) complete_nil
      · rw [List.concat_eq_append] at htokens hline ⊢
        rw [List.dropLast_concat, List.append_assoc ts]
        refine readsHeader_iff (fun u hu => ?_) (hline t (by simp)) hk htype _
        have hmem : u ∈ Token.tokens .start text.toList := by
          rw [htokens]
          exact List.mem_append_left _ (List.mem_append_left _ hu)
        exact Token.kind_of_mem_tokens hmem
    · obtain ⟨-, type', htype', hrun⟩ := hheader.run
      obtain rfl : type' = type := Option.some.inj (htype'.symm.trans htype)
      rw [hmeta]
      exact hrun

/-- In front of the header word stand a bracket that fits nowhere and a group that is closed. -/
def lateHeader : String := "]\nsubgraph x\n  B[label]\nend\ngraph TD"

theorem complete_lateHeader : Complete ((Token.scan lateHeader).tokens.take 12).dropLast := by
  have hrun := run_eq_steps (n := 10)
    (r := start .mermaid ((Token.scan lateHeader).tokens.take 12).dropLast) (by decide +kernel)
  rw [complete_iff, hrun]
  unfold Closed
  decide +kernel

theorem ofText_detected_lateHeader :
    Dialect.detect (Token.scan lateHeader).tokens = .mermaid ∧
      (ofText lateHeader).document.metadata.get? "type" = some (.text "flow") := by
  have h : Dialect.detect (Token.scan lateHeader).tokens = .mermaid := by decide +kernel
  obtain ⟨-, -, front, k, tail, type, hd⟩ := ofText_detected lateHeader h
  refine ⟨h, ?_⟩
  have hk : k = ⟨.ident, "graph", ⟨5, 1⟩⟩ :=
    Option.some.inj (hd.telling.symm.trans (by decide +kernel))
  have htype : type = "flow" := by
    refine Option.some.inj (hd.header.symm.trans ?_)
    rw [hk]
    decide +kernel
  -- no token stands in a text twice, so the word is found where it stands
  have hfront : front = (Token.scan lateHeader).tokens.take 12 := by
    have hnodup : (Token.scan lateHeader).tokens.Nodup := by decide +kernel
    have hindex : (Token.scan lateHeader).tokens.idxOf k = 12 := by
      rw [hk]
      decide +kernel
    rw [hd.tokens, List.append_assoc] at hnodup hindex ⊢
    have hnot : k ∉ front := fun hmem =>
      (List.nodup_append.mp hnodup).2.2 k hmem k (by simp) rfl
    rw [List.idxOf_append_of_notMem hnot, List.cons_append, List.idxOf_cons_self] at hindex
    exact (List.take_left' hindex).symm
  have hline : Dialect.LineStart front := by
    rw [hfront]
    unfold Dialect.LineStart
    decide +kernel
  have hcomplete : Complete front.dropLast := by
    rw [hfront]
    exact complete_lateHeader
  rw [← htype]
  exact hd.declares ((hd.consumed hline).mpr hcomplete)

/-- A header word in a group is none for the reader. -/
theorem group_hides_header :
    let text := "subgraph x\ngraph TD\nend"
    Dialect.detect (Token.scan text).tokens = .mermaid ∧
      Dialect.telling? (Token.scan text).tokens = some ⟨.ident, "graph", ⟨2, 1⟩⟩ ∧
      Dialect.headerType? (Text.lower "graph") = some "flow" ∧
      (ofText text).document.metadata.get? "type" = none := by
  intro text
  have h : Dialect.detect (Token.scan text).tokens = .mermaid := by decide +kernel
  have hrun := run_eq_steps (n := 5) (r := start .mermaid (Token.scan text).tokens)
    (by decide +kernel)
  refine ⟨h, by decide +kernel, by decide +kernel, ?_⟩
  show (start (Dialect.detect (Token.scan text).tokens) (Token.scan text).tokens).run.metadata.get?
    "type" = none
  rw [h, hrun]
  decide +kernel

end Reading

end Schematic
