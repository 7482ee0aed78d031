import Mathlib.Data.List.ProdSigma
import Schematic.Proofs.Reading.Relocation
import Schematic.Proofs.Text.Words
import Schematic.Proofs.Token.Names

/-!
# Edge lines as chains

An edge line is a side, that is one or more words between commas, and then legs: a connector with
its texts, and the side behind it. The edges that it draws are given here a second time, leg by leg
as products of two sides (`Line.edges`), and `read_line` says that they are what the reader finds.
The reader works in two passes. While the line is reduced, what each token does depends only on the
last link of the chain, and `fold_leg` says what a leg adds to it. While the chain is expanded, a
connector that another one follows is passed over (`expand_run`).
-/

namespace Schematic

namespace EdgeLine

open Token (IsWord)

/-! ## Lines as they are spelled -/

/-- The kind and the text of a token, which is all that an edge line is read from. -/
abbrev Spelling := Token.Kind × String

def spellWord (w : String) : Spelling := (Token.nameKind w.toList, w)

/-- The words on one side of a connector, of which there is at least one. So a side is never without
ids. -/
structure Side where
  first : String
  more : List String
deriving Repr, DecidableEq

namespace Side

def ids (s : Side) : List String := s.first :: s.more

def spelled (s : Side) : List Spelling :=
  spellWord s.first :: s.more.flatMap fun w => [(.comma, ","), spellWord w]

end Side

/-- A connector token. That its kind is one of a connector is part of it, so no run holds anything
else. -/
structure Joint where
  kind : Token.Kind
  text : String
  connects : kind.isConnector = true := by rfl
deriving Repr, DecidableEq

namespace Joint

def spelled (j : Joint) : Spelling := (j.kind, j.text)

def drawn (j : Joint) : EdgeKind :=
  match j.kind with
  | .bidirectional => .bidirectional
  | .dash => .undirected
  | _ => .directed

/-- The connector points at its left side, so that the edge leads from the right one. -/
def isReverse (j : Joint) : Bool := j.kind == .reverseArrow

end Joint

/-- The text at one end of a connector, if there is one, as a string token. -/
def spellText (s : Option String) : List Spelling := (s.map fun s => (.string, s)).toList

/-- A run of connectors with a text before it and one behind it, and the side it leads to. A leg is
the case of a single connector. -/
def spellRun (before : Option String) (run : List Joint) (after : Option String) (side : Side) :
    List Spelling :=
  spellText before ++ (run.map Joint.spelled ++ (spellText after ++ side.spelled))

/-- A connector with the texts at its two ends, and the side it leads to. The side it leads from is
that of the leg before. -/
structure Leg where
  before : Option String
  joint : Joint
  after : Option String
  side : Side
deriving Repr, DecidableEq

def Leg.spelled (leg : Leg) : List Spelling :=
  spellRun leg.before [leg.joint] leg.after leg.side

/-- The label of a line: some words, or a quoted text. It stands at the end, behind a colon, and is
that of all edges. -/
inductive Label where
  | words (first : String) (more : List String)
  | quoted (s : String)
deriving Repr, DecidableEq

namespace Label

def text : Label → String
  | words w ws => " ".intercalate (w :: ws)
  | quoted s => s

def spelled : Label → List Spelling
  | words w ws => (.colon, ":") :: (w :: ws).map spellWord
  | quoted s => [(.colon, ":"), (.string, s)]

def Valid : Label → Prop
  | words w ws => ∀ v ∈ w :: ws, IsWord v
  | quoted s => s ≠ "" ∧ Text.trim s = s

end Label

/-- An edge line: a side, the legs behind it, and perhaps a label. -/
structure Line where
  first : Side
  legs : List Leg
  label : Option Label
deriving Repr, DecidableEq

namespace Line

def spelled (l : Line) : List Spelling :=
  l.first.spelled ++ (l.legs.flatMap Leg.spelled ++ (l.label.map Label.spelled).getD [])

/-- There is a connector on the line, the ids are words, and the label is one. Any such line can be
written down, and only lines with brackets are left out. -/
structure Valid (l : Line) : Prop where
  legs : l.legs ≠ []
  first : ∀ w ∈ l.first.ids, IsWord w
  sides : ∀ leg ∈ l.legs, ∀ w ∈ leg.side.ids, IsWord w
  label : ∀ label ∈ l.label, label.Valid

end Line

/-! ## The edges of a line -/

/-- The texts at the two ends of an edge, if there is any. An edge with a text at one end only has a
cardinality too. -/
def cardinality? (source target : Option String) : Option Cardinality :=
  if source = none ∧ target = none then none else some ⟨source, target⟩

/-- Every word of the left side with every word of the right side, row by row; from right to left,
with the texts exchanged, if the connector points that way. -/
def crossed (label : Option String) (j : Joint) (before after : Option String)
    (left right : List String) : List Edge :=
  if j.isReverse then
    (right.product left).map fun e => ⟨e.1, e.2, j.drawn, label, cardinality? after before⟩
  else
    (left.product right).map fun e => ⟨e.1, e.2, j.drawn, label, cardinality? before after⟩

/-- The edges of the legs behind the side `left`. Each leg crosses the side before it with its own.
-/
def legEdges (label : Option String) (left : Side) : List Leg → List Edge
  | [] => []
  | leg :: legs => crossed label leg.joint leg.before leg.after left.ids leg.side.ids ++
      legEdges label leg.side legs

def Line.edges (l : Line) : List Edge := legEdges (l.label.map Label.text) l.first l.legs

/-! ## Expansion -/

/-- The link that a connector makes in the chain, with the texts that were found for it. -/
def Joint.link (j : Joint) (before after : Option String) : Link :=
  .connector ⟨j.drawn, j.isReverse, before, after⟩

theorem across_link (label : Option String) (j : Joint) (before after : Option String)
    (left right : List String) :
    across label ⟨j.drawn, j.isReverse, before, after⟩ left right =
      crossed label j before after left right := by
  have hcard (s t : Option String) :
      (if s.isSome || t.isSome then some (⟨s, t⟩ : Cardinality) else none) = cardinality? s t := by
    cases s <;> cases t <;> rfl
  unfold across crossed
  cases j.isReverse with
  | false =>
      simp only [Bool.false_eq_true, if_false, hcard, List.product, List.map_flatMap, List.map_map]
      rfl
  | true =>
      simp only [if_true, hcard, List.product, List.map_flatMap, List.map_map]
      rfl

/-- The links of connectors that follow each other: the first takes the text before the run, and
none takes one behind it. -/
def runLinks (before : Option String) : List Joint → List Link
  | [] => []
  | j :: js => j.link before none :: runLinks none js

/-- A connector that another connector follows draws nothing, for it has no ids behind it. Only the
last one of a run does. -/
theorem expand_run (label : Option String) (left : List String) (before : Option String)
    (dropped : List Joint) (c : Connector) (ids : List String) (rest : List Link) :
    expand label left (runLinks before dropped ++ .connector c :: .ends ids :: rest) =
      across label c left ids ++ expand label ids rest := by
  induction dropped generalizing before with
  | nil => rfl
  | cons j js ih =>
      rw [← ih none]
      cases js <;> rfl

/-- The links that the legs of a line make, connector and ids in turn. -/
def legLinks (legs : List Leg) : List Link :=
  legs.flatMap fun leg => [leg.joint.link leg.before leg.after, .ends leg.side.ids]

theorem expand_legs (label : Option String) (left : Side) (legs : List Leg) :
    expand label left.ids (legLinks legs) = legEdges label left legs := by
  induction legs generalizing left with
  | nil => rfl
  | cons leg legs ih =>
      rw [legEdges, ← ih, ← across_link]
      rfl

/-! ## Reduction -/

/-- A token that says this, wherever it stands. The place is made up; `read_of_spelling` says that
it does not matter. -/
def Spelling.token (s : Spelling) : Token := ⟨s.1, s.2, .start⟩

namespace Progress

def take (p : Progress) (s : Spelling) : Progress := p.token s.token

theorem take_word {w : String} (h : IsWord w) (p : Progress) : p.take (spellWord w) = p.word w :=
  token_of_isWord h.isWord_nameKind p

theorem take_joint (j : Joint) (p : Progress) :
    p.take j.spelled = p.connector j.drawn j.isReverse := by
  obtain ⟨kind, text, hconnects⟩ := j
  cases kind <;> first | rfl | cases hconnects

section Fold

variable {chain rest : List Link} {label wait : Option String} {ds : List Entity}
  {rs : List Diagnostic} {acc ids ws : List String} {side : Side} {legs : List Leg}

/-- Words behind commas join the ids before them. The induction is on the words, and the ids grow
behind. -/
theorem fold_more (hws : ∀ w ∈ ws, IsWord w) :
    (ws.flatMap fun w => [(.comma, ","), spellWord w]).foldl take
        ⟨.ends acc :: rest, label, false, wait, ds, rs⟩ =
      ⟨.ends (acc ++ ws) :: rest, label, false, wait, ds, rs⟩ := by
  induction ws generalizing acc with
  | nil =>
      rw [List.append_nil]
      rfl
  | cons w ws ih =>
      rw [List.flatMap_cons, List.foldl_append, List.foldl_cons, List.foldl_cons, List.foldl_nil,
        take_word (hws w (List.mem_cons_self ..)), List.append_cons]
      exact ih fun v hv => hws v (List.mem_cons_of_mem _ hv)

theorem fold_side (h : ∀ w ∈ side.ids, IsWord w) :
    side.spelled.foldl take ⟨chain, label, false, wait, ds, rs⟩ =
      ⟨.ends side.ids :: chain, label, false, wait, ds, rs⟩ := by
  rw [Side.spelled, List.foldl_cons, take_word (h _ (List.mem_cons_self ..))]
  exact fold_more fun w hw => h w (List.mem_cons_of_mem _ hw)

/-- Behind ids a text waits for the next connector. It is not known yet whether there is one. -/
theorem fold_before (s : Option String) :
    (spellText s).foldl take ⟨.ends ids :: rest, label, false, none, ds, rs⟩ =
      ⟨.ends ids :: rest, label, false, s, ds, rs⟩ := by
  cases s <;> rfl

/-- Behind a connector a text belongs to it, and nothing waits. -/
theorem fold_after (j : Joint) (before s : Option String) :
    (spellText s).foldl take ⟨j.link before none :: rest, label, false, wait, ds, rs⟩ =
      ⟨j.link before s :: rest, label, false, wait, ds, rs⟩ := by
  cases s <;> rfl

/-- Of connectors that follow each other the first gets the text that waits, and then none waits.
This is how the text before a run is lost. -/
theorem fold_run (j : Joint) (js : List Joint) :
    ((j :: js).map Joint.spelled).foldl take ⟨chain, label, false, wait, ds, rs⟩ =
      ⟨(runLinks wait (j :: js)).reverse ++ chain, label, false, none, ds, rs⟩ := by
  induction js generalizing j chain wait with
  | nil =>
      rw [List.map_singleton, List.foldl_cons, take_joint]
      rfl
  | cons k js ih =>
      rw [List.map_cons, List.foldl_cons, take_joint, runLinks, List.reverse_cons,
        List.append_assoc]
      exact ih k

theorem runLinks_concat (before : Option String) (dropped : List Joint) (j : Joint) :
    runLinks before (dropped ++ [j]) =
      runLinks before dropped ++ [j.link (if dropped = [] then before else none) none] := by
  induction dropped generalizing before with
  | nil => rfl
  | cons k ks ih =>
      rw [List.cons_append, runLinks, runLinks, ih, List.cons_append]
      simp

/-- A run of connectors with its texts and the side behind it. Only the last connector gets the text
behind the run, and only the first the text before it. -/
theorem fold_spellRun (hside : ∀ w ∈ side.ids, IsWord w) (before : Option String)
    (dropped : List Joint) (j : Joint) (after : Option String) :
    (spellRun before (dropped ++ [j]) after side).foldl take
        ⟨.ends ids :: rest, label, false, none, ds, rs⟩ =
      ⟨.ends side.ids :: j.link (if dropped = [] then before else none) after ::
        ((runLinks before dropped).reverse ++ .ends ids :: rest), label, false, none, ds, rs⟩ := by
  have hrun : ((dropped ++ [j]).map Joint.spelled).foldl take
      ⟨.ends ids :: rest, label, false, before, ds, rs⟩ =
        ⟨j.link (if dropped = [] then before else none) none ::
            ((runLinks before dropped).reverse ++ .ends ids :: rest),
          label, false, none, ds, rs⟩ := by
    obtain ⟨k, ks, hcons⟩ := List.exists_cons_of_ne_nil (List.append_ne_nil_of_right_ne_nil dropped
      (List.cons_ne_nil j []))
    rw [hcons, fold_run, ← hcons, runLinks_concat, List.reverse_append]
    rfl
  rw [spellRun, List.foldl_append, fold_before, List.foldl_append, hrun, List.foldl_append,
    fold_after, fold_side hside]

theorem fold_legs (hlegs : ∀ leg ∈ legs, ∀ w ∈ leg.side.ids, IsWord w) :
    (legs.flatMap Leg.spelled).foldl take ⟨.ends ids :: rest, label, false, none, ds, rs⟩ =
      ⟨(legLinks legs).reverse ++ .ends ids :: rest, label, false, none, ds, rs⟩ := by
  induction legs generalizing ids rest with
  | nil => rfl
  | cons leg legs ih =>
      have hleg : leg.spelled.foldl take ⟨.ends ids :: rest, label, false, none, ds, rs⟩ =
          ⟨.ends leg.side.ids :: leg.joint.link leg.before leg.after :: .ends ids :: rest, label,
            false, none, ds, rs⟩ :=
        fold_spellRun (hlegs leg (List.mem_cons_self ..)) leg.before [] leg.joint leg.after
      have hlinks : legLinks (leg :: legs) =
          leg.joint.link leg.before leg.after :: .ends leg.side.ids :: legLinks legs := rfl
      rw [List.flatMap_cons, List.foldl_append, hleg,
        ih fun l hl => hlegs l (List.mem_cons_of_mem _ hl), hlinks, List.reverse_cons,
        List.reverse_cons, List.append_assoc, List.append_assoc]
      rfl

end Fold

end Progress

/-! ## Whole lines -/

section Plain

variable {dialect : Dialect} {side : Side} {legs : List Leg}

/-- Tokens that make a step of the reduction by themselves: none of them opens a span or begins a
label, so reducing them is a fold. -/
def IsPlain (ss : List Spelling) : Prop := ∀ s ∈ ss, isPlain s.1 = true

theorem isPlain_append {ss ts : List Spelling} (hs : IsPlain ss) (ht : IsPlain ts) :
    IsPlain (ss ++ ts) := fun s h => (List.mem_append.mp h).elim (hs s) (ht s)

theorem isPlain_word {w : String} (h : IsWord w) : isPlain (spellWord w).1 = true :=
  isPlain_of_isWord h.isWord_nameKind

theorem isPlain_side (h : ∀ w ∈ side.ids, IsWord w) : IsPlain side.spelled := by
  intro s hs
  rcases List.mem_cons.mp hs with rfl | hs
  · exact isPlain_word (h _ (List.mem_cons_self ..))
  · obtain ⟨w, hw, hs⟩ := List.mem_flatMap.mp hs
    rcases List.mem_cons.mp hs with rfl | hs
    · rfl
    · rw [List.mem_singleton.mp hs]
      exact isPlain_word (h w (List.mem_cons_of_mem _ hw))

theorem isPlain_spellText (s : Option String) : IsPlain (spellText s) := by
  intro t ht
  cases s with
  | none => cases ht
  | some s =>
      rw [List.mem_singleton.mp ht]
      rfl

theorem isPlain_run (run : List Joint) : IsPlain (run.map Joint.spelled) := by
  intro s hs
  obtain ⟨⟨kind, text, hconnects⟩, -, rfl⟩ := List.mem_map.mp hs
  simp [Joint.spelled, isPlain, hconnects]

theorem isPlain_spellRun (h : ∀ w ∈ side.ids, IsWord w) (before after : Option String)
    (run : List Joint) : IsPlain (spellRun before run after side) :=
  isPlain_append (isPlain_spellText before) (isPlain_append (isPlain_run run)
    (isPlain_append (isPlain_spellText after) (isPlain_side h)))

theorem isPlain_legs (h : ∀ leg ∈ legs, ∀ w ∈ leg.side.ids, IsWord w) :
    IsPlain (legs.flatMap Leg.spelled) := by
  intro s hs
  obtain ⟨leg, hleg, hs⟩ := List.mem_flatMap.mp hs
  exact isPlain_spellRun (h leg hleg) _ _ _ s hs

theorem reduce_spelled {ss : List Spelling} (h : IsPlain ss) (p : Progress) (rest : List Token) :
    reduce dialect p (ss.map Spelling.token ++ rest) =
      reduce dialect (ss.foldl Progress.take p) rest := by
  induction ss generalizing p with
  | nil => rfl
  | cons s ss ih =>
      rw [List.map_cons, List.cons_append, reduce_plain (h s (List.mem_cons_self ..))]
      exact ih (fun t ht => h t (List.mem_cons_of_mem _ ht)) _

end Plain

/-- The words of a label are joined by single spaces, whatever stood between them in the text. -/
theorem joined_words {ws : List String} (h : ∀ w ∈ ws, IsWord w) :
    Phrase.joined ((ws.map spellWord).map Spelling.token) = " ".intercalate ws := by
  have hfilter : ((ws.map spellWord).map Spelling.token).filter
      (fun t => t.kind != .newline && t.kind != .comment) =
        (ws.map spellWord).map Spelling.token := by
    refine List.filter_eq_self.mpr fun t ht => ?_
    obtain ⟨s, hs, rfl⟩ := List.mem_map.mp ht
    obtain ⟨w, hw, rfl⟩ := List.mem_map.mp hs
    have hk := (h w hw).isWord_nameKind
    show (Token.nameKind w.toList != .newline && Token.nameKind w.toList != .comment) = true
    cases hn : Token.nameKind w.toList <;> simp_all [Token.Kind.isWord]
  have htexts : ((ws.map spellWord).map Spelling.token).map Token.text = ws := by
    rw [List.map_map, List.map_map]
    exact List.map_id' ws
  rw [Phrase.joined, hfilter, htexts, Text.trim_joined fun w hw => (h w hw).isSolid]

/-- The tokens behind the colon are the label, if there is a colon at all. They end the line. -/
theorem reduce_label {dialect : Dialect} {l : Option Label} (h : ∀ label ∈ l, label.Valid)
    (chain : List Link) :
    reduce dialect ⟨chain, none, false, none, [], []⟩
        (((l.map Label.spelled).getD []).map Spelling.token) =
      ⟨chain, l.map Label.text, false, none, [], []⟩ := by
  have hcolon (ts : List Token) (text : String) (hts : Phrase.joined ts = text) (hne : text ≠ "") :
      reduce dialect ⟨chain, none, false, none, [], []⟩ (Spelling.token (.colon, ":") :: ts) =
        ⟨chain, some text, false, none, [], []⟩ := by
    rw [reduce_colon rfl rfl, hts, Progress.labelled, if_neg (by simpa using hne)]
  cases l with
  | none =>
      rw [Option.map_none, Option.map_none, Option.getD_none, List.map_nil, reduce]
  | some label =>
      have hvalid := h label rfl
      cases label with
      | words w ws =>
          have hsolid : ∀ v ∈ w :: ws, Text.IsSolid v := fun v hv => (hvalid v hv).isSolid
          exact hcolon _ _ (joined_words hvalid) fun he =>
            List.cons_ne_nil w ws ((Text.joined_eq_empty_iff hsolid).mp he)
      | quoted s =>
          refine hcolon _ _ ?_ hvalid.1
          show Phrase.joined [⟨.string, s, .start⟩] = s
          simpa [Phrase.joined] using hvalid.2

section Read

variable {dialect : Dialect}

/-- A line draws its edges and nothing else: it declares nothing and is read without a report. The
reduction gives the links leg by leg, and expanding them gives the products. -/
theorem read_line {l : Line} (h : l.Valid) :
    read dialect (l.spelled.map Spelling.token) = ⟨l.edges, [], []⟩ := by
  have hreduce : reduce dialect .start (l.spelled.map Spelling.token) =
      ⟨(legLinks l.legs).reverse ++ [.ends l.first.ids], l.label.map Label.text, false, none, [],
        []⟩ := by
    rw [Line.spelled, List.map_append, reduce_spelled (isPlain_side h.first), Progress.start,
      Progress.fold_side h.first, List.map_append, reduce_spelled (isPlain_legs h.sides),
      Progress.fold_legs h.sides, reduce_label h.label]
  rw [read, hreduce, List.reverse_append, List.reverse_reverse]
  exact congrArg (fun es => (⟨es, [], []⟩ : Reading)) (expand_legs _ _ _)

/-- Between two sides only the last connector of a run draws, and the text before the run is lost
unless it is the only one. -/
theorem read_run {left right : Side} (hleft : ∀ w ∈ left.ids, IsWord w)
    (hright : ∀ w ∈ right.ids, IsWord w) (before : Option String) (dropped : List Joint)
    (j : Joint) (after : Option String) :
    read dialect ((left.spelled ++ spellRun before (dropped ++ [j]) after right).map
        Spelling.token) =
      ⟨crossed none j (if dropped = [] then before else none) after left.ids right.ids, [],
        []⟩ := by
  have hplain := isPlain_append (isPlain_side hleft)
    (isPlain_spellRun hright before after (dropped ++ [j]))
  have hreduce : reduce dialect .start
      ((left.spelled ++ spellRun before (dropped ++ [j]) after right).map Spelling.token) =
        ⟨.ends right.ids :: j.link (if dropped = [] then before else none) after ::
          ((runLinks before dropped).reverse ++ [.ends left.ids]), none, false, none, [], []⟩ := by
    rw [← List.append_nil (List.map _ _), reduce_spelled hplain, List.foldl_append, Progress.start,
      Progress.fold_side hleft, Progress.fold_spellRun hright, reduce]
  have hchain : (Link.ends right.ids :: j.link (if dropped = [] then before else none) after ::
      ((runLinks before dropped).reverse ++ [.ends left.ids])).reverse =
        .ends left.ids :: (runLinks before dropped ++
          [j.link (if dropped = [] then before else none) after, .ends right.ids]) := by
    simp
  rw [read, hreduce]
  simp only [hchain, expand]
  rw [Joint.link, expand_run, across_link, expand, List.append_nil]

/-- Places do not matter: the tokens say what they spell. So what is proved of made-up places holds
wherever the line stands. -/
theorem read_of_spelling {ts : List Token} {ss : List Spelling} {es : List Edge}
    (hts : ts.map Token.spelling = ss)
    (h : read dialect (ss.map Spelling.token) = ⟨es, [], []⟩) : read dialect ts = ⟨es, [], []⟩ := by
  have hmoved : ts.map (Token.move fun _ => .start) = ss.map Spelling.token := by
    rw [← hts, List.map_map]
    rfl
  rw [← hmoved, read_move] at h
  have hedges : (read dialect ts).edges = es := congrArg Reading.edges h
  have hdeclared : (read dialect ts).declared = [] := congrArg Reading.declared h
  have hreports : (read dialect ts).diagnostics = [] :=
    List.map_eq_nil_iff.mp (congrArg Reading.diagnostics h)
  calc read dialect ts = ⟨(read dialect ts).edges, (read dialect ts).declared,
        (read dialect ts).diagnostics⟩ := rfl
    _ = ⟨es, [], []⟩ := by rw [hedges, hdeclared, hreports]

end Read

end EdgeLine

end Schematic
