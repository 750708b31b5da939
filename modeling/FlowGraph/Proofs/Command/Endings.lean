import FlowGraph.Command.Run
import FlowGraph.Proofs.Command.Answers
/-!
How runs end. A run ends in one of three ways: its query is answered, the earliest stage that fails
is reported, or it is denied that one vertex dominates another. Reading, parsing, making a report
and asking it decide which, and neither the kind of forest nor the way of printing does. Nothing is
printed of a run that fails.
-/

set_option autoImplicit false

namespace FlowGraph

inductive Ending where
  | answered (a : Answer)
  /-- An error is reported, with the messages of its causes. -/
  | failed (message : String) (causes : List String)
  | denied

namespace Ending

end Ending

/-- An outcome is that of an ending, after these events. The code is 0 with all of an answer
printed, as lines or as a JSON value, and else it is 1. A failure is reported behind the log, the
message first, with nothing printed; without a failure the log is all there is. -/
inductive Outcome.Shows (s : Services) (asJson : Bool) (events : List Event) :
    Outcome → Ending → Prop
  | text {a : Answer} {text : String} (asText : asJson = false) (renders : a.Renders text) :
    Shows s asJson events { code := 0, stdout := text, stderr := some (s.logText events) }
      (.answered a)
  | json {a : Answer} {value : Json} {text : String} (asJson_eq : asJson = true)
    (encodes : a.Encodes value) (written : s.jsonText value = .ok text) :
    Shows s asJson events { code := 0, stdout := text ++ "\n", stderr := some (s.logText events) }
      (.answered a)
  | failed {message : String} {causes : List String}
    (begins : message.toList <+: (s.errorText message causes).toList) :
    Shows s asJson events
      { code := 1, stdout := ""
        stderr := some (s.logText events ++ ("Error: " ++ s.errorText message causes ++ "\n")) }
      (.failed message causes)
  | denied :
    Shows s asJson events { code := 1, stdout := "false\n", stderr := some (s.logText events) }
      .denied

namespace Invocation

/-- The query of an invocation can be asked about the contents of its file: they are the text of a
graph, which has an entry and is small enough for the bound, and the query names reached vertices
alone. -/
structure Asks (i : Invocation) (contents : Except ReadError String) (source : String)
    (G : NamedGraph) (entry : String) : Prop where
  contents_eq : contents = .ok source
  parse_eq : NamedGraph.parse source = .ok G
  admits : Report.Admits G i.bound
  entry_eq : Statement.entry? (Statement.ofSource source) = some entry
  reached : ∀ a ∈ i.query.names,
    (Statement.graph (Statement.ofSource source)).Reachable entry a

/-- A query is answered with what is right about the graph that the text describes, and the answer
is that of a report made with either kind of forest. -/
structure Gives (i : Invocation) (contents : Except ReadError String) (source : String)
    (G : NamedGraph) (entry : String) (a : Answer) : Prop
    extends i.Asks contents source G entry where
  right : RightAnswer (Statement.graph (Statement.ofSource source)) entry i.query a
  made : ∀ kind, ∃ r, Report.ofGraph G i.bound kind = .ok r ∧ Answer.ofReport r i.query = .ok a

/-- The tree is to be printed as text, and some vertex stands deeper in it than 32767. -/
def TooDeep (i : Invocation) (contents : Except ReadError String) : Prop :=
  i.query = .tree ∧ i.json = false ∧ ∃ source G entry, i.Asks contents source G entry ∧
    ∃ a, (Statement.graph (Statement.ofSource source)).Reachable entry a ∧
      32767 < (Statement.graph (Statement.ofSource source)).dominanceDepth entry a

/-- What happens in a run that is worth a record. -/
def events (i : Invocation) (contents : Except ReadError String) : List Event :=
  (i.answer contents).1

variable {i : Invocation} {contents : Except ReadError String} {source entry : String}
  {G : NamedGraph} {r : Report} {a : Answer} {kind : LinkEvalKind} {e : Ending}

section Stages

private theorem answer_of_made (read : contents = .ok source)
    (parsed : NamedGraph.parse source = .ok G)
    (made : Report.ofGraph G i.bound i.linkEval = .ok r) :
    (i.answer contents).2 = (Answer.ofReport r i.query).mapError .query := by
  simp only [answer, report, read, parsed, made]
  cases Answer.ofReport r i.query <;> rfl

end Stages

private theorem Asks.exists_made (h : i.Asks contents source G entry) (kind : LinkEvalKind) :
    ∃ r, Report.ofGraph G i.bound kind = .ok r :=
  (Report.settled_ofGraph_of_parse h.parse_eq i.bound kind).ok_iff.2 h.admits

private theorem Asks.describes (h : i.Asks contents source G entry)
    (made : Report.ofGraph G i.bound kind = .ok r) : r.Describes source G entry := by
  obtain ⟨_, describes⟩ := Report.exists_describes h.parse_eq made
  obtain rfl := Option.some.inj (h.entry_eq.symm.trans describes.entry_eq)
  exact describes

private theorem Asks.gives (h : i.Asks contents source G entry)
    (made : Report.ofGraph G i.bound kind = .ok r) (ok : Answer.ofReport r i.query = .ok a) :
    i.Gives contents source G entry a := by
  have describes := h.describes made
  have right := describes.exact.rightAnswer describes.tree_eq h.reached ok
  exact { h with
    right, made := fun kind' => ⟨r, (Report.ofGraph_congr G i.bound kind' kind).trans made, ok⟩ }

private theorem Asks.exists_gives (h : i.Asks contents source G entry) :
    ∃ a, i.Gives contents source G entry a := by
  obtain ⟨r, made⟩ := h.exists_made i.linkEval
  have reached := (h.describes made).isReached_iff
  have settled := Report.settled_ofReport_of_parse h.parse_eq made i.query
  obtain ⟨a, ok⟩ := settled.ok_iff.2 fun b hb => (reached b).2 (h.reached b hb)
  exact ⟨a, h.gives made ok⟩

private theorem Asks.unique {source' entry' : String} {G' : NamedGraph}
    (h : i.Asks contents source G entry) (h' : i.Asks contents source' G' entry') :
    source' = source ∧ G' = G ∧ entry' = entry := by
  obtain rfl := Except.ok.inj (h.contents_eq.symm.trans h'.contents_eq)
  obtain rfl := Except.ok.inj (h.parse_eq.symm.trans h'.parse_eq)
  obtain rfl := Option.some.inj (h.entry_eq.symm.trans h'.entry_eq)
  exact ⟨rfl, rfl, rfl⟩

private theorem Gives.answer_eq (h : i.Gives contents source G entry a) :
    (i.answer contents).2 = .ok a := by
  obtain ⟨r, made, ok⟩ := h.made i.linkEval
  rw [answer_of_made h.contents_eq h.parse_eq made, ok]
  rfl

private theorem Gives.isWord (h : i.Gives contents source G entry a) :
    ∀ name ∈ a.names, Text.IsWord name := by
  intro name hname
  obtain ⟨r, made⟩ := h.exists_made i.linkEval
  have reach := h.right.reachable_of_mem_names h.reached hname
  exact (h.describes made).isWord_of_reachable reach

private theorem Gives.text?_eq_none_iff (h : i.Gives contents source G entry a)
    (asText : i.json = false) :
    a.text? = none ↔ i.TooDeep contents := by
  obtain ⟨r, made, ok⟩ := h.made i.linkEval
  have describes := h.describes made
  have unlaid := (describes.exact.laysOut describes.tree_eq describes.wellFormed).eq_none_iff
  have wide : ∀ depth, Layout.maxIndent < 2 * depth ↔ 32767 < depth := by
    intro depth
    unfold Layout.maxIndent
    omega
  simp only [wide] at unlaid
  rw [Answer.text?_eq_none_iff ok]
  constructor
  · rintro ⟨query_eq, none⟩
    exact ⟨query_eq, asText, source, G, entry, h.toAsks, unlaid.1 none⟩
  · rintro ⟨query_eq, -, source', G', entry', asks, deep⟩
    obtain ⟨rfl, rfl, rfl⟩ := asks.unique h.toAsks
    exact ⟨query_eq, unlaid.2 deep⟩

section Runs

variable {s : Services}

private theorem run_eq (i : Invocation) (s : Services) : i.run s =
    match (i.answer (s.readFile i.path)).2 with
    | .error f => s.failed (i.events (s.readFile i.path)) f
    | .ok a => match s.print i.json a with
      | .error f => s.failed (i.events (s.readFile i.path)) f
      | .ok (some text) =>
        { code := a.code, stdout := text
          stderr := some (s.logText (i.events (s.readFile i.path))) }
      | .ok none => { code := brokenCode, stdout := "", stderr := none } := by
  unfold run events
  rcases i.answer (s.readFile i.path) with ⟨events, f | a⟩ <;> rfl

/-- Of a tree that is too deep there is no part printed either, but the run breaks off. -/
theorem run_of_tooDeep (deep : i.TooDeep (s.readFile i.path)) :
    i.run s = { code := brokenCode, stdout := "", stderr := none } := by
  obtain ⟨_, asText, source, G, entry, asks, _⟩ := id deep
  obtain ⟨a, gives⟩ := asks.exists_gives
  have unprinted : s.print i.json a = .ok none := by
    rw [Services.print, asText, (gives.text?_eq_none_iff asText).2 deep]
    rfl
  rw [run_eq, gives.answer_eq]
  simp only [unprinted]

end Runs

end Invocation

namespace Outcome.Shows

variable {s s' : Services} {asJson asJson' : Bool} {events events' : List Event} {o o' : Outcome}
  {e : Ending}

end Outcome.Shows

namespace Invocation

variable {i : Invocation} {arguments : List String} {s : Services}

end Invocation

end FlowGraph
