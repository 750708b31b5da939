import FlowGraph.Command.Execution
import FlowGraph.Proofs.Dominator.Agreement
import FlowGraph.Proofs.Report.Faults
import FlowGraph.Proofs.Report.Indentation
/-!
What queries are answered with. An answer says of the graph on names what its query asks for, and
does not depend on the kind of forest that the dominators were found with. All answers have a text
but for the tree of a graph where some vertex stands too deep.
-/

set_option autoImplicit false

namespace FlowGraph

universe u

def Query.names : Query → List String
  | idom => []
  | tree => []
  | dominates a b => [a, b]
  | chain vertex => [vertex]

/-- A dominator tree by name: it has one row for each vertex that the entry reaches, with the number
of its proper dominators, and with those that it dominates immediately. -/
structure ListsTree (g : Graph String) (entry : String) (rows : List TreeRow) : Prop where
  nodup : (rows.map TreeRow.vertex).Nodup
  mem_iff : ∀ a, a ∈ rows.map TreeRow.vertex ↔ g.Reachable entry a
  depth_eq : ∀ row ∈ rows, row.depth = g.dominanceDepth entry row.vertex
  nodup_children : ∀ row ∈ rows, row.children.Nodup
  mem_children_iff : ∀ row ∈ rows, ∀ c, c ∈ row.children ↔
    g.Reachable entry c ∧ g.ImmediatelyDominates entry row.vertex c

inductive RightAnswer (g : Graph String) (entry : String) : Query → Answer → Prop
  | idom {rows : List IdomRow} (lists : ListsIdoms g entry rows) :
    RightAnswer g entry .idom (.idoms rows)
  | tree {rows : List TreeRow} (lists : ListsTree g entry rows) :
    RightAnswer g entry .tree (.tree rows)
  | dominates {a b : String} {holds : Bool} (iff : holds = true ↔ g.Dominates entry a b) :
    RightAnswer g entry (.dominates a b) (.dominates holds)
  | chain {vertex : String} {doms : List String} (lists : ListsChain g entry vertex doms) :
    RightAnswer g entry (.chain vertex) (.chain doms)

namespace Answer

/-- The names that an answer shows as text. -/
def names : Answer → List String
  | idoms rows => rows.flatMap fun row => [row.vertex, row.idom]
  | tree rows => rows.map TreeRow.vertex
  | dominates _ => []
  | chain doms => doms

/-- The lines of an answer: an arrow between the two names of a row, two spaces for each level of
depth before a vertex of the tree, a word for a truth value, and spaces between the names of a
chain. -/
def lines : Answer → List String
  | idoms rows => rows.map fun row => row.vertex ++ " <- " ++ row.idom
  | tree rows => rows.map fun row =>
    String.ofList (List.replicate (2 * row.depth) ' ') ++ row.vertex
  | dominates true => ["true"]
  | dominates false => ["false"]
  | chain doms => [String.intercalate " " doms]

/-- A text holds the lines of an answer, each of them ended, and nothing else. -/
def Renders (a : Answer) (text : String) : Prop :=
  Text.endedLines? text = some (a.lines.map String.toList)

/-- A JSON value holds an answer: a list has an item for each row or name, in their order, and an
item for a row has its parts as fields. -/
inductive Encodes : Answer → Json → Prop
  | idoms {rows : List IdomRow} {items : List Json}
    (encoded : List.Forall₂
      (fun row item => Json.obj [("vertex", .str row.vertex), ("idom", .str row.idom)] = item)
      rows items) : Encodes (.idoms rows) (.arr items)
  | tree {rows : List TreeRow} {items : List Json}
    (encoded : List.Forall₂
      (fun row item => Json.obj [("vertex", .str row.vertex), ("depth", .num row.depth),
        ("children", .arr (row.children.map .str))] = item)
      rows items) : Encodes (.tree rows) (.arr items)
  | dominates (holds : Bool) : Encodes (.dominates holds) (.bool holds)
  | chain {doms : List String} {items : List Json}
    (encoded : List.Forall₂ (fun name item => Json.str name = item) doms items) :
    Encodes (.chain doms) (.arr items)

end Answer

section Kinds

private theorem Dominators.ofSpanningTree_congr {N : Type u} {t : SpanningTree N}
    (df : t.flow.DepthFirst) (kind kind' : LinkEvalKind) :
    ofSpanningTree kind t = ofSpanningTree kind' t := by
  have agree : t.idoms .simple = t.idoms .balanced :=
    Flow.idoms_agree SimpleLinks BalancedLinks df
  have same : t.idoms kind = t.idoms kind' := by
    cases kind <;> cases kind' <;> first | rfl | exact agree | exact agree.symm
  simp only [ofSpanningTree, same]

theorem Report.ofGraph_congr (G : NamedGraph) (bound : Option Nat) (kind kind' : LinkEvalKind) :
    ofGraph G bound kind = ofGraph G bound kind' := by
  unfold ofGraph
  cases G.entry? with
  | none => rfl
  | some start =>
    simp only [Graph.dominators]
    cases found : (G.graph.explore (bound.getD G.size) start).result with
    | error e => rfl
    | ok t =>
      have same := Dominators.ofSpanningTree_congr (SpanningTree.depthFirst_of_explore found)
        kind kind'
      simp only [Except.map, same]

end Kinds

theorem RightAnswer.reachable_of_mem_names {g : Graph String} {entry b : String} {query : Query}
    {a : Answer} (h : RightAnswer g entry query a)
    (reached : ∀ c ∈ query.names, g.Reachable entry c) (hb : b ∈ a.names) :
    g.Reachable entry b := by
  cases h with
  | @idom rows lists =>
    obtain ⟨row, hrow, hb⟩ := List.mem_flatMap.1 hb
    have reach := (lists.mem_iff row.vertex).1 (List.mem_map_of_mem hrow)
    rcases List.mem_pair.1 hb with rfl | rfl
    · exact reach
    · by_cases hentry : row.vertex = entry
      · rw [lists.idom_of_entry row hrow hentry, ← hentry]
        exact hentry ▸ reach
      · exact (lists.idom_of_ne row hrow hentry).dominates.reachable reach
  | tree lists => exact (lists.mem_iff b).1 hb
  | dominates iff => cases hb
  | @chain vertex doms lists =>
    have reach := reached vertex (List.mem_singleton_self vertex)
    exact ((lists.mem_iff b).1 hb).2.reachable reach

namespace Report

variable {r : Report} {G : NamedGraph} {g : Graph String} {entry a : String} {row : TreeRow}
  {query : Query} {given : Answer}

private theorem isReached_iff {start : Nat} (depicts : G.Depicts g) (hentry : G.entry? = some start)
    (name : G.name? start = some entry) : IsReached G a ↔ g.Reachable entry a := by
  rw [depicts.reachable_iff name]
  constructor
  · rintro ⟨v, hv, number⟩
    exact ⟨v, (mem_reached_iff hentry).1 hv, NamedGraph.name?_of_number? number⟩
  · rintro ⟨v, reach, hv⟩
    exact ⟨v, (mem_reached_iff hentry).2 reach, depicts.number?_of_name? hv⟩

namespace Exact

variable (h : r.Exact g entry) (htree : r.dominators.tree = IdomTree.ofTable r.dominators.idoms)
include h htree

private theorem mem_children_iff (hrow : row ∈ r.tree) (c : String) : c ∈ row.children ↔
    g.Reachable entry c ∧ g.ImmediatelyDominates entry row.vertex c := by
  obtain ⟨i, isRow⟩ := h.exists_isRow htree hrow
  have table := h.listsIdoms_idomRow
  rw [h.children_eq_filter htree isRow, List.mem_map]
  constructor
  · rintro ⟨below, hbelow, rfl⟩
    obtain ⟨hmem, keep⟩ := List.mem_filter.1 hbelow
    obtain ⟨hne, idom⟩ := of_decide_eq_true keep
    refine ⟨(table.mem_iff _).1 (List.mem_map_of_mem hmem), ?_⟩
    rw [← idom]
    exact table.idom_of_ne below hmem hne
  · rintro ⟨reach, idom⟩
    obtain ⟨below, hmem, rfl⟩ := List.mem_map.1 ((table.mem_iff c).2 reach)
    have hne : below.vertex ≠ entry := by
      intro heq
      rw [heq] at idom
      exact idom.ne idom.dominates.eq_entry
    have same : below.idom = row.vertex :=
      (table.idom_of_ne below hmem hne).unique idom reach
    exact ⟨below, List.mem_filter.2 ⟨hmem, decide_eq_true ⟨hne, same⟩⟩, rfl⟩

private theorem listsTree : ListsTree g entry r.tree where
  nodup := h.nodup_vertex_tree htree
  mem_iff _ := h.mem_vertex_tree htree
  depth_eq _ hrow := h.depth_eq_dominanceDepth htree hrow
  nodup_children row hrow := by
    obtain ⟨i, isRow⟩ := h.exists_isRow htree hrow
    rw [h.children_eq_filter htree isRow]
    exact h.nodup_idomRow.sublist (List.filter_sublist.map _)
  mem_children_iff _ hrow := h.mem_children_iff htree hrow

theorem rightAnswer (reached : ∀ a ∈ query.names, g.Reachable entry a)
    (ok : Answer.ofReport r query = .ok given) : RightAnswer g entry query given := by
  have correct := h.correct
  cases query with
  | idom =>
    obtain ⟨rows, hrows, lists⟩ := correct.idoms
    rw [Answer.ofReport, hrows] at ok
    obtain rfl := Except.ok.inj ok
    exact .idom lists
  | tree =>
    obtain rfl := Except.ok.inj ok
    exact .tree (h.listsTree htree)
  | dominates a b =>
    obtain ⟨holds, hholds, iff⟩ :=
      correct.dominates a b (reached a (by simp [Query.names])) (reached b (by simp [Query.names]))
    rw [Answer.ofReport, hholds] at ok
    obtain rfl := Except.ok.inj ok
    exact .dominates iff
  | chain vertex =>
    obtain ⟨doms, hdoms, lists⟩ := correct.chain vertex (reached vertex (by simp [Query.names]))
    rw [Answer.ofReport, hdoms] at ok
    obtain rfl := Except.ok.inj ok
    exact .chain lists

end Exact

private theorem AnswersReached.settled_ofReport (h : r.AnswersReached G) (query : Query) :
    AnswersNames G query.names (Answer.ofReport r query) := by
  -- a query about no names has no faults
  have answered : ∀ given, Answer.ofReport r query = .ok given → query.names = [] →
      AnswersNames G query.names (Answer.ofReport r query) := by
    intro given ok names
    rw [ok, names]
    refine ⟨by simp, fun e => ⟨(nomatch ·), fun fault => ?_⟩⟩
    cases fault with
    | unknown first => exact absurd first not_firstFailing_nil
    | notReached numbers first =>
      rw [List.map_nil, eq_comm, List.map_eq_nil_iff] at numbers
      rw [numbers] at first
      exact absurd first not_firstFailing_nil
  cases query with
  | idom =>
    obtain ⟨rows, hrows⟩ := h.idoms
    exact answered (.idoms rows) (by rw [Answer.ofReport, hrows]; rfl) rfl
  | tree => exact answered (.tree r.tree) rfl rfl
  | dominates a b => exact (h.dominates a b).map Answer.dominates
  | chain vertex => exact (h.chain vertex).map Answer.chain

section Parsed

structure Describes (r : Report) (source : String) (G : NamedGraph) (entry : String) : Prop where
  graph_eq : r.graph = G
  entry_eq : Statement.entry? (Statement.ofSource source) = some entry
  exact : r.Exact (Statement.graph (Statement.ofSource source)) entry
  tree_eq : r.dominators.tree = IdomTree.ofTable r.dominators.idoms
  wellFormed : r.graph.WellFormed
  isReached_iff : ∀ a, IsReached G a ↔
    (Statement.graph (Statement.ofSource source)).Reachable entry a

variable {source : String} {bound : Option Nat} {kind : LinkEvalKind}

theorem Describes.isWord_of_reachable (h : r.Describes source G entry)
    (reach : (Statement.graph (Statement.ofSource source)).Reachable entry a) :
    Text.IsWord a := by
  obtain ⟨i, rfl⟩ := h.exact.reachable_iff.1 reach
  exact h.exact.isWord_label h.wellFormed i

variable (parsed : NamedGraph.parse source = .ok G)
include parsed

theorem settled_ofGraph_of_parse (bound : Option Nat) (kind : LinkEvalKind) :
    Settled (ofGraph G bound kind) (Admits G bound) (Refusal G bound) :=
  settled_ofGraph (NamedGraph.wellFormed_of_parse parsed)
    (NamedGraph.denotes_of_parse parsed).depicts bound kind

variable (made : ofGraph G bound kind = .ok r)
include made

theorem settled_ofReport_of_parse (query : Query) :
    AnswersNames G query.names (Answer.ofReport r query) :=
  (answersReached_of_ofGraph (NamedGraph.wellFormed_of_parse parsed)
    (NamedGraph.denotes_of_parse parsed).depicts made).settled_ofReport query

theorem exists_describes : ∃ entry, r.Describes source G entry := by
  obtain ⟨start, entry, madeOf⟩ := exists_madeOf parsed made
  have denotes := NamedGraph.denotes_of_parse parsed
  exact ⟨entry, madeOf.graph_eq, denotes.entry?_eq madeOf.entry?_eq madeOf.name?_eq,
    exact_of_ofGraph denotes.depicts madeOf.entry?_eq madeOf.name?_eq made, madeOf.tree_eq,
    madeOf.graph_eq ▸ madeOf.wellFormed,
    fun a => isReached_iff denotes.depicts madeOf.entry?_eq madeOf.name?_eq⟩

end Parsed

end Report

namespace Answer

variable {r : Report} {query : Query} {a : Answer} {text : String} {value : Json}

theorem Renders.unique {text' : String} (h : a.Renders text) (h' : a.Renders text') :
    text' = text := by
  have cut := Text.endedLines?_eq_some_iff.1 h
  have cut' := Text.endedLines?_eq_some_iff.1 h'
  have back : ∀ cs : List Char, ['\n'].intercalate (cs.splitOn '\n') = cs :=
    fun _ => List.intercalate_splitOn '\n'
  rw [← String.toList_inj, ← back text.toList, ← back text'.toList, cut, cut']

private theorem ofReport_eq_tree_iff {rows : List TreeRow} :
    ofReport r query = .ok (.tree rows) ↔ query = .tree ∧ r.tree = rows := by
  constructor
  · intro ok
    cases query with
    | idom =>
      cases hrows : r.idoms <;> simp [ofReport, hrows, Except.map] at ok
    | tree => exact ⟨rfl, Answer.tree.inj (Except.ok.inj ok)⟩
    | dominates a b =>
      cases hholds : r.dominates a b <;> simp [ofReport, hholds, Except.map] at ok
    | chain vertex =>
      cases hdoms : r.chain vertex <;> simp [ofReport, hdoms, Except.map] at ok
  · rintro ⟨rfl, rfl⟩
    rfl

theorem text?_eq_none_iff (ok : ofReport r query = .ok a) :
    a.text? = none ↔ query = .tree ∧ Layout.tree? r.tree = none := by
  have unlaid : a.text? = none ↔ ∃ rows, a = .tree rows ∧ Layout.tree? rows = none := by
    cases a <;> simp [text?]
  rw [unlaid]
  constructor
  · rintro ⟨rows, rfl, none⟩
    obtain ⟨rfl, rfl⟩ := ofReport_eq_tree_iff.1 ok
    exact ⟨rfl, none⟩
  · rintro ⟨rfl, none⟩
    obtain rfl := Except.ok.inj ok
    exact ⟨_, rfl, none⟩

end Answer

end FlowGraph
