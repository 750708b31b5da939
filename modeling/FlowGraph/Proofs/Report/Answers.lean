import FlowGraph.Proofs.Dominator.ProperDominators
import FlowGraph.Proofs.Source.Naming
import FlowGraph.Report.Basic
/-!
What reports answer. The answers of a report are right about the graph on names that its source
describes, and two reports answer alike if that graph has the same edges and the same entry, no
matter how the vertices are numbered and in which order the edges stand.
-/

set_option autoImplicit false

namespace FlowGraph

theorem Dominators.toList_vertices {N : Type} (d : Dominators N) :
    d.vertices.toList = (List.finRange d.size).map d.vertex := by
  refine List.ext_getElem ?_ ?_
  · rw [List.length_map, List.length_finRange]
    rfl
  · intro i hi hi'
    simp [Dominators.vertex]

/-- A table of immediate dominators by name: it has one row for each vertex that the entry
reaches, and the row of the entry holds the entry itself. -/
structure ListsIdoms (g : Graph String) (entry : String) (rows : List IdomRow) : Prop where
  nodup : (rows.map IdomRow.vertex).Nodup
  mem_iff : ∀ a, a ∈ rows.map IdomRow.vertex ↔ g.Reachable entry a
  idom_of_entry : ∀ row ∈ rows, row.vertex = entry → row.idom = entry
  idom_of_ne : ∀ row ∈ rows, row.vertex ≠ entry →
    g.ImmediatelyDominates entry row.idom row.vertex

/-- A list of the proper dominators of a vertex by name, each before all that it dominates. -/
structure ListsChain (g : Graph String) (entry a : String) (doms : List String) : Prop where
  nodup : doms.Nodup
  mem_iff : ∀ b, b ∈ doms ↔ b ≠ a ∧ g.Dominates entry b a
  ordered : doms.Pairwise (g.Dominates entry)

section Uniqueness

variable {g : Graph String} {entry a : String} {rows rows' : List IdomRow}
  {doms doms' : List String}

private theorem ListsIdoms.subset (h : ListsIdoms g entry rows) (h' : ListsIdoms g entry rows') :
    rows ⊆ rows' := by
  intro row hrow
  have reach := (h.mem_iff row.vertex).1 (List.mem_map_of_mem hrow)
  obtain ⟨row', hrow', same⟩ := List.mem_map.1 ((h'.mem_iff row.vertex).2 reach)
  have idoms : row'.idom = row.idom := by
    by_cases hentry : row.vertex = entry
    · rw [h.idom_of_entry row hrow hentry, h'.idom_of_entry row' hrow' (same.trans hentry)]
    · have idom' := h'.idom_of_ne row' hrow' (same ▸ hentry)
      rw [same] at idom'
      exact idom'.unique (h.idom_of_ne row hrow hentry) reach
  have eq : row' = row := congrArg₂ IdomRow.mk same idoms
  rwa [← eq]

private theorem ListsIdoms.perm (h : ListsIdoms g entry rows) (h' : ListsIdoms g entry rows') :
    rows.Perm rows' := by
  have nodup : rows.Nodup := List.Nodup.of_map IdomRow.vertex h.nodup
  have nodup' : rows'.Nodup := List.Nodup.of_map IdomRow.vertex h'.nodup
  exact (List.perm_ext_iff_of_nodup nodup nodup').2
    fun row => ⟨fun hrow => h.subset h' hrow, fun hrow => h'.subset h hrow⟩

private theorem ListsChain.unique (h : ListsChain g entry a doms) (h' : ListsChain g entry a doms')
    (reach : g.Reachable entry a) : doms = doms' := by
  have perm : doms.Perm doms' := (List.perm_ext_iff_of_nodup h.nodup h'.nodup).2
    fun b => (h.mem_iff b).trans (h'.mem_iff b).symm
  refine perm.eq_of_pairwise ?_ h.ordered h'.ordered
  intro b c _ hc hbc hcb
  exact hbc.antisymm hcb (((h'.mem_iff c).1 hc).2.reachable reach)

end Uniqueness

namespace Report

/-- A name is reached if its number is one of those that the report has dominators of. -/
def Reaches (r : Report) (a : String) : Prop :=
  ∃ v ∈ r.dominators.vertices, r.graph.name? v = some a

structure Correct (r : Report) (g : Graph String) (entry : String) : Prop where
  reaches_iff : ∀ a, r.Reaches a ↔ g.Reachable entry a
  idoms : ∃ rows, r.idoms = .ok rows ∧ ListsIdoms g entry rows
  chain : ∀ a, g.Reachable entry a → ∃ doms, r.chain a = .ok doms ∧ ListsChain g entry a doms
  dominates : ∀ a b, g.Reachable entry a → g.Reachable entry b →
    ∃ answer, r.dominates a b = .ok answer ∧ (answer = true ↔ g.Dominates entry a b)

/-- Two reports answer alike. They reach the same names; for each of these they have one row of
the same immediate dominator, and the same list of proper dominators; and they agree on which of
these dominate which. -/
structure SameAnswers (r r' : Report) : Prop where
  reaches_iff : ∀ a, r.Reaches a ↔ r'.Reaches a
  idoms : ∃ rows rows', r.idoms = .ok rows ∧ r'.idoms = .ok rows' ∧ rows.Perm rows' ∧
    (rows.map IdomRow.vertex).Nodup ∧ ∀ a, a ∈ rows.map IdomRow.vertex ↔ r.Reaches a
  chain : ∀ a, r.Reaches a → ∃ doms, r.chain a = .ok doms ∧ r'.chain a = .ok doms
  dominates : ∀ a b, r.Reaches a → r.Reaches b →
    ∃ answer, r.dominates a b = .ok answer ∧ r'.dominates a b = .ok answer

variable {r r' : Report} {g : Graph String} {G : NamedGraph} {entry a : String} {v : Nat}
  {i j : Fin r.dominators.size} {bound : Option Nat} {kind : LinkEvalKind}

private theorem Correct.sameAnswers (h : r.Correct g entry) (h' : r'.Correct g entry) :
    r.SameAnswers r' := by
  refine ⟨fun a => (h.reaches_iff a).trans (h'.reaches_iff a).symm, ?_, ?_, ?_⟩
  · obtain ⟨rows, ok, table⟩ := h.idoms
    obtain ⟨rows', ok', table'⟩ := h'.idoms
    exact ⟨rows, rows', ok, ok', table.perm table', table.nodup,
      fun a => (table.mem_iff a).trans (h.reaches_iff a).symm⟩
  · intro a ha
    have reach := (h.reaches_iff a).1 ha
    obtain ⟨doms, ok, list⟩ := h.chain a reach
    obtain ⟨doms', ok', list'⟩ := h'.chain a reach
    obtain rfl := list.unique list' reach
    exact ⟨doms, ok, ok'⟩
  · intro a b ha hb
    have reach := (h.reaches_iff a).1 ha
    have reach' := (h.reaches_iff b).1 hb
    obtain ⟨answer, ok, iff⟩ := h.dominates a b reach reach'
    obtain ⟨answer', ok', iff'⟩ := h'.dominates a b reach reach'
    obtain rfl := Bool.eq_iff_iff.2 (iff.trans iff'.symm)
    exact ⟨answer, ok, ok'⟩

def label (r : Report) (i : Fin r.dominators.size) : String := r.name (r.dominators.vertex i)

def idomRow (r : Report) (i : Fin r.dominators.size) : IdomRow where
  vertex := r.label i
  idom := r.label (r.dominators.idomAt i)

theorem nameAt_val (i : Fin r.dominators.size) : r.nameAt i.val = r.label i := by
  have row : r.dominators.vertices[i.val]? = some (r.dominators.vertex i) :=
    Array.getElem?_eq_getElem i.isLt
  rw [nameAt, row]
  rfl

theorem map_vertex_idomRow (r : Report) :
    ((List.finRange r.dominators.size).map r.idomRow).map IdomRow.vertex =
      (List.finRange r.dominators.size).map r.label := List.map_map

/-- A report has the dominators of what is reached in the graph on names that it depicts. -/
structure Exact (r : Report) (g : Graph String) (entry : String) : Prop where
  depicts : r.graph.Depicts g
  name?_entry : r.graph.name? r.dominators.entry = some entry
  dominators : r.dominators.Exact r.graph.graph r.dominators.entry

namespace Exact

private theorem name?_of_reachable (h : r.Exact g entry)
    (hv : r.graph.graph.Reachable r.dominators.entry v) :
    r.graph.name? v = some (r.name v) := by
  obtain ⟨a, ha⟩ := h.depicts.exists_name_of_reachable h.name?_entry hv
  rw [name, ha]
  rfl

private theorem reachable_vertex (h : r.Exact g entry) (i : Fin r.dominators.size) :
    r.graph.graph.Reachable r.dominators.entry (r.dominators.vertex i) :=
  (h.dominators.reachable_iff _).2 ⟨i, rfl⟩

theorem name?_vertex (h : r.Exact g entry) (i : Fin r.dominators.size) :
    r.graph.name? (r.dominators.vertex i) = some (r.label i) :=
  h.name?_of_reachable (h.reachable_vertex i)

theorem label_injective (h : r.Exact g entry) : Function.Injective r.label := by
  intro i j hij
  have hi := h.name?_vertex i
  rw [hij] at hi
  exact h.dominators.vertex_injective (h.depicts.name?_injective hi (h.name?_vertex j))

theorem label_inj (h : r.Exact g entry) : r.label i = r.label j ↔ i = j :=
  h.label_injective.eq_iff

theorem label_zero (h : r.Exact g entry) : r.label 0 = entry := by
  have first := h.name?_vertex 0
  rw [h.dominators.vertex_zero, h.name?_entry] at first
  exact (Option.some.inj first).symm

theorem reachable_iff (h : r.Exact g entry) : g.Reachable entry a ↔ ∃ i, r.label i = a := by
  rw [h.depicts.reachable_iff h.name?_entry]
  constructor
  · rintro ⟨v, hv, ha⟩
    obtain ⟨i, rfl⟩ := (h.dominators.reachable_iff v).1 hv
    exact ⟨i, Option.some.inj ((h.name?_vertex i).symm.trans ha)⟩
  · rintro ⟨i, rfl⟩
    exact ⟨_, h.reachable_vertex i, h.name?_vertex i⟩

private theorem reaches_iff (h : r.Exact g entry) : r.Reaches a ↔ g.Reachable entry a := by
  have mem : ∀ v, v ∈ r.dominators.vertices ↔
      r.graph.graph.Reachable r.dominators.entry v := by
    intro v
    rw [h.dominators.reachable_iff, ← Array.mem_toList_iff, Dominators.toList_vertices]
    simp
  simp only [Reaches, mem, h.depicts.reachable_iff h.name?_entry]

private theorem dominates_iff (h : r.Exact g entry) : g.Dominates entry (r.label i) (r.label j) ↔
    r.graph.graph.Dominates r.dominators.entry (r.dominators.vertex i) (r.dominators.vertex j) :=
  h.depicts.dominates_iff h.name?_entry (h.name?_vertex i) (h.name?_vertex j)

private theorem vertex_label (h : r.Exact g entry) (i : Fin r.dominators.size) :
    r.vertex (r.label i) = .ok (r.dominators.vertex i) := by
  rw [Report.vertex, h.depicts.number?_of_name? (h.name?_vertex i)]

theorem idoms_eq (h : r.Exact g entry) :
    r.idoms = .ok ((List.finRange r.dominators.size).map r.idomRow) := by
  rw [idoms, Dominators.toList_vertices, List.mapM_map]
  simp only [Function.comp_def, h.dominators.idom_vertex]
  exact List.mapM_pure

theorem nodup_idomRow (h : r.Exact g entry) :
    (((List.finRange r.dominators.size).map r.idomRow).map IdomRow.vertex).Nodup := by
  rw [map_vertex_idomRow]
  exact (List.nodup_finRange _).map h.label_injective

theorem chain_eq (h : r.Exact g entry) {doms : List Nat}
    (ok : r.dominators.properDominators (r.dominators.vertex i) = .ok doms) :
    r.chain (r.label i) = .ok (doms.map r.name) := by
  simp only [chain, h.vertex_label, bind, Except.bind, ok, answer]
  rfl

theorem dominates_eq (h : r.Exact g entry) {way : List (Fin r.dominators.size)}
    (climbs : r.dominators.Climbs j way) :
    r.dominates (r.label i) (r.label j) = .ok (decide (i ∈ way)) := by
  simp only [dominates, h.vertex_label, bind, Except.bind, h.dominators.dominates_eq_mem climbs,
    answer]

theorem listsIdoms_idomRow (h : r.Exact g entry) :
    ListsIdoms g entry ((List.finRange r.dominators.size).map r.idomRow) := by
  refine ⟨h.nodup_idomRow, ?_, ?_, ?_⟩
  · intro a
    rw [map_vertex_idomRow, h.reachable_iff]
    simp
  · intro row hrow hentry
    obtain ⟨i, _, rfl⟩ := List.mem_map.1 hrow
    obtain rfl : i = 0 := h.label_injective (hentry.trans h.label_zero.symm)
    rw [idomRow, h.dominators.idomAt_zero]
    exact h.label_zero
  · intro row hrow hne
    obtain ⟨i, _, rfl⟩ := List.mem_map.1 hrow
    have hi : i ≠ 0 := by
      rintro rfl
      exact hne h.label_zero
    exact h.depicts.immediatelyDominates h.name?_entry (h.name?_vertex _) (h.name?_vertex i)
      (h.reachable_vertex i) (h.dominators.immediatelyDominates i hi)

theorem listsChain (h : r.Exact g entry) (i : Fin r.dominators.size) :
    ∃ doms, r.chain (r.label i) = .ok doms ∧ ListsChain g entry (r.label i) doms := by
  obtain ⟨doms, ok, list⟩ := h.dominators.listsDominators i
  -- names tell the numbers in the list apart, since all of them are reached
  have reached : ∀ u ∈ doms, ∃ j, r.dominators.vertex j = u := by
    intro u hu
    have dom := ((list.mem_iff u).1 hu).2
    exact (h.dominators.reachable_iff u).1 (dom.reachable (h.reachable_vertex i))
  refine ⟨doms.map r.name, h.chain_eq ok, ?_, ?_, ?_⟩
  · refine list.nodup.map_on ?_
    intro u hu u' hu' heq
    obtain ⟨j, rfl⟩ := reached u hu
    obtain ⟨j', rfl⟩ := reached u' hu'
    exact congrArg _ (h.label_injective heq)
  · intro b
    rw [List.mem_map]
    constructor
    · rintro ⟨u, hu, rfl⟩
      obtain ⟨j, rfl⟩ := reached u hu
      obtain ⟨hne, dom⟩ := (list.mem_iff _).1 hu
      exact ⟨fun heq => hne (congrArg _ (h.label_injective heq)), h.dominates_iff.2 dom⟩
    · rintro ⟨hne, dom⟩
      obtain ⟨j, rfl⟩ := h.reachable_iff.1 (dom.reachable (h.reachable_iff.2 ⟨i, rfl⟩))
      refine ⟨_, (list.mem_iff _).2 ⟨?_, h.dominates_iff.1 dom⟩, rfl⟩
      exact fun heq => hne (congrArg r.name heq)
  · refine List.pairwise_map.2 (list.ordered.imp_of_mem ?_)
    intro u u' hu hu' dom
    obtain ⟨j, rfl⟩ := reached u hu
    obtain ⟨j', rfl⟩ := reached u' hu'
    exact h.dominates_iff.2 dom

private theorem exists_dominates (h : r.Exact g entry) (i j : Fin r.dominators.size) :
    ∃ answer, r.dominates (r.label i) (r.label j) = .ok answer ∧
      (answer = true ↔ g.Dominates entry (r.label i) (r.label j)) := by
  obtain ⟨way, climbs⟩ := Dominators.exists_climbs h.dominators.idomAt_lt j
  refine ⟨decide (i ∈ way), h.dominates_eq climbs, ?_⟩
  rw [decide_eq_true_iff, Dominators.mem_climbs_iff_ancestor h.dominators.idomAt_zero climbs,
    h.dominators.ancestor_iff_dominates, h.dominates_iff]

theorem correct (h : r.Exact g entry) : r.Correct g entry where
  reaches_iff _ := h.reaches_iff
  idoms := ⟨_, h.idoms_eq, h.listsIdoms_idomRow⟩
  chain a ha := by
    obtain ⟨i, rfl⟩ := h.reachable_iff.1 ha
    exact h.listsChain i
  dominates a b ha hb := by
    obtain ⟨i, rfl⟩ := h.reachable_iff.1 ha
    obtain ⟨j, rfl⟩ := h.reachable_iff.1 hb
    exact h.exists_dominates i j

end Exact

theorem exact_of_ofGraph (h : G.Depicts g) (hentry : G.entry? = some v)
    (hname : G.name? v = some entry) (ok : ofGraph G bound kind = .ok r) : r.Exact g entry := by
  unfold ofGraph at ok
  rw [hentry] at ok
  dsimp only at ok
  split at ok
  next d hd =>
    obtain rfl := Except.ok.inj ok
    have exact := Graph.exact_of_dominators hd fun _ _ _ _ same => same
    refine ⟨h, ?_, ?_⟩
    · rw [exact.entry_eq]
      exact hname
    · rwa [exact.entry_eq]
  next => cases ok

theorem exists_ofGraph (h : G.Depicts g) (hentry : G.entry? = some v)
    (hname : G.name? v = some entry) (kind : LinkEvalKind) :
    ∃ r, ofGraph G none kind = .ok r := by
  have room : {u | G.graph.Reachable v u}.encard ≤
      ({ bound := G.size, linkEval := kind } : Options).bound := h.encard_reachable_le hname
  obtain ⟨t, _, ok⟩ := Graph.exists_dominators room
  refine ⟨⟨G, Dominators.ofSpanningTree kind t⟩, ?_⟩
  unfold ofGraph
  rw [hentry]
  dsimp only [Option.getD_none]
  rw [ok]

/-- Two sources that describe the same edges and the same entry have reports that answer alike,
whichever forests these are made with. -/
theorem sameAnswers_of_sources (s s' : String) (G G' : NamedGraph) (entry : String)
    (kind kind' : LinkEvalKind) (parsed : NamedGraph.parse s = .ok G)
    (parsed' : NamedGraph.parse s' = .ok G')
    (hentry : Statement.entry? (Statement.ofSource s) = some entry)
    (hentry' : Statement.entry? (Statement.ofSource s') = some entry)
    (same : ∀ a b, b ∈ (Statement.graph (Statement.ofSource s)).successors a ↔
      b ∈ (Statement.graph (Statement.ofSource s')).successors a) :
    ∃ r r', ofGraph G none kind = .ok r ∧ ofGraph G' none kind' = .ok r' ∧ r.SameAnswers r' := by
  have denotes := NamedGraph.denotes_of_parse parsed
  have denotes' := NamedGraph.denotes_of_parse parsed'
  obtain ⟨v, hv, name⟩ := denotes.exists_entry hentry
  obtain ⟨v', hv', name'⟩ := denotes'.exists_entry hentry'
  -- both graphs depict the one that the second source describes
  have depicts := denotes.depicts.congr same
  obtain ⟨r, ok⟩ := exists_ofGraph depicts hv name kind
  obtain ⟨r', ok'⟩ := exists_ofGraph denotes'.depicts hv' name' kind'
  have exact := exact_of_ofGraph depicts hv name ok
  have exact' := exact_of_ofGraph denotes'.depicts hv' name' ok'
  exact ⟨r, r', ok, ok', exact.correct.sameAnswers exact'.correct⟩

theorem sameAnswers_of_sources_diamond :
    ∃ G G' r r', NamedGraph.parse "a -> b c\nb -> d\nc -> d" = .ok G ∧
      NamedGraph.parse "d\nc -> d\ne # alone\na -> c b\na -> b\nb -> d\nentry a" = .ok G' ∧
      ofGraph G none .simple = .ok r ∧ ofGraph G' none .balanced = .ok r' ∧
      r.SameAnswers r' := by
  have first : Statement.ofSource "a -> b c\nb -> d\nc -> d" =
      [.edges "a" ["b", "c"], .edges "b" ["d"], .edges "c" ["d"]] := by decide +kernel
  have second : Statement.ofSource "d\nc -> d\ne # alone\na -> c b\na -> b\nb -> d\nentry a" =
      [.vertex "d", .edges "c" ["d"], .vertex "e", .edges "a" ["c", "b"], .edges "a" ["b"],
        .edges "b" ["d"], .entry "a"] := by decide +kernel
  have parsed : NamedGraph.parse "a -> b c\nb -> d\nc -> d" = .ok
      { names := #["a", "b", "c", "d"], successors := #[[1, 2], [3], [3], []] } := by
    decide +kernel
  have parsed' :
      NamedGraph.parse "d\nc -> d\ne # alone\na -> c b\na -> b\nb -> d\nentry a" = .ok
        { names := #["d", "c", "e", "a", "b"], successors := #[[], [0], [], [1, 4, 4], [0]],
          declared := some 3 } := by
    decide +kernel
  have same : ∀ a b,
      b ∈ (Statement.graph (Statement.ofSource "a -> b c\nb -> d\nc -> d")).successors a ↔
        b ∈ (Statement.graph (Statement.ofSource
          "d\nc -> d\ne # alone\na -> c b\na -> b\nb -> d\nentry a")).successors a := by
    intro a b
    rw [first, second]
    simp only [Statement.graph, Statement.headsFrom, List.flatMap_cons, List.flatMap_nil]
    grind
  obtain ⟨r, r', ok, ok', answers⟩ := sameAnswers_of_sources _ _ _ _ "a" .simple .balanced
    parsed parsed' (by rw [first]; rfl) (by rw [second]; rfl) same
  exact ⟨_, _, r, r', parsed, parsed', ok, ok', answers⟩

end Report

end FlowGraph
