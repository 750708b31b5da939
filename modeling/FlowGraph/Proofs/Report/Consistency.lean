import FlowGraph.Proofs.Report.Tree
import FlowGraph.Proofs.Search.Recursion
import FlowGraph.Proofs.Source.WellFormed
/-!
The results of one report agree by name. The table of immediate dominators, the tree, the lists of
proper dominators and the answers about pairs are made in different ways, and all say the same.
-/

set_option autoImplicit false

namespace FlowGraph

namespace Report

/-- What the results of a report have to do with one another, where the report is entered at the
vertex `start` of the name `entry`, and its table of immediate dominators has the given rows. -/
structure ResultsAgree (r : Report) (start : Nat) (entry : String) (rows : List IdomRow) :
    Prop where
  idoms_eq : r.idoms = .ok rows
  depthFirst : ∃ entered, r.graph.graph.Calls [(0, start)] [] entered ∧
    rows.map (fun row => some row.vertex) = entered.map fun call => r.graph.name? call.2
  nodup : (rows.map IdomRow.vertex).Nodup
  mem_iff : ∀ a, a ∈ rows.map IdomRow.vertex ↔
    ∃ v, r.graph.graph.Reachable start v ∧ r.graph.name? v = some a
  tree_perm : (r.tree.map TreeRow.vertex).Perm (rows.map IdomRow.vertex)
  depth_eq : ∀ row ∈ r.tree, ∃ above, r.chain row.vertex = .ok above ∧ row.depth = above.length
  children_eq : ∀ row ∈ r.tree, row.children =
    (rows.filter fun below => below.vertex ≠ entry ∧ below.idom = row.vertex).map IdomRow.vertex
  idom_eq : ∀ row ∈ rows, row.vertex ≠ entry →
    ∃ above, r.chain row.vertex = .ok above ∧ above.getLast? = some row.idom
  dominates_eq : ∀ a ∈ rows.map IdomRow.vertex, ∀ b ∈ rows.map IdomRow.vertex,
    ∃ above, r.chain b = .ok above ∧ r.dominates a b = .ok (decide (a = b ∨ a ∈ above))

variable {r : Report} {g : Graph String} {entry : String} {i j : Fin r.dominators.size}
  {way : List (Fin r.dominators.size)} {row : TreeRow}

namespace Exact

variable (h : r.Exact g entry)
include h

private theorem chain_label (climbs : r.dominators.Climbs i way) :
    r.chain (r.label i) = .ok (way.tail.map r.label).reverse := by
  rw [h.chain_eq (h.dominators.properDominators_vertex climbs), List.map_reverse, List.map_map]
  rfl

private theorem dominates_label_eq_chain (i j : Fin r.dominators.size) :
    ∃ above, r.chain (r.label j) = .ok above ∧ r.dominates (r.label i) (r.label j) =
      .ok (decide (r.label i = r.label j ∨ r.label i ∈ above)) := by
  obtain ⟨way, climbs⟩ := Dominators.exists_climbs h.dominators.idomAt_lt j
  refine ⟨_, h.chain_label climbs, ?_⟩
  rw [h.dominates_eq climbs]
  refine congrArg Except.ok (decide_eq_decide.2 ?_)
  obtain ⟨above, rfl⟩ := climbs.exists_eq_cons
  rw [List.mem_cons, List.mem_reverse, List.tail_cons, List.mem_map_of_injective h.label_injective,
    h.label_inj]

private theorem getLast?_chain_label (hi : i ≠ 0) : ∃ above,
    r.chain (r.label i) = .ok above ∧ above.getLast? = some (r.label (r.dominators.idomAt i)) := by
  obtain ⟨way, climbs⟩ := Dominators.exists_climbs h.dominators.idomAt_lt i
  refine ⟨_, h.chain_label climbs, ?_⟩
  cases climbs with
  | entry => exact absurd rfl hi
  | up _ rest =>
    obtain ⟨above, rfl⟩ := rest.exists_eq_cons
    simp

section Tree

variable (htree : r.dominators.tree = IdomTree.ofTable r.dominators.idoms)
include htree

theorem exists_isRow (hrow : row ∈ r.tree) : ∃ i : Fin r.dominators.size, r.IsRow i row := by
  obtain ⟨i, hi, isRow⟩ := exists_left_of_forall₂ (forall₂_tree htree) hrow
  exact ⟨⟨i, (h.dominators.mem_preorder htree).1 hi⟩, isRow⟩

theorem map_vertex_tree_perm :
    (r.tree.map TreeRow.vertex).Perm ((List.finRange r.dominators.size).map r.label) := by
  have rows : List.Forall₂ (· = ·) (r.dominators.tree.preorder.toList.map r.nameAt)
      (r.tree.map TreeRow.vertex) := by
    rw [List.forall₂_map_left_iff, List.forall₂_map_right_iff]
    exact (forall₂_tree htree).imp fun _ _ hrow => hrow.vertex_eq.symm
  rw [List.forall₂_eq_eq_eq] at rows
  have perm := (h.dominators.preorder_perm htree).map r.nameAt
  rw [rows, ← List.map_coe_finRange_eq_range, List.map_map] at perm
  rwa [← List.map_congr_left fun i _ => nameAt_val i]

theorem children_eq_filter (hrow : r.IsRow i row) : row.children =
    (((List.finRange r.dominators.size).map r.idomRow).filter fun below =>
      below.vertex ≠ entry ∧ below.idom = row.vertex).map IdomRow.vertex := by
  obtain ⟨cs, hcs, _, increasing, mem_iff⟩ := h.dominators.children_eq htree i
  have same : cs = (List.finRange r.dominators.size).filter fun c =>
      c ≠ 0 ∧ r.dominators.idomAt c = i := by
    have sorted : ((List.finRange r.dominators.size).filter fun c =>
        c ≠ 0 ∧ r.dominators.idomAt c = i).Pairwise (· < ·) :=
      (List.pairwise_lt_finRange _).filter _
    refine List.Perm.eq_of_pairwise ?_ increasing sorted ?_
    · exact fun a b _ _ hab hba => absurd hba (lt_asymm hab)
    · refine (List.perm_ext_iff_of_nodup (increasing.imp ne_of_lt) (sorted.imp ne_of_lt)).2 ?_
      intro c
      rw [mem_iff, h.dominators.idom_vertex, Except.ok.injEq, h.dominators.vertex_injective.eq_iff]
      simp
  have keep : ∀ c : Fin r.dominators.size,
      ((r.idomRow c).vertex ≠ entry ∧ (r.idomRow c).idom = row.vertex) ↔
        c ≠ 0 ∧ r.dominators.idomAt c = i := by
    intro c
    rw [hrow.vertex_eq, nameAt_val, ← h.label_zero]
    exact and_congr (not_congr h.label_inj) h.label_inj
  rw [hrow.children_eq, hcs, same, List.filter_map, List.map_map, List.map_map]
  simp only [Function.comp_def, keep, nameAt_val]
  rfl

theorem length_chain_label (hrow : r.IsRow i row) :
    ∃ above, r.chain (r.label i) = .ok above ∧ row.depth = above.length := by
  obtain ⟨way, climbs⟩ := Dominators.exists_climbs h.dominators.idomAt_lt i
  refine ⟨_, h.chain_label climbs, ?_⟩
  rw [IsRow.depth_eq htree hrow climbs, List.length_reverse, List.length_map]

private theorem resultsAgree {start : Nat} (name : r.graph.name? start = some entry)
    {entered : List (Nat × Nat)} (calls : r.graph.graph.Calls [(0, start)] [] entered)
    (order : r.dominators.vertices.toList = entered.map Prod.snd) :
    r.ResultsAgree start entry ((List.finRange r.dominators.size).map r.idomRow) := by
  have mem_iff : ∀ a, a ∈ (List.finRange r.dominators.size).map r.label ↔ ∃ i, r.label i = a :=
    fun a => by simp
  refine ⟨h.idoms_eq, ⟨entered, calls, ?_⟩, h.nodup_idomRow, ?_, ?_, ?_, ?_, ?_, ?_⟩
  · have names := congrArg (List.map r.graph.name?) order
    rw [Dominators.toList_vertices, List.map_map, List.map_map] at names
    rw [List.map_map]
    refine Eq.trans (List.map_congr_left fun i _ => ?_) names
    exact (h.name?_vertex i).symm
  · intro a
    rw [map_vertex_idomRow, mem_iff, ← h.depicts.reachable_iff name]
    exact h.reachable_iff.symm
  · rw [map_vertex_idomRow]
    exact h.map_vertex_tree_perm htree
  · intro row hrow
    obtain ⟨i, isRow⟩ := h.exists_isRow htree hrow
    rw [isRow.vertex_eq, nameAt_val]
    exact h.length_chain_label htree isRow
  · intro row hrow
    obtain ⟨i, isRow⟩ := h.exists_isRow htree hrow
    exact h.children_eq_filter htree isRow
  · intro row hrow hne
    obtain ⟨i, _, rfl⟩ := List.mem_map.1 hrow
    refine h.getLast?_chain_label ?_
    rintro rfl
    exact hne h.label_zero
  · rw [map_vertex_idomRow]
    intro a ha b hb
    obtain ⟨i, rfl⟩ := (mem_iff a).1 ha
    obtain ⟨j, rfl⟩ := (mem_iff b).1 hb
    exact h.dominates_label_eq_chain i j

end Tree

end Exact

theorem exists_explore_of_ofGraph {G : NamedGraph} {bound : Option Nat} {kind : LinkEvalKind}
    (ok : ofGraph G bound kind = .ok r) :
    ∃ start t, G.entry? = some start ∧
      (G.graph.explore (bound.getD G.size) start).result = .ok t ∧
      r = { graph := G, dominators := Dominators.ofSpanningTree kind t } := by
  unfold ofGraph at ok
  split at ok
  next => cases ok
  next start hstart =>
    unfold Graph.dominators at ok
    cases found : (G.graph.explore (bound.getD G.size) start).result with
    | error _ =>
      rw [found] at ok
      cases ok
    | ok t =>
      rw [found] at ok
      exact ⟨start, t, hstart, found, (Except.ok.inj ok).symm⟩

/-- What a report has that is made of a text: it is entered at a vertex that has a name, the graph
is well formed, what it says of dominators is right, and their numbers are those of a depth-first
search. -/
structure MadeOf (r : Report) (G : NamedGraph) (start : Nat) (entry : String) : Prop where
  graph_eq : r.graph = G
  entry?_eq : G.entry? = some start
  name?_eq : G.name? start = some entry
  wellFormed : G.WellFormed
  exact : ∃ g, r.Exact g entry
  tree_eq : r.dominators.tree = IdomTree.ofTable r.dominators.idoms
  depthFirst : ∃ entered, G.graph.Calls [(0, start)] [] entered ∧
    r.dominators.vertices.toList = entered.map Prod.snd

theorem exists_madeOf {source : String} {G : NamedGraph} {bound : Option Nat} {kind : LinkEvalKind}
    (parsed : NamedGraph.parse source = .ok G) (ok : ofGraph G bound kind = .ok r) :
    ∃ start entry, r.MadeOf G start entry := by
  obtain ⟨start, t, hstart, found, rfl⟩ := exists_explore_of_ofGraph ok
  have wellFormed := NamedGraph.wellFormed_of_parse parsed
  obtain ⟨entry, name⟩ := wellFormed.exists_name_of_entry? hstart
  have depicts := (NamedGraph.denotes_of_parse parsed).depicts
  have order := (Tables.map_snd_entered t.valid).symm
  exact ⟨start, entry, rfl, hstart, name, wellFormed, ⟨_, exact_of_ofGraph depicts hstart name ok⟩,
    rfl, _, Graph.calls_of_explore found, order⟩

/-- The results of a report agree, whatever text it is made of, and with whichever bound and kind of
forest it is made. -/
theorem resultsAgree_of_source (source : String) (G : NamedGraph) (bound : Option Nat)
    (kind : LinkEvalKind) (r : Report) (parsed : NamedGraph.parse source = .ok G)
    (ok : ofGraph G bound kind = .ok r) :
    ∃ start entry rows, G.entry? = some start ∧ G.name? start = some entry ∧ r.graph = G ∧
      r.ResultsAgree start entry rows := by
  obtain ⟨start, entry, made⟩ := exists_madeOf parsed ok
  obtain rfl := made.graph_eq
  obtain ⟨g, exact⟩ := made.exact
  obtain ⟨entered, calls, order⟩ := made.depthFirst
  exact ⟨start, entry, _, made.entry?_eq, made.name?_eq, rfl,
    exact.resultsAgree made.tree_eq made.name?_eq calls order⟩

theorem resultsAgree_of_source_two_entries :
    ∃ G r start entry rows, NamedGraph.parse "x -> a\na -> b c\nb -> c d\nc -> b\nentry a" = .ok G ∧
      ofGraph G none .balanced = .ok r ∧ G.entry? = some start ∧ G.name? start = some entry ∧
      r.graph = G ∧ r.ResultsAgree start entry rows := by
  have parsed : NamedGraph.parse "x -> a\na -> b c\nb -> c d\nc -> b\nentry a" = .ok
      { names := #["x", "a", "b", "c", "d"], successors := #[[1], [2, 3], [3, 4], [2], []],
        declared := some 1 } := by
    decide +kernel
  obtain ⟨r, ok⟩ := exists_ofGraph (NamedGraph.denotes_of_parse parsed).depicts (v := 1) rfl rfl
    .balanced
  obtain ⟨start, entry, rows, agree⟩ := resultsAgree_of_source _ _ _ _ r parsed ok
  exact ⟨_, r, start, entry, rows, parsed, ok, agree⟩

end Report

end FlowGraph
