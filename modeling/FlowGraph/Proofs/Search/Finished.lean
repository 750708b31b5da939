import FlowGraph.Proofs.Search.Exploration
/-!
Searches that are finished. The tables of such a search are exact: they number the vertices that the
entry reaches, and know all edges between them. Its tree is depth-first: the descendants of a number
are a range of numbers, and no path leads from a number to a larger one but through a common
ancestor of both.
-/

set_option autoImplicit false

namespace FlowGraph

universe u

variable {N : Type u} [Node N] {g : Graph N} {bound : Nat} {entry : N}

abbrev Graph.ReachableVertex {N : Type u} (g : Graph N) (entry : N) : Type u :=
  {v // g.Reachable entry v}

namespace SpanningTree

/-- The tables describe the part of a graph that the entry reaches. Its vertices and their numbers
are told from each other, and the keys of the map are the indexes of these vertices. The parent of
a vertex is the tail of an edge to it and has a smaller number. The predecessors of a vertex are
the numbers of the reachable tails of edges to it, in increasing order. -/
structure Tabulates (t : SpanningTree N) (g : Graph N) (entry : N) : Prop where
  size_parents : t.parents.size = t.size
  size_predecessors : t.predecessors.size = t.size
  numbering : ∃ e : Fin t.size ≃ g.ReachableVertex entry,
    (∀ i, t.vertex i = e i) ∧ ∀ v, t.index? v.val = some (e.symm v).val
  get?_indices_iff : ∀ k i : Nat, t.indices.get? k = some i ↔
    ∃ v, g.Reachable entry v ∧ Node.index v = k ∧ t.vertices[i]? = some v
  vertex_zero : t.vertex 0 = entry
  parent_zero : t.parent 0 = 0
  parent_lt : ∀ i, i ≠ 0 → t.parent i < i
  parent_edge : ∀ i, i ≠ 0 → t.vertex i ∈ g.successors (t.vertex (t.parent i))
  preds_increasing : ∀ i, (t.preds i).Pairwise (· < ·)
  mem_preds_iff : ∀ p i, p ∈ t.preds i ↔
    ∃ u, g.Reachable entry u ∧ t.index? u = some p.val ∧ t.vertex i ∈ g.successors u

/-- The tree has the descendants of each number side by side, and every path of the graph that
does not lead to a smaller number passes a vertex that is an ancestor of both ends. -/
structure SpansDepthFirst (t : SpanningTree N) (g : Graph N) (entry : N) : Prop where
  descendants : ∀ i, ∃ last, {j | Ancestor t.parent i j} = Set.Icc i last
  common_ancestor : ∀ (v w : N) (i j : Fin t.size), g.Reachable entry v → g.Reachable entry w →
    t.index? v = some i.val → t.index? w = some j.val → i ≤ j → ∀ vs, g.Path v w vs →
    ∃ u ∈ vs, ∃ k : Fin t.size, t.index? u = some k.val ∧
      Ancestor t.parent k i ∧ Ancestor t.parent k j

variable {t : SpanningTree N} (h : (g.explore bound entry).result = .ok t)
  (injective : ∀ u v, g.Reachable entry u → g.Reachable entry v →
    Node.index u = Node.index v → u = v)
include h injective

private theorem exists_vertex_of_reachable {v : N} (hv : g.Reachable entry v) :
    ∃ i, t.vertex i = v := by
  rw [← vertex_zero h] at hv
  obtain ⟨i, _, hi⟩ := (embeds_of_explore h injective).reachable_iff.1 hv
  exact ⟨i, hi⟩

private theorem exists_numbering :
    ∃ e : Fin t.size ≃ g.ReachableVertex entry,
      (∀ i, t.vertex i = e i) ∧ ∀ v, t.index? v.val = some (e.symm v).val := by
  let numbered : Fin t.size → g.ReachableVertex entry :=
    fun i => ⟨t.vertex i, reachable_vertex h i⟩
  have bijective : Function.Bijective numbered := by
    constructor
    · intro i j hij
      exact vertex_injective h (congrArg Subtype.val hij)
    · rintro ⟨v, hv⟩
      obtain ⟨i, rfl⟩ := exists_vertex_of_reachable h injective hv
      exact ⟨i, rfl⟩
  let e := Equiv.ofBijective numbered bijective
  refine ⟨e, fun _ => rfl, ?_⟩
  intro v
  have back : t.vertex (e.symm v) = v.val := congrArg Subtype.val (e.apply_symm_apply v)
  rw [← index?_vertex h, back]

private theorem tabulates_of_explore : t.Tabulates g entry := by
  have df := depthFirst_of_explore h
  refine ⟨t.valid.size_parents, t.valid.size_predecessors, exists_numbering h injective, ?_,
    vertex_zero h, df.parent_zero, df.parent_lt, ?_, ?_, ?_⟩
  · intro k i
    obtain ⟨_, rec⟩ := Graph.sound_of_explore h
    rw [rec.index_iff]
    constructor
    · rintro ⟨v, hv, hk⟩
      exact ⟨v, rec.reachable i v hv, hk, hv⟩
    · rintro ⟨v, _, hk, hv⟩
      exact ⟨v, hv, hk⟩
  · intro i hi
    exact (mem_preds_iff_edge h injective).1 (df.parent_mem i hi)
  · intro i
    have increasing := pairwise_predsAt_of_explore h i.val
    rw [← t.map_val_preds i] at increasing
    exact (List.pairwise_map (f := Fin.val)).1 increasing
  · intro p i
    rw [mem_preds_iff_edge h injective]
    constructor
    · intro edge
      exact ⟨_, reachable_vertex h p, index?_vertex h p, edge⟩
    · rintro ⟨u, hu, hp, edge⟩
      rwa [vertex_of_index? h injective hu hp]

private theorem spansDepthFirst_of_explore : t.SpansDepthFirst g entry where
  descendants := (depthFirst_of_explore h).exists_descendants_eq_Icc
  common_ancestor := by
    intro v w i j hv hw hi hj hle vs path
    obtain rfl := vertex_of_index? h injective hv hi
    obtain rfl := vertex_of_index? h injective hw hj
    -- the path is one of noted edges between numbers
    obtain ⟨numbers, path', rfl⟩ := (embeds_of_explore h injective).path_iff.1 path
    obtain ⟨k, hk, anc⟩ := (depthFirst_of_explore h).exists_common_of_path path' hle
    exact ⟨t.vertex k, List.mem_map_of_mem hk, k, index?_vertex h k, anc⟩

end SpanningTree

namespace Graph

/-- A search with room for all reachable vertices ends with tables that describe what it has
searched. -/
theorem exists_tabulates (g : Graph N) (bound : Nat) (entry : N)
    (injective : ∀ u v, g.Reachable entry u → g.Reachable entry v →
      Node.index u = Node.index v → u = v)
    (room : {v | g.Reachable entry v}.encard ≤ bound) :
    ∃ t, (g.explore bound entry).result = .ok t ∧ t.Tabulates g entry := by
  obtain ⟨t, ht⟩ := exists_explore room
  exact ⟨t, ht, SpanningTree.tabulates_of_explore ht injective⟩

theorem exists_tabulates_all_edges :
    ∃ t, ((ofRows [[1, 3], [1, 2, 2], [0, 3], [], [2]]).explore 5 0).result = .ok t ∧
      t.Tabulates (ofRows [[1, 3], [1, 2, 2], [0, 3], [], [2]]) 0 :=
  exists_tabulates _ 5 0 (fun _ _ _ _ same => same)
    (encard_reachable_ofRows [[1, 3], [1, 2, 2], [0, 3], [], [2]] 0 (by decide) (by decide))

/-- A search with room for all reachable vertices ends with a depth-first tree. -/
theorem exists_spansDepthFirst (g : Graph N) (bound : Nat) (entry : N)
    (injective : ∀ u v, g.Reachable entry u → g.Reachable entry v →
      Node.index u = Node.index v → u = v)
    (room : {v | g.Reachable entry v}.encard ≤ bound) :
    ∃ t, (g.explore bound entry).result = .ok t ∧ t.SpansDepthFirst g entry := by
  obtain ⟨t, ht⟩ := exists_explore room
  exact ⟨t, ht, SpanningTree.spansDepthFirst_of_explore ht injective⟩

theorem exists_spansDepthFirst_cross_edge :
    ∃ t, ((ofRows [[1, 3], [2], [0, 1], [4, 2], [3]]).explore 5 0).result = .ok t ∧
      t.SpansDepthFirst (ofRows [[1, 3], [2], [0, 1], [4, 2], [3]]) 0 :=
  exists_spansDepthFirst _ 5 0 (fun _ _ _ _ same => same)
    (encard_reachable_ofRows [[1, 3], [2], [0, 1], [4, 2], [3]] 0 (by decide) (by decide))

end Graph

end FlowGraph
