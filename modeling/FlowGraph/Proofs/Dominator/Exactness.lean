import FlowGraph.Proofs.Dominator.Agreement
/-!
Computed dominators are exact. The vertices of the result are those that the entry reaches, each
once, and the row of each number other than 0 holds the number of its immediate dominator.
-/

set_option autoImplicit false

namespace FlowGraph

universe u

variable {N : Type u} [Node N]

/-- A result that describes a graph: it numbers the vertices that the entry reaches, each once, and
knows the immediate dominator of each but the entry, which has a lesser number. -/
structure Dominators.Exact (d : Dominators N) (g : Graph N) (entry : N) : Prop where
  entry_eq : d.entry = entry
  vertex_injective : Function.Injective d.vertex
  reachable_iff : ∀ v, g.Reachable entry v ↔ ∃ i, d.vertex i = v
  number?_vertex : ∀ i, d.number? (d.vertex i) = some i
  idomAt_zero : d.idomAt 0 = 0
  idomAt_lt : ∀ i, i ≠ 0 → d.idomAt i < i
  immediatelyDominates : ∀ i, i ≠ 0 →
    g.ImmediatelyDominates entry (d.vertex (d.idomAt i)) (d.vertex i)

namespace SpanningTree

variable {g : Graph N} {bound : Nat} {entry : N} {t : SpanningTree N}

omit [Node N] in
theorem immediatelyDominates_idoms (df : t.flow.DepthFirst) (kind : LinkEvalKind) :
    (t.idoms kind).get (0 : Fin t.size) = 0 ∧ ∀ i : Fin t.size, i ≠ 0 →
      t.flow.graph.ImmediatelyDominates 0 ((t.idoms kind).get i) i := by
  cases kind with
  | simple => exact Flow.immediatelyDominates_idoms SimpleLinks df
  | balanced => exact Flow.immediatelyDominates_idoms BalancedLinks df

omit [Node N] in
theorem idomAt_ofSpanningTree (kind : LinkEvalKind) (t : SpanningTree N) (i : Fin t.size) :
    (Dominators.ofSpanningTree kind t).idomAt i = (t.idoms kind).get i := by
  refine Fin.ext ?_
  simp [Dominators.idomAt, Dominators.ofSpanningTree, get_eq_getElem]

private theorem number?_ofSpanningTree (kind : LinkEvalKind) {v : N} {i : Fin t.size}
    (h : t.index? v = some i.val) : (Dominators.ofSpanningTree kind t).number? v = some i := by
  unfold Dominators.number?
  split
  next j hj =>
    have heq := hj.symm.trans h
    exact congrArg some (Fin.ext (Option.some.inj heq))
  next hj =>
    have heq := hj.symm.trans h
    cases heq

theorem exact_of_explore (h : (g.explore bound entry).result = .ok t)
    (injective : ∀ u v, g.Reachable entry u → g.Reachable entry v →
      Node.index u = Node.index v → u = v) (kind : LinkEvalKind) :
    (Dominators.ofSpanningTree kind t).Exact g entry := by
  have df := depthFirst_of_explore h
  have emb := embeds_of_explore h injective
  have first := vertex_zero h
  obtain ⟨zero, all⟩ := immediatelyDominates_idoms df kind
  refine ⟨first, emb.injective, ?_, ?_, ?_, ?_, ?_⟩
  · intro v
    rw [← first, emb.reachable_iff]
    constructor
    · rintro ⟨i, _, hi⟩
      exact ⟨i, hi⟩
    · rintro ⟨i, hi⟩
      exact ⟨i, df.reachable i, hi⟩
  · intro i
    exact number?_ofSpanningTree kind (index?_vertex h i)
  · exact (idomAt_ofSpanningTree kind t 0).trans zero
  · intro i hi
    rw [idomAt_ofSpanningTree kind t i]
    have hd := all i hi
    exact lt_of_le_of_ne (df.le_of_ancestor (df.ancestor_of_dominates hd.dominates)) hd.ne
  · intro i hi
    rw [idomAt_ofSpanningTree kind t i, ← first]
    exact emb.immediatelyDominates (df.reachable i) (all i hi)

end SpanningTree

namespace Graph

variable {g : Graph N} {entry : N} {options : Options}

theorem exists_dominators (room : {v | g.Reachable entry v}.encard ≤ options.bound) :
    ∃ t, (g.explore options.bound entry).result = .ok t ∧
      g.dominators entry options = .ok (Dominators.ofSpanningTree options.linkEval t) := by
  obtain ⟨t, ht⟩ := exists_explore room
  refine ⟨t, ht, ?_⟩
  rw [dominators, ht]
  rfl

theorem exact_of_dominators {d : Dominators N} (ok : g.dominators entry options = .ok d)
    (injective : ∀ u v, g.Reachable entry u → g.Reachable entry v →
      Node.index u = Node.index v → u = v) : d.Exact g entry := by
  unfold dominators at ok
  cases found : (g.explore options.bound entry).result with
  | error _ =>
    rw [found] at ok
    cases ok
  | ok t =>
    rw [found] at ok
    obtain rfl := Except.ok.inj ok
    exact SpanningTree.exact_of_explore found injective options.linkEval

/-- With either kind of forest a computation succeeds and its result is exact, if no two reachable
vertices have one index and the bound allows for all of them. -/
theorem exact_dominators (g : Graph N) (entry : N) (options : Options)
    (injective : ∀ u v, g.Reachable entry u → g.Reachable entry v →
      Node.index u = Node.index v → u = v)
    (room : {v | g.Reachable entry v}.encard ≤ options.bound) :
    ∃ d, g.dominators entry options = .ok d ∧ d.Exact g entry := by
  obtain ⟨t, ht, hd⟩ := exists_dominators room
  exact ⟨_, hd, SpanningTree.exact_of_explore ht injective options.linkEval⟩

theorem exact_dominators_two_entries :
    ∃ d, (ofRows [[1, 2], [3], [3], [1, 2]]).dominators 0 { bound := 4, linkEval := .balanced } =
      .ok d ∧ d.Exact (ofRows [[1, 2], [3], [3], [1, 2]]) 0 :=
  exact_dominators _ 0 { bound := 4, linkEval := .balanced } (fun _ _ _ _ h => h)
    (encard_reachable_ofRows [[1, 2], [3], [3], [1, 2]] 0 (by decide) (by decide))

end Graph

end FlowGraph
