import FlowGraph.Proofs.Dominator.Queries
/-!
Lists of proper dominators. The way up an exact table from a number, read downward and without
the number itself, lists the vertices that properly dominate it: all of them, each once, and each
one the immediate dominator of the next.
-/

set_option autoImplicit false

namespace FlowGraph

universe u

variable {N : Type u}

namespace Dominators

variable {d : Dominators N} {i : Fin d.size} {way : List (Fin d.size)}

namespace Climbs

theorem exists_eq_cons (h : d.Climbs i way) : ∃ above, way = i :: above := by
  cases h with
  | entry => exact ⟨[], rfl⟩
  | up _ _ => exact ⟨_, rfl⟩

private theorem getLast? (h : d.Climbs i way) : way.getLast? = some 0 := by
  induction h with
  | entry => rfl
  | up _ rest ih =>
    obtain ⟨above, rfl⟩ := rest.exists_eq_cons
    rw [List.getLast?_cons_cons, ih]

private theorem isChain (h : d.Climbs i way) : way.IsChain fun a b => d.idomAt a = b := by
  induction h with
  | entry => exact List.isChain_singleton 0
  | up _ rest ih =>
    obtain ⟨above, rfl⟩ := rest.exists_eq_cons
    exact ih.cons_cons rfl

private theorem descending (lt : ∀ i, i ≠ 0 → d.idomAt i < i) (h : d.Climbs i way) :
    way.Pairwise fun a b => b < a := by
  induction h with
  | entry => exact List.pairwise_singleton _ 0
  | @up i way hi rest ih =>
    obtain ⟨above, rfl⟩ := rest.exists_eq_cons
    have first := lt i hi
    refine List.pairwise_cons.2 ⟨List.forall_mem_cons.2 ⟨first, ?_⟩, ih⟩
    intro a ha
    exact (List.rel_of_pairwise_cons ih ha).trans first

theorem nodup (lt : ∀ i, i ≠ 0 → d.idomAt i < i) (h : d.Climbs i way) : way.Nodup :=
  (h.descending lt).imp ne_of_gt

private theorem pairwise_ancestor (zero : d.idomAt 0 = 0) (h : d.Climbs i way) :
    way.Pairwise fun a b => Ancestor d.idomAt b a := by
  induction h with
  | entry => exact List.pairwise_singleton _ 0
  | up _ rest ih =>
    refine List.pairwise_cons.2 ⟨?_, ih⟩
    intro a ha
    exact Ancestor.up ((mem_climbs_iff_ancestor zero rest).1 ha)

end Climbs

private theorem addAbove_eq (lt : ∀ i, i ≠ 0 → d.idomAt i < i) (h : d.Climbs i way)
    (below : List N) :
    d.addAbove i below = (way.tail.map d.vertex).reverse ++ below := by
  induction h generalizing below with
  | entry =>
    rw [addAbove]
    simp
  | @up i way hi rest ih =>
    rw [addAbove, if_neg hi, dif_pos (lt i hi), ih]
    obtain ⟨above, rfl⟩ := rest.exists_eq_cons
    simp

section Node

variable [Node N] {g : Graph N} {entry v : N}

/-- The proper dominators of a vertex as a list. The walk up from the vertex comes to the entry,
and what it passes above the vertex, read downward, are all vertices that properly dominate it,
each once and in front of all that it dominates. -/
structure ListsDominators (d : Dominators N) (g : Graph N) (entry v : N) (doms : List N) :
    Prop where
  walk : ∃ i way, d.number v = .ok i ∧ d.Climbs i way ∧ doms = (way.tail.map d.vertex).reverse
  mem_iff : ∀ u, u ∈ doms ↔ u ≠ v ∧ g.Dominates entry u v
  notMem : v ∉ doms
  nodup : doms.Nodup
  ordered : doms.Pairwise (g.Dominates entry)
  eq_nil_iff : doms = [] ↔ v = entry
  head : v ≠ entry → doms.head? = some entry
  last : v ≠ entry → ∃ u, d.idom v = .ok u ∧ doms.getLast? = some u
  idoms : doms.IsChain fun u w => d.idom w = .ok u

namespace Exact

private theorem mem_above_iff (h : d.Exact g entry) (climbs : d.Climbs i way) (v : N) :
    v ∈ way.tail.map d.vertex ↔ v ≠ d.vertex i ∧ g.Dominates entry v (d.vertex i) := by
  have nodup := climbs.nodup h.idomAt_lt
  have mem := fun a : Fin d.size => mem_climbs_iff_ancestor (a := a) h.idomAt_zero climbs
  obtain ⟨above, rfl⟩ := climbs.exists_eq_cons
  have hi : i ∉ above := (List.nodup_cons.1 nodup).1
  constructor
  · intro hv
    obtain ⟨a, ha, rfl⟩ := List.mem_map.1 hv
    have hne : a ≠ i := ne_of_mem_of_not_mem ha hi
    have anc := (mem a).1 (List.mem_cons_of_mem i ha)
    exact ⟨fun heq => hne (h.vertex_injective heq), h.ancestor_iff_dominates.1 anc⟩
  · rintro ⟨hne, dom⟩
    have reach := (h.reachable_iff (d.vertex i)).2 ⟨i, rfl⟩
    obtain ⟨a, rfl⟩ := (h.reachable_iff v).1 (dom.reachable reach)
    refine List.mem_map_of_mem (List.mem_of_ne_of_mem ?_ ((mem a).2 ?_))
    · rintro rfl
      exact hne rfl
    · exact h.ancestor_iff_dominates.2 dom

theorem properDominators_vertex (h : d.Exact g entry) (climbs : d.Climbs i way) :
    d.properDominators (d.vertex i) = .ok (way.tail.map d.vertex).reverse := by
  rw [properDominators, h.number_vertex]
  exact congrArg Except.ok ((addAbove_eq h.idomAt_lt climbs []).trans (List.append_nil _))

theorem listsDominators (h : d.Exact g entry) (i : Fin d.size) :
    ∃ doms, d.properDominators (d.vertex i) = .ok doms ∧
      d.ListsDominators g entry (d.vertex i) doms := by
  obtain ⟨way, climbs⟩ := exists_climbs h.idomAt_lt i
  have nodup := climbs.nodup h.idomAt_lt
  have zero_iff : d.vertex i = entry ↔ i = 0 := by
    rw [← h.vertex_zero]
    exact h.vertex_injective.eq_iff
  refine ⟨(way.tail.map d.vertex).reverse, h.properDominators_vertex climbs, ?_⟩
  have mem_iff : ∀ u, u ∈ (way.tail.map d.vertex).reverse ↔
      u ≠ d.vertex i ∧ g.Dominates entry u (d.vertex i) :=
    fun u => List.mem_reverse.trans (h.mem_above_iff climbs u)
  refine ⟨⟨i, way, h.number_vertex i, climbs, rfl⟩, mem_iff, ?_, ?_, ?_, ?_, ?_, ?_, ?_⟩
  · exact fun hmem => ((mem_iff _).1 hmem).1 rfl
  · exact List.nodup_reverse.2 (nodup.tail.map h.vertex_injective)
  · refine List.pairwise_reverse.2 (List.pairwise_map.2 ?_)
    exact (climbs.pairwise_ancestor h.idomAt_zero).tail.imp h.ancestor_iff_dominates.1
  · rw [zero_iff]
    cases climbs with
    | entry => simp
    | up hi rest =>
      obtain ⟨above, rfl⟩ := rest.exists_eq_cons
      simp [hi]
  · intro hne
    cases climbs with
    | entry => exact absurd h.vertex_zero hne
    | up _ rest =>
      rw [List.head?_reverse, List.tail_cons, List.getLast?_map, rest.getLast?, Option.map_some,
        h.vertex_zero]
  · intro hne
    refine ⟨_, h.idom_vertex i, ?_⟩
    cases climbs with
    | entry => exact absurd h.vertex_zero hne
    | up _ rest =>
      obtain ⟨above, rfl⟩ := rest.exists_eq_cons
      simp
  · refine List.isChain_reverse.2 ((List.isChain_map d.vertex).2 (climbs.isChain.tail.imp ?_))
    rintro a b rfl
    exact h.idom_vertex a

end Exact

end Node

end Dominators

namespace Graph

/-- A computation succeeds and its result lists the proper dominators of each reachable vertex, if
no two of these have one index and the bound allows for all of them. -/
theorem properDominators_dominators [Node N] (g : Graph N) (entry : N) (options : Options)
    (injective : ∀ u v, g.Reachable entry u → g.Reachable entry v →
      Node.index u = Node.index v → u = v)
    (room : {v | g.Reachable entry v}.encard ≤ options.bound) :
    ∃ d, g.dominators entry options = .ok d ∧ ∀ v, g.Reachable entry v →
      ∃ doms, d.properDominators v = .ok doms ∧ d.ListsDominators g entry v doms := by
  obtain ⟨t, ht, hd⟩ := exists_dominators room
  have exact := SpanningTree.exact_of_explore ht injective options.linkEval
  refine ⟨_, hd, ?_⟩
  intro v hv
  obtain ⟨i, rfl⟩ := (exact.reachable_iff v).1 hv
  exact exact.listsDominators i

theorem properDominators_dominators_diamond :
    ∃ d, (ofRows [[1], [2, 3], [4], [4], [1]]).dominators 0 { bound := 5 } = .ok d ∧
      ∀ v, (ofRows [[1], [2, 3], [4], [4], [1]]).Reachable 0 v →
        ∃ doms, d.properDominators v = .ok doms ∧
          d.ListsDominators (ofRows [[1], [2, 3], [4], [4], [1]]) 0 v doms :=
  properDominators_dominators _ 0 { bound := 5 } (fun _ _ _ _ h => h)
    (encard_reachable_ofRows [[1], [2, 3], [4], [4], [1]] 0 (by decide) (by decide))

end Graph

end FlowGraph
