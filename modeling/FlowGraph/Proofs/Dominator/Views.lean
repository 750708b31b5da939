import FlowGraph.Proofs.Dominator.IdomTree
import FlowGraph.Proofs.Dominator.Queries
/-!
The views of one result agree. The walk up the table, the lists of children, the preorder of the
tree and the table itself describe one tree: what a number dominates is what hangs below it, and
in the preorder it is the block that begins with the number.
-/

set_option autoImplicit false

namespace FlowGraph

universe u

variable {N : Type u}

namespace Dominators

variable {d : Dominators N} {i j : Fin d.size} {v : Nat}

theorem getElem?_idoms (d : Dominators N) (j : Fin d.size) :
    d.idoms[j.val]? = some (d.idomAt j).val := by
  have hj : j.val < d.idoms.size := j.isLt.trans_eq d.size_idoms.symm
  exact Array.getElem?_eq_getElem hj

theorem mem_children_tree (htree : d.tree = IdomTree.ofTable d.idoms) :
    v ∈ d.tree.children i.val ↔ ∃ j : Fin d.size, j.val = v ∧ j ≠ 0 ∧ d.idomAt j = i := by
  rw [htree, IdomTree.mem_children]
  constructor
  · rintro ⟨hpos, hget⟩
    have hv : v < d.size := (Array.getElem?_eq_some_iff.1 hget).1.trans_eq d.size_idoms
    refine ⟨⟨v, hv⟩, rfl, fun h => hpos.ne' (congrArg Fin.val h), Fin.ext ?_⟩
    exact Option.some.inj ((d.getElem?_idoms ⟨v, hv⟩).symm.trans hget)
  · rintro ⟨j, rfl, hj, rfl⟩
    exact ⟨Nat.pos_of_ne_zero fun h => hj (Fin.ext h), d.getElem?_idoms j⟩

private theorem reachable_tree_iff (htree : d.tree = IdomTree.ofTable d.idoms)
    (zero : d.idomAt 0 = 0) :
    d.tree.graph.Reachable i.val v ↔ ∃ j : Fin d.size, j.val = v ∧ Ancestor d.idomAt i j := by
  constructor
  · intro reach
    obtain ⟨k, descent⟩ := reach.exists_descent
    induction descent with
    | here => exact ⟨i, rfl, Ancestor.refl⟩
    | @down u v k h edge ih =>
      obtain ⟨p, rfl, anc⟩ := ih h.reachable
      obtain ⟨j, rfl, _, rfl⟩ := (mem_children_tree htree).1 edge
      exact ⟨j, rfl, Ancestor.up anc⟩
  · rintro ⟨j, rfl, anc⟩
    induction anc with
    | refl => exact Graph.Reachable.refl i.val
    | @up j _ ih =>
      by_cases hj : j = 0
      · subst hj
        rwa [zero] at ih
      · exact ih.tail ((mem_children_tree htree).2 ⟨j, rfl, hj, rfl⟩)

section Node

variable [Node N] {g : Graph N} {entry : N}

/-- The views of a result, which numbers the reachable vertices. Dominance is descent by
children, and a block of the preorder; the preorder is one of all numbers, each after its
immediate dominator; the children of a vertex are those whose immediate dominator it is, in
order; and the immediate dominator stands above a number in the tree of the search. -/
structure ViewsAgree (d : Dominators N) (g : Graph N) (entry : N) (parent : Nat → Nat) :
    Prop where
  reachable_iff : ∀ v, g.Reachable entry v ↔ ∃ i, d.vertex i = v
  number_vertex : ∀ i, d.number (d.vertex i) = .ok i
  dominates_iff_descends : ∀ i j, d.dominates (d.vertex i) (d.vertex j) = .ok true ↔
    d.tree.graph.Reachable i.val j.val
  dominates_iff_position : ∀ i j, d.dominates (d.vertex i) (d.vertex j) = .ok true ↔
    d.tree.preorder.toList.idxOf i.val ≤ d.tree.preorder.toList.idxOf j.val ∧
    d.tree.preorder.toList.idxOf j.val < d.tree.preorder.toList.idxOf i.val +
      {k | d.tree.graph.Reachable i.val k}.ncard
  preorder_perm : d.tree.preorder.toList.Perm (List.range d.size)
  idom_before : ∀ j, j ≠ 0 → d.tree.preorder.toList.idxOf (d.idomAt j).val <
    d.tree.preorder.toList.idxOf j.val
  children : ∀ i, ∃ cs : List (Fin d.size), d.tree.children i.val = cs.map Fin.val ∧
    d.children (d.vertex i) = .ok (cs.map d.vertex) ∧ cs.Pairwise (· < ·) ∧
    ∀ c, c ∈ cs ↔ c ≠ 0 ∧ d.idom (d.vertex c) = .ok (d.vertex i)
  idom_ancestor : ∀ j, j ≠ 0 → d.idomAt j ≠ j ∧ Ancestor parent (d.idomAt j).val j.val
  idom_lt : ∀ j, j ≠ 0 → d.idomAt j < j

namespace Exact

private theorem dominates_iff_ancestor (h : d.Exact g entry) (i j : Fin d.size) :
    d.dominates (d.vertex i) (d.vertex j) = .ok true ↔ Ancestor d.idomAt i j := by
  obtain ⟨way, climbs⟩ := exists_climbs h.idomAt_lt j
  rw [h.dominates_eq_mem climbs, ← mem_climbs_iff_ancestor h.idomAt_zero climbs]
  simp

private theorem dominates_iff_reachable (h : d.Exact g entry)
    (htree : d.tree = IdomTree.ofTable d.idoms) (i j : Fin d.size) :
    d.dominates (d.vertex i) (d.vertex j) = .ok true ↔
      d.tree.graph.Reachable i.val j.val := by
  rw [h.dominates_iff_ancestor, reachable_tree_iff htree h.idomAt_zero]
  constructor
  · exact fun anc => ⟨j, rfl, anc⟩
  · rintro ⟨j', heq, anc⟩
    rwa [← Fin.ext heq]

theorem mem_preorder (h : d.Exact g entry) (htree : d.tree = IdomTree.ofTable d.idoms) :
    v ∈ d.tree.preorder.toList ↔ v < d.size := by
  have unfolds := (IdomTree.unfolds_preorder d.idoms).1
  rw [← htree] at unfolds
  have zero : ((0 : Fin d.size) : Nat) = 0 := Fin.val_zero d.size
  rw [unfolds.mem_iff]
  simp only [List.mem_singleton, exists_eq_left]
  rw [← zero, reachable_tree_iff htree h.idomAt_zero]
  constructor
  · rintro ⟨j, rfl, _⟩
    exact j.isLt
  · intro hv
    refine ⟨⟨v, hv⟩, rfl, h.ancestor_iff_dominates.2 ?_⟩
    rw [h.vertex_zero]
    exact Graph.Dominates.entry g entry _

theorem preorder_perm (h : d.Exact g entry) (htree : d.tree = IdomTree.ofTable d.idoms) :
    d.tree.preorder.toList.Perm (List.range d.size) := by
  have nodup := (IdomTree.unfolds_preorder d.idoms).2
  rw [← htree] at nodup
  refine (List.perm_ext_iff_of_nodup nodup List.nodup_range).2 fun v => ?_
  rw [h.mem_preorder htree, List.mem_range]

theorem children_eq (h : d.Exact g entry) (htree : d.tree = IdomTree.ofTable d.idoms)
    (i : Fin d.size) : ∃ cs : List (Fin d.size), d.tree.children i.val = cs.map Fin.val ∧
      d.children (d.vertex i) = .ok (cs.map d.vertex) ∧ cs.Pairwise (· < ·) ∧
      ∀ c, c ∈ cs ↔ c ≠ 0 ∧ d.idom (d.vertex c) = .ok (d.vertex i) := by
  have inside : ∀ c ∈ d.tree.children i.val, c < d.size := by
    intro c hc
    obtain ⟨j, rfl, _⟩ := (mem_children_tree htree).1 hc
    exact j.isLt
  have values : d.tree.children i.val =
      ((d.tree.children i.val).pmap Fin.mk inside).map Fin.val := by
    simp [List.map_pmap]
  generalize (d.tree.children i.val).pmap Fin.mk inside = cs at values
  refine ⟨cs, values, ?_, ?_, ?_⟩
  · have row : ∀ c : Fin d.size, d.vertices[c.val]? = some (d.vertex c) :=
      fun c => Array.getElem?_eq_getElem c.isLt
    rw [Dominators.children, h.number_vertex]
    simp only [Except.map, values, List.filterMap_map]
    simp [row]
  · have increasing := IdomTree.pairwise_children d.idoms i.val
    rw [← htree, values, List.pairwise_map] at increasing
    exact increasing
  · intro c
    have member : c ∈ cs ↔ c.val ∈ d.tree.children i.val := by
      rw [values, List.mem_map_of_injective Fin.val_injective]
    rw [member, mem_children_tree htree, h.idom_vertex, Except.ok.injEq, h.vertex_injective.eq_iff]
    constructor
    · rintro ⟨j, heq, hj, hidom⟩
      obtain rfl := Fin.ext heq
      exact ⟨hj, hidom⟩
    · exact fun hc => ⟨c, rfl, hc⟩

private theorem viewsAgree (h : d.Exact g entry) (htree : d.tree = IdomTree.ofTable d.idoms)
    {parent : Nat → Nat}
    (above : ∀ j, j ≠ 0 → Ancestor parent (d.idomAt j).val j.val) :
    d.ViewsAgree g entry parent := by
  obtain ⟨unfolds, nodup⟩ := IdomTree.unfolds_preorder d.idoms
  rw [← htree] at unfolds nodup
  have member : ∀ i : Fin d.size, i.val ∈ d.tree.preorder.toList :=
    fun i => (h.mem_preorder htree).2 i.isLt
  have position : ∀ i j : Fin d.size, d.dominates (d.vertex i) (d.vertex j) = .ok true ↔
      d.tree.preorder.toList.idxOf i.val ≤ d.tree.preorder.toList.idxOf j.val ∧
      d.tree.preorder.toList.idxOf j.val < d.tree.preorder.toList.idxOf i.val +
        {k | d.tree.graph.Reachable i.val k}.ncard :=
    fun i j => (h.dominates_iff_reachable htree i j).trans
      (unfolds.reachable_iff_idxOf nodup (member i) (member j))
  refine ⟨h.reachable_iff, h.number_vertex, h.dominates_iff_reachable htree, position,
    h.preorder_perm htree, ?_, h.children_eq htree,
    fun j hj => ⟨(h.idomAt_lt j hj).ne, above j hj⟩, h.idomAt_lt⟩
  intro j hj
  have dominated := (h.dominates_iff_ancestor (d.idomAt j) j).2 (Ancestor.up Ancestor.refl)
  have hle := ((position _ _).1 dominated).1
  refine lt_of_le_of_ne hle fun heq => ?_
  exact (h.idomAt_lt j hj).ne (Fin.ext ((List.idxOf_inj (member _)).1 heq))

end Exact

end Node

end Dominators

namespace SpanningTree

variable [Node N] {g : Graph N} {bound : Nat} {entry : N} {t : SpanningTree N}

private theorem ancestor_idomAt (h : (g.explore bound entry).result = .ok t) (kind : LinkEvalKind)
    (j : Fin t.size) (hj : j ≠ 0) :
    Ancestor t.toTables.parentAt ((Dominators.ofSpanningTree kind t).idomAt j).val j.val := by
  have df := depthFirst_of_explore h
  have dominates := ((immediatelyDominates_idoms df kind).2 j hj).dominates
  rw [idomAt_ofSpanningTree kind t j]
  exact ancestor_iff.1 (df.ancestor_of_dominates dominates)

end SpanningTree

namespace Graph

/-- A search and a computation succeed and the views of the result agree, if no two reachable
vertices have one index and the bound allows for all of them. -/
theorem viewsAgree_dominators [Node N] (g : Graph N) (entry : N) (options : Options)
    (injective : ∀ u v, g.Reachable entry u → g.Reachable entry v →
      Node.index u = Node.index v → u = v)
    (room : {v | g.Reachable entry v}.encard ≤ options.bound) :
    ∃ t d, (g.explore options.bound entry).result = .ok t ∧ g.dominators entry options = .ok d ∧
      d.ViewsAgree g entry t.toTables.parentAt := by
  obtain ⟨t, ht, hd⟩ := exists_dominators room
  have exact := SpanningTree.exact_of_explore ht injective options.linkEval
  exact ⟨t, _, ht, hd, exact.viewsAgree rfl (SpanningTree.ancestor_idomAt ht options.linkEval)⟩

theorem viewsAgree_dominators_diamond :
    ∃ t d, ((ofRows [[1], [2, 3], [4], [4], [1]]).explore 5 0).result = .ok t ∧
      (ofRows [[1], [2, 3], [4], [4], [1]]).dominators 0 { bound := 5, linkEval := .balanced } =
        .ok d ∧
      d.ViewsAgree (ofRows [[1], [2, 3], [4], [4], [1]]) 0 t.toTables.parentAt :=
  viewsAgree_dominators _ 0 { bound := 5, linkEval := .balanced } (fun _ _ _ _ h => h)
    (encard_reachable_ofRows [[1], [2, 3], [4], [4], [1]] 0 (by decide) (by decide))

end Graph

end FlowGraph
