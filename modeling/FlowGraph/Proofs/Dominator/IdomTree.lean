import FlowGraph.Dominator.IdomTree
import FlowGraph.Proofs.Search.Arborescence
/-!
The tree of any table. A number has the rows that hold it for children, so no number is the child
of two, and the entry is the child of none. What hangs together with the entry is a tree, whatever
else the table holds, and the preorder goes down it.
-/

set_option autoImplicit false

namespace FlowGraph

namespace IdomTree

variable {idom : Array Nat} {t : IdomTree} {i j k : Nat}

def graph (t : IdomTree) : Graph Nat := Graph.mk t.children

private theorem children_foldr (rows : List (Nat × Nat)) (i : Nat) :
    ((rows.foldr addFirst ∅).get? i).getD [] =
      rows.filterMap fun row => if row.1 = i then some row.2 else none := by
  induction rows with
  | nil => simp
  | cons row rows ih =>
    rw [List.foldr_cons, addFirst, SlotMap.get?_upsert, List.filterMap_cons]
    by_cases h : row.1 = i
    · subst h
      simp only [if_true, Option.getD_some, ih]
    · simp only [h, Ne.symm h, if_false, ih]

private theorem children_ofTable (idom : Array Nat) (i : Nat) : (ofTable idom).children i =
    (idom.toList.tail.zipIdx 1).filterMap fun row => if row.1 = i then some row.2 else none := by
  have rows : idom.toList.zipIdx.drop 1 = idom.toList.tail.zipIdx 1 := by
    cases idom.toList with
    | nil => rfl
    | cons x xs => rfl
  rw [children, ofTable, rows, children_foldr]

theorem mem_children : j ∈ (ofTable idom).children i ↔ 0 < j ∧ idom[j]? = some i := by
  rw [children_ofTable, List.mem_filterMap]
  constructor
  · rintro ⟨⟨i', j'⟩, hrow, hval⟩
    obtain ⟨hpos, hget⟩ := List.mem_zipIdx_iff_le_and_getElem?_sub.1 hrow
    split at hval
    next heq =>
      obtain rfl := Option.some.inj hval
      rw [List.getElem?_tail, Nat.sub_add_cancel hpos, Array.getElem?_toList] at hget
      exact ⟨hpos, hget.trans (congrArg some heq)⟩
    next => cases hval
  · rintro ⟨hpos, hget⟩
    refine ⟨(i, j), List.mem_zipIdx_iff_le_and_getElem?_sub.2 ⟨hpos, ?_⟩, if_pos rfl⟩
    rw [List.getElem?_tail, Nat.sub_add_cancel hpos, Array.getElem?_toList, hget]

theorem pairwise_children (idom : Array Nat) (i : Nat) :
    ((ofTable idom).children i).Pairwise (· < ·) := by
  have increasing : (idom.toList.tail.zipIdx 1).Pairwise fun row row' => row.2 < row'.2 := by
    rw [← List.pairwise_map (f := Prod.snd), List.zipIdx_map_snd]
    exact List.pairwise_lt_range' 1
  rw [children_ofTable, List.pairwise_filterMap]
  refine increasing.imp ?_
  intro row row' hlt c hc c' hc'
  split at hc
  · split at hc'
    · obtain rfl := Option.some.inj hc
      obtain rfl := Option.some.inj hc'
      exact hlt
    · cases hc'
  · cases hc

theorem arborescence (idom : Array Nat) : (ofTable idom).graph.Arborescence 0 where
  root_orphan _ h := absurd (mem_children.1 h).1 (Nat.lt_irrefl 0)
  parent_unique _ _ _ h h' :=
    Option.some.inj ((mem_children.1 h).2.symm.trans (mem_children.1 h').2)
  nodup i := (pairwise_children idom i).imp Nat.ne_of_lt

def allChildren (t : IdomTree) : List Nat := (t.toList.map Prod.snd).flatten

private theorem mem_allChildren (h : j ∈ t.children i) : j ∈ t.allChildren := by
  unfold children at h
  cases hget : t.childLists.get? i with
  | none => simp [hget] at h
  | some children =>
    rw [hget, Option.getD_some] at h
    have entry : (i, children) ∈ t.toList := SlotMap.mem_toList.2 hget
    exact List.mem_flatten.2 ⟨children, List.mem_map_of_mem (f := Prod.snd) entry, h⟩

private theorem childCount_eq (t : IdomTree) : t.childCount = t.allChildren.length := by
  rw [allChildren, List.length_flatten, List.map_map]
  rfl

private theorem preorder_eq {order : List Nat} (h : t.graph.Unfolds [0] order)
    (distinct : order.Nodup) :
    t.preorder.toList = order := by
  have subset : order ⊆ 0 :: t.allChildren := by
    intro x hx
    obtain ⟨_, hv, reach⟩ := h.mem_iff.1 hx
    obtain rfl := List.mem_singleton.1 hv
    obtain ⟨k, descent⟩ := reach.exists_descent
    cases descent with
    | here => exact List.mem_cons_self
    | down _ edge => exact List.mem_cons_of_mem 0 (mem_allChildren edge)
  have room := (distinct.subperm subset).length_le
  refine h.preorder_eq ?_ ?_
  · have same : order.map Node.index = order := List.map_id order
    rwa [same]
  · rwa [childCount_eq]

theorem unfolds_preorder (idom : Array Nat) :
    (ofTable idom).graph.Unfolds [0] (ofTable idom).preorder.toList ∧
      (ofTable idom).preorder.toList.Nodup := by
  have tree := arborescence idom
  have inside : ∀ v, (ofTable idom).graph.Reachable 0 v → v ∈ List.range (idom.size + 1) := by
    intro v reach
    obtain ⟨k, descent⟩ := reach.exists_descent
    cases descent with
    | here => simp
    | down _ edge =>
      obtain ⟨hlt, _⟩ := Array.getElem?_eq_some_iff.1 (mem_children.1 edge).2
      exact List.mem_range.2 (Nat.lt_succ_of_lt hlt)
  have level : ∀ v ∈ [0], (ofTable idom).graph.Descent 0 v 0 := by
    intro v hv
    obtain rfl := List.mem_singleton.1 hv
    exact Graph.Descent.here
  obtain ⟨order, unfolds⟩ :=
    Graph.exists_unfolds (fun _ _ descent => tree.depth_lt inside descent) 0 level
  have nodup := unfolds.nodup tree level (List.nodup_singleton 0)
  rw [preorder_eq unfolds nodup]
  exact ⟨unfolds, nodup⟩

end IdomTree

end FlowGraph
