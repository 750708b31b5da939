import FlowGraph.Proofs.Dominator.IdomTree
import FlowGraph.Proofs.Index.SlotMap
import FlowGraph.Proofs.Search.Run
/-!
What the tree of a table shows, whatever the table holds: numbers that it has no row for, rows that
lead round in circles or to themselves, rows that lead forward. The lists of children are the table
over again, and the preorder comes to an end with the numbers from which the rows lead back to the
entry.
-/

set_option autoImplicit false

namespace FlowGraph

universe u

namespace Graph.Unfolds

variable {N : Type u} {g : Graph N} {entry : N} {pending order met top : List N}
  {stack : List (List N)}

private theorem sublist (h : g.Unfolds pending order) : pending.Sublist order := by
  induction h with
  | nil => exact List.Sublist.slnil
  | @cons v rest below after _ _ _ ihNext =>
    exact (ihNext.trans (List.sublist_append_right below after)).cons_cons v

private theorem run [Node N] (h : g.Unfolds pending order)
    (run : g.Run entry met ((pending ++ top) :: stack))
    (distinct : ((met ++ order).map Node.index).Nodup) :
    g.Run entry (met ++ order) (top :: stack) := by
  induction h generalizing met top stack with
  | nil => simpa using run
  | @cons v rest below after _ _ ihDown ihNext =>
    have fresh : Node.index v ∉ met.map Node.index := by
      rw [List.map_append, List.map_cons] at distinct
      exact fun known => (List.nodup_append.1 distinct).2.2 _ known _ List.mem_cons_self rfl
    have split : met ++ v :: (below ++ after) = met ++ [v] ++ below ++ after := by simp
    rw [split] at distinct ⊢
    have first : ((met ++ [v] ++ below).map Node.index).Nodup :=
      distinct.sublist (List.Sublist.map _ (List.sublist_append_left _ after))
    have entered : g.Run entry (met ++ [v]) ((g.successors v ++ []) :: (rest ++ top) :: stack) := by
      rw [List.append_nil]
      exact run.meet fresh
    exact ihNext (ihDown entered first).leave distinct

private theorem run_ended [Node N] (h : g.Unfolds [entry] order)
    (distinct : (order.map Node.index).Nodup) : g.Run entry order [] := by
  cases h with
  | @cons _ _ below after down next =>
    cases next
    rw [List.append_nil] at distinct ⊢
    have begun : g.Run entry [entry] ((g.successors entry ++ []) :: []) := by
      rw [List.append_nil]
      exact Run.start
    exact (down.run begun distinct).leave

end Graph.Unfolds

namespace IdomTree

variable {idom : Array Nat} {i j k : Nat}

/-- The rows of a table lead from a number to `i`, one after the other; row 0 has no part in it. -/
inductive LeadsTo (idom : Array Nat) (i : Nat) : Nat → Prop
  | here : LeadsTo idom i i
  | row {j k : Nat} (pos : 0 < j) (get : idom[j]? = some k) (rest : LeadsTo idom i k) :
      LeadsTo idom i j

private theorem LeadsTo.exists_row (h : LeadsTo idom 0 j) (pos : 0 < j) :
    ∃ i, idom[j]? = some i ∧ LeadsTo idom 0 i := by
  cases h with
  | here => exact absurd pos (Nat.lt_irrefl 0)
  | row _ get rest => exact ⟨_, get, rest⟩

private theorem reachable_iff_leadsTo : (ofTable idom).graph.Reachable i j ↔ LeadsTo idom i j := by
  constructor
  · intro reach
    obtain ⟨_, descent⟩ := reach.exists_descent
    induction descent with
    | here => exact LeadsTo.here
    | down upper edge ih =>
      obtain ⟨pos, get⟩ := mem_children.1 edge
      exact LeadsTo.row pos get (ih upper.reachable)
  · intro h
    induction h with
    | here => exact Graph.Reachable.refl i
    | row pos get _ ih => exact ih.tail (mem_children.2 ⟨pos, get⟩)

private theorem children_eq_filter (idom : Array Nat) (i : Nat) : (ofTable idom).children i =
    (List.range idom.size).filter fun j => 0 < j ∧ idom[j]? = some i := by
  refine (pairwise_children idom i).eq_of_mem_iff (List.pairwise_lt_range.filter _) fun j => ?_
  rw [mem_children, List.mem_filter, List.mem_range, decide_eq_true_eq]
  constructor
  · intro h
    exact ⟨(Array.getElem?_eq_some_iff.1 h.2).1, h⟩
  · exact And.right

private theorem ne_nil_of_get?_foldr (rows : List (Nat × Nat)) {cs : List Nat}
    (h : (rows.foldr addFirst ∅).get? i = some cs) : cs ≠ [] := by
  induction rows with
  | nil => simp at h
  | cons row rows ih =>
    rw [List.foldr_cons, addFirst, SlotMap.get?_upsert] at h
    split at h
    · obtain rfl := Option.some.inj h
      exact List.cons_ne_nil _ _
    · exact ih h

private theorem mem_toList {cs : List Nat} :
    (i, cs) ∈ (ofTable idom).toList ↔ (ofTable idom).children i = cs ∧ cs ≠ [] := by
  rw [toList, SlotMap.mem_toList, children]
  constructor
  · intro get
    exact ⟨by rw [get, Option.getD_some], ne_nil_of_get?_foldr _ get⟩
  · rintro ⟨rfl, ne⟩
    cases get : (ofTable idom).childLists.get? i with
    | none => simp [get] at ne
    | some cs => rfl

private theorem mem_flatMap_toList :
    j ∈ (ofTable idom).toList.flatMap Prod.snd ↔ 0 < j ∧ j < idom.size := by
  rw [List.mem_flatMap]
  constructor
  · rintro ⟨⟨i, cs⟩, entry, child⟩
    obtain ⟨rfl, -⟩ := mem_toList.1 entry
    obtain ⟨pos, get⟩ := mem_children.1 child
    exact ⟨pos, (Array.getElem?_eq_some_iff.1 get).1⟩
  · rintro ⟨pos, hlt⟩
    have child : j ∈ (ofTable idom).children idom[j] :=
      mem_children.2 ⟨pos, Array.getElem?_eq_getElem hlt⟩
    exact ⟨(idom[j], _), mem_toList.2 ⟨rfl, List.ne_nil_of_mem child⟩, child⟩

private theorem nodup_flatMap_toList (idom : Array Nat) :
    ((ofTable idom).toList.flatMap Prod.snd).Nodup := by
  have tree := arborescence idom
  refine List.nodup_flatMap.2 ⟨?_, ?_⟩
  · rintro ⟨i, cs⟩ entry
    obtain ⟨rfl, -⟩ := mem_toList.1 entry
    exact tree.nodup i
  · refine (SlotMap.pairwise_toList _).imp_of_mem ?_
    rintro ⟨i, cs⟩ ⟨i', cs'⟩ entry entry' hlt j child child'
    obtain ⟨rfl, -⟩ := mem_toList.1 entry
    obtain ⟨rfl, -⟩ := mem_toList.1 entry'
    exact hlt.ne (tree.parent_unique i i' j child child')

private theorem flatMap_toList_perm (idom : Array Nat) :
    ((ofTable idom).toList.flatMap Prod.snd).Perm (List.range' 1 (idom.size - 1)) := by
  refine (List.perm_ext_iff_of_nodup (nodup_flatMap_toList idom) List.nodup_range').2 fun j => ?_
  rw [mem_flatMap_toList, List.mem_range'_1]
  omega

private theorem getElem?_eq_find? (pos : 0 < j) : idom[j]? =
    ((ofTable idom).toList.find? fun entry => entry.2.contains j).map Prod.fst := by
  cases found : (ofTable idom).toList.find? fun entry => entry.2.contains j with
  | some entry =>
    obtain ⟨listed, -⟩ := List.find?_eq_some_iff_append.1 found
    have member : (entry.1, entry.2) ∈ (ofTable idom).toList := List.mem_of_find?_eq_some found
    obtain ⟨children, -⟩ := mem_toList.1 member
    have child : j ∈ (ofTable idom).children entry.1 := by
      rw [children]
      exact List.contains_iff_mem.1 listed
    exact (mem_children.1 child).2
  | none =>
    cases get : idom[j]? with
    | none => rfl
    | some i =>
      have child : j ∈ (ofTable idom).children i := mem_children.2 ⟨pos, get⟩
      have entry := mem_toList.2 ⟨rfl, List.ne_nil_of_mem child⟩
      exact absurd (List.contains_iff_mem.2 child) (List.find?_eq_none.1 found _ entry)

private theorem mem_preorder : j ∈ (ofTable idom).preorder.toList ↔ LeadsTo idom 0 j := by
  rw [(unfolds_preorder idom).1.mem_iff]
  simp only [List.mem_singleton, exists_eq_left]
  exact reachable_iff_leadsTo

private theorem exists_block (h : i ∈ (ofTable idom).preorder.toList) : ∃ before below after,
    (ofTable idom).preorder.toList = before ++ (i :: below) ++ after ∧
      (∀ j, j ∈ i :: below ↔ LeadsTo idom i j) ∧
      ((ofTable idom).children i).Sublist below := by
  obtain ⟨before, below, after, split, block⟩ := (unfolds_preorder idom).1.exists_block h
  refine ⟨before, below, after, split, fun j => ?_, block.sublist⟩
  rw [← reachable_iff_leadsTo, Graph.reachable_iff_successor, List.mem_cons, block.mem_iff, eq_comm]

/-- What a tree is for a table: its lists are the rows of the table over again, and its preorder,
which is that of a search without a limit, consists of the numbers that lead to 0. Of two numbers
`a` and `b` the first stands before the second in a list without repetitions if `[a, b]` is a
sublist. -/
structure TreeOf (t : IdomTree) (idom : Array Nat) : Prop where
  children_eq : ∀ i, t.children i = (List.range idom.size).filter fun j => 0 < j ∧ idom[j]? = some i
  toList_increasing : t.toList.Pairwise fun entry entry' => entry.1 < entry'.1
  mem_toList : ∀ i cs, (i, cs) ∈ t.toList ↔ t.children i = cs ∧ cs ≠ []
  each_once : (t.toList.flatMap Prod.snd).Perm (List.range' 1 (idom.size - 1))
  row_eq : ∀ j, 0 < j →
    idom[j]? = (t.toList.find? fun entry => entry.2.contains j).map Prod.fst
  ends : t.graph.Run 0 t.preorder.toList []
  begins : t.preorder.toList.head? = some 0
  nodup : t.preorder.toList.Nodup
  mem_preorder : ∀ j, j ∈ t.preorder.toList ↔ LeadsTo idom 0 j
  parent_before : ∀ i j, j ∈ t.preorder.toList → 0 < j → idom[j]? = some i →
    [i, j].Sublist t.preorder.toList
  block : ∀ i ∈ t.preorder.toList, ∃ before below after,
    t.preorder.toList = before ++ (i :: below) ++ after ∧ ∀ j, j ∈ i :: below ↔ LeadsTo idom i j
  siblings : ∀ j k, j ∈ t.preorder.toList → 0 < j → j < k → idom[j]? = idom[k]? →
    [j, k].Sublist t.preorder.toList

private theorem family (h : j ∈ (ofTable idom).preorder.toList) (pos : 0 < j)
    (row : idom[j]? = some i) :
    (i :: (ofTable idom).children i).Sublist (ofTable idom).preorder.toList := by
  obtain ⟨_, get, rest⟩ := (mem_preorder.1 h).exists_row pos
  obtain rfl := Option.some.inj (row.symm.trans get)
  have parent := mem_preorder.2 rest
  obtain ⟨before, below, after, split, -, children⟩ := exists_block parent
  rw [split, List.append_assoc]
  exact ((children.cons_cons i).trans (List.sublist_append_left _ after)).trans
    (List.sublist_append_right before _)

/-- The tree that is made of a table is one for it, whatever the table holds. -/
theorem treeOf_ofTable (idom : Array Nat) : (ofTable idom).TreeOf idom := by
  obtain ⟨unfolds, nodup⟩ := unfolds_preorder idom
  refine ⟨children_eq_filter idom, SlotMap.pairwise_toList _, fun _ _ => mem_toList,
    flatMap_toList_perm idom, fun _ => getElem?_eq_find?, ?_, ?_, nodup, fun _ => mem_preorder,
    ?_, ?_, ?_⟩
  · refine unfolds.run_ended ?_
    have same : (ofTable idom).preorder.toList.map Node.index = (ofTable idom).preorder.toList :=
      List.map_id _
    rwa [same]
  · generalize (ofTable idom).preorder.toList = order at unfolds
    cases unfolds with
    | cons _ _ => rfl
  · intro i j hj pos row
    have child := List.singleton_sublist.2 (mem_children.2 ⟨pos, row⟩)
    exact (child.cons_cons i).trans (family hj pos row)
  · intro i hi
    obtain ⟨before, below, after, split, block, -⟩ := exists_block hi
    exact ⟨before, below, after, split, block⟩
  · intro j k hj pos hlt same
    obtain ⟨i, row, -⟩ := (mem_preorder.1 hj).exists_row pos
    have subset : [j, k] ⊆ (ofTable idom).children i := by
      refine List.cons_subset.2 ⟨mem_children.2 ⟨pos, row⟩, List.cons_subset.2 ⟨?_, nofun⟩⟩
      exact mem_children.2 ⟨pos.trans hlt, same.symm.trans row⟩
    have pair : [j, k].Pairwise (· < ·) := List.pairwise_pair.2 hlt
    have inOrder := List.sublist_of_subperm_of_pairwise (pair.nodup.subperm subset) pair
      (pairwise_children idom i)
    exact inOrder.trans ((List.sublist_cons_self i _).trans (family hj pos row))

/-- Rows that lead round in a circle, to themselves, forward, and beyond the table. -/
example : (ofTable #[7, 0, 3, 2, 5, 1, 6, 9, 1]).preorder = #[0, 1, 5, 4, 8] := by cbv

end IdomTree

end FlowGraph
