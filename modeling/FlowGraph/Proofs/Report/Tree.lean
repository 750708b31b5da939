import FlowGraph.Proofs.Dominator.Views
import FlowGraph.Proofs.Report.Answers
/-!
The tree of a report. Its rows go down the dominator tree in preorder, and the table of depths holds
the depth of each number when its turn comes, since its parent has come before. So the depth of a
row is the length of the way up from its vertex.
-/

set_option autoImplicit false

namespace FlowGraph

theorem exists_left_of_forall₂ {α β : Type*} {R : α → β → Prop} {as : List α} {bs : List β} {b : β}
    (h : List.Forall₂ R as bs) (hb : b ∈ bs) : ∃ a ∈ as, R a b := by
  induction h with
  | nil => cases hb
  | cons related _ ih =>
    rcases List.mem_cons.1 hb with rfl | hb
    · exact ⟨_, List.mem_cons_self, related⟩
    · obtain ⟨a, ha, related⟩ := ih hb
      exact ⟨a, List.mem_cons_of_mem _ ha, related⟩

namespace Dominators

variable {N : Type} {d : Dominators N} {i : Fin d.size} {way : List (Fin d.size)}

private theorem Climbs.descent (htree : d.tree = IdomTree.ofTable d.idoms) (h : d.Climbs i way) :
    d.tree.graph.Descent 0 i.val way.tail.length := by
  induction h with
  | entry => exact Graph.Descent.here
  | @up i way hi rest ih =>
    obtain ⟨above, rfl⟩ := rest.exists_eq_cons
    exact ih.down ((mem_children_tree htree).2 ⟨i, rfl, hi, rfl⟩)

end Dominators

namespace Report

variable {r : Report} {g : Graph String} {entry : String} {depths : Array Nat} {order : List Nat}
  {c i : Nat} {row : TreeRow}

private theorem size_setDepths (depths : Array Nat) (i : Nat) (children : List Nat) :
    (setDepths depths i children).size = depths.size := by
  unfold setDepths
  generalize depths.getD i 0 + 1 = depth
  induction children generalizing depths with
  | nil => rfl
  | cons c children ih => rw [List.foldl_cons, ih, Array.size_setIfInBounds]

private theorem getD_setDepths {children : List Nat} (inside : c ∈ children → c < depths.size) :
    (setDepths depths i children).getD c 0 =
      if c ∈ children then depths.getD i 0 + 1 else depths.getD c 0 := by
  unfold setDepths
  generalize depths.getD i 0 + 1 = depth
  induction children generalizing depths with
  | nil => simp
  | cons a children ih =>
    have later : c ∈ children → c < (depths.setIfInBounds a depth).size := by
      rw [Array.size_setIfInBounds]
      exact fun hc => inside (List.mem_cons_of_mem a hc)
    rw [List.foldl_cons, ih later]
    by_cases hca : c = a
    · subst hca
      have hc := inside List.mem_cons_self
      simp [Array.getD_eq_getD_getElem?, hc]
    · simp [Array.getD_eq_getD_getElem?, hca, Array.getElem?_setIfInBounds_ne (Ne.symm hca)]

/-- A row of the tree: the name of a number, its depth below the entry, and the names of its
children. -/
structure IsRow (r : Report) (i : Nat) (row : TreeRow) : Prop where
  vertex_eq : row.vertex = r.nameAt i
  descent : r.dominators.tree.graph.Descent 0 i row.depth
  children_eq : row.children = (r.dominators.tree.children i).map r.nameAt

private theorem forall₂_treeRows (inside : ∀ i, ∀ c ∈ r.dominators.tree.children i, c < depths.size)
    (ready : ∀ before i after, order = before ++ i :: after →
      r.dominators.tree.graph.Descent 0 i (depths.getD i 0) ∨
        ∃ p ∈ before, i ∈ r.dominators.tree.children p) :
    List.Forall₂ r.IsRow order (r.treeRows depths order) := by
  induction order generalizing depths with
  | nil => exact List.Forall₂.nil
  | cons i order ih =>
    have first : r.dominators.tree.graph.Descent 0 i (depths.getD i 0) := by
      rcases ready [] i order rfl with h | ⟨_, hp, _⟩
      · exact h
      · cases hp
    refine List.Forall₂.cons ⟨rfl, first, rfl⟩ (ih ?_ ?_)
    · rwa [size_setDepths]
    · intro before j after split
      rw [getD_setDepths (inside i j)]
      split_ifs with hj
      · exact .inl (first.down hj)
      · refine (ready (i :: before) j after (congrArg (i :: ·) split)).imp_right ?_
        rintro ⟨p, hp, hc⟩
        rcases List.mem_cons.1 hp with rfl | hp
        · exact absurd hc hj
        · exact ⟨p, hp, hc⟩

section Rows

variable (htree : r.dominators.tree = IdomTree.ofTable r.dominators.idoms)
include htree

theorem forall₂_tree : List.Forall₂ r.IsRow r.dominators.tree.preorder.toList r.tree := by
  have unfolds := (IdomTree.unfolds_preorder r.dominators.idoms).1
  rw [← htree] at unfolds
  refine forall₂_treeRows ?_ ?_
  · intro i c hc
    rw [htree, IdomTree.mem_children] at hc
    have hlt := (Array.getElem?_eq_some_iff.1 hc.2).1
    rwa [r.dominators.size_idoms, ← Array.size_replicate (n := r.dominators.vertices.size) (v := 0)]
      at hlt
  · intro before i after split
    refine (unfolds.pending_or_before split).imp_left fun pending => ?_
    obtain rfl := List.mem_singleton.1 pending
    have zero : (Array.replicate r.dominators.size 0).getD 0 0 = 0 := by
      rw [Array.getD_eq_getD_getElem?, Array.getElem?_replicate]
      split <;> rfl
    rw [zero]
    exact Graph.Descent.here

theorem IsRow.depth_eq {i : Fin r.dominators.size} {way : List (Fin r.dominators.size)}
    (h : r.IsRow i row) (climbs : r.dominators.Climbs i way) : row.depth = way.tail.length := by
  have tree := IdomTree.arborescence r.dominators.idoms
  rw [← htree] at tree
  exact tree.depth_unique h.descent (climbs.descent htree)

end Rows

end Report

end FlowGraph
