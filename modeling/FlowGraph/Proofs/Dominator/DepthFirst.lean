import FlowGraph.Dominator.Immediate
import FlowGraph.Proofs.Graph.Ancestor
import FlowGraph.Proofs.Graph.Dominance
import Mathlib.Data.Fin.Basic
import Mathlib.Data.Set.Finite.Lemmas
import Mathlib.Order.Fin.Basic
/-!
Numberings in depth-first order. The numbers from a node to one of its descendants are all its
descendants, and an edge to a larger number leads to a descendant. So the least number on a path
is an ancestor of the number that the path leads to, which is all that the theory of
semidominators needs to know about the search.
-/

set_option autoImplicit false

namespace FlowGraph

namespace Flow

variable {n : Nat}

def graph (flow : Flow n) : Graph (Fin n) where
  successors u := (List.finRange n).filter fun v => u ∈ flow.preds v

@[simp] theorem mem_successors {flow : Flow n} {u v : Fin n} :
    v ∈ flow.graph.successors u ↔ u ∈ flow.preds v := by
  simp [graph]

/-- The numbers of a flow graph are those of a depth-first search that its tree spans. -/
structure DepthFirst [HasEntry n] (flow : Flow n) : Prop where
  parent_zero : flow.parent 0 = 0
  parent_lt : ∀ v, v ≠ 0 → flow.parent v < v
  parent_mem : ∀ v, v ≠ 0 → flow.parent v ∈ flow.preds v
  forward : ∀ p v, p ∈ flow.preds v → p < v → Ancestor flow.parent p v
  interval : ∀ v w x, Ancestor flow.parent v w → v ≤ x → x ≤ w → Ancestor flow.parent v x

namespace DepthFirst

variable [HasEntry n] {flow : Flow n} {a b v w : Fin n} {vs : List (Fin n)}

private theorem parent_le (df : flow.DepthFirst) (v : Fin n) : flow.parent v ≤ v := by
  by_cases hv : v = 0
  · subst hv
    exact le_of_eq df.parent_zero
  · exact le_of_lt (df.parent_lt v hv)

theorem le_of_ancestor (df : flow.DepthFirst) (h : Ancestor flow.parent a v) : a ≤ v := by
  induction h with
  | refl => exact le_rfl
  | @up v _ ih => exact ih.trans (df.parent_le v)

theorem ancestor_of_le (df : flow.DepthFirst) (ha : Ancestor flow.parent a v)
    (hb : Ancestor flow.parent b v) (hle : a ≤ b) : Ancestor flow.parent a b := by
  rcases ha.total hb with h | h
  · exact h
  · obtain rfl := le_antisymm hle (df.le_of_ancestor h)
    exact h

theorem ancestor_zero (df : flow.DepthFirst) (v : Fin n) : Ancestor flow.parent 0 v := by
  induction v using WellFoundedLT.induction with
  | ind v ih =>
    by_cases hv : v = 0
    · subst hv
      exact Ancestor.refl
    · exact Ancestor.up (ih _ (df.parent_lt v hv))

theorem exists_path_of_ancestor (df : flow.DepthFirst) (h : Ancestor flow.parent a v) :
    ∃ vs, flow.graph.Path a v vs ∧
      ∀ x ∈ vs, Ancestor flow.parent a x ∧ Ancestor flow.parent x v := by
  induction h with
  | refl => exact ⟨[a], Graph.Path.single a, by simp [Ancestor.refl]⟩
  | @up v h ih =>
    by_cases hv : v = 0
    · subst hv
      rwa [df.parent_zero] at ih
    · obtain ⟨vs, path, between⟩ := ih
      have edge : v ∈ flow.graph.successors (flow.parent v) := mem_successors.2 (df.parent_mem v hv)
      refine ⟨_, path.trans (Graph.Path.step edge (Graph.Path.single v)), ?_⟩
      intro x hx
      rcases List.mem_append.1 hx with hx | hx
      · obtain ⟨hax, hxv⟩ := between x (List.dropLast_subset vs hx)
        exact ⟨hax, Ancestor.up hxv⟩
      · rcases List.mem_pair.1 hx with rfl | rfl
        · exact ⟨h, Ancestor.up Ancestor.refl⟩
        · exact ⟨Ancestor.up h, Ancestor.refl⟩

theorem reachable (df : flow.DepthFirst) (v : Fin n) : flow.graph.Reachable 0 v := by
  obtain ⟨vs, path, _⟩ := df.exists_path_of_ancestor (df.ancestor_zero v)
  exact ⟨vs, path⟩

/-- The least number on a path is an ancestor of the end, and a first part of the path leads to
it. The induction takes edges off the front: an edge to a larger number starts at an ancestor. -/
theorem exists_least_of_path (df : flow.DepthFirst) (path : flow.graph.Path a v vs) :
    ∃ m ws, Ancestor flow.parent m v ∧ flow.graph.Path a m ws ∧ ws ⊆ vs ∧ ∀ x ∈ vs, m ≤ x := by
  induction path with
  | single v => exact ⟨v, [v], Ancestor.refl, Graph.Path.single v, List.Subset.refl _, by simp⟩
  | @step a b v vs edge rest ih =>
    obtain ⟨m, ws, hm, hws, hsub, hle⟩ := ih
    by_cases h : m ≤ a
    · refine ⟨m, a :: ws, hm, Graph.Path.step edge hws, List.cons_subset_cons a hsub, ?_⟩
      intro x hx
      rcases List.mem_cons.1 hx with rfl | hx
      · exact h
      · exact hle x hx
    · have ham : a < m := lt_of_not_ge h
      have hmb : m ≤ b := hle b rest.start_mem
      have hab : Ancestor flow.parent a b :=
        df.forward a b (mem_successors.1 edge) (ham.trans_le hmb)
      have hav : Ancestor flow.parent a v := (df.interval a b m hab ham.le hmb).trans hm
      refine ⟨a, [a], hav, Graph.Path.single a, by simp, ?_⟩
      intro x hx
      rcases List.mem_cons.1 hx with rfl | hx
      · exact le_rfl
      · exact ham.le.trans (hle x hx)

/-- A path that does not lead to a smaller number passes a common ancestor of its ends: the least
number on it, as that lies between an ancestor of the end and the end. -/
theorem exists_common_of_path (df : flow.DepthFirst) (path : flow.graph.Path a v vs)
    (hle : a ≤ v) : ∃ m ∈ vs, Ancestor flow.parent m a ∧ Ancestor flow.parent m v := by
  obtain ⟨m, ws, hm, path', hsub, least⟩ := df.exists_least_of_path path
  have hma : m ≤ a := least a path.start_mem
  exact ⟨m, hsub path'.end_mem, df.interval m v a hm hma hle, hm⟩

theorem exists_descendants_eq_Icc (df : flow.DepthFirst) (a : Fin n) :
    ∃ last, {v | Ancestor flow.parent a v} = Set.Icc a last := by
  obtain ⟨last, hlast, greatest⟩ := Set.exists_max_image {v | Ancestor flow.parent a v} id
    (Set.toFinite _) ⟨a, Ancestor.refl⟩
  refine ⟨last, Set.ext fun v => ⟨?_, ?_⟩⟩
  · intro hv
    exact ⟨df.le_of_ancestor hv, greatest v hv⟩
  · rintro ⟨hav, hv⟩
    exact df.interval a last v hlast hav hv

theorem ancestor_of_dominates (df : flow.DepthFirst) (h : flow.graph.Dominates 0 a v) :
    Ancestor flow.parent a v := by
  obtain ⟨vs, path, between⟩ := df.exists_path_of_ancestor (df.ancestor_zero v)
  exact (between a (h vs path)).2

end DepthFirst

end Flow

end FlowGraph
