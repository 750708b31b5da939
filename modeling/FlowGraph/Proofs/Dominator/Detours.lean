import FlowGraph.Proofs.Dominator.Agreement
import Mathlib.Order.Bounds.Defs
/-!
Semidominators of vertices. The sweep over the tree of a search sees parents and lists of
predecessors alone. What it computes is a property of the searched graph: the least number from
which a path leads to a vertex through vertices of larger numbers than its own.
-/

set_option autoImplicit false

namespace FlowGraph

universe u

open Sweep (taken)

private theorem Sweep.isSemi_taken (F : Nat → Type) [LinkEval F] [LawfulLinkEval F] {n : Nat}
    [HasEntry n] {flow : Flow n} (df : flow.DepthFirst) {w : Fin n} (hw : w ≠ 0) :
    flow.IsSemi w ((taken F flow 1).semi.get w) := by
  have hn : 1 ≤ n := Nat.one_le_iff_ne_zero.2 (NeZero.ne n)
  have swept := (freeRun_taken F df Nat.one_pos hn).2.swept df
  exact swept.after w (Nat.pos_of_ne_zero fun h => hw (Fin.ext h))

namespace SpanningTree

variable {N : Type u} [Node N] {g : Graph N} {bound : Nat} {entry : N} {t : SpanningTree N}
  {v w : Fin t.size}

/-- A path of the graph leads from one vertex to another, and all vertices between have larger
numbers than the second. -/
structure IsDetour (t : SpanningTree N) (g : Graph N) (v w : Fin t.size) (between : List N) :
    Prop where
  path : g.Path (t.vertex v) (t.vertex w) (t.vertex v :: (between ++ [t.vertex w]))
  larger : ∀ u ∈ between, ∃ i : Nat, t.index? u = some i ∧ w.val < i

/-- A table that has for each number but that of the entry the least from which there is a
detour. -/
def FindsSemidominators (t : SpanningTree N) (g : Graph N) (semi : Vector (Fin t.size) t.size) :
    Prop :=
  ∀ w, w ≠ 0 → IsLeast {v | v < w ∧ ∃ between, t.IsDetour g v w between} (semi.get w)

section Searched

variable (h : (g.explore bound entry).result = .ok t)
  (injective : ∀ u v, g.Reachable entry u → g.Reachable entry v →
    Node.index u = Node.index v → u = v)
include h injective

private theorem detour_iff : t.flow.Detour w v ↔ ∃ between, t.IsDetour g v w between := by
  have emb := embeds_of_explore h injective
  rw [Flow.Detour.iff_between]
  constructor
  · rintro ⟨between, path, larger⟩
    refine ⟨between.map t.vertex, ?_, ?_⟩
    · simpa using emb.path_map path
    · intro u hu
      obtain ⟨i, hi, rfl⟩ := List.mem_map.1 hu
      exact ⟨i, index?_vertex h i, larger i hi⟩
  · rintro ⟨between, path, larger⟩
    obtain ⟨vs, path', hmap⟩ := emb.path_iff.1 path
    -- the numbers on the path begin with `v` and end with `w`, as its vertices do
    obtain ⟨v', rest, rfl, hv, hrest⟩ := List.map_eq_cons_iff.1 hmap
    obtain ⟨numbers, last, rfl, rfl, hlast⟩ := List.map_eq_append_iff.1 hrest
    obtain ⟨w', rfl, hw⟩ := List.map_eq_singleton_iff.1 hlast
    obtain rfl := emb.injective hv
    obtain rfl := emb.injective hw
    refine ⟨numbers, path', ?_⟩
    intro i hi
    obtain ⟨k, hk, lt⟩ := larger (t.vertex i) (List.mem_map_of_mem hi)
    rw [index?_vertex h i] at hk
    obtain rfl := Option.some.inj hk
    exact lt

private theorem findsSemidominators_of_isSemi {semi : Vector (Fin t.size) t.size}
    (isSemi : ∀ w : Fin t.size, w ≠ 0 → t.flow.IsSemi w (semi.get w)) :
    t.FindsSemidominators g semi := by
  intro w hw
  have hs := isSemi w hw
  refine ⟨⟨(depthFirst_of_explore h).lt_of_isSemi hs hw, ?_⟩, ?_⟩
  · exact (detour_iff h injective).1 hs.detour
  · rintro v ⟨_, detour⟩
    exact hs.least v ((detour_iff h injective).2 detour)

end Searched

/-- When a sweep over the tree of a search has taken all numbers but that of the entry, its table
has the semidominators, with either kind of forest. -/
theorem findsSemidominators_taken (h : (g.explore bound entry).result = .ok t)
    (injective : ∀ u v, g.Reachable entry u → g.Reachable entry v →
      Node.index u = Node.index v → u = v) :
    t.FindsSemidominators g (taken SimpleLinks t.flow 1).semi ∧
      t.FindsSemidominators g (taken BalancedLinks t.flow 1).semi := by
  have df := depthFirst_of_explore h
  exact ⟨findsSemidominators_of_isSemi h injective fun _ => Sweep.isSemi_taken SimpleLinks df,
    findsSemidominators_of_isSemi h injective fun _ => Sweep.isSemi_taken BalancedLinks df⟩

theorem findsSemidominators_taken_deferred :
    ∃ t, ((Graph.ofRows [[1, 3], [2, 4], [3], [4], []]).explore 5 0).result = .ok t ∧
      t.FindsSemidominators (Graph.ofRows [[1, 3], [2, 4], [3], [4], []])
        (taken SimpleLinks t.flow 1).semi ∧
      t.FindsSemidominators (Graph.ofRows [[1, 3], [2, 4], [3], [4], []])
        (taken BalancedLinks t.flow 1).semi := by
  have room := Graph.encard_reachable_ofRows [[1, 3], [2, 4], [3], [4], []] 0 (by decide)
    (by decide)
  obtain ⟨t, ht⟩ := Graph.exists_explore room
  exact ⟨t, ht, findsSemidominators_taken ht fun _ _ _ _ same => same⟩

end SpanningTree

end FlowGraph
