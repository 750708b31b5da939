import FlowGraph.Proofs.Dominator.Resolution
import FlowGraph.Proofs.LinkEval.Balanced
import FlowGraph.Proofs.LinkEval.Simple
import FlowGraph.Proofs.Search.Exploration
/-!
Sweeps over the tree of a search do not depend on the answers of the forest, as long as it keeps
its contract. Only the candidates before the last pass may differ.
-/

set_option autoImplicit false

namespace FlowGraph

universe u

open Sweep (FreeRun taken)

private theorem Sweep.taken_agree (F G : Nat → Type) [LinkEval F] [LawfulLinkEval F] [LinkEval G]
    [LawfulLinkEval G] {n : Nat} [HasEntry n] {flow : Flow n} (df : flow.DepthFirst) {k : Nat}
    (hk : 0 < k) :
    (taken F flow k).semi = (taken G flow k).semi ∧
      (taken F flow k).waiting = (taken G flow k).waiting := by
  rcases Nat.le_total k n with hkn | hnk
  · have run := (freeRun_taken F df hk hkn).2
    have run' := (freeRun_taken G df hk hkn).2
    exact ⟨run.semi_unique run' df, run.waiting_unique run' df⟩
  · rw [taken_of_le F flow hnk, taken_of_le G flow hnk]
    exact ⟨rfl, rfl⟩

theorem Flow.idoms_agree (F G : Nat → Type) [LinkEval F] [LawfulLinkEval F] [LinkEval G]
    [LawfulLinkEval G] {n : Nat} [HasEntry n] {flow : Flow n} (df : flow.DepthFirst) :
    flow.idoms F = flow.idoms G := by
  have hn : 1 ≤ n := Nat.one_le_iff_ne_zero.2 (NeZero.ne n)
  have run := (Sweep.freeRun_taken F df Nat.one_pos hn).2
  have run' := (Sweep.freeRun_taken G df Nat.one_pos hn).2
  exact run.resolved_unique run' df

namespace SpanningTree

variable {N : Type u}

/-- What does not depend on the answers in a sweep over a tree: at each number the table of
semidominators and the lists of waiting numbers, and the table of the last pass. The sweeps with a
lawful forest are among those with free answers, so the two kinds of forest go through the same
tables side by side and end with the same one. -/
structure SweepsAgree (t : SpanningTree N) : Prop where
  tables : ∀ k s s', FreeRun t.flow k s → FreeRun t.flow k s' →
    s.semi = s'.semi ∧ s.waiting = s'.waiting
  resolved : ∀ s s', FreeRun t.flow 1 s → FreeRun t.flow 1 s' →
    FlowGraph.resolved s.semi s.idom t.size = FlowGraph.resolved s'.semi s'.idom t.size
  lawful : ∀ (F : Nat → Type) [LinkEval F] [LawfulLinkEval F] (k : Nat), 0 < k → k ≤ t.size →
    FreeRun t.flow k ((taken F t.flow k).withForest (t.flow.links k))
  lockstep : ∀ k, 0 < k →
    (taken SimpleLinks t.flow k).semi = (taken BalancedLinks t.flow k).semi ∧
    (taken SimpleLinks t.flow k).waiting = (taken BalancedLinks t.flow k).waiting
  idoms : t.idoms .simple = t.idoms .balanced

variable [Node N] {g : Graph N} {bound : Nat} {entry : N} {t : SpanningTree N}

/-- Over the tree of any search, no sweep depends on the answers that its forest chooses. -/
theorem sweepsAgree_of_explore (h : (g.explore bound entry).result = .ok t) : t.SweepsAgree := by
  have df := depthFirst_of_explore h
  refine ⟨?_, ?_, ?_, ?_, ?_⟩
  · intro k s s' run run'
    exact ⟨run.semi_unique run' df, run.waiting_unique run' df⟩
  · intro s s' run run'
    exact run.resolved_unique run' df
  · intro F _ _ k hk hkn
    exact (Sweep.freeRun_taken F df hk hkn).2
  · intro k hk
    exact Sweep.taken_agree SimpleLinks BalancedLinks df hk
  · exact Flow.idoms_agree SimpleLinks BalancedLinks df

theorem sweepsAgree_of_two_entries :
    ∃ t, ((Graph.ofRows [[1, 2], [3], [3], [1, 2]]).explore 4 0).result = .ok t ∧
      t.SweepsAgree := by
  have room := Graph.encard_reachable_ofRows [[1, 2], [3], [3], [1, 2]] 0 (by decide) (by decide)
  obtain ⟨t, ht⟩ := Graph.exists_explore room
  exact ⟨t, ht, sweepsAgree_of_explore ht⟩

end SpanningTree

end FlowGraph
