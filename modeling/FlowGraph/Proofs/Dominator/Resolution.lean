import FlowGraph.Proofs.Dominator.Swept
/-!
The last pass. Numbers are resolved in increasing order, so what a relative candidate names has
its immediate dominator already, and the two have the same one. Every free sweep ends with the
immediate dominators, hence all of them end with the same table.
-/

set_option autoImplicit false

namespace FlowGraph

variable {n : Nat}

private theorem get_resolveAt (semi idom : Vector (Fin n) n) (w v : Fin n) :
    (resolveAt semi idom w).get v =
      if v = w ∧ idom.get w ≠ semi.get w then idom.get (idom.get w) else idom.get v := by
  have heq : resolveAt semi idom w =
      if idom.get w = semi.get w then idom else idom.set w (idom.get (idom.get w)) w.isLt := rfl
  rw [heq]
  by_cases h : idom.get w = semi.get w
  · rw [if_pos h, if_neg fun h' => h'.2 h]
  · rw [if_neg h, get_set]
    by_cases hv : v = w
    · rw [if_pos hv, if_pos ⟨hv, h⟩]
    · rw [if_neg hv, if_neg fun h' => hv h'.1]

private theorem Flow.DepthFirst.lt_of_candidate [HasEntry n] {flow : Flow n} (df : flow.DepthFirst)
    {v c : Fin n} (h : flow.Candidate v c) (hv : v ≠ 0) : c < v := by
  cases h with
  | semi hs _ => exact df.lt_of_isSemi hs hv
  | @relative s u m hs _ hu hm lt' _ =>
    refine lt_of_le_of_ne (df.le_of_ancestor hu) ?_
    rintro rfl
    exact lt'.ne (hm.unique hs)

structure Flow.Resolvable [HasEntry n] (flow : Flow n) (semi idom : Vector (Fin n) n) : Prop where
  semi_zero : semi.get (0 : Fin n) = 0
  idom_zero : idom.get (0 : Fin n) = 0
  isSemi : ∀ v : Fin n, v ≠ 0 → flow.IsSemi v (semi.get v)
  candidate : ∀ v : Fin n, v ≠ 0 → flow.Candidate v (idom.get v)

namespace Flow.Resolvable

variable [HasEntry n] {flow : Flow n} {semi idom : Vector (Fin n) n}

private theorem step (h : flow.Resolvable semi idom) (df : flow.DepthFirst)
    {table : Vector (Fin n) n} {w : Fin n} (ahead : ∀ v : Fin n, w ≤ v → table.get v = idom.get v)
    (before : ∀ v : Fin n, v ≠ 0 → v < w → flow.graph.ImmediatelyDominates 0 (table.get v) v)
    (hw : w ≠ 0) : flow.graph.ImmediatelyDominates 0 ((resolveAt semi table w).get w) w := by
  have hsemi := h.isSemi w hw
  have value : (resolveAt semi table w).get w =
      if idom.get w ≠ semi.get w then table.get (idom.get w) else idom.get w := by
    simp only [get_resolveAt, ahead w le_rfl, true_and]
  rw [value]
  cases h.candidate w hw with
  | semi hs guards =>
    rw [if_neg fun hne => hne (hs.unique hsemi)]
    exact df.immediatelyDominates_of_isSemi hw hs guards
  | @relative s u m hs lt hu hm lt' guards =>
    have hne : idom.get w ≠ semi.get w := by
      rw [← hs.unique hsemi]
      exact lt.ne'
    rw [if_pos hne]
    have hu0 : idom.get w ≠ 0 := (lt.trans_le' (Fin.zero_le s)).ne'
    have hlt : idom.get w < w := df.lt_of_candidate (h.candidate w hw) hw
    exact df.immediatelyDominates_of_least hs lt hu hm guards (before _ hu0 hlt)

private theorem resolved (h : flow.Resolvable semi idom) (df : flow.DepthFirst) {k : Nat}
    (hk : k ≤ n) :
    (resolved semi idom k).get (0 : Fin n) = 0 ∧
      (∀ v : Fin n, k ≤ v.val → (FlowGraph.resolved semi idom k).get v = idom.get v) ∧
      ∀ v : Fin n, v ≠ 0 → v.val < k →
        flow.graph.ImmediatelyDominates 0 ((FlowGraph.resolved semi idom k).get v) v := by
  induction k with
  | zero => exact ⟨h.idom_zero, fun _ _ => rfl, fun v _ hv => absurd hv v.val.not_lt_zero⟩
  | succ k ih =>
    obtain ⟨zero, ahead, before⟩ := ih (Nat.le_of_succ_le hk)
    rw [resolved_succ semi idom hk]
    generalize FlowGraph.resolved semi idom k = table at zero ahead before
    have keep : ∀ v : Fin n, v.val ≠ k → (resolveAt semi table ⟨k, hk⟩).get v = table.get v := by
      intro v hv
      rw [get_resolveAt, if_neg]
      rintro ⟨rfl, _⟩
      exact hv rfl
    refine ⟨?_, ?_, ?_⟩
    · by_cases hk0 : k = 0
      · subst hk0
        have hw : (⟨0, hk⟩ : Fin n) = 0 := Fin.ext (by simp)
        rw [hw, get_resolveAt, if_neg, zero]
        rintro ⟨_, hne⟩
        exact hne (zero.trans h.semi_zero.symm)
      · rw [keep 0 (by simpa using Ne.symm hk0), zero]
    · intro v hv
      rw [keep v (by omega), ahead v (by omega)]
    · intro v hv0 hv
      by_cases hvk : v.val = k
      · subst hvk
        exact h.step df ahead before hv0
      · rw [keep v hvk]
        exact before v hv0 (by omega)

theorem ahead (h : flow.Resolvable semi idom) (df : flow.DepthFirst) {w : Fin n} (hw : w ≠ 0) :
    (FlowGraph.resolved semi idom w.val).get w = idom.get w ∧ idom.get w < w :=
  ⟨(h.resolved df w.isLt.le).2.1 w le_rfl, df.lt_of_candidate (h.candidate w hw) hw⟩

end Flow.Resolvable

theorem get_resolved_of_lt (semi idom : Vector (Fin n) n) {j k : Nat} (hjk : j ≤ k) (hk : k ≤ n)
    {v : Fin n} (hv : v.val < j) :
    (resolved semi idom k).get v = (resolved semi idom j).get v := by
  induction k, hjk using Nat.le_induction with
  | base => rfl
  | succ k hjk ih =>
    have hne : v ≠ ⟨k, hk⟩ := Fin.ne_of_val_ne (Nat.ne_of_lt (Nat.lt_of_lt_of_le hv hjk))
    rw [resolved_succ semi idom hk, get_resolveAt, if_neg fun h => hne h.1,
      ih (Nat.le_of_succ_le hk)]

namespace Sweep

variable [HasEntry n] {flow : Flow n} {s s' : Sweep Links n}

theorem Swept.resolvable (h : Swept flow 1 s) : flow.Resolvable s.semi s.idom := by
  have pos : ∀ v : Fin n, v ≠ 0 → 1 ≤ v.val :=
    fun v hv => Nat.pos_of_ne_zero fun h => hv (Fin.ext h)
  have semi_zero : s.semi.get (0 : Fin n) = 0 := h.before 0 (by simp)
  refine ⟨semi_zero, h.unsettled 0 (by simp [semi_zero]), fun v hv => h.after v (pos v hv), ?_⟩
  intro v hv
  by_cases hs : s.semi.get v = 0
  · -- nothing is settled for the entry, which guards all
    have hidom : s.idom.get v = 0 := h.unsettled v (by simp [hs])
    have isSemi := h.after v (pos v hv)
    rw [hs] at isSemi
    rw [hidom]
    exact Flow.Candidate.semi isSemi fun _ x _ _ _ => Fin.zero_le x
  · exact h.settled v (pos _ hs)

private theorem FreeRun.immediatelyDominates (run : FreeRun flow 1 s) (df : flow.DepthFirst) :
    (resolved s.semi s.idom n).get (0 : Fin n) = 0 ∧ ∀ v : Fin n, v ≠ 0 →
      flow.graph.ImmediatelyDominates 0 ((resolved s.semi s.idom n).get v) v := by
  obtain ⟨zero, _, all⟩ := (run.swept df).resolvable.resolved df le_rfl
  exact ⟨zero, fun v hv => all v hv v.isLt⟩

/-- No answer has an influence on the semidominators. -/
theorem FreeRun.semi_unique {k : Nat} (run : FreeRun flow k s) (run' : FreeRun flow k s')
    (df : flow.DepthFirst) : s.semi = s'.semi := by
  refine ext_get fun v => ?_
  by_cases hv : v.val < k
  · rw [(run.swept df).before v hv, (run'.swept df).before v hv]
  · have hle : k ≤ v.val := Nat.le_of_not_lt hv
    exact ((run.swept df).after v hle).unique ((run'.swept df).after v hle)

theorem FreeRun.waiting_unique {k : Nat} (run : FreeRun flow k s) (run' : FreeRun flow k s')
    (df : flow.DepthFirst) : s.waiting = s'.waiting := by
  refine ext_get fun d => ?_
  rw [(run.swept df).waiting d, (run'.swept df).waiting d, run.semi_unique run' df]

theorem FreeRun.resolved_unique (run : FreeRun flow 1 s) (run' : FreeRun flow 1 s')
    (df : flow.DepthFirst) :
    resolved s.semi s.idom n = resolved s'.semi s'.idom n := by
  obtain ⟨zero, all⟩ := run.immediatelyDominates df
  obtain ⟨zero', all'⟩ := run'.immediatelyDominates df
  refine ext_get fun v => ?_
  by_cases hv : v = 0
  · simp only [hv]
    exact zero.trans zero'.symm
  · exact (all v hv).unique (all' v hv) (df.reachable v)

end Sweep

theorem Flow.immediatelyDominates_idoms (F : Nat → Type) [LinkEval F] [LawfulLinkEval F]
    [HasEntry n] {flow : Flow n} (df : flow.DepthFirst) :
    (flow.idoms F).get (0 : Fin n) = 0 ∧ ∀ v : Fin n, v ≠ 0 →
      flow.graph.ImmediatelyDominates 0 ((flow.idoms F).get v) v :=
  have hn : 1 ≤ n := Nat.one_le_iff_ne_zero.2 (NeZero.ne n)
  (Sweep.freeRun_taken F df Nat.one_pos hn).2.immediatelyDominates df

end FlowGraph
