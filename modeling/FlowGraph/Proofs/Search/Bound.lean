import FlowGraph.Proofs.Search.Run
/-!
What the bound of a search decides. It decides how the search ends, on endless graphs too, and how
far it goes along the order of the search without a bound; it has no part in what is found.
-/

set_option autoImplicit false

namespace FlowGraph

universe u v

variable {N : Type u} [Node N]

namespace Discovery

private theorem follow_of_le {g : Graph N} {bound bound' : Nat} (hle : bound ≤ bound')
    {pending : List (Nat × N)} {d d' : Discovery N} (ht : TailsLt pending d)
    (ok : follow g bound pending d ht = .ok d') : follow g bound' pending d ht = .ok d' := by
  fun_induction follow g bound pending d ht with
  | case1 d _ => rwa [follow]
  | case2 d tail v rest _ htail hrest head hv _ ih =>
    rw [follow]
    simp only [hv]
    exact ih ok
  | case3 d tail v rest _ htail hrest hv hlt number visited _ ih =>
    have hlt' : d.vertices.size < bound' := hlt.trans_le hle
    rw [follow]
    simp only [hv, hlt', if_true]
    exact ih ok
  | case4 d tail v rest _ htail hrest hv hlt => cases ok

end Discovery

namespace Graph

variable {g : Graph N} {entry : N}

/-- How a computation ends that reaches vertices from an entry, as its bound decides. It refuses the
bound 0, breaks off if more vertices are reachable than a bound allows, and else succeeds, under
all bounds with one result. -/
structure EndsByBound {α : Type v} (g : Graph N) (entry : N)
    (run : Nat → Except SearchError α) : Prop where
  zero_iff : ∀ bound, run bound = .error .zeroBound ↔ bound = 0
  exceeded_iff : ∀ bound b, run bound = .error (.boundExceeded b) ↔
    b = bound ∧ 0 < bound ∧ (bound : ℕ∞) < {v | g.Reachable entry v}.encard
  succeeds_iff : ∀ bound, (∃ r, run bound = .ok r) ↔
    0 < bound ∧ {v | g.Reachable entry v}.encard ≤ bound
  same : ∀ bound bound' r r', run bound = .ok r → run bound' = .ok r' → r = r'

/-- Of which vertices a search asks for the successors if it fails: under the bound 0 of none, and
when the bound is exceeded of as many as it allows, the first in the order of the search without a
bound, which the preorder with this limit lists, of each once. -/
structure AsksByBound (g : Graph N) (entry : N) : Prop where
  zero : (g.explore 0 entry).asked = #[]
  exceeded : ∀ bound b, (g.explore bound entry).result = .error (.boundExceeded b) →
    (g.explore bound entry).asked.size = bound ∧ (g.explore bound entry).asked.toList.Nodup ∧
    (g.explore bound entry).asked = g.preorder bound entry ∧
    (∃ stack, g.Run entry (g.explore bound entry).asked.toList stack) ∧
    ∀ met stack, g.Run entry met stack → bound ≤ met.length →
      met.take bound = (g.explore bound entry).asked.toList

namespace EndsByBound

variable {α β : Type v} {run : Nat → Except SearchError α}

omit [Node N] in
theorem map (h : EndsByBound g entry run) (f : α → β) :
    EndsByBound g entry fun bound => (run bound).map f where
  zero_iff bound := by
    rw [← h.zero_iff]
    cases run bound <;> simp [Except.map]
  exceeded_iff bound b := by
    rw [← h.exceeded_iff]
    cases run bound <;> simp [Except.map]
  succeeds_iff bound := by
    rw [← h.succeeds_iff]
    cases run bound <;> simp [Except.map]
  same bound bound' r r' hr hr' := by
    cases found : run bound with
    | error _ =>
      rw [found] at hr
      cases hr
    | ok a =>
      cases found' : run bound' with
      | error _ =>
        rw [found'] at hr'
        cases hr'
      | ok a' =>
        rw [found] at hr
        rw [found'] at hr'
        rw [← Except.ok.inj hr, ← Except.ok.inj hr', h.same bound bound' a a' found found']

end EndsByBound

private theorem encard_le_of_explore {bound : Nat} {t : SpanningTree N}
    (h : (g.explore bound entry).result = .ok t)
    (injective : ∀ u v, g.Reachable entry u → g.Reachable entry v →
      Node.index u = Node.index v → u = v) : {v | g.Reachable entry v}.encard ≤ bound := by
  have all := (SpanningTree.embeds_of_explore h injective).encard_reachable_le 0
  rw [SpanningTree.vertex_zero h] at all
  obtain ⟨_, d, follows, _, rfl⟩ := follows_of_explore h
  have size : d.toSpanningTree.ascendingPredecessors.size ≤ bound := follows.room
  exact all.trans (by exact_mod_cast size)

private theorem exceeded_of_explore {bound : Nat} {e : SearchError} (pos : 0 < bound)
    (h : (g.explore bound entry).result = .error e) :
    e = .boundExceeded bound ∧ (bound : ℕ∞) < {v | g.Reachable entry v}.encard ∧
      (g.explore bound entry).asked.size = bound ∧
      ∃ stack, g.Run entry (g.explore bound entry).asked.toList stack := by
  obtain ⟨heq, d, tail, v, pending, follows, full, hv, asked⟩ := follows_of_explore_error pos h
  obtain ⟨stack, run, _⟩ := follows.run
  have records := follows.sound.records
  have more := records.size_lt_encard records.reachable_pending hv
  rw [full] at more
  rw [asked, follows.asked]
  exact ⟨heq, more, full, stack, run⟩

private theorem explore_unique {bound bound' : Nat} {t t' : SpanningTree N}
    (h : (g.explore bound entry).result = .ok t) (h' : (g.explore bound' entry).result = .ok t') :
    t = t' := by
  obtain ⟨_, d, found, _, rfl⟩ := exists_follow_of_explore h
  obtain ⟨_, d', found', _, rfl⟩ := exists_follow_of_explore h'
  rcases Nat.le_total bound bound' with hle | hle
  · have same := (Discovery.follow_of_le hle _ found).symm.trans found'
    rw [Except.ok.inj same]
  · have same := (Discovery.follow_of_le hle _ found').symm.trans found
    rw [Except.ok.inj same]

theorem endsByBound_explore
    (injective : ∀ u v, g.Reachable entry u → g.Reachable entry v →
      Node.index u = Node.index v → u = v) :
    EndsByBound g entry fun bound => (g.explore bound entry).result where
  zero_iff bound := by
    constructor
    · intro h
      by_contra hne
      obtain ⟨heq, _⟩ := exceeded_of_explore (Nat.pos_of_ne_zero hne) h
      cases heq
    · rintro rfl
      rfl
  exceeded_iff bound b := by
    constructor
    · intro h
      rcases Nat.eq_zero_or_pos bound with rfl | pos
      · cases h
      obtain ⟨heq, more, _⟩ := exceeded_of_explore pos h
      exact ⟨SearchError.boundExceeded.inj heq, pos, more⟩
    · rintro ⟨rfl, pos, more⟩
      cases found : (g.explore b entry).result with
      | ok t => exact absurd (encard_le_of_explore found injective) (not_le_of_gt more)
      | error e => rw [(exceeded_of_explore pos found).1]
  succeeds_iff bound := by
    constructor
    · rintro ⟨t, ht⟩
      obtain ⟨pos, _⟩ := exists_follow_of_explore ht
      exact ⟨pos, encard_le_of_explore ht injective⟩
    · rintro ⟨_, room⟩
      exact exists_explore room
  same _ _ _ _ h h' := explore_unique h h'

private theorem asksByBound (g : Graph N) (entry : N) : g.AsksByBound entry where
  zero := rfl
  exceeded bound b h := by
    rcases Nat.eq_zero_or_pos bound with rfl | pos
    · cases h
    obtain ⟨_, _, size, stack, run⟩ := exceeded_of_explore pos h
    have length : (g.explore bound entry).asked.toList.length = bound := by
      rw [Array.length_toList, size]
    have order := run.preorder_length
    rw [length] at order
    refine ⟨size, run.nodup.of_map _, Array.toList_inj.1 order.symm, ⟨stack, run⟩, ?_⟩
    intro met stack' run' hle
    have first := run.take_eq run' (length.trans_le hle)
    rwa [length] at first

/-- The bound alone decides how a search ends, and a computation of dominators with any kind of
forest, and how far they go. It may be smaller than an endless graph is large, and what is found
within different bounds is the same. -/
theorem endsByBound_dominators (g : Graph N) (entry : N)
    (injective : ∀ u v, g.Reachable entry u → g.Reachable entry v →
      Node.index u = Node.index v → u = v) :
    (EndsByBound g entry fun bound => (g.explore bound entry).result) ∧
      (∀ kind, EndsByBound g entry fun bound =>
        g.dominators entry { bound := bound, linkEval := kind }) ∧ g.AsksByBound entry := by
  have search := endsByBound_explore injective
  exact ⟨search, fun kind => search.map (Dominators.ofSpanningTree kind), asksByBound g entry⟩

theorem endsByBound_dominators_endless :
    (EndsByBound (Graph.mk fun v => [v, v + 1, v / 2]) 0 fun bound =>
        ((Graph.mk fun v => [v, v + 1, v / 2]).explore bound 0).result) ∧
      (∀ kind, EndsByBound (Graph.mk fun v => [v, v + 1, v / 2]) 0 fun bound =>
        (Graph.mk fun v => [v, v + 1, v / 2]).dominators 0 { bound := bound, linkEval := kind }) ∧
      (Graph.mk fun v : Nat => [v, v + 1, v / 2]).AsksByBound 0 :=
  endsByBound_dominators (Graph.mk fun v => [v, v + 1, v / 2]) 0 fun _ _ _ _ h => h

end Graph

end FlowGraph
