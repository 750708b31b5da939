import FlowGraph.Proofs.Dominator.Exactness
/-!
Queries about dominance. The way up an exact table from a number passes its dominators and no
other numbers, and comes to the entry, so that a walk along it decides dominance.
-/

set_option autoImplicit false

namespace FlowGraph

universe u

variable {N : Type u}

namespace Dominators

/-- The numbers on the way up the table, the lowest first, if the way comes to the entry. -/
inductive Climbs (d : Dominators N) : Fin d.size → List (Fin d.size) → Prop
  | entry : Climbs d 0 [0]
  | up {i : Fin d.size} {way : List (Fin d.size)} (hi : i ≠ 0) (rest : Climbs d (d.idomAt i) way) :
      Climbs d i (i :: way)

variable {d : Dominators N} {a i j : Fin d.size} {way : List (Fin d.size)}

theorem exists_climbs (lt : ∀ i, i ≠ 0 → d.idomAt i < i) (i : Fin d.size) :
    ∃ way, d.Climbs i way := by
  induction i using WellFoundedLT.induction with
  | ind i ih =>
    by_cases hi : i = 0
    · subst hi
      exact ⟨[0], Climbs.entry⟩
    · obtain ⟨way, h⟩ := ih _ (lt i hi)
      exact ⟨i :: way, Climbs.up hi h⟩

theorem mem_climbs_iff_ancestor (zero : d.idomAt 0 = 0) (h : d.Climbs i way) :
    a ∈ way ↔ Ancestor d.idomAt a i := by
  induction h with
  | entry =>
    constructor
    · intro ha
      rw [List.mem_singleton.1 ha]
      exact Ancestor.refl
    · intro ha
      exact List.mem_singleton.2 (ha.eq_of_root zero)
  | @up i way hi _ ih =>
    rw [List.mem_cons, ih]
    constructor
    · rintro (rfl | ha)
      · exact Ancestor.refl
      · exact Ancestor.up ha
    · intro ha
      by_cases hai : a = i
      · exact Or.inl hai
      · exact Or.inr (ha.parent_of_ne hai)

theorem passes_eq_mem (lt : ∀ i, i ≠ 0 → d.idomAt i < i) (h : d.Climbs i way)
    (a : Fin d.size) : d.passes a i = decide (a ∈ way) := by
  induction h with
  | entry =>
    rw [passes]
    by_cases ha : (0 : Fin d.size) = a
    · simp [ha]
    · simp [ha, Ne.symm ha]
  | @up i way hi _ ih =>
    rw [passes]
    by_cases ha : i = a
    · simp [ha]
    · rw [if_neg ha, if_neg hi, dif_pos (lt i hi), ih]
      simp [Ne.symm ha]

section Node

variable [Node N] {g : Graph N} {entry : N} {u v : N}

namespace Exact

theorem vertex_zero (h : d.Exact g entry) : d.vertex 0 = entry := h.entry_eq

theorem number_vertex (h : d.Exact g entry) (i : Fin d.size) : d.number (d.vertex i) = .ok i := by
  rw [number, h.number?_vertex]

theorem idom_vertex (h : d.Exact g entry) (i : Fin d.size) :
    d.idom (d.vertex i) = .ok (d.vertex (d.idomAt i)) := by
  rw [idom, h.number_vertex]
  rfl

private theorem exists_number (h : d.Exact g entry) (hv : g.Reachable entry v) :
    ∃ i, d.vertex i = v ∧ d.number v = .ok i := by
  obtain ⟨i, rfl⟩ := (h.reachable_iff v).1 hv
  exact ⟨i, rfl, h.number_vertex i⟩

/-- The ancestors in the table are the dominators. Downward this is the transitivity of dominance;
upward, all dominators but the number itself dominate its row. -/
theorem ancestor_iff_dominates (h : d.Exact g entry) :
    Ancestor d.idomAt i j ↔ g.Dominates entry (d.vertex i) (d.vertex j) := by
  constructor
  · intro anc
    induction anc with
    | refl => exact Graph.Dominates.refl g entry _
    | @up j _ ih =>
      by_cases hj : j = 0
      · subst hj
        rwa [h.idomAt_zero] at ih
      · exact ih.trans (h.immediatelyDominates j hj).dominates
  · intro dom
    induction j using WellFoundedLT.induction with
    | ind j ih =>
      by_cases hij : i = j
      · subst hij
        exact Ancestor.refl
      · have hj : j ≠ 0 := by
          rintro rfl
          rw [h.vertex_zero] at dom
          exact hij (h.vertex_injective (dom.eq_entry.trans h.vertex_zero.symm))
        have hne : d.vertex i ≠ d.vertex j := fun heq => hij (h.vertex_injective heq)
        have closer := (h.immediatelyDominates j hj).closest _ hne dom
        exact Ancestor.up (ih _ (h.idomAt_lt j hj) closer)

theorem dominates_eq_mem (h : d.Exact g entry) (climbs : d.Climbs j way) (i : Fin d.size) :
    d.dominates (d.vertex i) (d.vertex j) = .ok (decide (i ∈ way)) := by
  rw [dominates, h.number_vertex, h.number_vertex]
  exact congrArg Except.ok (passes_eq_mem h.idomAt_lt climbs i)

end Exact

/-- How a query about two vertices is answered. The walk up from the second comes to the entry,
and whether it passes the first is whether the first dominates the second, or in other words
whether its removal cuts the second off. -/
structure DecidesDominance [DecidableEq N] (d : Dominators N) (g : Graph N) (entry a b : N) :
    Prop where
  walk : ∃ i j way, d.number a = .ok i ∧ d.number b = .ok j ∧ d.Climbs j way ∧
    d.dominates a b = .ok (decide (i ∈ way))
  dominates_iff : d.dominates a b = .ok true ↔ g.Dominates entry a b
  remove_iff : d.dominates a b = .ok true ↔ a = b ∨ ¬ (g.remove a).Reachable entry b
  properlyDominates_eq : ∃ answer, d.properlyDominates a b = .ok answer ∧
    (answer = true ↔ g.Dominates entry a b ∧ a ≠ b)

private theorem Exact.decidesDominance [DecidableEq N] (h : d.Exact g entry)
    (hu : g.Reachable entry u) (hv : g.Reachable entry v) : d.DecidesDominance g entry u v := by
  obtain ⟨i, rfl, hi⟩ := h.exists_number hu
  obtain ⟨j, rfl, hj⟩ := h.exists_number hv
  obtain ⟨way, climbs⟩ := exists_climbs h.idomAt_lt j
  have value := h.dominates_eq_mem climbs i
  have member : i ∈ way ↔ g.Dominates entry (d.vertex i) (d.vertex j) :=
    (mem_climbs_iff_ancestor h.idomAt_zero climbs).trans h.ancestor_iff_dominates
  have dominates_iff : d.dominates (d.vertex i) (d.vertex j) = .ok true ↔
      g.Dominates entry (d.vertex i) (d.vertex j) := by
    rw [value, ← member]
    simp
  refine ⟨⟨i, j, way, hi, hj, climbs, value⟩, dominates_iff, ?_, ?_⟩
  · rw [dominates_iff, Graph.dominates_iff_remove]
  · refine ⟨decide (i ∈ way) && d.vertex i != d.vertex j, ?_, ?_⟩
    · rw [properlyDominates, value]
      rfl
    · simp [← member]

end Node

end Dominators

namespace Graph

/-- A computation succeeds and its result decides dominance between all reachable vertices, if no
two of these have one index and the bound allows for all of them. -/
theorem decidesDominance_dominators [Node N] [DecidableEq N] (g : Graph N) (entry : N)
    (options : Options)
    (injective : ∀ u v, g.Reachable entry u → g.Reachable entry v →
      Node.index u = Node.index v → u = v)
    (room : {v | g.Reachable entry v}.encard ≤ options.bound) :
    ∃ d, g.dominators entry options = .ok d ∧ ∀ a b, g.Reachable entry a → g.Reachable entry b →
      d.DecidesDominance g entry a b := by
  obtain ⟨t, ht, hd⟩ := exists_dominators room
  have exact := SpanningTree.exact_of_explore ht injective options.linkEval
  refine ⟨_, hd, ?_⟩
  intro a b ha hb
  exact exact.decidesDominance ha hb

theorem decidesDominance_dominators_two_entries :
    ∃ d, (ofRows [[1, 2], [3], [3], [1, 2]]).dominators 0 { bound := 4 } = .ok d ∧
      ∀ a b, (ofRows [[1, 2], [3], [3], [1, 2]]).Reachable 0 a →
        (ofRows [[1, 2], [3], [3], [1, 2]]).Reachable 0 b →
        d.DecidesDominance (ofRows [[1, 2], [3], [3], [1, 2]]) 0 a b :=
  decidesDominance_dominators _ 0 { bound := 4 } (fun _ _ _ _ h => h)
    (encard_reachable_ofRows [[1, 2], [3], [3], [1, 2]] 0 (by decide) (by decide))

end Graph

end FlowGraph
