import FlowGraph.Proofs.Dominator.ProperDominators
import FlowGraph.Proofs.Dominator.Views
import FlowGraph.Proofs.Outcome
/-!
Queries about any vertices. If no two vertices have one index, the table of numbers knows the
reachable vertices and no others, and each query answers for these alone. For others it names the
first that is not reached. No row is read that is not in its table.
-/

set_option autoImplicit false

namespace FlowGraph

universe u v

variable {N : Type u}

def NotReached.ofVertex [Node N] (v : N) : NotReached := { index := Node.index v }

/-- A query about some vertices is answered if all of them are reachable, and else names the first
that is not. -/
abbrev Graph.AnswersFor {α : Type v} [Node N] (g : Graph N) (entry : N) (vs : List N)
    (result : Except NotReached α) : Prop :=
  Checks (g.Reachable entry) NotReached.ofVertex vs result

namespace Dominators

variable [Node N] {d : Dominators N} {g : Graph N} {entry : N}

/-- What answers about the vertex of a number are read from. Every row is in its table, and the walk
up from the number comes to the entry. -/
structure ReadsRows (d : Dominators N) (v : N) (i : Fin d.size) : Prop where
  idom : ∃ (j : Nat) (u : N), d.idoms[i.val]? = some j ∧ d.vertices[j]? = some u ∧
    d.idom v = .ok u
  children : ∃ us, d.children v = .ok us ∧
    (d.tree.children i.val).map (fun c => d.vertices[c]?) = us.map some
  walk : ∃ way, d.Climbs i way ∧ d.properDominators v = .ok (way.tail.map d.vertex).reverse ∧
    ∀ u j, d.number u = .ok j → d.dominates u v = .ok (decide (j ∈ way))

/-- Queries answer for the reachable vertices and no others, and find what they read. -/
structure AnswersReached [DecidableEq N] (d : Dominators N) (g : Graph N) (entry : N) : Prop where
  reaches_iff : ∀ v, d.reaches v = true ↔ g.Reachable entry v
  number?_eq_some_iff : ∀ (v : N) (i : Nat),
    (d.number? v).map Fin.val = some i ↔ d.vertices[i]? = some v
  number?_eq_none_iff : ∀ v, d.number? v = none ↔ ¬ g.Reachable entry v
  idom : ∀ v, g.AnswersFor entry [v] (d.idom v)
  children : ∀ v, g.AnswersFor entry [v] (d.children v)
  properDominators : ∀ v, g.AnswersFor entry [v] (d.properDominators v)
  dominates : ∀ u v, g.AnswersFor entry [u, v] (d.dominates u v)
  properlyDominates : ∀ u v, g.AnswersFor entry [u, v] (d.properlyDominates u v)
  rows : ∀ v i, d.number? v = some i → d.ReadsRows v i

/-- The table of numbers knows no vertex that is not reached. -/
def KnowsReached (d : Dominators N) (g : Graph N) (entry : N) : Prop :=
  ∀ v i, d.number? v = some i → g.Reachable entry v

private theorem isSome_number? (d : Dominators N) (v : N) : (d.number? v).isSome = d.reaches v := by
  unfold number? reaches SlotMap.contains
  split
  next i h => exact (congrArg Option.isSome h).symm
  next h => exact (congrArg Option.isSome h).symm

namespace Exact

private theorem number?_eq_some_iff (h : d.Exact g entry) (knows : d.KnowsReached g entry) {v : N}
    {i : Fin d.size} : d.number? v = some i ↔ d.vertex i = v := by
  constructor
  · intro hv
    obtain ⟨j, rfl⟩ := (h.reachable_iff v).1 (knows v i hv)
    rw [h.number?_vertex] at hv
    rw [Option.some.inj hv]
  · rintro rfl
    exact h.number?_vertex i

private theorem number?_eq_none_iff (h : d.Exact g entry) (knows : d.KnowsReached g entry) {v : N} :
    d.number? v = none ↔ ¬ g.Reachable entry v := by
  constructor
  · rintro hv reach
    obtain ⟨i, rfl⟩ := (h.reachable_iff v).1 reach
    rw [h.number?_vertex] at hv
    cases hv
  · intro unreached
    refine Option.eq_none_iff_forall_ne_some.2 fun i hi => ?_
    exact unreached (knows v i hi)

private theorem settled_number (h : d.Exact g entry) (knows : d.KnowsReached g entry) (v : N) :
    Settled (d.number v) (g.Reachable entry v)
      fun e => ¬ g.Reachable entry v ∧ e = NotReached.ofVertex v := by
  refine Settled.of_option (fun i hi => ?_) (fun hnone => ?_) (h.number?_eq_none_iff knows)
  · rw [number, hi]
  · rw [number, hnone]
    rfl

private theorem answersFor_number (h : d.Exact g entry) (knows : d.KnowsReached g entry) (v : N) :
    g.AnswersFor entry [v] (d.number v) :=
  (h.settled_number knows v).checks_singleton

theorem answersFor_dominates (h : d.Exact g entry) (knows : d.KnowsReached g entry) (u v : N) :
    g.AnswersFor entry [u, v] (d.dominates u v) :=
  (h.settled_number knows u).checks_cons fun _ _ => (h.answersFor_number knows v).map _

theorem answersFor_properDominators (h : d.Exact g entry) (knows : d.KnowsReached g entry)
    (v : N) : g.AnswersFor entry [v] (d.properDominators v) :=
  (h.answersFor_number knows v).map _

private theorem readsRows (h : d.Exact g entry) (htree : d.tree = IdomTree.ofTable d.idoms)
    (i : Fin d.size) : d.ReadsRows (d.vertex i) i := by
  have row : ∀ j : Fin d.size, d.vertices[j.val]? = some (d.vertex j) :=
    fun j => Array.getElem?_eq_getElem j.isLt
  refine ⟨?_, ?_, ?_⟩
  · exact ⟨_, _, d.getElem?_idoms i, row (d.idomAt i), h.idom_vertex i⟩
  · obtain ⟨cs, numbers, children, _⟩ := h.children_eq htree i
    refine ⟨_, children, ?_⟩
    rw [numbers, List.map_map, List.map_map]
    exact List.map_congr_left fun c _ => row c
  · obtain ⟨way, climbs⟩ := exists_climbs h.idomAt_lt i
    refine ⟨way, climbs, h.properDominators_vertex climbs, ?_⟩
    intro u j hu
    rw [dominates, hu, h.number_vertex]
    exact congrArg Except.ok (passes_eq_mem h.idomAt_lt climbs j)

private theorem answersReached [DecidableEq N] (h : d.Exact g entry)
    (knows : d.KnowsReached g entry) (htree : d.tree = IdomTree.ofTable d.idoms) :
    d.AnswersReached g entry := by
  have reaches : ∀ v, d.reaches v = true ↔ g.Reachable entry v := by
    intro v
    rw [← d.isSome_number?, Option.isSome_iff_ne_none, Ne, h.number?_eq_none_iff knows, not_not]
  have numbers : ∀ (v : N) (i : Nat),
      (d.number? v).map Fin.val = some i ↔ d.vertices[i]? = some v := by
    intro v i
    rw [Option.map_eq_some_iff, Array.getElem?_eq_some_iff]
    constructor
    · rintro ⟨j, hj, rfl⟩
      exact ⟨j.isLt, (h.number?_eq_some_iff knows).1 hj⟩
    · rintro ⟨hi, hv⟩
      exact ⟨⟨i, hi⟩, (h.number?_eq_some_iff knows).2 hv, rfl⟩
  have rows : ∀ v i, d.number? v = some i → d.ReadsRows v i := by
    intro v i hi
    obtain rfl := (h.number?_eq_some_iff knows).1 hi
    exact h.readsRows htree i
  have number := h.answersFor_number knows
  have dominates := h.answersFor_dominates knows
  exact ⟨reaches, numbers, fun v => h.number?_eq_none_iff knows, fun v => (number v).map _,
    fun v => (number v).map _, h.answersFor_properDominators knows, dominates,
    fun u v => (dominates u v).map _, rows⟩

end Exact

end Dominators

namespace SpanningTree

variable [Node N] {g : Graph N} {bound : Nat} {entry : N} {t : SpanningTree N}

theorem knowsReached_of_explore (h : (g.explore bound entry).result = .ok t)
    (injective : Function.Injective (Node.index (N := N))) (kind : LinkEvalKind) :
    (Dominators.ofSpanningTree kind t).KnowsReached g entry := by
  have records := (Graph.sound_of_explore h).2
  intro v i hi
  have known : t.indices.get? (Node.index v) = some i.val := by
    unfold Dominators.number? at hi
    split at hi
    next j hj =>
      rw [← Option.some.inj hi]
      exact hj
    next => cases hi
  obtain ⟨u, hu, same⟩ := (records.index_iff _ _).1 known
  rw [← injective same]
  exact records.reachable i.val u hu

end SpanningTree

namespace Graph

/-- A computation succeeds and its result answers queries for the reachable vertices alone, if no
two vertices have one index and the bound allows for all that are reachable. -/
theorem answersReached_dominators [Node N] [DecidableEq N] (g : Graph N) (entry : N)
    (options : Options) (injective : Function.Injective (Node.index (N := N)))
    (room : {v | g.Reachable entry v}.encard ≤ options.bound) :
    ∃ d, g.dominators entry options = .ok d ∧ d.AnswersReached g entry := by
  obtain ⟨t, ht, hd⟩ := exists_dominators room
  have exact := SpanningTree.exact_of_explore ht (fun _ _ _ _ same => injective same)
    options.linkEval
  have knows := SpanningTree.knowsReached_of_explore ht injective options.linkEval
  exact ⟨_, hd, exact.answersReached knows rfl⟩

theorem answersReached_dominators_loop :
    ∃ d, (ofRows [[2], [2], [0]]).dominators 0 { bound := 3, linkEval := .balanced } = .ok d ∧
      d.AnswersReached (ofRows [[2], [2], [0]]) 0 :=
  answersReached_dominators _ 0 { bound := 3, linkEval := .balanced } (fun _ _ same => same)
    (encard_reachable_ofRows [[2], [2], [0]] 0 (by decide) (by decide))

end Graph

end FlowGraph
