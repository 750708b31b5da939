import FlowGraph.Proofs.Graph.Dominance
import FlowGraph.Proofs.Search.Preordered
/-!
What the tables of a search say of the graph. The vertices are reachable and have different
indexes, every noted edge is an edge of the graph, and every edge that leaves a numbered vertex is
noted or still to be traversed.
-/

set_option autoImplicit false

namespace FlowGraph

universe u

namespace Tables

variable {N : Type u} [Node N]

section Discover

variable {t : Tables N} {tail i k : Nat} {v w : N}

private theorem get?_indices_discover : (t.discover tail v).indices.get? k =
    if k = Node.index v then some t.vertices.size else t.indices.get? k :=
  SlotMap.get?_insert _ _ _ _

private theorem getElem?_vertices_discover : (t.discover tail v).vertices[i]? =
    if i = t.vertices.size then some v else t.vertices[i]? :=
  Array.getElem?_push

private theorem get?_indices_discover_of_some (hv : t.indices.get? (Node.index v) = none)
    (hk : t.indices.get? k = some i) : (t.discover tail v).indices.get? k = some i := by
  rw [get?_indices_discover, if_neg, hk]
  rintro rfl
  rw [hv] at hk
  cases hk

private theorem getElem?_vertices_discover_of_some (hw : t.vertices[i]? = some w) :
    (t.discover tail v).vertices[i]? = some w := by
  have hi : i < t.vertices.size := (Array.getElem?_eq_some_iff.1 hw).1
  rw [getElem?_vertices_discover, if_neg hi.ne, hw]

end Discover

/-- The tables agree with the part of a graph that a search has seen. An edge is known by the
number of its tail and the index of its head. -/
structure Records (t : Tables N) (g : Graph N) (entry : N) (pending : List (Nat × N)) : Prop where
  entry_first : t.vertices[0]? = some entry
  index_iff : ∀ k i : Nat,
    t.indices.get? k = some i ↔ ∃ v, t.vertices[i]? = some v ∧ Node.index v = k
  reachable : ∀ (i : Nat) (v : N), t.vertices[i]? = some v → g.Reachable entry v
  noted : ∀ p i : Nat, p ∈ t.predsAt i → ∃ u v, t.vertices[p]? = some u ∧ v ∈ g.successors u ∧
    t.indices.get? (Node.index v) = some i
  waiting : ∀ e ∈ pending, ∃ u, t.vertices[e.1]? = some u ∧ e.2 ∈ g.successors u
  complete : ∀ (p : Nat) (u : N), t.vertices[p]? = some u → ∀ v ∈ g.successors u,
    (p, v) ∈ pending ∨ ∃ i, t.indices.get? (Node.index v) = some i ∧ p ∈ t.predsAt i

namespace Records

variable {t : Tables N} {g : Graph N} {entry u v : N} {tail head i j : Nat}
  {rest : List (Nat × N)}

theorem index_injective (h : t.Records g entry rest) (hi : t.vertices[i]? = some u)
    (hj : t.vertices[j]? = some v) (heq : Node.index u = Node.index v) : i = j := by
  have hu := (h.index_iff (Node.index u) i).2 ⟨u, hi, rfl⟩
  have hv := (h.index_iff (Node.index v) j).2 ⟨v, hj, rfl⟩
  rw [heq, hv] at hu
  exact (Option.some.inj hu).symm

theorem reachable_pending (h : t.Records g entry ((tail, v) :: rest)) : g.Reachable entry v := by
  obtain ⟨u, hu, edge⟩ := h.waiting (tail, v) List.mem_cons_self
  exact (h.reachable tail u hu).tail edge

theorem addEdge (h : t.Records g entry ((tail, v) :: rest)) (valid : t.Valid)
    (hv : t.indices.get? (Node.index v) = some head) :
    (t.addEdge tail head).Records g entry rest := by
  have hsize : head < t.predecessors.size := by
    rw [valid.size_predecessors]
    exact valid.indices_lt _ _ hv
  have hpreds := t.predsAt_addEdge tail hsize
  refine ⟨h.entry_first, h.index_iff, h.reachable, ?_, ?_, ?_⟩
  · intro p i hp
    rw [hpreds i] at hp
    split at hp
    next hi =>
      rcases List.mem_cons.1 hp with rfl | hp
      · obtain ⟨u, hu, edge⟩ := h.waiting (p, v) List.mem_cons_self
        exact ⟨u, v, hu, edge, hi ▸ hv⟩
      · exact h.noted p i hp
    next => exact h.noted p i hp
  · intro e he
    exact h.waiting e (List.mem_cons_of_mem _ he)
  · intro p u hu w hw
    rcases h.complete p u hu w hw with hmem | ⟨i, hi, hp⟩
    · rcases List.mem_cons.1 hmem with heq | hmem
      · obtain ⟨rfl, rfl⟩ := Prod.mk.inj heq
        refine Or.inr ⟨head, hv, ?_⟩
        rw [hpreds head, if_pos rfl]
        exact List.mem_cons_self
      · exact Or.inl hmem
    · refine Or.inr ⟨i, hi, ?_⟩
      rw [hpreds i]
      split
      · exact List.mem_cons_of_mem tail hp
      · exact hp

private theorem index_iff_discover (h : t.Records g entry rest) (valid : t.Valid)
    (hv : t.indices.get? (Node.index v) = none) (k i : Nat) :
    (t.discover tail v).indices.get? k = some i ↔
      ∃ w, (t.discover tail v).vertices[i]? = some w ∧ Node.index w = k := by
  rw [get?_indices_discover, getElem?_vertices_discover]
  constructor
  · intro hk
    by_cases hkv : k = Node.index v
    · rw [if_pos hkv] at hk
      rw [if_pos (Option.some.inj hk).symm]
      exact ⟨v, rfl, hkv.symm⟩
    · rw [if_neg hkv] at hk
      have hi := valid.indices_lt k i hk
      rw [if_neg hi.ne]
      exact (h.index_iff k i).1 hk
  · rintro ⟨w, hw, rfl⟩
    by_cases hi : i = t.vertices.size
    · rw [if_pos hi] at hw
      obtain rfl := Option.some.inj hw
      rw [if_pos rfl, hi]
    · rw [if_neg hi] at hw
      have hk := (h.index_iff (Node.index w) i).2 ⟨w, hw, rfl⟩
      rw [if_neg, hk]
      intro heq
      rw [heq, hv] at hk
      cases hk

private theorem complete_discover (h : t.Records g entry ((tail, v) :: rest)) (valid : t.Valid)
    (hv : t.indices.get? (Node.index v) = none) {p : Nat}
    (hu : (t.discover tail v).vertices[p]? = some u) {w : N} (hw : w ∈ g.successors u) :
    (p, w) ∈ (g.successors v).map (t.vertices.size, ·) ++ rest ∨
      ∃ i, (t.discover tail v).indices.get? (Node.index w) = some i ∧
        p ∈ (t.discover tail v).predsAt i := by
  rw [getElem?_vertices_discover] at hu
  split at hu
  next hp =>
    obtain rfl := Option.some.inj hu
    refine Or.inl (List.mem_append_left _ ?_)
    exact List.mem_map.2 ⟨w, hw, by rw [hp]⟩
  next =>
    rcases h.complete p u hu w hw with hmem | ⟨i, hi, hp⟩
    · rcases List.mem_cons.1 hmem with heq | hmem
      · obtain ⟨rfl, rfl⟩ := Prod.mk.inj heq
        refine Or.inr ⟨t.vertices.size, ?_, ?_⟩
        · rw [get?_indices_discover, if_pos rfl]
        · rw [predsAt_discover valid, if_pos rfl]
          exact List.mem_singleton_self p
      · exact Or.inl (List.mem_append_right _ hmem)
    · have hlt := valid.indices_lt _ _ hi
      refine Or.inr ⟨i, get?_indices_discover_of_some hv hi, ?_⟩
      rw [predsAt_discover valid, if_neg hlt.ne]
      exact hp

theorem discover (h : t.Records g entry ((tail, v) :: rest)) (valid : t.Valid)
    (hv : t.indices.get? (Node.index v) = none) :
    (t.discover tail v).Records g entry
      ((g.successors v).map (t.vertices.size, ·) ++ rest) := by
  have old : ∀ {i : Nat} {w : N}, t.vertices[i]? = some w →
      (t.discover tail v).vertices[i]? = some w := getElem?_vertices_discover_of_some
  obtain ⟨u, hu, edge⟩ := h.waiting (tail, v) List.mem_cons_self
  refine ⟨old h.entry_first, h.index_iff_discover valid hv, ?_, ?_, ?_,
    fun p u hu w hw => h.complete_discover valid hv hu hw⟩
  · intro i w hw
    rw [getElem?_vertices_discover] at hw
    split at hw
    · obtain rfl := Option.some.inj hw
      exact h.reachable_pending
    · exact h.reachable i w hw
  · intro p i hp
    rw [predsAt_discover valid] at hp
    split at hp
    next hi =>
      obtain rfl := List.mem_singleton.1 hp
      refine ⟨u, v, old hu, edge, ?_⟩
      rw [get?_indices_discover, if_pos rfl, hi]
    next =>
      obtain ⟨u', w, hu', hw, hk⟩ := h.noted p i hp
      exact ⟨u', w, old hu', hw, get?_indices_discover_of_some hv hk⟩
  · intro e he
    rcases List.mem_append.1 he with he | he
    · obtain ⟨w, hw, rfl⟩ := List.mem_map.1 he
      refine ⟨v, ?_, hw⟩
      rw [getElem?_vertices_discover, if_pos rfl]
    · obtain ⟨u', hu', hmem⟩ := h.waiting e (List.mem_cons_of_mem _ he)
      exact ⟨u', old hu', hmem⟩

theorem single (g : Graph N) (entry : N) :
    (single entry).Records g entry ((g.successors entry).map (0, ·)) := by
  have hget : ∀ k, (Tables.single entry).indices.get? k =
      if k = Node.index entry then some 0 else none := by
    intro k
    simp only [Tables.single, SlotMap.get?_insert, SlotMap.get?_empty]
  have hrow : ∀ {i : Nat} {v : N}, (Tables.single entry).vertices[i]? = some v →
      i = 0 ∧ v = entry := by
    intro i v hv
    simp only [Tables.single] at hv
    obtain ⟨hi, rfl⟩ := Array.getElem?_eq_some_iff.1 hv
    simp at hi
    simp [hi]
  have hfirst : (Tables.single entry).vertices[0]? = some entry := rfl
  refine ⟨hfirst, ?_, ?_, ?_, ?_, ?_⟩
  · intro k i
    rw [hget]
    constructor
    · intro hk
      split at hk
      next hke =>
        obtain rfl := Option.some.inj hk
        exact ⟨entry, hfirst, hke.symm⟩
      next => cases hk
    · rintro ⟨v, hv, rfl⟩
      obtain ⟨rfl, rfl⟩ := hrow hv
      exact if_pos rfl
  · intro i v hv
    obtain ⟨_, rfl⟩ := hrow hv
    exact Graph.Reachable.refl v
  · intro p i hp
    have hnil : (Tables.single entry).predsAt i = [] := by
      simp only [predsAt, Tables.single]
      rcases i with _ | i <;> rfl
    rw [hnil] at hp
    cases hp
  · intro e he
    obtain ⟨w, hw, rfl⟩ := List.mem_map.1 he
    exact ⟨entry, hfirst, hw⟩
  · intro p u hu w hw
    obtain ⟨rfl, rfl⟩ := hrow hu
    exact Or.inl (List.mem_map_of_mem hw)

theorem mapPredecessors (h : t.Records g entry rest) {f : List Nat → List Nat}
    (hf : ∀ p ps, p ∈ f ps ↔ p ∈ ps) : (t.mapPredecessors f).Records g entry rest := by
  have hpreds := t.mem_predsAt_mapPredecessors hf
  refine ⟨h.entry_first, h.index_iff, h.reachable, ?_, h.waiting, ?_⟩
  · intro p i hp
    exact h.noted p i ((hpreds p i).1 hp)
  · intro p u hu v hv
    rcases h.complete p u hu v hv with hmem | ⟨i, hi, hp⟩
    · exact Or.inl hmem
    · exact Or.inr ⟨i, hi, (hpreds p i).2 hp⟩

end Records

end Tables

end FlowGraph
