import FlowGraph.Graph.Basic
import FlowGraph.Index.SlotMap
/-!
What a depth-first search writes down. Vertices are numbered in the order of their discovery,
and the tables speak of numbers. `Tables.Valid` says that every number in a table is in range;
adding a vertex and adding an edge keep it.
-/

set_option autoImplicit false

namespace FlowGraph

universe u

/-- The tables of a search, all by number: the vertices, the numbers of their indexes, the
numbers of their parents in the spanning tree, and the numbers of their predecessors. -/
structure Tables (N : Type u) where
  vertices : Array N
  indices : SlotMap Nat
  parents : Array Nat
  predecessors : Array (List Nat)

namespace Tables

variable {N : Type u}

def size (t : Tables N) : Nat := t.vertices.size

/-- Some vertex has a number, every table has a row for each number, and no row names a number
out of range. -/
structure Valid (t : Tables N) : Prop where
  nonempty : 0 < t.vertices.size
  size_parents : t.parents.size = t.vertices.size
  size_predecessors : t.predecessors.size = t.vertices.size
  parents_lt : ∀ (i : Nat) (h : i < t.parents.size), t.parents[i] < t.vertices.size
  predecessors_lt : ∀ (i : Nat) (h : i < t.predecessors.size),
    ∀ p ∈ t.predecessors[i], p < t.vertices.size
  indices_lt : ∀ (index i : Nat), t.indices.get? index = some i → i < t.vertices.size

/-- The tables of a single vertex, which is its own parent. -/
def single [Node N] (v : N) : Tables N :=
  { vertices := #[v]
    indices := (∅ : SlotMap Nat).insert (Node.index v) 0
    parents := #[0]
    predecessors := #[[]] }

def addVertex [Node N] (t : Tables N) (v : N) (parent : Nat) : Tables N :=
  let number := t.vertices.size
  { vertices := t.vertices.push v
    indices := t.indices.insert (Node.index v) number
    parents := t.parents.push parent
    predecessors := t.predecessors.push [] }

/-- Notes an edge between numbered vertices at its head. -/
def addEdge (t : Tables N) (tail head : Nat) : Tables N :=
  { t with predecessors := t.predecessors.modify head (tail :: ·) }

def mapPredecessors (t : Tables N) (f : List Nat → List Nat) : Tables N :=
  { t with predecessors := t.predecessors.map f }

@[simp] theorem size_addVertex [Node N] (t : Tables N) (v : N) (parent : Nat) :
    (t.addVertex v parent).vertices.size = t.vertices.size + 1 := by
  simp [addVertex]

theorem valid_single [Node N] (v : N) : (single v).Valid where
  nonempty := by simp [single]
  size_parents := rfl
  size_predecessors := rfl
  parents_lt := by
    intro i h
    simp [single]
  predecessors_lt := by
    intro i h p hp
    have hi : i < 1 := h
    obtain rfl : i = 0 := by omega
    simp [single] at hp
  indices_lt := by
    intro index i h
    simp only [single, SlotMap.get?_insert, SlotMap.get?_empty] at h
    split at h
    · simp only [Option.some.injEq] at h
      simp [single, ← h]
    · cases h

theorem Valid.addVertex [Node N] {t : Tables N} (h : t.Valid) (v : N) {parent : Nat}
    (hp : parent < t.vertices.size) : (t.addVertex v parent).Valid where
  nonempty := by simp
  size_parents := by simp [Tables.addVertex, h.size_parents]
  size_predecessors := by simp [Tables.addVertex, h.size_predecessors]
  parents_lt := by
    intro i hi
    simp only [Tables.addVertex, Array.size_push, Array.getElem_push]
    split
    · exact Nat.lt_succ_of_lt (h.parents_lt i _)
    · exact Nat.lt_succ_of_lt hp
  predecessors_lt := by
    intro i hi p hmem
    simp only [Tables.addVertex, Array.size_push, Array.getElem_push] at hmem ⊢
    split at hmem
    · exact Nat.lt_succ_of_lt (h.predecessors_lt i _ p hmem)
    · simp at hmem
  indices_lt := by
    intro index i hget
    simp only [Tables.addVertex, Array.size_push] at hget ⊢
    rw [SlotMap.get?_insert] at hget
    split at hget
    · simp only [Option.some.injEq] at hget
      omega
    · exact Nat.lt_succ_of_lt (h.indices_lt index i hget)

theorem Valid.addEdge {t : Tables N} (h : t.Valid) {tail : Nat} (head : Nat)
    (ht : tail < t.vertices.size) : (t.addEdge tail head).Valid where
  nonempty := h.nonempty
  size_parents := h.size_parents
  size_predecessors := by simpa [Tables.addEdge] using h.size_predecessors
  parents_lt := h.parents_lt
  predecessors_lt := by
    intro i hi p hmem
    have hi' : i < t.predecessors.size := by simpa [Tables.addEdge] using hi
    simp only [Tables.addEdge, Array.getElem_modify] at hmem
    split at hmem
    · rcases List.mem_cons.1 hmem with rfl | hmem
      · exact ht
      · exact h.predecessors_lt i hi' p hmem
    · exact h.predecessors_lt i hi' p hmem
  indices_lt := h.indices_lt

theorem Valid.mapPredecessors {t : Tables N} (h : t.Valid) {f : List Nat → List Nat}
    (hf : ∀ (p : Nat) (ps : List Nat), p ∈ f ps → p ∈ ps) : (t.mapPredecessors f).Valid where
  nonempty := h.nonempty
  size_parents := h.size_parents
  size_predecessors := by simpa [Tables.mapPredecessors] using h.size_predecessors
  parents_lt := h.parents_lt
  predecessors_lt := by
    intro i hi p hmem
    have hi' : i < t.predecessors.size := by simpa [Tables.mapPredecessors] using hi
    simp only [Tables.mapPredecessors, Array.getElem_map] at hmem
    exact h.predecessors_lt i hi' p (hf p _ hmem)
  indices_lt := h.indices_lt

end Tables

end FlowGraph
