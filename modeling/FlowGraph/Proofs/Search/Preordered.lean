import FlowGraph.Proofs.Graph.Ancestor
import FlowGraph.Search.Tables
import Mathlib.Data.List.Pairwise
import Mathlib.Order.Nat
/-!
Why the numbers of a search are in depth-first order. The tails of the edges that are still to be
traversed lie on the tree path to the last vertex, so all numbers from such a tail on are its
descendants. A new vertex and a new edge keep this.
-/

set_option autoImplicit false

namespace FlowGraph

universe u

namespace Tables

variable {N : Type u}

def parentAt (t : Tables N) (i : Nat) : Nat := t.parents[i]?.getD 0

def predsAt (t : Tables N) (i : Nat) : List Nat := t.predecessors[i]?.getD []

def discover [Node N] (t : Tables N) (tail : Nat) (v : N) : Tables N :=
  (t.addVertex v tail).addEdge tail t.vertices.size

private theorem parentAt_addEdge (t : Tables N) (tail head i : Nat) :
    (t.addEdge tail head).parentAt i = t.parentAt i := rfl

theorem predsAt_addEdge (t : Tables N) (tail : Nat) {head : Nat}
    (h : head < t.predecessors.size) (i : Nat) :
    (t.addEdge tail head).predsAt i = if i = head then tail :: t.predsAt i else t.predsAt i := by
  simp only [predsAt, addEdge, Array.getElem?_modify]
  by_cases hi : i = head
  · subst hi
    simp [h]
  · rw [if_neg hi, if_neg (Ne.symm hi)]

theorem mem_predsAt_mapPredecessors (t : Tables N) {f : List Nat → List Nat}
    (hf : ∀ p ps, p ∈ f ps ↔ p ∈ ps) (p i : Nat) :
    p ∈ (t.mapPredecessors f).predsAt i ↔ p ∈ t.predsAt i := by
  simp only [predsAt, mapPredecessors, Array.getElem?_map]
  cases t.predecessors[i]? with
  | none => simp
  | some ps => exact hf p ps

section Node

variable [Node N] {t : Tables N} {tail head i p : Nat} {tails : List Nat} {v : N}

private theorem parentAt_discover (valid : t.Valid) :
    (t.discover tail v).parentAt i = if i = t.vertices.size then tail else t.parentAt i := by
  simp only [discover, parentAt_addEdge]
  simp only [parentAt, addVertex, Array.getElem?_push, valid.size_parents]
  split <;> rfl

theorem predsAt_discover (valid : t.Valid) :
    (t.discover tail v).predsAt i =
      if i = t.vertices.size then [tail] else t.predsAt i := by
  have hsize : t.vertices.size < (t.addVertex v tail).predecessors.size := by
    simp [addVertex, valid.size_predecessors]
  rw [discover, predsAt_addEdge _ _ hsize]
  simp only [predsAt, addVertex, Array.getElem?_push, valid.size_predecessors]
  by_cases hi : i = t.vertices.size
  · simp [hi]
  · simp [hi]

private theorem size_discover : (t.discover tail v).vertices.size = t.vertices.size + 1 :=
  size_addVertex t v tail

private theorem eq_or_lt_of_lt_size (h : i < (t.discover tail v).vertices.size) :
    i = t.vertices.size ∨ i < t.vertices.size := by
  rw [size_discover] at h
  omega

end Node

/-- The vertices are numbered in depth-first order, and the search has gone down the tree to the
tails of the edges to be traversed. -/
structure Preordered (t : Tables N) (tails : List Nat) : Prop where
  parent_zero : t.parentAt 0 = 0
  parent_lt : ∀ i, 0 < i → i < t.vertices.size → t.parentAt i < i
  parent_mem : ∀ i, 0 < i → i < t.vertices.size → t.parentAt i ∈ t.predsAt i
  forward : ∀ p i, i < t.vertices.size → p ∈ t.predsAt i → p < i → Ancestor t.parentAt p i
  interval : ∀ v w x, w < t.vertices.size → Ancestor t.parentAt v w → v ≤ x → x ≤ w →
    Ancestor t.parentAt v x
  descending : tails.Pairwise fun a b => b ≤ a
  spine : ∀ a ∈ tails, ∀ x, a ≤ x → x < t.vertices.size → Ancestor t.parentAt a x

namespace Preordered

variable {t : Tables N} {tail head i p a b : Nat} {tails : List Nat}

private theorem parent_le (h : t.Preordered tails) (hi : i < t.vertices.size) :
    t.parentAt i ≤ i := by
  by_cases hi0 : i = 0
  · subst hi0
    exact Nat.le_of_eq h.parent_zero
  · exact Nat.le_of_lt (h.parent_lt i (Nat.pos_of_ne_zero hi0) hi)

/-- An edge between numbered vertices. If it leads to a larger number, the tail is on the tree
path to it, since the search has not left the tail. -/
theorem addEdge (h : t.Preordered (tail :: tails)) (valid : t.Valid)
    (hhead : head < t.vertices.size) : (t.addEdge tail head).Preordered tails := by
  have hsize : head < t.predecessors.size := by
    rw [valid.size_predecessors]
    exact hhead
  have hpreds := t.predsAt_addEdge tail hsize
  refine ⟨h.parent_zero, h.parent_lt, ?_, ?_, h.interval, h.descending.of_cons, ?_⟩
  · intro i hi0 hi
    have hmem := h.parent_mem i hi0 hi
    rw [hpreds i, parentAt_addEdge]
    split
    · exact List.mem_cons_of_mem tail hmem
    · exact hmem
  · intro p i hi hp hpi
    rw [hpreds i] at hp
    split at hp
    · rcases List.mem_cons.1 hp with rfl | hp
      · exact h.spine p List.mem_cons_self i hpi.le hi
      · exact h.forward p i hi hp hpi
    · exact h.forward p i hi hp hpi
  · intro a ha
    exact h.spine a (List.mem_cons_of_mem tail ha)

section Discover

variable [Node N] {v : N}

private theorem ancestor_discover (h : t.Preordered tails) (valid : t.Valid)
    (hb : b < t.vertices.size) :
    Ancestor (t.discover tail v).parentAt a b ↔ Ancestor t.parentAt a b := by
  have agree : ∀ j, j < t.vertices.size → (t.discover tail v).parentAt j = t.parentAt j := by
    intro j hj
    rw [parentAt_discover valid, if_neg hj.ne]
  have closed : ∀ j, j < t.vertices.size → t.parentAt j < t.vertices.size :=
    fun j hj => (h.parent_le hj).trans_lt hj
  constructor
  · intro anc
    refine Ancestor.congr ?_ (fun j hj => (agree j hj).symm) anc hb
    intro j hj
    rw [agree j hj]
    exact closed j hj
  · intro anc
    exact Ancestor.congr closed agree anc hb

private theorem parentAt_discover_old (valid : t.Valid) (hi : i < t.vertices.size) :
    (t.discover tail v).parentAt i = t.parentAt i := by
  rw [parentAt_discover valid, if_neg hi.ne]

private theorem parentAt_discover_new (valid : t.Valid) :
    (t.discover tail v).parentAt t.vertices.size = tail := by
  rw [parentAt_discover valid, if_pos rfl]

private theorem ancestor_discover_new (h : t.Preordered tails) (valid : t.Valid)
    (htail : tail < t.vertices.size) (ha : Ancestor t.parentAt a tail) :
    Ancestor (t.discover tail v).parentAt a t.vertices.size := by
  refine Ancestor.up ?_
  rw [parentAt_discover_new valid]
  exact (h.ancestor_discover valid htail).2 ha

private theorem interval_discover (h : t.Preordered (tail :: tails)) (valid : t.Valid)
    (htail : tail < t.vertices.size) {x : Nat} (hb : b < (t.discover tail v).vertices.size)
    (anc : Ancestor (t.discover tail v).parentAt a b) (hax : a ≤ x) (hxb : x ≤ b) :
    Ancestor (t.discover tail v).parentAt a x := by
  rcases eq_or_lt_of_lt_size hb with rfl | hb
  · rcases hxb.eq_or_lt with rfl | hx
    · exact anc
    · -- the new vertex is not an ancestor of an old one, so the way up begins at the tail
      have hparent := anc.parent_of_ne (hax.trans_lt hx).ne
      rw [parentAt_discover_new valid] at hparent
      have hat := (h.ancestor_discover valid htail).1 hparent
      refine (h.ancestor_discover valid hx).2 ?_
      rcases Nat.le_total x tail with hxt | htx
      · exact h.interval a tail x htail hat hax hxt
      · exact hat.trans (h.spine tail List.mem_cons_self x htx hx)
  · have old := (h.ancestor_discover valid hb).1 anc
    exact (h.ancestor_discover valid (hxb.trans_lt hb)).2 (h.interval a b x hb old hax hxb)

private theorem spine_discover (h : t.Preordered (tail :: tails)) (valid : t.Valid)
    (htail : tail < t.vertices.size) {k x : Nat}
    (ha : a ∈ List.replicate k t.vertices.size ++ tails) (hax : a ≤ x)
    (hx : x < (t.discover tail v).vertices.size) :
    Ancestor (t.discover tail v).parentAt a x := by
  rcases List.mem_append.1 ha with ha | ha
  · obtain rfl := List.eq_of_mem_replicate ha
    rcases eq_or_lt_of_lt_size hx with rfl | hx
    · exact Ancestor.refl
    · exact absurd hx (Nat.not_lt_of_le hax)
  · rcases eq_or_lt_of_lt_size hx with rfl | hx
    · have hat := List.rel_of_pairwise_cons h.descending ha
      have anc := h.spine a (List.mem_cons_of_mem tail ha) tail hat htail
      exact h.ancestor_discover_new valid htail anc
    · have anc := h.spine a (List.mem_cons_of_mem tail ha) x hax hx
      exact (h.ancestor_discover valid hx).2 anc

theorem discover (h : t.Preordered (tail :: tails)) (valid : t.Valid)
    (htail : tail < t.vertices.size) (k : Nat) :
    (t.discover tail v).Preordered (List.replicate k t.vertices.size ++ tails) := by
  refine ⟨?_, ?_, ?_, ?_, fun _ _ _ => h.interval_discover valid htail, ?_,
    fun _ ha _ => h.spine_discover valid htail ha⟩
  · rw [parentAt_discover_old valid valid.nonempty, h.parent_zero]
  · intro i hi0 hi
    rcases eq_or_lt_of_lt_size hi with rfl | hi
    · rwa [parentAt_discover_new valid]
    · rw [parentAt_discover_old valid hi]
      exact h.parent_lt i hi0 hi
  · intro i hi0 hi
    rw [predsAt_discover valid]
    rcases eq_or_lt_of_lt_size hi with rfl | hi
    · simp [parentAt_discover_new valid]
    · rw [if_neg hi.ne, parentAt_discover_old valid hi]
      exact h.parent_mem i hi0 hi
  · intro p i hi hp hpi
    rw [predsAt_discover valid] at hp
    rcases eq_or_lt_of_lt_size hi with rfl | hi
    · rw [if_pos rfl] at hp
      obtain rfl := List.mem_singleton.1 hp
      exact h.ancestor_discover_new valid htail Ancestor.refl
    · rw [if_neg hi.ne] at hp
      exact (h.ancestor_discover valid hi).2 (h.forward p i hi hp hpi)
  · refine List.pairwise_append.2 ⟨?_, h.descending.of_cons, ?_⟩
    · exact List.pairwise_replicate.2 (Or.inr le_rfl)
    · intro a ha b hb
      obtain rfl := List.eq_of_mem_replicate ha
      exact (List.rel_of_pairwise_cons h.descending hb).trans htail.le

end Discover

theorem single [Node N] (v : N) (k : Nat) : (single v).Preordered (List.replicate k 0) := by
  have size : (Tables.single v).vertices.size = 1 := rfl
  have zero : ∀ {i : Nat}, i < (Tables.single v).vertices.size → i = 0 := by
    intro i hi
    rw [size] at hi
    omega
  refine ⟨rfl, ?_, ?_, ?_, ?_, ?_, ?_⟩
  · intro i hi0 hi
    exact absurd (zero hi) hi0.ne'
  · intro i hi0 hi
    exact absurd (zero hi) hi0.ne'
  · intro p i hi _ hpi
    exact absurd (zero hi ▸ hpi) p.not_lt_zero
  · intro a b x hb _ hax hxb
    obtain rfl := zero hb
    obtain rfl := Nat.le_zero.1 hxb
    obtain rfl := Nat.le_zero.1 hax
    exact Ancestor.refl
  · exact List.pairwise_replicate.2 (Or.inr le_rfl)
  · intro a ha x _ hx
    obtain rfl := List.eq_of_mem_replicate ha
    obtain rfl := zero hx
    exact Ancestor.refl

theorem mapPredecessors (h : t.Preordered tails) {f : List Nat → List Nat}
    (hf : ∀ p ps, p ∈ f ps ↔ p ∈ ps) : (t.mapPredecessors f).Preordered tails := by
  have hpreds := t.mem_predsAt_mapPredecessors hf
  refine ⟨h.parent_zero, h.parent_lt, ?_, ?_, h.interval, h.descending, h.spine⟩
  · intro i hi0 hi
    exact (hpreds _ i).2 (h.parent_mem i hi0 hi)
  · intro p i hi hp
    exact h.forward p i hi ((hpreds p i).1 hp)

end Preordered

end Tables

end FlowGraph
