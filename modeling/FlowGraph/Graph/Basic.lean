/-!
Directed graphs given by their successors. A vertex is known to tables by its index alone.
-/

set_option autoImplicit false

namespace FlowGraph

universe u

/-- A type of vertices that carry an index. Tables are as long as the largest index, so indexes
are meant to be small, and to differ between vertices of one graph. -/
class Node (N : Type u) where
  index : N → Nat

instance : Node Nat := ⟨id⟩

/-- A directed graph: the heads of the edges that leave a vertex, in order, with repetitions. -/
structure Graph (N : Type u) where
  successors : N → List N

/-- There is a number below `n`, so that 0 can be the number of the entry. -/
abbrev HasEntry (n : Nat) : Prop := @NeZero Nat Zero.ofOfNat0 n

end FlowGraph
