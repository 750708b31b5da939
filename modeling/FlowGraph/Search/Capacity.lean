import FlowGraph.Index.Capacity
import FlowGraph.Search.Preorder
/-!
Searches within finite memory. A search keeps the number of each vertex in the slot of its index,
so it breaks off at the first vertex whose index can have no slot. Here that vertex is found
beforehand, in the same order and under the same bound, without a table.
-/

set_option autoImplicit false

namespace FlowGraph

universe u v

namespace Graph

variable {N : Type u} [Node N]

/-- Goes on looking for a vertex without a slot: `pending` are the vertices to try, `seen` the
indexes met, and `room` more vertices may be met. -/
def unslottedFrom (g : Graph N) (room : Nat) (pending : List N) (seen : BitSet) : Option N :=
  match pending with
  | [] => none
  | v :: rest =>
    if seen.contains (Node.index v) then g.unslottedFrom room rest seen
    else match room with
      | 0 => none
      | room + 1 =>
        if Node.index v < SlotMap.capacity Nat then
          g.unslottedFrom room (g.successors v ++ rest) (seen.insert (Node.index v))
        else some v
termination_by (room, pending.length)

/-- The first of at most `bound` vertices, in depth-first preorder, whose index can have no
slot. -/
def unslotted? (g : Graph N) (bound : Nat) (entry : N) : Option N :=
  g.unslottedFrom bound [entry] ∅

/-- What a search for at most `bound` vertices gives, if each of them can have a slot. -/
def withSlots? {α : Type v} (g : Graph N) (bound : Nat) (entry : N) (search : Unit → α) :
    Option α :=
  match g.unslotted? bound entry with
  | some _ => none
  | none => some (search ())

end Graph

end FlowGraph
