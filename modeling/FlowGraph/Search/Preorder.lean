import FlowGraph.Graph.Basic
import FlowGraph.Index.BitSet
/-!
Depth-first preorder. The vertices still to be tried stand in one list; a vertex met for the
first time puts its successors in front of them.
-/

set_option autoImplicit false

namespace FlowGraph

universe u

namespace Graph

variable {N : Type u} [Node N]

/-- Goes on with a search: `pending` are the vertices to try, `seen` the indexes met, and
`order` the vertices met. It ends early when `limit` vertices are met and a further one turns
up. -/
def preorderFrom (g : Graph N) (limit : Nat) (pending : List N) (seen : BitSet)
    (order : Array N) : Array N :=
  match pending with
  | [] => order
  | v :: rest =>
    if seen.contains (Node.index v) then g.preorderFrom limit rest seen order
    else if order.size < limit then
      g.preorderFrom limit (g.successors v ++ rest) (seen.insert (Node.index v)) (order.push v)
    else order
termination_by (limit - order.size, pending.length)
decreasing_by
  · exact Prod.Lex.right _ (by simp)
  · exact Prod.Lex.left _ _ (by simp only [Array.size_push]; omega)

/-- The vertices that can be reached from `start`, in depth-first preorder, successors in their
order. Of vertices with one index only the first met counts. The answer stops at `limit`
vertices, so that an endless graph has one. -/
def preorder (g : Graph N) (limit : Nat) (start : N) : Array N :=
  g.preorderFrom limit [start] ∅ #[]

end Graph

end FlowGraph
