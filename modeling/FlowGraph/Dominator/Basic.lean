import FlowGraph.Dominator.IdomTree
import FlowGraph.Dominator.Immediate
import FlowGraph.Dominator.Options
import FlowGraph.LinkEval.Balanced
import FlowGraph.LinkEval.Simple
import FlowGraph.Search.SpanningTree
/-!
The dominators of the vertices that an entry reaches. A computation numbers them in depth-first
order, so that the entry is 0, and keeps the table of immediate dominators by number; every query
reads it. A query about a vertex that was not reached gives its index back as an error.
-/

set_option autoImplicit false

namespace FlowGraph

universe u

/-- A vertex was asked about that the entry does not reach. -/
structure NotReached where
  index : Nat
  deriving DecidableEq, Repr

def NotReached.message (e : NotReached) : String :=
  s!"node with index {e.index} was not reached from the entry"

/-- The result of a computation: the vertices by number, the number of each index, the immediate
dominators by number, and the tree they form. -/
structure Dominators (N : Type u) where
  vertices : Array N
  indices : SlotMap Nat
  idoms : Array Nat
  tree : IdomTree
  nonempty : 0 < vertices.size
  size_idoms : idoms.size = vertices.size
  idoms_lt : ∀ (i : Nat) (h : i < idoms.size), idoms[i] < vertices.size
  indices_lt : ∀ (index i : Nat), indices.get? index = some i → i < vertices.size

namespace SpanningTree

variable {N : Type u}

def flow (t : SpanningTree N) : Flow t.size := { parent := t.parent, preds := t.preds }

def idoms (t : SpanningTree N) : LinkEvalKind → Vector (Fin t.size) t.size
  | .simple => t.flow.idoms SimpleLinks
  | .balanced => t.flow.idoms BalancedLinks

end SpanningTree

namespace Dominators

variable {N : Type u}

def ofSpanningTree (kind : LinkEvalKind) (t : SpanningTree N) : Dominators N :=
  let idoms := ((t.idoms kind).map Fin.val).toArray
  { vertices := t.vertices
    indices := t.indices
    idoms
    tree := IdomTree.ofTable idoms
    nonempty := t.valid.nonempty
    size_idoms := by simp only [idoms, Vector.size_toArray]; rfl
    idoms_lt := by
      intro i h
      simp only [idoms, Vector.getElem_toArray, Vector.getElem_map]
      exact Fin.isLt _
    indices_lt := t.valid.indices_lt }

def size (d : Dominators N) : Nat := d.vertices.size

instance (d : Dominators N) : HasEntry d.size := ⟨Nat.ne_of_gt d.nonempty⟩

def vertex (d : Dominators N) (i : Fin d.size) : N :=
  have h : i.val < d.vertices.size := i.isLt
  d.vertices[i.val]

/-- The immediate dominator by number; the entry is its own. -/
def idomAt (d : Dominators N) (i : Fin d.size) : Fin d.size :=
  have h : i.val < d.idoms.size := Nat.lt_of_lt_of_eq i.isLt d.size_idoms.symm
  ⟨d.idoms[i.val], d.idoms_lt i.val h⟩

def entry (d : Dominators N) : N := d.vertex 0

section Node

variable [Node N]

def number? (d : Dominators N) (v : N) : Option (Fin d.size) :=
  match h : d.indices.get? (Node.index v) with
  | some i => some ⟨i, d.indices_lt _ i h⟩
  | none => none

def reaches (d : Dominators N) (v : N) : Bool := d.indices.contains (Node.index v)

def number (d : Dominators N) (v : N) : Except NotReached (Fin d.size) :=
  match d.number? v with
  | some i => .ok i
  | none => .error { index := Node.index v }

/-- The immediate dominator of a vertex; the entry is its own. -/
def idom (d : Dominators N) (v : N) : Except NotReached N :=
  (d.number v).map fun i => d.vertex (d.idomAt i)

/-- The vertices whose immediate dominator a vertex is, by number. -/
def children (d : Dominators N) (v : N) : Except NotReached (List N) :=
  (d.number v).map fun i => (d.tree.children i.val).filterMap fun c => d.vertices[c]?

/-- Whether the way up the table from `i` to the entry comes to `a`. A row that does not lead to
a lesser number ends the way; no computed table has one other than that of the entry. -/
def passes (d : Dominators N) (a i : Fin d.size) : Bool :=
  if i = a then true
  else if i = 0 then false
  else if _h : d.idomAt i < i then d.passes a (d.idomAt i)
  else false
termination_by i.val

/-- Whether every path to `b` passes `a`. A vertex dominates itself. -/
def dominates (d : Dominators N) (a b : N) : Except NotReached Bool := do
  let i ← d.number a
  let j ← d.number b
  return d.passes i j

def properlyDominates [DecidableEq N] (d : Dominators N) (a b : N) : Except NotReached Bool :=
  (d.dominates a b).map fun answer => answer && a != b

/-- The vertices on the way up from `i` to the entry, without that of `i`, in front of a list. -/
def addAbove (d : Dominators N) (i : Fin d.size) (below : List N) : List N :=
  if i = 0 then below
  else if _h : d.idomAt i < i then d.addAbove (d.idomAt i) (d.vertex (d.idomAt i) :: below)
  else below
termination_by i.val

/-- The vertices other than `v` that every path to it passes, from the entry on. The entry has
none. -/
def properDominators (d : Dominators N) (v : N) : Except NotReached (List N) :=
  (d.number v).map fun i => d.addAbove i []

end Node

instance [Dump N] : Dump (Dominators N) :=
  ⟨fun d => Dump.record "Dominators"
    [("vertices", dump d.vertices), ("vertex_indices", dump d.indices),
      ("immediate_dominators", dump d.idoms),
      ("dominator_tree", dump d.tree)]⟩

end Dominators

/-- The dominators of the vertices that can be reached from an entry. -/
def Graph.dominators {N : Type u} [Node N] (g : Graph N) (entry : N) (options : Options) :
    Except SearchError (Dominators N) :=
  (g.explore options.bound entry).result.map (Dominators.ofSpanningTree options.linkEval)

end FlowGraph
