import FlowGraph.Event
import FlowGraph.Source.NamedGraph
/-!
Dominators by name. A report is made of a named graph from its entry, and answers by the names of
vertices: tables of all that is reached, and queries about single names.
-/

set_option autoImplicit false

namespace FlowGraph

inductive ReportError where
  | noVertices
  | unknownVertex (name : String)
  | search (error : SearchError)
  | notReached (error : NotReached)
  deriving DecidableEq, Repr

def ReportError.message : ReportError → String
  | noVertices => "graph contains no vertices"
  | unknownVertex name => s!"unknown vertex {Text.quote name}"
  | search error => error.message
  | notReached error => error.message

structure IdomRow where
  vertex : String
  idom : String
  deriving DecidableEq, Repr

/-- A vertex, its depth in the dominator tree, and its children there. -/
structure TreeRow where
  vertex : String
  depth : Nat
  children : List String
  deriving DecidableEq, Repr

/-- A named graph with the dominators of what its entry reaches. -/
structure Report where
  graph : NamedGraph
  dominators : Dominators Nat

namespace Report

/-- The report of a graph. Without a bound, all its vertices may be reached. -/
def ofGraph (graph : NamedGraph) (bound : Option Nat) (kind : LinkEvalKind) :
    Except ReportError Report :=
  match graph.entry? with
  | none => .error .noVertices
  | some entry =>
    match graph.graph.dominators entry { bound := bound.getD graph.size, linkEval := kind } with
    | .ok dominators => .ok { graph, dominators }
    | .error error => .error (.search error)

def unreachable (r : Report) : Nat := r.graph.size - r.dominators.size

def events (r : Report) (kind : LinkEvalKind) : List Event :=
  r.dominators.events kind ++
    if r.unreachable > 0 then [.unreachable r.unreachable] else []

def name (r : Report) (v : Nat) : String := (r.graph.name? v).getD ""

def nameAt (r : Report) (i : Nat) : String := ((r.dominators.vertices[i]?).map r.name).getD ""

def vertex (r : Report) (name : String) : Except ReportError Nat :=
  match r.graph.number? name with
  | some v => .ok v
  | none => .error (.unknownVertex name)

def answer {α : Type} : Except NotReached α → Except ReportError α
  | .ok a => .ok a
  | .error error => .error (.notReached error)

/-- The immediate dominator of every reached vertex, by number. -/
def idoms (r : Report) : Except ReportError (List IdomRow) :=
  r.dominators.vertices.toList.mapM fun v => do
    let u ← answer (r.dominators.idom v)
    return { vertex := r.name v, idom := r.name u }

/-- A table of depths with those of the children of a number. -/
def setDepths (depths : Array Nat) (i : Nat) (children : List Nat) : Array Nat :=
  let depth := depths.getD i 0 + 1
  children.foldl (fun depths c => depths.setIfInBounds c depth) depths

/-- The rows of numbers in preorder, with a table that holds their depths when their turn
comes. -/
def treeRows (r : Report) (depths : Array Nat) : List Nat → List TreeRow
  | [] => []
  | i :: rest =>
    let children := r.dominators.tree.children i
    { vertex := r.nameAt i, depth := depths.getD i 0, children := children.map r.nameAt } ::
      r.treeRows (setDepths depths i children) rest

/-- The dominator tree, each vertex before its children. -/
def tree (r : Report) : List TreeRow :=
  r.treeRows (Array.replicate r.dominators.size 0) r.dominators.tree.preorder.toList

def dominates (r : Report) (a b : String) : Except ReportError Bool := do
  let u ← r.vertex a
  let v ← r.vertex b
  answer (r.dominators.dominates u v)

/-- The vertices other than a vertex that every path to it passes, from the entry on. -/
def chain (r : Report) (name : String) : Except ReportError (List String) := do
  let v ← r.vertex name
  let dominators ← answer (r.dominators.properDominators v)
  return dominators.map r.name

end Report

end FlowGraph
