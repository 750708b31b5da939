import FlowGraph.Index.Ascending
import FlowGraph.Search.Tables
import FlowGraph.Text.Dump
/-!
Bounded depth-first search for the spanning tree of what an entry reaches. The edges still to be
traversed stand in one list; an edge to a new vertex numbers it and puts the edges that leave it
in front. The search asks for the successors of a vertex once, when it numbers it, and keeps a
log of that.
-/

set_option autoImplicit false

namespace FlowGraph

universe u

inductive SearchError where
  /-- No vertex may be reached, not even the entry. -/
  | zeroBound
  | boundExceeded (bound : Nat)
  deriving DecidableEq, Repr

def SearchError.message : SearchError → String
  | zeroBound => "vertex bound must be at least 1"
  | boundExceeded bound => s!"more than {bound} vertices are reachable from the entry"

/-- Tables of a search that are valid. The parents of all vertices but the entry make a tree. -/
structure SpanningTree (N : Type u) extends Tables N where
  valid : toTables.Valid

/-- The tables of a search under way, with the vertices whose successors were asked for, in
order. -/
structure Discovery (N : Type u) extends SpanningTree N where
  asked : Array N

namespace Discovery

variable {N : Type u}

def ask (d : Discovery N) (g : Graph N) (v : N) : List N × Discovery N :=
  (g.successors v, { d with asked := d.asked.push v })

def addEdge (d : Discovery N) (tail head : Nat) (ht : tail < d.vertices.size) : Discovery N :=
  { d with toTables := d.toTables.addEdge tail head, valid := d.valid.addEdge head ht }

/-- The search when only the entry is numbered, with the edges that leave it. -/
def start [Node N] (g : Graph N) (entry : N) : List (Nat × N) × Discovery N :=
  let (successors, d) :=
    ask { Tables.single entry with valid := Tables.valid_single entry, asked := #[] } g entry
  (successors.map (0, ·), d)

/-- Numbers a vertex, and gives the edges that leave it. -/
def visit [Node N] (d : Discovery N) (g : Graph N) (v : N) (parent : Nat)
    (hp : parent < d.vertices.size) : List (Nat × N) × Discovery N :=
  let asked := d.ask g v
  let edges := asked.1.map (asked.2.vertices.size, ·)
  (edges,
    { asked.2 with
      toTables := asked.2.toTables.addVertex v parent
      valid := asked.2.valid.addVertex v hp })

/-- The numbers at the tails of edges are in range. -/
def TailsLt (edges : List (Nat × N)) (d : Discovery N) : Prop :=
  ∀ e ∈ edges, e.1 < d.vertices.size

@[simp] theorem toTables_visit [Node N] (d : Discovery N) (g : Graph N) (v : N) (parent : Nat)
    (hp : parent < d.vertices.size) :
    (d.visit g v parent hp).2.toTables = d.toTables.addVertex v parent := rfl

theorem tailsLt_start [Node N] (g : Graph N) (entry : N) :
    TailsLt (start g entry).1 (start g entry).2 := by
  intro e he
  obtain ⟨w, _, rfl⟩ := List.mem_map.1 he
  exact (start g entry).2.valid.nonempty

theorem tailsLt_visit [Node N] {d : Discovery N} {rest : List (Nat × N)} (h : TailsLt rest d)
    (g : Graph N) (v : N) (parent : Nat) (hp : parent < d.vertices.size) :
    TailsLt ((d.visit g v parent hp).1 ++ rest) (d.visit g v parent hp).2 := by
  intro e he
  rw [toTables_visit, Tables.size_addVertex]
  rcases List.mem_append.1 he with he | he
  · obtain ⟨w, _, rfl⟩ := List.mem_map.1 he
    exact Nat.lt_succ_self _
  · exact Nat.lt_succ_of_lt (h e he)

theorem lt_size_visit [Node N] (d : Discovery N) (g : Graph N) (v : N) (parent : Nat)
    (hp : parent < d.vertices.size) : parent < (d.visit g v parent hp).2.vertices.size := by
  rw [toTables_visit, Tables.size_addVertex]
  exact Nat.lt_succ_of_lt hp

/-- Traverses pending edges, each from the vertex of a number to a vertex. It fails, with the
tables as they stand, at the first vertex beyond the bound. -/
def follow [Node N] (g : Graph N) (bound : Nat) (pending : List (Nat × N)) (d : Discovery N)
    (h : TailsLt pending d) : Except (Discovery N) (Discovery N) :=
  match pending, h with
  | [], _ => .ok d
  | (tail, v) :: rest, h =>
    have htail : tail < d.vertices.size := h (tail, v) List.mem_cons_self
    have hrest : TailsLt rest d := fun e he => h e (List.mem_cons_of_mem _ he)
    match d.indices.get? (Node.index v) with
    | some head => follow g bound rest (d.addEdge tail head htail) hrest
    | none =>
      if d.vertices.size < bound then
        let number := d.vertices.size
        let visited := d.visit g v tail htail
        follow g bound (visited.1 ++ rest)
          (visited.2.addEdge tail number (lt_size_visit d g v tail htail))
          (tailsLt_visit hrest g v tail htail)
      else .error d
termination_by (bound - d.vertices.size, pending.length)
decreasing_by
  · exact Prod.Lex.right _ (by simp)
  · exact Prod.Lex.left _ _ (by simp [addEdge, Tables.addEdge]; omega)

end Discovery

/-- The course of a search: the vertices whose successors it asked for, and its result. -/
structure Exploration (N : Type u) where
  asked : Array N
  result : Except SearchError (SpanningTree N)

/-- The tree with the predecessors of each vertex in increasing order, each once. -/
def SpanningTree.ascendingPredecessors {N : Type u} (t : SpanningTree N) : SpanningTree N :=
  { toTables := t.toTables.mapPredecessors ascending
    valid := t.valid.mapPredecessors fun p ps => (mem_ascending p ps).1 }

/-- Searches the graph from an entry, in depth-first order, for at most `bound` vertices. -/
def Graph.explore {N : Type u} [Node N] (g : Graph N) (bound : Nat) (entry : N) :
    Exploration N :=
  if bound = 0 then { asked := #[], result := .error .zeroBound }
  else
    let start := Discovery.start g entry
    match Discovery.follow g bound start.1 start.2 (Discovery.tailsLt_start g entry) with
    | .error d => { asked := d.asked, result := .error (.boundExceeded bound) }
    | .ok d => { asked := d.asked, result := .ok d.toSpanningTree.ascendingPredecessors }

namespace SpanningTree

variable {N : Type u}

instance (t : SpanningTree N) : HasEntry t.size := ⟨Nat.ne_of_gt t.valid.nonempty⟩

def vertex (t : SpanningTree N) (i : Fin t.size) : N :=
  have h : i.val < t.vertices.size := i.isLt
  t.vertices[i.val]

/-- The number of the parent in the spanning tree; the entry is its own parent. -/
def parent (t : SpanningTree N) (i : Fin t.size) : Fin t.size :=
  have h : i.val < t.parents.size := Nat.lt_of_lt_of_eq i.isLt t.valid.size_parents.symm
  ⟨t.parents[i.val], t.valid.parents_lt i.val h⟩

def preds (t : SpanningTree N) (i : Fin t.size) : List (Fin t.size) :=
  have h : i.val < t.predecessors.size := Nat.lt_of_lt_of_eq i.isLt t.valid.size_predecessors.symm
  t.predecessors[i.val].pmap Fin.mk (t.valid.predecessors_lt i.val h)

def index? [Node N] (t : SpanningTree N) (v : N) : Option Nat := t.indices.get? (Node.index v)

instance [Dump N] : Dump (SpanningTree N) :=
  ⟨fun t => Dump.record "DfsTree"
    [("vertices", dump t.vertices), ("indices", dump t.indices), ("parents", dump t.parents),
      ("predecessors", dump t.predecessors)]⟩

end SpanningTree

end FlowGraph
