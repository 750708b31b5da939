import FlowGraph.Graph.Basic
import FlowGraph.Source.Statement
/-!
Graphs whose vertices have names, and their source texts. The statements of a text are applied
one after the other, and a name is given the next number where it first stands.
-/

set_option autoImplicit false

namespace FlowGraph

/-- A graph on the numbers of names: the names by number, the successors by number, and the
number of the vertex that is declared the entry. -/
structure NamedGraph where
  names : Array String := #[]
  successors : Array (List Nat) := #[]
  declared : Option Nat := none
  deriving DecidableEq

structure SourceError where
  fault : Fault
  /-- The number of the line, from 0. -/
  line : Nat
  deriving DecidableEq, Repr

/-- The wording of an error in a source text, where lines count from 1. -/
def SourceError.message (e : SourceError) : String :=
  s!"parse error at line {e.line + 1}: {e.fault.message}"

namespace NamedGraph

def size (g : NamedGraph) : Nat := g.names.size

def isEmpty (g : NamedGraph) : Bool := g.names.isEmpty

def number? (g : NamedGraph) (name : String) : Option Nat := g.names.idxOf? name

def name? (g : NamedGraph) (v : Nat) : Option String := g.names[v]?

/-- The number of a name, which is given the next one if it has none. -/
def ensure (g : NamedGraph) (name : String) : Nat × NamedGraph :=
  match g.number? name with
  | some v => (v, g)
  | none =>
    let v := g.names.size
    (v, { g with names := g.names.push name, successors := g.successors.push [] })

def ensureAll (g : NamedGraph) : List String → List Nat × NamedGraph
  | [] => ([], g)
  | name :: names =>
    let (v, g) := g.ensure name
    let (vs, g) := g.ensureAll names
    (v :: vs, g)

/-- The graph with further successors of a vertex, after those that it has. -/
def addEdges (g : NamedGraph) (tail : Nat) (heads : List Nat) : NamedGraph :=
  { g with successors := g.successors.modify tail (· ++ heads) }

/-- What a statement makes of a graph. Only a second declaration of the entry is refused. -/
def apply (g : NamedGraph) : Statement → Except Fault NamedGraph
  | .blank => .ok g
  | .vertex name => .ok (g.ensure name).2
  | .edges tail heads =>
    let (u, g) := g.ensure tail
    let (vs, g) := g.ensureAll heads
    .ok (g.addEdges u vs)
  | .entry name =>
    if g.declared.isSome then .error .duplicateEntry
    else
      let (v, g) := g.ensure name
      .ok { g with declared := some v }

/-- Applies the lines of a text, of which the first has the number `line`. -/
def applyLines (g : NamedGraph) (line : Nat) : List (List Char) → Except SourceError NamedGraph
  | [] => .ok g
  | text :: texts =>
    match Statement.ofLine text >>= g.apply with
    | .ok g => g.applyLines (line + 1) texts
    | .error fault => .error { fault, line }

/-- The graph of a source text, or the error in its first faulty line. -/
def parse (source : String) : Except SourceError NamedGraph :=
  ({} : NamedGraph).applyLines 0 (Text.lines source.toList)

/-- How many edges there are, repeated ones counted again. -/
def edgeCount (g : NamedGraph) : Nat := (g.successors.toList.map List.length).foldr (· + ·) 0

/-- The declared entry, or the vertex named first. -/
def entry? (g : NamedGraph) : Option Nat :=
  match g.declared with
  | some v => some v
  | none => if g.isEmpty then none else some 0

def graph (g : NamedGraph) : Graph Nat := { successors := fun v => g.successors.getD v [] }

end NamedGraph

end FlowGraph
