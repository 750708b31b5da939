import FlowGraph.Source.NamedGraph
/-!
The source text of a named graph: first a line for every name, so that numbers follow the order
of names; then a line for the edges that leave each vertex; and last the declaration of the entry,
if there is one.
-/

set_option autoImplicit false

namespace FlowGraph.NamedGraph

def tokenLines (g : NamedGraph) : List (List String) :=
  let name (v : Nat) : String := (g.name? v).getD ""
  g.names.toList.map (fun n => [n]) ++
    (g.names.toList.zip g.successors.toList).map
      (fun row => row.1 :: Statement.arrow :: row.2.map name) ++
    g.declared.toList.map fun v => [Statement.entryWord, name v]

/-- The source text, with one space between tokens. -/
def text (g : NamedGraph) : String :=
  String.join (g.tokenLines.map fun tokens => String.intercalate " " tokens ++ "\n")

end FlowGraph.NamedGraph
