import FlowGraph.Report.Basic
/-!
Tables of a report as text, one row a line. A tree is laid out by indentation.
-/

set_option autoImplicit false

namespace FlowGraph.Layout

def idoms (rows : List IdomRow) : String :=
  String.join (rows.map fun row => row.vertex ++ " <- " ++ row.idom ++ "\n")

/-- The widest indentation that a line may have. -/
def maxIndent : Nat := 65535

/-- The line of a row: two spaces for each level of depth, and the name. -/
def treeLine (row : TreeRow) : String :=
  String.ofList (List.replicate (row.depth * 2) ' ') ++ row.vertex ++ "\n"

/-- A line for each vertex of a tree, unless an indentation is too wide. -/
def tree? (rows : List TreeRow) : Option String :=
  if rows.all fun row => row.depth * 2 ≤ maxIndent then some (String.join (rows.map treeLine))
  else none

end FlowGraph.Layout
