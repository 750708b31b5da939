import FlowGraph.Text.Pieces
import FlowGraph.Text.Quoted
/-!
The statements of a source text. A line holds one statement, after which a comment may follow.
The faults of a line are those that its tokens show, and a second declaration of the entry.
-/

set_option autoImplicit false

namespace FlowGraph

/-- What a line of a source text says. -/
inductive Statement where
  | blank
  /-- Edges leave a vertex to others; with none, the vertex is only named. -/
  | edges (tail : String) (heads : List String)
  | entry (name : String)
  | vertex (name : String)
  deriving DecidableEq, Repr

inductive Fault where
  | duplicateEntry
  /-- More than one name follows the word that declares the entry. -/
  | malformedEntry
  | expectedArrow (first second : String)
  /-- The arrow stands where a name should. -/
  | invalidName (name : String)
  deriving DecidableEq, Repr

def Fault.message : Fault → String
  | duplicateEntry => "the entry vertex is declared more than once"
  | malformedEntry => "expected `entry <vertex>`"
  | expectedArrow first second =>
    s!"expected `->` after {Text.quote first}, found {Text.quote second}"
  | invalidName name => s!"invalid vertex name {Text.quote name}"

namespace Statement

def arrow : String := "->"

/-- The word that declares the entry. A vertex may have it for a name. -/
def entryWord : String := "entry"

/-- The statement that tokens make. An arrow in second place comes before all else; then the
declaration of the entry, which is not read so when the word stands alone. -/
def ofTokens : List String → Except Fault Statement
  | [] => .ok .blank
  | [name] => if name = arrow then .error (.invalidName name) else .ok (.vertex name)
  | first :: second :: rest =>
    if second = arrow then
      if first = arrow ∨ arrow ∈ rest then .error (.invalidName arrow)
      else .ok (.edges first rest)
    else if first = entryWord then
      if rest = [] then .ok (.entry second) else .error .malformedEntry
    else .error (.expectedArrow first second)

/-- The statement of a line; a number sign begins a comment. -/
def ofLine (line : List Char) : Except Fault Statement :=
  ofTokens ((Text.tokens (line.takeWhile (· != '#'))).map String.ofList)

end Statement

end FlowGraph
