import FlowGraph.Dominator.Basic
/-!
The log. Events are what happens in a run that is worth a record; each has a level, comes from a
part of the program, and has a wording. A threshold lets events pass from a level upward.
-/

set_option autoImplicit false

namespace FlowGraph

universe u

inductive Level where
  | error
  | warn
  | info
  | debug
  | trace
  deriving DecidableEq, Repr

namespace Level

/-- The place of a level, the most severe first. -/
def rank : Level → Nat
  | error => 1
  | warn => 2
  | info => 3
  | debug => 4
  | trace => 5

def name : Level → String
  | error => "ERROR"
  | warn => "WARN"
  | info => "INFO"
  | debug => "DEBUG"
  | trace => "TRACE"

end Level

/-- The least severe level that passes; without one nothing does. -/
abbrev Threshold := Option Level

/-- The threshold of a name, in letters of either case. -/
def Threshold.ofName? (name : String) : Option Threshold :=
  match name.toLower with
  | "off" => some none
  | "error" => some (some .error)
  | "warn" => some (some .warn)
  | "info" => some (some .info)
  | "debug" => some (some .debug)
  | "trace" => some (some .trace)
  | _ => none

inductive Event where
  | loaded (vertices edges : Nat) (path : String)
  | computed (reached : Nat) (kind : LinkEvalKind)
  /-- A row of the table of immediate dominators. -/
  | idomFound (number idom : Nat)
  | unreachable (count : Nat)
  deriving DecidableEq, Repr

namespace Event

def level : Event → Level
  | loaded .. => .info
  | computed .. => .debug
  | idomFound .. => .trace
  | unreachable .. => .warn

/-- The part of the program that an event comes from. -/
def target : Event → String
  | loaded .. => "domtree"
  | computed .. => "dominance::graph::dominators"
  | idomFound .. => "dominance::graph::dominators"
  | unreachable .. => "dominance_cli::analysis"

def message : Event → String
  | loaded vertices edges path =>
    s!"loaded {vertices} vertices and {edges} edges from {Text.quote path}"
  | computed reached kind =>
    s!"computed dominators of {reached} reachable nodes with {kind.name} link-eval"
  | idomFound number idom => s!"immediate dominator of DFS index {number} is {idom}"
  | unreachable count => s!"{count} vertices are not reachable from the entry"

def passes (threshold : Threshold) (e : Event) : Bool :=
  match threshold with
  | none => false
  | some least => e.level.rank ≤ least.rank

/-- The line of an event, in which the name of the level takes five places. -/
def line (e : Event) : String :=
  "[" ++ e.level.name ++ String.ofList (List.replicate (5 - e.level.name.length) ' ') ++ " " ++
    e.target ++ "] " ++ e.message ++ "\n"

end Event

/-- What a computation of dominators records: that it is done, and each row but that of the
entry. -/
def Dominators.events {N : Type u} (d : Dominators N) (kind : LinkEvalKind) : List Event :=
  .computed d.size kind ::
    (d.idoms.toList.zipIdx.drop 1).map fun row => .idomFound row.2 row.1

end FlowGraph
