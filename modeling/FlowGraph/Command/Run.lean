import FlowGraph.Command.Arguments
import FlowGraph.Event.Filter
/-!
The services of the program. Command lines are those of `Arguments`, the log is what passes a
filter, and JSON stands over several lines. What is proved of runs holds with any other services
that are as documented.
-/

set_option autoImplicit false

namespace FlowGraph

namespace ErrorReport

/-- A number that takes five places. -/
def padded (n : Nat) : String :=
  String.ofList (List.replicate (5 - n.repr.length) ' ') ++ n.repr

/-- The lines of causes: a single one is indented, several are numbered. -/
def causeLines : List String → List String
  | [] => []
  | [cause] => ["", "Caused by:", "    " ++ cause]
  | causes => "" :: "Caused by:" :: causes.zipIdx.map fun row => padded row.2 ++ ": " ++ row.1

def text (message : String) (causes : List String) : String :=
  String.intercalate "\n" (message :: causeLines causes)

end ErrorReport

/-- What a command line asks for, or how the run ends that it does not ask a query in. -/
def Arguments.invocation (arguments : List String) : Except Outcome Invocation :=
  match read arguments with
  | .error _ => .error { code := 2, stdout := "", stderr := none }
  | .ok .help => .error { code := 0, stdout := "", stderr := none }
  | .ok (.run invocation) => .ok invocation

/-- The log for the text of a filter. What is wrong with the filter is said first. -/
def EventFilter.logTextOf (log : String) (events : List Event) : String :=
  let (filter, faults) := EventFilter.read log
  String.join (faults.map FilterFault.line) ++ filter.logText events

/-- The services of the program, with the text of a filter for the log and a way to read files. -/
def services (log : String) (readFile : String → Except ReadError String) : Services where
  invocation := Arguments.invocation
  readFile := readFile
  logText := EventFilter.logTextOf log
  errorText := ErrorReport.text
  jsonText value := .ok value.text

def runCommandLine (arguments : List String) (log : String)
    (readFile : String → Except ReadError String) : Outcome :=
  (services log readFile).run arguments

end FlowGraph
