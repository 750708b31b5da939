import FlowGraph.Command.Run
/-!
The program: it reads the file of a command, runs the command, and writes what the run gives.
-/

set_option autoImplicit false

namespace FlowGraph

def usage : String :=
  "usage: flowgraph [--link-eval simple|balanced] [--bound N] [--json] QUERY\n" ++
    "queries:\n" ++
    "  idom PATH           the immediate dominator of every reachable vertex\n" ++
    "  tree PATH           the dominator tree\n" ++
    "  dominates PATH A B  whether vertex A dominates vertex B; fails if not\n" ++
    "  chain PATH VERTEX   every proper dominator of a vertex, from the entry on\n"

/-- The cause of a failure of the system; some have a wording of their own. -/
def causeOf : IO.Error → ReadError
  | .noFileOrDirectory .. => .missing
  | .inappropriateType _ 20 _ => .notDirectory
  | .inappropriateType _ 21 _ => .isDirectory
  | .invalidArgument _ 36 _ => .nameTooLong
  | e => .refused (toString e)

def readText (path : String) : IO (Except ReadError String) := do
  try
    let bytes ← IO.FS.readBinFile path
    return textOfBytes bytes
  catch e => return .error (causeOf e)

/-- The text of the filter that the environment asks for; warnings pass if it asks for none. -/
def filterText : IO String := do
  return (← IO.getEnv "RUST_LOG").getD "warn"

end FlowGraph

open FlowGraph in
def main (arguments : List String) : IO UInt32 := do
  match Arguments.read arguments with
  | .error e =>
    IO.eprint s!"error: {e.message}\n{usage}"
    return 2
  | .ok .help =>
    IO.print usage
    return 0
  | .ok (.run invocation) =>
    let contents ← readText invocation.path
    let outcome := runCommandLine arguments (← filterText) fun _ => contents
    IO.eprint (outcome.stderr.getD "the tree is too deep to be laid out\n")
    IO.print outcome.stdout
    return outcome.code.toUInt32
