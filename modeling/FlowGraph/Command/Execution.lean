import FlowGraph.FileTree
import FlowGraph.Json
import FlowGraph.Report.Layout
/-!
The run of a command. It reads a file, parses it, makes a report and asks it, and ends with an
answer or with the first failure on the way.

A run rests on services from outside: command lines are understood, files are read, a log is kept,
and errors and JSON values are written for it. The services are a parameter here.
-/

set_option autoImplicit false

namespace FlowGraph

inductive Query where
  | idom
  | tree
  | dominates (a b : String)
  /-- The dominators of a vertex, from the entry on. -/
  | chain (vertex : String)
  deriving DecidableEq, Repr

/-- A complete command: what to ask about the graph in a file, and how. -/
structure Invocation where
  query : Query
  path : String
  linkEval : LinkEvalKind := .simple
  bound : Option Nat := none
  json : Bool := false
  deriving DecidableEq, Repr

/-- How a run ends: its exit code, and what it writes. What is written to standard error has no
fixed wording for a wrong command line, help, and a tree too deep. -/
structure Outcome where
  code : Nat
  stdout : String
  stderr : Option String
  deriving DecidableEq, Repr

inductive Failure where
  | read (path : String) (error : ReadError)
  | parse (path : String) (error : SourceError)
  | analyze (path : String) (error : ReportError)
  | query (error : ReportError)
  /-- An answer cannot be written as JSON. -/
  | json (message : String)
  deriving DecidableEq, Repr

/-- The messages of a failure, the outermost first and each caused by the next. -/
def Failure.messages : Failure → String × List String
  | read path error => ("could not read " ++ Text.quote path, [error.message])
  | parse path error =>
    ("could not parse " ++ Text.quote path, [error.message, error.fault.message])
  | analyze path error => ("could not analyze " ++ Text.quote path, [error.message])
  | query error => (error.message, [])
  | json message => (message, [])

inductive Answer where
  | idoms (rows : List IdomRow)
  | tree (rows : List TreeRow)
  | dominates (holds : Bool)
  | chain (names : List String)
  deriving DecidableEq, Repr

namespace Answer

def ofReport (r : Report) : Query → Except ReportError Answer
  | .idom => r.idoms.map idoms
  | .tree => .ok (tree r.tree)
  | .dominates a b => (r.dominates a b).map dominates
  | .chain vertex => (r.chain vertex).map chain

def json : Answer → Json
  | idoms rows =>
    .arr (rows.map fun row => .obj [("vertex", .str row.vertex), ("idom", .str row.idom)])
  | tree rows =>
    .arr (rows.map fun row =>
      .obj [("vertex", .str row.vertex), ("depth", .num row.depth),
        ("children", .arr (row.children.map .str))])
  | dominates holds => .bool holds
  | chain names => .arr (names.map .str)

/-- The answer as text; none for a tree too deep to be laid out. -/
def text? : Answer → Option String
  | idoms rows => some (Layout.idoms rows)
  | tree rows => Layout.tree? rows
  | dominates holds => some (if holds then "true\n" else "false\n")
  | chain names => some (String.intercalate " " names ++ "\n")

/-- The exit code of an answer: only a negative one is not 0. -/
def code : Answer → Nat
  | dominates false => 1
  | _ => 0

end Answer

/-- What a run takes from outside. -/
structure Services where
  /-- Understands a command line. One that asks no query ends the run with an outcome of its own. -/
  invocation : List String → Except Outcome Invocation
  readFile : String → Except ReadError String
  /-- What stands in the log after these events. -/
  logText : List Event → String
  /-- The report of an error, from its message and the messages of its causes. -/
  errorText : String → List String → String
  /-- The text of a value, or why there is none. -/
  jsonText : Json → Except String String

namespace Services

/-- What is printed of an answer; nothing if it has no text. -/
def print (s : Services) (asJson : Bool) (a : Answer) : Except Failure (Option String) :=
  if asJson then
    match s.jsonText a.json with
    | .ok text => .ok (some (text ++ "\n"))
    | .error message => .error (.json message)
  else .ok a.text?

/-- The outcome of a failure, which is reported behind the log. -/
def failed (s : Services) (events : List Event) (f : Failure) : Outcome where
  code := 1
  stdout := ""
  stderr := some (s.logText events ++
    ("Error: " ++ s.errorText f.messages.1 f.messages.2 ++ "\n"))

end Services

namespace Invocation

/-- Makes a report of the contents of the file, with what is to be logged. -/
def report (i : Invocation) (contents : Except ReadError String) :
    List Event × Except Failure Report :=
  match contents with
  | .error error => ([], .error (.read i.path error))
  | .ok source =>
    match NamedGraph.parse source with
    | .error error => ([], .error (.parse i.path error))
    | .ok graph =>
      let loaded := Event.loaded graph.size graph.edgeCount i.path
      match Report.ofGraph graph i.bound i.linkEval with
      | .error error => ([loaded], .error (.analyze i.path error))
      | .ok report => (loaded :: report.events i.linkEval, .ok report)

def answer (i : Invocation) (contents : Except ReadError String) :
    List Event × Except Failure Answer :=
  match i.report contents with
  | (events, .error failure) => (events, .error failure)
  | (events, .ok report) =>
    (events, match Answer.ofReport report i.query with
      | .ok answer => .ok answer
      | .error error => .error (.query error))

def brokenCode : Nat := 101

def run (i : Invocation) (s : Services) : Outcome :=
  match i.answer (s.readFile i.path) with
  | (events, .error failure) => s.failed events failure
  | (events, .ok answer) =>
    match s.print i.json answer with
    | .error failure => s.failed events failure
    | .ok (some text) =>
      { code := answer.code, stdout := text, stderr := some (s.logText events) }
    | .ok none => { code := brokenCode, stdout := "", stderr := none }

end Invocation

/-- Runs a command line. -/
def Services.run (s : Services) (arguments : List String) : Outcome :=
  match s.invocation arguments with
  | .error outcome => outcome
  | .ok invocation => invocation.run s

end FlowGraph
