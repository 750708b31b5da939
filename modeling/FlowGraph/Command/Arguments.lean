import FlowGraph.Command.Execution
/-!
The command line. Options come first, each at most once, with their value after an equals sign or
as the next argument; then a query with its own arguments. The first argument that does not fit
ends the reading.
-/

set_option autoImplicit false

namespace FlowGraph

inductive Request where
  | help
  | run (invocation : Invocation)
  deriving DecidableEq, Repr

inductive UsageError where
  | unknownOption (text : String)
  | repeatedOption (name : String)
  | missingValue (name : String)
  | unexpectedValue (name : String)
  | invalidValue (name value : String)
  | missingQuery
  | unknownQuery (name : String)
  | missingArgument
  | unexpectedArgument (text : String)
  | emptyPath
  deriving DecidableEq, Repr

def UsageError.message : UsageError → String
  | unknownOption text => s!"unknown option {text}"
  | repeatedOption name => s!"option --{name} is given twice"
  | missingValue name => s!"option --{name} needs a value"
  | unexpectedValue name => s!"option --{name} takes no value"
  | invalidValue name value => s!"option --{name} cannot be {value}"
  | missingQuery => "a query is needed: idom, tree, dominates or chain"
  | unknownQuery name => s!"unknown query {name}"
  | missingArgument => "an argument is missing"
  | unexpectedArgument text => s!"unexpected argument {text}"
  | emptyPath => "the path is empty"

inductive Argument where
  /-- Two hyphens, which end the options. -/
  | terminator
  /-- A name after two hyphens, perhaps with a value after an equals sign. -/
  | long (name : String) (value : Option String)
  /-- Letters after one hyphen. -/
  | short (letters : List Char)
  /-- Anything else, a lone hyphen included. -/
  | plain (text : String)
  deriving DecidableEq, Repr

def Argument.ofString (text : String) : Argument :=
  match text.toList with
  | ['-', '-'] => .terminator
  | '-' :: '-' :: cs =>
    .long (String.ofList (cs.takeWhile (· != '=')))
      (match cs.dropWhile (· != '=') with
        | [] => none
        | _ :: value => some (String.ofList value))
  | '-' :: c :: cs => .short (c :: cs)
  | _ => .plain text

namespace Arguments

/-- The greatest bound that can be given. -/
def maxBound : Nat := Nat.pow 2 64 - 1

/-- The number that decimal digits make, of which there has to be one. -/
def decimal? (digits : List Char) : Option Nat :=
  if digits.isEmpty || !digits.all Char.isDigit then none
  else some (digits.foldl (fun n c => 10 * n + (c.toNat - '0'.toNat)) 0)

/-- The number of a bound: digits, perhaps after a plus sign, and not too great. -/
def bound? (text : String) : Option Nat :=
  let number := match text.toList with
    | '+' :: cs => decimal? cs
    | cs => decimal? cs
  number.filter (· ≤ maxBound)

def linkEval? : String → Option LinkEvalKind
  | "simple" => some .simple
  | "balanced" => some .balanced
  | _ => none

structure Given where
  linkEval : Option LinkEvalKind := none
  bound : Option Nat := none
  json : Bool := false
  deriving DecidableEq, Repr

namespace Given

def addLinkEval (g : Given) (value : String) : Except UsageError Given :=
  if g.linkEval.isSome then .error (.repeatedOption "link-eval")
  else match linkEval? value with
    | some kind => .ok { g with linkEval := some kind }
    | none => .error (.invalidValue "link-eval" value)

def addBound (g : Given) (value : String) : Except UsageError Given :=
  if g.bound.isSome then .error (.repeatedOption "bound")
  else match bound? value with
    | some bound => .ok { g with bound := some bound }
    | none => .error (.invalidValue "bound" value)

def addJson (g : Given) : Except UsageError Given :=
  if g.json then .error (.repeatedOption "json") else .ok { g with json := true }

/-- Adds an option that takes a value, if the name is that of one. -/
def addValue? (g : Given) (name value : String) : Option (Except UsageError Given) :=
  match name with
  | "link-eval" => some (g.addLinkEval value)
  | "bound" => some (g.addBound value)
  | _ => none

end Given

/-- A place for an argument of a query. -/
inductive Slot where
  /-- The path of a file, which is not empty. -/
  | path
  | name
  deriving DecidableEq, Repr

def Slot.accepts : Slot → String → Bool
  | path, text => text != ""
  | name, _ => true

/-- Puts texts into places, all of them as they are. -/
def fillPlain : List Slot → List String → Except UsageError (List String)
  | [], [] => .ok []
  | _ :: _, [] => .error .missingArgument
  | [], text :: _ => .error (.unexpectedArgument text)
  | slot :: slots, text :: texts =>
    if slot.accepts text then (fillPlain slots texts).map (text :: ·) else .error .emptyPath

/-- Puts arguments into places; nothing if help is asked for. -/
def fill (slots : List Slot) : List String → Except UsageError (Option (List String))
  | [] => (fillPlain slots []).map some
  | text :: rest =>
    match Argument.ofString text, slots with
    | .terminator, _ => (fillPlain slots rest).map some
    | .long "help" none, _ => .ok none
    | .long name (some _), _ =>
      .error (if name = "help" then .unexpectedValue name else .unknownOption text)
    | .long _ none, _ => .error (.unknownOption text)
    | .short letters, _ =>
      if letters.head? = some 'h' then .ok none else .error (.unknownOption text)
    | .plain text, [] => .error (.unexpectedArgument text)
    | .plain text, slot :: slots =>
      if slot.accepts text then (fill slots rest).map (Option.map (text :: ·))
      else .error .emptyPath

def slots? : String → Option (List Slot)
  | "idom" => some [.path]
  | "tree" => some [.path]
  | "dominates" => some [.path, .name, .name]
  | "chain" => some [.path, .name]
  | _ => none

def query? : String → List String → Option (Query × String)
  | "idom", [path] => some (.idom, path)
  | "tree", [path] => some (.tree, path)
  | "dominates", [path, a, b] => some (.dominates a b, path)
  | "chain", [path, vertex] => some (.chain vertex, path)
  | _, _ => none

def readQuery (given : Given) (name : String) (rest : List String) : Except UsageError Request :=
  match slots? name with
  | none => .error (.unknownQuery name)
  | some slots =>
    match fill slots rest with
    | .error e => .error e
    | .ok none => .ok .help
    | .ok (some texts) =>
      match query? name texts with
      | none => .error .missingArgument
      | some (query, path) =>
        .ok (.run
          { query, path, linkEval := given.linkEval.getD .simple, bound := given.bound
            json := given.json })

/-- Reads what follows the word that asks for help: nothing, or the name of a query. -/
def readHelp : List String → Except UsageError Request
  | [] => .ok .help
  | [name] =>
    if name = "help" || (slots? name).isSome then .ok .help else .error (.unknownQuery name)
  | name :: other :: _ =>
    if name = "help" || (slots? name).isSome then .error (.unknownQuery other)
    else .error (.unknownQuery name)

/-- Reads a command line after the options given so far. -/
def readFrom (given : Given) : List String → Except UsageError Request
  | [] => .error .missingQuery
  | text :: rest =>
    match Argument.ofString text with
    | .terminator => .error .missingQuery
    | .short letters =>
      if letters.head? = some 'h' then .ok .help else .error (.unknownOption text)
    | .plain "help" => readHelp rest
    | .plain name => readQuery given name rest
    | .long "help" none => .ok .help
    | .long "json" none =>
      match given.addJson with
      | .ok given => readFrom given rest
      | .error e => .error e
    | .long name (some value) =>
      match given.addValue? name value with
      | some (.ok given) => readFrom given rest
      | some (.error e) => .error e
      | none =>
        .error (if name = "json" || name = "help" then .unexpectedValue name
          else .unknownOption text)
    | .long name none =>
      match rest with
      | [] =>
        .error (if (given.addValue? name "").isSome then .missingValue name
          else .unknownOption text)
      | next :: rest =>
        match given.addValue? name next, Argument.ofString next with
        | none, _ => .error (.unknownOption text)
        | some (.ok given), .plain _ => readFrom given rest
        | some (.error e), .plain _ => .error e
        | some _, _ => .error (.missingValue name)

def read (arguments : List String) : Except UsageError Request := readFrom {} arguments

end Arguments

end FlowGraph
