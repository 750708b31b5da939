import FlowGraph.Event
import FlowGraph.Text.Pattern.Reader
import FlowGraph.Text.Pieces
/-!
Filters of the log. A filter is a list of directives, each for the parts of the program whose
names begin in one way, and perhaps a pattern that messages have to hold. About an event decides
the directive that says most about its part.

In the text of a filter, directives stand between commas and the pattern after a slash. A
directive is a threshold, the beginning of a name, or both with an equals sign between.
-/

set_option autoImplicit false

namespace FlowGraph

/-- A threshold for some parts of the program. -/
structure Directive where
  /-- How the names of the parts begin; without it the directive speaks of all parts. -/
  part : Option String := none
  threshold : Threshold
  deriving DecidableEq, Repr

namespace Directive

def covers (d : Directive) (target : String) : Bool :=
  d.part.all fun part => part.toList.isPrefixOf target.toList

/-- How much of a name a directive gives. -/
def weight (d : Directive) : Nat := (d.part.map String.utf8ByteSize).getD 0

end Directive

/-- What may pass to the log. -/
structure EventFilter where
  directives : List Directive
  pattern : Option Text.Pattern := none

namespace EventFilter

/-- The directive that decides about a part: the one that gives most of its name, and of several
the last. -/
def deciding? (f : EventFilter) (target : String) : Option Directive :=
  f.directives.foldl
    (fun best d =>
      if d.covers target && best.all (fun b => b.weight ≤ d.weight) then some d else best)
    none

def threshold (f : EventFilter) (target : String) : Threshold :=
  (f.deciding? target).bind Directive.threshold

def passes (f : EventFilter) (e : Event) : Bool :=
  e.passes (f.threshold e.target) && f.pattern.all fun pattern => pattern.occursIn e.message

def logText (f : EventFilter) (events : List Event) : String :=
  String.join ((events.filter f.passes).map Event.line)

def ofThreshold (threshold : Threshold) : EventFilter := { directives := [{ threshold }] }

/-- The filter of directives; errors pass if there are none. -/
def ofDirectives (directives : List Directive) (pattern : Option Text.Pattern) : EventFilter :=
  if directives.isEmpty then { ofThreshold (some .error) with pattern }
  else { directives, pattern }

end EventFilter

inductive FilterFault where
  /-- There is more than one slash. -/
  | manyPatterns (text : String)
  /-- A threshold or a directive is none. -/
  | malformed (text : String)
  /-- The pattern is none. -/
  | badPattern (fault : Text.PatternFault)
  deriving DecidableEq, Repr

namespace FilterFault

def message : FilterFault → String
  | manyPatterns text => "invalid logging spec '" ++ text ++ "' (too many '/'s)"
  | malformed text => "invalid logging spec '" ++ text ++ "'"
  | badPattern fault => "invalid regex filter - " ++ fault.message

/-- The warning about a fault: what is faulty does not count. -/
def line (f : FilterFault) : String := "warning: " ++ f.message ++ ", ignoring it\n"

end FilterFault

/-- Reads a directive. A name without a threshold lets everything pass, and only the blanks
around a threshold do not count. -/
def Directive.read (text : List Char) : Except FilterFault Directive :=
  match (Text.pieces (· == '=') text).map String.ofList with
  | [word] =>
    match Threshold.ofName? word with
    | some threshold => .ok { threshold }
    | none => .ok { part := some word, threshold := some .trace }
  | [part, word] =>
    let word := String.ofList (Text.trimmed word.toList)
    if word = "" then .ok { part := some part, threshold := some .trace }
    else match Threshold.ofName? word with
      | some threshold => .ok { part := some part, threshold }
      | none => .error (.malformed word)
  | _ => .error (.malformed (String.ofList text))

/-- The directives with a further one. It takes the place of an earlier one that speaks of the
same parts. -/
def Directive.addTo (directives : List Directive) (d : Directive) : List Directive :=
  if directives.any (·.part = d.part) then
    directives.map fun e => if e.part = d.part then d else e
  else directives ++ [d]

def Directive.readAll (text : List Char) : List Directive × List FilterFault :=
  let words := ((Text.pieces (· == ',') text).map Text.trimmed).filter fun word => !word.isEmpty
  words.foldl
    (fun read word =>
      match Directive.read word with
      | .ok d => (Directive.addTo read.1 d, read.2)
      | .error fault => (read.1, read.2 ++ [fault]))
    ([], [])

/-- Reads a filter, with what is wrong with its text. What is wrong does not count. -/
def EventFilter.read (text : String) : EventFilter × List FilterFault :=
  match Text.pieces (· == '/') text.toList with
  | [words] =>
    let (directives, faults) := Directive.readAll words
    (ofDirectives directives none, faults)
  | [words, pattern] =>
    let (directives, faults) := Directive.readAll words
    match Text.Pattern.read (String.ofList pattern) with
    | .ok pattern => (ofDirectives directives (some pattern), faults)
    | .error fault => (ofDirectives directives none, faults ++ [.badPattern fault])
  | _ => (ofDirectives [] none, [.manyPatterns text])

end FlowGraph
