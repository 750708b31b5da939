import FlowGraph.Index.Ascending
import FlowGraph.Text.CharSet
/-!
Patterns that a text is searched for. A pattern leads from places in a text to the places where a
match can end that starts there; a text holds the pattern if some place leads anywhere.
-/

set_option autoImplicit false

namespace FlowGraph.Text

/-- Whether a character can stand in a word of plain letters. -/
def isWordChar (c : Char) : Bool := c.isAlphanum || c == '_'

/-- A condition on what is before and after a place, in terms of words. -/
inductive WordEdge where
  | edge
  | noEdge
  | start
  | stop
  /-- No word is before. -/
  | clearBefore
  /-- No word is after. -/
  | clearAfter
  deriving DecidableEq, Repr

def WordEdge.holds (before after : Bool) : WordEdge → Bool
  | edge => before != after
  | noEdge => before == after
  | start => !before && after
  | stop => before && !after
  | clearBefore => !before
  | clearAfter => !after

/-- A condition on a place between the characters of a text. -/
inductive Landmark where
  | start
  | stop
  /-- The beginning of a line; lines end with a line feed, or with a return as well. -/
  | lineStart (returns : Bool)
  | lineStop (returns : Bool)
  /-- What words are around; in the wide sense a word may have letters of all scripts. -/
  | word (condition : WordEdge) (wide : Bool)
  deriving DecidableEq, Repr

/-- Whether a landmark is at a place. Words have plain letters only: no pattern that is read asks
for others. -/
def Landmark.holds (text : Array Char) (i : Nat) (l : Landmark) : Bool :=
  let before := if i = 0 then none else text[i - 1]?
  let after := text[i]?
  match l with
  | start => before.isNone
  | stop => after.isNone
  | lineStart false => before.all (· == '\n')
  | lineStart true =>
    before.all fun c => c == '\n' || (c == '\r' && after != some '\n')
  | lineStop false => after.all (· == '\n')
  | lineStop true => after.all fun c => c == '\r' || (c == '\n' && before != some '\r')
  | word condition _ => condition.holds (before.any isWordChar) (after.any isWordChar)

/-- A description of pieces of text. -/
inductive Pattern where
  | empty
  | word (chars : List Char)
  /-- One character of a set, which may have been given as a set of bytes. -/
  | one (chars : CharSet) (asBytes : Bool)
  | landmark (landmark : Landmark)
  /-- A piece that is noted. -/
  | captured (piece : Pattern)
  /-- Several pieces in a row, at least so many, and perhaps at most so many. Which number is
  tried first changes no answer. -/
  | repeated (piece : Pattern) (least : Nat) (most : Option Nat) (fewFirst : Bool)
  | inOrder (pieces : List Pattern)
  | either (choices : List Pattern)

def goesOn (text : Array Char) : List Char → Nat → Bool
  | [], _ => true
  | c :: cs, i => text[i]? == some c && goesOn text cs (i + 1)

/-- Takes a step again and again, so many times, or until it changes nothing. -/
def settle (step : List Nat → List Nat) : Nat → List Nat → List Nat
  | 0, places => places
  | rounds + 1, places =>
    let next := step places
    if next = places then places else settle step rounds next

/-- Adds what a step leads to, again and again, so many times or until nothing is added. A step
is taken from each place once. -/
def spread (step : List Nat → List Nat) : Nat → List Nat → List Nat → List Nat
  | 0, reached, _ => reached
  | rounds + 1, reached, latest =>
    if latest.isEmpty then reached
    else
      let next := (step latest).filter fun i => !reached.contains i
      spread step rounds (ascending (reached ++ next)) next

namespace Pattern

mutual

/-- The places where a match ends that starts at one of some places, increasing. In a loop, which
repeats what it holds anyway, a piece need not be repeated by itself; and a row with more further
pieces than the text has characters leads nowhere else. -/
def ends (text : Array Char) (inLoop : Bool) : Pattern → List Nat → List Nat
  | empty, starts => starts
  | word chars, starts =>
    (starts.filter fun i => goesOn text chars i).map (· + chars.length)
  | one chars _, starts => (starts.filter fun i => text[i]?.any chars.contains).map (· + 1)
  | landmark l, starts => starts.filter fun i => l.holds text i
  | captured piece, starts => piece.ends text inLoop starts
  | repeated piece least most _, starts =>
    if inLoop && least ≤ 1 && most != some 0 then piece.ends text true starts
    else
      let reached := settle (piece.ends text false) least starts
      match most with
      | none => spread (piece.ends text true) text.size reached reached
      | some most =>
        spread (piece.ends text false) (min (most - least) text.size) reached reached
  | inOrder pieces, starts => endsInOrder text pieces starts
  | either choices, starts => ascending (endsOfAny text inLoop choices starts)

/-- The places where matches of patterns end that follow on each other. -/
def endsInOrder (text : Array Char) : List Pattern → List Nat → List Nat
  | [], starts => starts
  | piece :: pieces, starts => endsInOrder text pieces (piece.ends text false starts)

def endsOfAny (text : Array Char) (inLoop : Bool) : List Pattern → List Nat → List Nat
  | [], _ => []
  | choice :: choices, starts =>
    choice.ends text inLoop starts ++ endsOfAny text inLoop choices starts

end

/-- Whether a text holds a piece that a pattern describes. -/
def occursIn (p : Pattern) (text : String) : Bool :=
  let chars := text.toList.toArray
  !(p.ends chars false (List.range (chars.size + 1))).isEmpty

end Pattern

end FlowGraph.Text
