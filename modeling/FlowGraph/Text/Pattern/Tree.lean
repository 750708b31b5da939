import FlowGraph.Text.Pattern
import FlowGraph.Text.Pattern.Fault
/-!
The written form of patterns: what is read from a text, with the places of its parts. What the
parts mean depends on flags, and is not decided here.
-/

set_option autoImplicit false

namespace FlowGraph.Text

/-- What can be set or cleared for what follows. -/
inductive PatternFlag where
  | caseless
  | manyLines
  /-- The dot takes in ends of lines. -/
  | wholeDot
  /-- Repetitions try few pieces first. -/
  | swapped
  /-- Characters are those of all scripts, rather than single bytes. -/
  | wide
  /-- A return ends lines as well. -/
  | returns
  /-- Blanks and remarks do not count. -/
  | spaced
  deriving DecidableEq, Repr

structure PatternLiteral where
  span : Span
  char : Char
  /-- Whether it is written as the code of a byte. -/
  isByte : Bool := false
  deriving DecidableEq, Repr

inductive Assertion where
  | lineStart
  | lineStop
  | textStart
  | textStop
  | word (condition : WordEdge)
  deriving DecidableEq, Repr

inductive NamedSet where
  | alnum
  | alpha
  | ascii
  | blank
  | control
  | digit
  | graph
  | lower
  | print
  | punctuation
  | space
  | upper
  | word
  | hexDigit
  deriving DecidableEq, Repr

inductive SetOperation where
  | intersection
  | difference
  | symmetricDifference
  deriving DecidableEq, Repr

inductive ClassTree where
  /-- Nothing between brackets and operators. -/
  | nothing (span : Span)
  | literal (literal : PatternLiteral)
  | range (span : Span) (first last : PatternLiteral)
  /-- A set by its name between brackets and colons. -/
  | named (span : Span) (set : NamedSet) (negated : Bool)
  /-- A set by its letter after a backslash. -/
  | lettered (span : Span) (set : NamedSet) (negated : Bool)
  | property (span : Span) (name : List Char)
  | bracketed (span : Span) (negated : Bool) (inner : ClassTree)
  | several (span : Span) (items : List ClassTree)
  | combined (span : Span) (operation : SetOperation) (left right : ClassTree)

inductive PatternTree where
  | empty
  /-- Flags for what follows in the group. -/
  | flags (settings : List (PatternFlag × Bool))
  | literal (literal : PatternLiteral)
  | dot (span : Span)
  | assertion (span : Span) (assertion : Assertion)
  | charClass (charClass : ClassTree)
  | repetition (span : Span) (piece : PatternTree) (least : Nat) (most : Option Nat)
      (fewFirst : Bool)
  /-- A group, captured or not, with flags for what is in it. -/
  | group (span : Span) (captured : Bool) (settings : List (PatternFlag × Bool))
      (inner : PatternTree)
  /-- At least two pieces. -/
  | row (span : Span) (pieces : List PatternTree)
  /-- At least two rows. -/
  | choice (span : Span) (rows : List PatternTree)

namespace ClassTree

def span : ClassTree → Span
  | nothing span | range span _ _ | named span _ _ | lettered span _ _ | property span _
  | bracketed span _ _ | several span _ | combined span _ _ _ => span
  | literal l => l.span

mutual

/-- The first part of a class that is deeper than so many levels. -/
def deep? (levels : Nat) : ClassTree → Option Span
  | bracketed span _ inner => if levels = 0 then some span else inner.deep? (levels - 1)
  | several span items => if levels = 0 then some span else anyDeep? (levels - 1) items
  | combined span _ left right =>
    if levels = 0 then some span
    else (left.deep? (levels - 1)).or (right.deep? (levels - 1))
  | _ => none

def anyDeep? (levels : Nat) : List ClassTree → Option Span
  | [] => none
  | item :: items => (item.deep? levels).or (anyDeep? levels items)

end

end ClassTree

namespace PatternTree

def ofPieces (span : Span) : List PatternTree → PatternTree
  | [] => empty
  | [piece] => piece
  | pieces => row span pieces

/-- The characters of a part, if it can be repeated: nothing and flags cannot. -/
def span? : PatternTree → Option Span
  | empty | flags _ => none
  | literal l => some l.span
  | charClass c => some c.span
  | dot span | assertion span _ | repetition span _ _ _ _ | group span _ _ _ | row span _
  | choice span _ => some span

mutual

def deep? (levels : Nat) : PatternTree → Option Span
  | charClass c => c.deep? levels
  | repetition span piece _ _ _ => if levels = 0 then some span else piece.deep? (levels - 1)
  | group span _ _ inner => if levels = 0 then some span else inner.deep? (levels - 1)
  | row span pieces => if levels = 0 then some span else anyDeep? (levels - 1) pieces
  | choice span rows => if levels = 0 then some span else anyDeep? (levels - 1) rows
  | _ => none

def anyDeep? (levels : Nat) : List PatternTree → Option Span
  | [] => none
  | piece :: pieces => (piece.deep? levels).or (anyDeep? levels pieces)

end

end PatternTree

end FlowGraph.Text
