import FlowGraph.Text.Pattern.Automaton
import FlowGraph.Text.Pattern.Form
/-!
The automaton of a pattern, as far as its size goes. It reads bytes, forward or backward, and only
forward it notes what is captured. A pattern whose automaton would take too much memory is
refused, so the sizes here are part of what patterns are.
-/

set_option autoImplicit false

namespace FlowGraph.Text

/-- Words cut at the empty ones: what is between them, in order. -/
def wordStretches (words : List (List Nat)) : List (List (List Nat)) :=
  words.foldr
    (fun word stretches =>
      match word, stretches with
      | [], _ => [] :: stretches
      | _, [] => [[word]]
      | _, stretch :: stretches => (word :: stretch) :: stretches)
    [[]]

def firstBytes (words : List (List Nat)) : List Nat := (words.filterMap List.head?).eraseDups

/-- What follows a first byte in words. -/
def wordsAfter (byte : Nat) (words : List (List Nat)) : List (List Nat) :=
  words.filterMap fun
    | first :: rest => if first = byte then some rest else none
    | [] => none

/-- An automaton with a choice between words that are at most so long in addition, but for the
state at its end. Words with the same beginning share it, unless another word ends between them;
words that end again where nothing goes on count once. -/
def growWords : Nat → List (List Nat) → AutomatonSize → AutomatonSize
  | 0, _, size => size
  | length + 1, words, size =>
    let stretches :=
      match wordStretches words with
      | [] :: later => [] :: later.dropWhile List.isEmpty
      | stretches => stretches
    let filled := stretches.filter fun stretch => !stretch.isEmpty
    let size := (size.addStates 1).addWays (filled.length + (stretches.length - 1))
    filled.foldl
      (fun size stretch =>
        let bytes := firstBytes stretch
        let size := (size.addStates 1).addRanges (if bytes.length = 1 then 0 else bytes.length)
        bytes.foldl
          (fun size byte =>
            let after := wordsAfter byte stretch
            if after.all List.isEmpty then size else growWords length after size)
          size)
      size

namespace Pattern

def word? : Pattern → Option (List Char)
  | word chars => some chars
  | _ => none

mutual

/-- How many characters a piece has at least, if there is a piece of each part. -/
def leastLength? : Pattern → Option Nat
  | empty | landmark _ => some 0
  | word chars => some chars.length
  | one s _ => if s.isEmpty then none else some 1
  | captured piece => piece.leastLength?
  | repeated piece least _ _ => piece.leastLength?.map (least * ·)
  | inOrder pieces => leastInOrder? pieces
  | either choices => leastOfAny? choices

def leastInOrder? : List Pattern → Option Nat
  | [] => some 0
  | p :: ps => do return (← p.leastLength?) + (← leastInOrder? ps)

def leastOfAny? : List Pattern → Option Nat
  | [] => none
  | [p] => p.leastLength?
  | p :: ps => do return min (← p.leastLength?) (← leastOfAny? ps)

end

def takesChars (p : Pattern) : Bool := p.leastLength?.any (0 < ·)

def growChoice (backward : Bool) (words : List (List Char)) (size : AutomatonSize) :
    AutomatonSize :=
  let words := words.map fun chars =>
    let bytes := chars.flatMap octets
    if backward then bytes.reverse else bytes
  growWords ((words.map List.length).foldl max 0 + 1) words (size.addStates 1)

mutual

def grow (backward : Bool) : Pattern → AutomatonSize → AutomatonSize
  | empty, size | landmark _, size => size.addStates 1
  | word chars, size => size.addStates ((chars.map Char.utf8Size).foldr (· + ·) 0)
  | one s _, size => s.grow backward size
  | captured piece, size =>
    if backward then piece.grow backward size
    else (piece.grow backward (size.addStates 1)).addStates 1
  | repeated piece least none _, size =>
    if least = 0 then
      if piece.takesChars then piece.grow backward size.addFork
      else ((piece.grow backward size).addFork.addFork).addStates 1
    else (AutomatonSize.addTimes (piece.grow backward) least size).addFork
  | repeated piece least (some most) _, size =>
    if least = 0 && most = 1 then (piece.grow backward size.addFork).addStates 1
    else
      let size :=
        if least = 0 then size.addStates 1
        else AutomatonSize.addTimes (piece.grow backward) least size
      if least = most then size
      else
        AutomatonSize.addTimes (fun size => piece.grow backward size.addFork) (most - least)
          (size.addStates 1)
  | inOrder pieces, size => growInOrder backward pieces size
  | either choices, size =>
    match choices.mapM word? with
    | some words => growChoice backward words size
    | none => growEach backward choices 2 (size.addWays choices.length)

/-- An automaton with patterns in a row in addition; backward, the last one comes first. -/
def growInOrder (backward : Bool) : List Pattern → AutomatonSize → AutomatonSize
  | [], size => size
  | p :: ps, size =>
    if backward then p.grow backward (growInOrder backward ps size)
    else growInOrder backward ps (p.grow backward size)

/-- An automaton with each of some patterns in addition, and after so many of them with the states
where they begin and end together. -/
def growEach (backward : Bool) : List Pattern → Nat → AutomatonSize → AutomatonSize
  | [], _, size => size
  | p :: ps, wait, size =>
    let size := p.grow backward size
    growEach backward ps (wait - 1) (if wait = 1 then size.addStates 2 else size)

end

mutual

/-- Whether each match has to begin, or backward to end, at a landmark. -/
def isBound (l : Landmark) (backward : Bool) : Pattern → Bool
  | landmark m => l = m
  | captured piece => piece.isBound l backward
  | repeated piece least _ _ => least != 0 && piece.isBound l backward
  | inOrder pieces => someIsBound l backward pieces
  | either choices => allAreBound l backward choices
  | _ => false

/-- Whether a piece of a row is bound that only void ones are in front of, or backward behind. -/
def someIsBound (l : Landmark) (backward : Bool) : List Pattern → Bool
  | [] => false
  | p :: ps =>
    ((!backward || areVoid ps) && p.isBound l backward) ||
      ((backward || p.isVoid) && someIsBound l backward ps)

def allAreBound (l : Landmark) (backward : Bool) : List Pattern → Bool
  | [] => true
  | p :: ps => p.isBound l backward && allAreBound l backward ps

end

/-- The size of the automaton of a pattern. If matches are not bound to the end of the text where
the reading begins, the automaton also looks for the place to begin. -/
def automatonSize (backward : Bool) (p : Pattern) : AutomatonSize :=
  let edge := if backward then Landmark.stop else .start
  let search : AutomatonSize :=
    if p.isBound edge backward then { states := 1 }
    else (AutomatonSize.addFork {}).addStates 2 |>.addRanges 1
  ((captured p).grow backward search).addStates 1

mutual

def hasCaptures : Pattern → Bool
  | captured _ => true
  | repeated piece _ _ _ => piece.hasCaptures
  | inOrder pieces | either pieces => anyHasCaptures pieces
  | _ => false

def anyHasCaptures : List Pattern → Bool
  | [] => false
  | p :: ps => p.hasCaptures || anyHasCaptures ps

end

mutual

def landmarks : Pattern → List Landmark
  | landmark l => [l]
  | captured piece | repeated piece _ _ _ => piece.landmarks
  | inOrder pieces | either pieces => allLandmarks pieces
  | _ => []

def allLandmarks : List Pattern → List Landmark
  | [] => []
  | p :: ps => p.landmarks ++ allLandmarks ps

end

def asksWideWords (p : Pattern) : Bool :=
  p.landmarks.any fun
    | .word _ wide => wide
    | _ => false

end Pattern

end FlowGraph.Text
