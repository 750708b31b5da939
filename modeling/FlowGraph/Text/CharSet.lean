/-!
Sets of characters, as runs. Characters are counted in their order, without the gap that their
code points leave, so that the complement of a set is again a set of characters. Runs decrease,
and neither overlap nor touch: equal sets have equal runs. The last one stands first, since sets
are mostly written in increasing order.
-/

set_option autoImplicit false

namespace FlowGraph.Text

/-- The number of a character in the order of all. -/
def charNumber (c : Char) : Nat := if c.toNat < 0xd800 then c.toNat else c.toNat - 0x800

/-- The code point of the character with a number. -/
def codePoint (n : Nat) : Nat := if n < 0xd800 then n else n + 0x800

def charCount : Nat := 0x10f800

/-- A set of characters: the first and last numbers of each run. -/
structure CharSet where
  runs : List (Nat × Nat) := []
  deriving DecidableEq, Repr

namespace CharSet

/-- Adds a run to runs, and makes one of those that it overlaps or touches. -/
def addRun (run : Nat × Nat) : List (Nat × Nat) → List (Nat × Nat)
  | [] => [run]
  | next :: rest =>
    if next.2 + 1 < run.1 then run :: next :: rest
    else if run.2 + 1 < next.1 then next :: addRun run rest
    else addRun (min run.1 next.1, max run.2 next.2) rest

/-- The runs of what lies between runs and before them, below a number. -/
def gaps (bound : Nat) : List (Nat × Nat) → List (Nat × Nat)
  | [] => if 0 < bound then [(0, bound - 1)] else []
  | run :: rest =>
    if run.2 + 1 < bound then (run.2 + 1, bound - 1) :: gaps run.1 rest else gaps run.1 rest

def ofRange (first last : Char) : CharSet := { runs := [(charNumber first, charNumber last)] }

def contains (s : CharSet) (c : Char) : Bool :=
  let n := charNumber c
  s.runs.any fun run => run.1 ≤ n && n ≤ run.2

def isEmpty (s : CharSet) : Bool := s.runs.isEmpty

def union (s t : CharSet) : CharSet :=
  { runs := t.runs.foldr addRun s.runs }

def complement (s : CharSet) : CharSet := { runs := gaps charCount s.runs }

def intersection (s t : CharSet) : CharSet := (s.complement.union t.complement).complement

def difference (s t : CharSet) : CharSet := s.intersection t.complement

def ofRanges (ranges : List (Char × Char)) : CharSet :=
  ranges.foldl (fun s range => s.union (ofRange range.1 range.2)) {}

/-- The part of a run between two characters, moved so that the first becomes a third. -/
def moved (first last target : Char) (run : Nat × Nat) : List (Nat × Nat) :=
  let low := max run.1 first.toNat
  let high := min run.2 last.toNat
  if low ≤ high then
    [(low - first.toNat + target.toNat, high - first.toNat + target.toNat)]
  else []

/-- A set with the plain letters in both cases that it has in one. -/
def bothCases (s : CharSet) : CharSet :=
  s.union
    { runs := s.runs.flatMap fun run => moved 'a' 'z' 'A' run ++ moved 'A' 'Z' 'a' run }

/-- The character of a set that has only one. -/
def single? (s : CharSet) : Option Char :=
  match s.runs with
  | [(first, last)] => if first = last then some (Char.ofNat (codePoint first)) else none
  | _ => none

end CharSet

end FlowGraph.Text
