import FlowGraph.Text.Octets
import Std.Data.HashMap
/-!
How large an automaton grows that reads characters byte by byte. States are numbered as they are
made. For a set of characters, a state that was made before is found again in a table of slots:
the slot of a state is a hash of what it is for, and a later state takes the place of an earlier
one with the same slot. So how many states a set takes depends on the number of the first.
-/

set_option autoImplicit false

namespace FlowGraph.Text

structure AutomatonSize where
  states : Nat := 0
  /-- The bytes that states take in addition to what each takes. -/
  extra : Nat := 0
  deriving DecidableEq, Repr

namespace AutomatonSize

def stateBytes : Nat := 32

/-- The bytes for a byte range of a state that has several ranges. -/
def rangeBytes : Nat := 8

/-- The bytes for a way out of a state that reads nothing. -/
def wayBytes : Nat := 4

def limit : Nat := 10 * Nat.pow 2 20

def bytes (s : AutomatonSize) : Nat := s.states * stateBytes + s.extra

def isTooLarge (s : AutomatonSize) : Bool := limit < s.bytes

/-- With further states that have nothing in addition. -/
def addStates (s : AutomatonSize) (n : Nat) : AutomatonSize := { s with states := s.states + n }

def addWays (s : AutomatonSize) (n : Nat) : AutomatonSize :=
  { s with extra := s.extra + n * wayBytes }

def addRanges (s : AutomatonSize) (n : Nat) : AutomatonSize :=
  { s with extra := s.extra + n * rangeBytes }

/-- With a state that has two ways out. -/
def addFork (s : AutomatonSize) : AutomatonSize := (s.addStates 1).addWays 2

/-- With the same part again and again, so many times, or until it is too large anyway. -/
def addTimes (part : AutomatonSize → AutomatonSize) : Nat → AutomatonSize → AutomatonSize
  | 0, s => s
  | n + 1, s => if s.isTooLarge then s else addTimes part n (part s)

end AutomatonSize

/-- States that were made for a set of characters, by slot: what each is for, and its number. -/
structure StateTable where
  slots : Nat
  entries : Std.HashMap Nat (List Nat × Nat) := {}

namespace StateTable

def slot (t : StateTable) (key : List Nat) : Nat :=
  let hash : UInt64 :=
    key.foldl (fun h n => (h ^^^ n.toUInt64) * 1099511628211) 14695981039346656037
  (hash % t.slots.toUInt64).toNat

def find? (t : StateTable) (key : List Nat) : Option Nat :=
  match t.entries[t.slot key]? with
  | some (known, state) => if known = key then some state else none
  | none => none

def insert (t : StateTable) (key : List Nat) (state : Nat) : StateTable :=
  { t with entries := t.entries.insert (t.slot key) (key, state) }

end StateTable

/-- An automaton that grows by states for a set of characters. -/
structure SetGrowth where
  size : AutomatonSize
  table : StateTable

/-- The number of the state for something, with so many byte ranges to tell in addition. It is
made if it is not known. -/
def SetGrowth.ensure (g : SetGrowth) (key : List Nat) (ranges : Nat) : Nat × SetGrowth :=
  match g.table.find? key with
  | some state => (state, g)
  | none =>
    let state := g.size.states
    (state,
      { size := (g.size.addStates 1).addRanges ranges, table := g.table.insert key state })

/-- Puts a row of byte ranges in front of groups of rows that begin alike. -/
def addRow (row : OctetRow) (groups : List ((Nat × Nat) × List OctetRow)) :
    List ((Nat × Nat) × List OctetRow) :=
  match row, groups with
  | [], _ => groups
  | range :: rest, [] => [(range, [rest])]
  | range :: rest, (first, rests) :: groups =>
    if range = first then (first, rest :: rests) :: groups
    else (range, [rest]) :: (first, rests) :: groups

/-- Rows in groups that begin alike: the first range of each, and what follows it. -/
def rowGroups (rows : List OctetRow) : List ((Nat × Nat) × List OctetRow) :=
  rows.foldr addRow []

/-- Makes the state that reads rows of at most so many ranges forward, behind which a last state
follows. The states that read what follows their first ranges come first. -/
def SetGrowth.readForward (last : Nat) : Nat → List OctetRow → SetGrowth → Nat × SetGrowth
  | 0, _, g => (last, g)
  | length + 1, rows, g =>
    if rows = [[]] then (last, g)
    else
      let groups := rowGroups rows
      let (key, g) := groups.foldl
        (fun (key, g) group =>
          let (next, g) := readForward last length group.2 g
          (key ++ [group.1.1, group.1.2, next], g))
        (([] : List Nat), g)
      g.ensure key groups.length

/-- Makes the states that read a row backward, in front of which a state has been made. -/
def SetGrowth.readBackward (g : SetGrowth) (first : Nat) (row : OctetRow) : SetGrowth :=
  (row.foldl (fun (next, g) range => g.ensure [next, range.1, range.2] 0) (first, g)).2

/-- An automaton with a character of a set in addition. Forward, the states for a row share what
they end with; backward, what they begin with. -/
def CharSet.grow (s : CharSet) (backward : Bool) (size : AutomatonSize) : AutomatonSize :=
  if s.isPlain then (size.addStates 2).addRanges s.runs.length
  else
    let rows := s.octetRows
    if backward then
      let joint := size.states + 1
      let start : SetGrowth :=
        { size := (size.addStates 2).addWays rows.length, table := { slots := 1000 } }
      (rows.foldl (fun g row => g.readBackward joint row) start).size
    else
      let last := size.states
      let start : SetGrowth := { size := size.addStates 1, table := { slots := 10000 } }
      (start.readForward last 4 rows).2.size

end FlowGraph.Text
