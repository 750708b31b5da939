import FlowGraph.Text.CharSet
/-!
The bytes that write characters. The characters of a run are written by rows of byte ranges: a
row takes in each choice of one byte from each of its ranges, and the rows of a run take in the
bytes of each of its characters once. There are as few rows as ranges allow.
-/

set_option autoImplicit false

namespace FlowGraph.Text

/-- A row of byte ranges, each with its first and last byte. -/
abbrev OctetRow := List (Nat × Nat)

/-- The rows of the code points from one to another that are written with a leading byte and so
many more. The leading byte counts the blocks of the others on top of a base. -/
def rowsFrom (base : Nat) : Nat → Nat → Nat → List OctetRow
  | 0, first, last => [[(base + first, base + last)]]
  | more + 1, first, last =>
    let block := Nat.pow 64 (more + 1)
    let low := first / block
    let high := last / block
    let below (lead : Nat) (first last : Nat) : List OctetRow :=
      (rowsFrom 0x80 more first last).map ((base + lead, base + lead) :: ·)
    if low = high then below low (first % block) (last % block)
    else
      let cutLow := first % block != 0
      let cutHigh := last % block != block - 1
      let firstWhole := if cutLow then low + 1 else low
      let pastWhole := if cutHigh then high else high + 1
      (if cutLow then below low (first % block) (block - 1) else []) ++
        (if firstWhole < pastWhole then
          let lead := (base + firstWhole, base + pastWhole - 1)
          [lead :: List.replicate (more + 1) (0x80, 0xbf)]
        else []) ++
        (if cutHigh then below high 0 (last % block) else [])

/-- What code points are written alike: their first and last, the base of the leading byte, and
the number of further bytes. -/
def octetPlans : List (Nat × Nat × Nat × Nat) :=
  [(0, 0x7f, 0, 0), (0x80, 0x7ff, 0xc0, 1), (0x800, 0xd7ff, 0xe0, 2), (0xe000, 0xffff, 0xe0, 2),
    (0x10000, 0x10ffff, 0xf0, 3)]

/-- The rows of the characters from one number to another. -/
def octetRows (run : Nat × Nat) : List OctetRow :=
  let first := codePoint run.1
  let last := codePoint run.2
  octetPlans.flatMap fun (low, high, base, more) =>
    if max first low ≤ min last high then rowsFrom base more (max first low) (min last high)
    else []

def CharSet.octetRows (s : CharSet) : List OctetRow :=
  s.runs.reverse.flatMap Text.octetRows

/-- Whether each character of a set is written with one byte. -/
def CharSet.isPlain (s : CharSet) : Bool := s.runs.all fun run => run.2 < 0x80

def octets (c : Char) : List Nat :=
  (Text.octetRows (charNumber c, charNumber c)).flatten.map Prod.fst

example : octets 'a' = [0x61] ∧ octets 'é' = [0xc3, 0xa9] := by decide

example : octets '😀' = [0xf0, 0x9f, 0x98, 0x80] := by decide

end FlowGraph.Text
