import FlowGraph.Text.Pattern.Footprint
/-!
The beginnings of matches. A pattern that stands for some words, and not too many, is looked for
as these words, without an automaton. Stems are the bytes that a match can begin with; a stem is
whole if the match ends with it. Where there are too many stems, or any stem at all, there are
none.
-/

set_option autoImplicit false

namespace FlowGraph.Text

/-- The bytes that a match begins with. -/
structure Stem where
  octets : List Nat := []
  /-- Whether the match has no more. -/
  whole : Bool := true
  deriving DecidableEq, Repr

/-- The beginnings of all matches, in the order of preference; without them, a match can begin in
too many ways. -/
abbrev Stems := Option (List Stem)

namespace Stem

def lengthLimit : Nat := 100

def countLimit : Nat := 250

/-- The most characters of a set, and the most repetitions, that are told apart. -/
def choiceLimit : Nat := 10

def cut (length : Nat) (s : Stem) : Stem :=
  if s.octets.length ≤ length then s
  else { octets := s.octets.take length, whole := false }

/-- A stem of which nothing is said about the end. -/
def opened (s : Stem) : Stem := { s with whole := false }

def append (s t : Stem) : Stem := { octets := s.octets ++ t.octets, whole := t.whole }

/-- A stem in front of others, unless it is the first of them; the end is then known only if it
is known of both. -/
def addFront (s : Stem) : List Stem → List Stem
  | [] => [s]
  | t :: rest =>
    if s.octets = t.octets then { t with whole := s.whole && t.whole } :: rest
    else s :: t :: rest

def withoutRepeats (stems : List Stem) : List Stem := stems.foldr addFront []

/-- Stems without those that begin with an earlier one. -/
def minimal (stems : List Stem) : List Stem :=
  stems.foldl
    (fun kept s => if kept.any (·.octets.isPrefixOf s.octets) then kept else kept ++ [s]) []

end Stem

namespace Stems

def opened (s : Stems) : Stems := s.map (·.map Stem.opened)

def cut (length : Nat) (s : Stems) : Stems := s.map (·.map (Stem.cut length))

/-- Whether no stem can be continued: none is whole, or there are too many. -/
def isClosed (s : Stems) : Bool := s.all fun stems => stems.all fun stem => !stem.whole

/-- Each whole stem with each of others behind it. -/
def crossed (stems others : List Stem) : List Stem :=
  Stem.withoutRepeats (stems.flatMap fun s => if s.whole then others.map s.append else [s])

def cross (s t : Stems) : Stems :=
  let limited :=
    match s, t with
    | some stems, some others =>
      if Stem.countLimit < stems.length * others.length then none else some others
    | _, t => t
  let joined :=
    match s, limited with
    | some stems, none =>
      if stems.any (·.octets.isEmpty) then none else some (stems.map Stem.opened)
    | some stems, some others => some (crossed stems others)
    | none, _ => none
  Stems.cut Stem.lengthLimit joined

/-- The stems of matches of either kind. If there are many, they are made short first. -/
def union (s t : Stems) : Stems := do
  let stems ← s
  let others ← t
  if stems.length + others.length ≤ Stem.countLimit then
    some (Stem.withoutRepeats (stems ++ others))
  else
    let stems := Stem.withoutRepeats (stems.map (Stem.cut 4))
    let others := Stem.withoutRepeats (others.map (Stem.cut 4))
    if stems.length + others.length ≤ Stem.countLimit then
      some (Stem.withoutRepeats (stems ++ others))
    else none

/-- The stems of a match with the same kind of match behind it, so many times. -/
def power (s : Stems) : Nat → Stems → Stems
  | 0, before => before
  | n + 1, before => if isClosed before then before else power s n (cross before s)

def blank : Stems := some [{}]

def ofSet (s : CharSet) : Stems :=
  let size (run : Nat × Nat) : Nat := codePoint run.2 + 1 - codePoint run.1
  if Stem.choiceLimit < (s.runs.map size).foldr (· + ·) 0 then none
  else
    some
      (s.runs.reverse.flatMap fun run =>
        (List.range' run.1 (run.2 + 1 - run.1)).map fun n =>
          { octets := octets (Char.ofNat (codePoint n)) })

def ofRepeated (s : Stems) (least : Nat) (most : Option Nat) (fewFirst : Bool) : Stems :=
  if least = 0 then
    let several := if most = some 1 then s else opened s
    if fewFirst then union blank several else union several blank
  else
    let stems := power s (min least Stem.choiceLimit) blank
    if most = some least && least ≤ Stem.choiceLimit then stems else opened stems

end Stems

namespace Pattern

mutual

def stems : Pattern → Stems
  | empty | landmark _ => Stems.blank
  | word chars => some [Stem.cut Stem.lengthLimit { octets := chars.flatMap octets }]
  | one s _ => Stems.ofSet s
  | captured piece => piece.stems
  | repeated piece least most fewFirst => Stems.ofRepeated piece.stems least most fewFirst
  | inOrder pieces => stemsInOrder Stems.blank pieces
  | either choices => stemsOfAny (some []) choices

/-- The stems of patterns in a row behind what has some stems. -/
def stemsInOrder (before : Stems) : List Pattern → Stems
  | [] => before
  | p :: ps => if before.isClosed then before else stemsInOrder (before.cross p.stems) ps

def stemsOfAny (before : Stems) : List Pattern → Stems
  | [] => before
  | p :: ps => stemsOfAny (before.union p.stems) ps

end

end Pattern

/-- Whether a byte is so common in texts that a search for it alone is of no use. -/
def isCommonOctet (b : Nat) : Bool :=
  0x80 ≤ b || ("\n\r (),-./0129:_abcdefghilmnoprstuvxy|".toList.map Char.toNat).contains b

namespace Stem

def commonLength : List Nat → List Nat → Nat
  | a :: as, b :: bs => if a = b then commonLength as bs + 1 else 0
  | _, _ => 0

def common : List Stem → List Nat
  | [] => []
  | s :: stems => stems.foldl (fun start t => start.take (commonLength start t.octets)) s.octets

/-- Makes stems shorter while there are too many: to so many bytes where there are more than so
many stems. -/
def shorten : List (Nat × Nat) → List Stem → List Stem
  | [], stems => stems
  | (length, count) :: plans, stems =>
    if stems.length ≤ count then stems else shorten plans (minimal (stems.map (cut length)))

/-- Whether it is best to look for these stems as they are, and each is a match. A common
beginning may be better to look for, or shorter stems if there are many. -/
def areBest (stems : List Stem) : Bool :=
  let kept := minimal stems
  let start := common kept
  let length := start.length
  let allWhole := kept.all (·.whole)
  if 1 < stems.length && 1 ≤ length && length ≤ 3 && start.head?.any (!isCommonOctet ·) then
    kept.all fun s => s.whole && s.octets.length = 1
  else if 4 < length || (1 < length && !(allWhole && kept.length ≤ 16)) then
    kept.all fun s => s.whole && s.octets.length = length
  else
    let short := shorten [(5, 10), (4, 10), (3, 64), (2, 64), (1, 10)] kept
    allWhole &&
      (short.any (·.octets.length ≤ 2) || 64 < short.length || short.all (·.whole))

end Stem

/-- Whether a pattern is looked for as some words. It has no landmarks, and nothing is noted. -/
def Pattern.isWordList (p : Pattern) : Bool :=
  !p.hasCaptures && p.landmarks.isEmpty &&
    p.stems.any fun stems =>
      !stems.isEmpty && stems.all (fun s => !s.octets.isEmpty) && Stem.areBest stems

end FlowGraph.Text
