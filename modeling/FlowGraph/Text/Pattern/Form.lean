import FlowGraph.Text.Pattern
/-!
Patterns in short form. The functions here put patterns together like the constructors, and leave
out what says nothing: empty pieces, rows in rows, choices in choices, a set of one character, a
repetition of what takes no characters, and what all of some choices begin with.
-/

set_option autoImplicit false

namespace FlowGraph.Text.Pattern

/-- The pattern of no piece. -/
def nothing : Pattern := one {} true

def ofSet (s : CharSet) (asBytes : Bool) : Pattern :=
  match s.single? with
  | some c => word [c]
  | none => if s.isEmpty then nothing else one s asBytes

mutual

/-- Whether a pattern describes empty pieces, and no others. -/
def isVoid : Pattern → Bool
  | empty | landmark _ => true
  | word chars => chars.isEmpty
  | one _ _ => false
  | captured piece | repeated piece _ _ _ => piece.isVoid
  | inOrder pieces | either pieces => areVoid pieces

def areVoid : List Pattern → Bool
  | [] => true
  | p :: ps => p.isVoid && areVoid ps

end

/-- A repetition. What takes no characters need not be repeated. -/
def times (piece : Pattern) (least : Nat) (most : Option Nat) (fewFirst : Bool) : Pattern :=
  let void := piece.isVoid
  let least := if void then min least 1 else least
  let most := if void then some (min (most.getD 1) 1) else most
  if least = 0 && most = some 0 then empty
  else if least = 1 && most = some 1 then piece
  else repeated piece least most fewFirst

/-- A piece in front of others in a row. Characters in front of characters make one word. -/
def consPiece : Pattern → List Pattern → List Pattern
  | empty, pieces => pieces
  | word chars, word more :: pieces => word (chars ++ more) :: pieces
  | piece, pieces => piece :: pieces

def pieces : Pattern → List Pattern
  | inOrder pieces => pieces
  | piece => [piece]

def sequence (patterns : List Pattern) : Pattern :=
  match (patterns.flatMap pieces).foldr consPiece [] with
  | [] => empty
  | [piece] => piece
  | pieces => inOrder pieces

def choices : Pattern → List Pattern
  | either choices => choices
  | choice => [choice]

def character? : Pattern → Option Char
  | word [c] => some c
  | _ => none

/-- The set of a pattern of one character that is given by its set. -/
def set? : Pattern → Option CharSet
  | one s _ => some s
  | _ => none

/-- A choice, and one set if all are characters or all are sets. -/
def joined (patterns : List Pattern) : Pattern :=
  match patterns.flatMap choices with
  | [] => nothing
  | [choice] => choice
  | several =>
    match several.mapM character?, several.mapM set? with
    | some chars, _ => ofSet (CharSet.ofRanges (chars.map fun c => (c, c))) false
    | none, some sets => ofSet (sets.foldl CharSet.union {}) false
    | none, none => either several

mutual

/-- Whether two patterns are written alike. What is noted is noted once, and so never alike. -/
def same : Pattern → Pattern → Bool
  | empty, empty => true
  | word chars, word chars' => chars == chars'
  | one s asBytes, one s' asBytes' => s == s' && asBytes == asBytes'
  | landmark l, landmark l' => l == l'
  | repeated p least most few, repeated p' least' most' few' =>
    p.same p' && least == least' && most == most' && few == few'
  | inOrder ps, inOrder ps' => sameAll ps ps'
  | either ps, either ps' => sameAll ps ps'
  | _, _ => false

def sameAll : List Pattern → List Pattern → Bool
  | [], [] => true
  | p :: ps, p' :: ps' => p.same p' && sameAll ps ps'
  | _, _ => false

end

/-- How many pieces two rows have in common at their beginnings. -/
def commonLength : List Pattern → List Pattern → Nat
  | p :: ps, q :: qs => if p.same q then commonLength ps qs + 1 else 0
  | _, _ => 0

/-- The rows of choices that are all rows of several pieces. -/
def rows? (patterns : List Pattern) : Option (List (List Pattern)) :=
  patterns.mapM fun
    | inOrder pieces => some pieces
    | _ => none

/-- A choice. What all rows begin with stands in front of it once. -/
def choice (patterns : List Pattern) : Pattern :=
  match joined patterns with
  | either choices =>
    match rows? choices with
    | some (row :: rows) =>
      let common := (rows.map (commonLength row)).foldl min row.length
      if common = 0 then either choices
      else
        sequence
          (row.take common ++ [joined ((row :: rows).map fun r => sequence (r.drop common))])
    | _ => either choices
  | pattern => pattern

end FlowGraph.Text.Pattern
