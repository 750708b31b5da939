/-!
JSON values and their text over several lines. Items stand on lines of their own, two spaces
deeper than the brackets around them, and text outside ASCII stands as it is.
-/

set_option autoImplicit false

namespace FlowGraph

/-- The values of JSON that results are made of. -/
inductive Json where
  | bool (b : Bool)
  | num (n : Nat)
  | str (s : String)
  | arr (items : List Json)
  | obj (fields : List (String × Json))

namespace Json

def hexDigit (n : Nat) : Char := Nat.digitChar n

/-- How a character is written in a string: quotes, backslashes and controls are escaped. -/
def escape (c : Char) : List Char :=
  match c with
  | '"' => ['\\', '"']
  | '\\' => ['\\', '\\']
  | '\x08' => ['\\', 'b']
  | '\x0c' => ['\\', 'f']
  | '\n' => ['\\', 'n']
  | '\r' => ['\\', 'r']
  | '\t' => ['\\', 't']
  | c =>
    if c.toNat < 0x20 then
      ['\\', 'u', '0', '0', hexDigit (c.toNat / 16), hexDigit (c.toNat % 16)]
    else [c]

def string (s : String) : String :=
  String.ofList ('"' :: (s.toList.flatMap escape ++ ['"']))

def newline (depth : Nat) : String := "\n" ++ String.ofList (List.replicate (2 * depth) ' ')

/-- Items between two brackets at a depth; without items the brackets touch. -/
def enclose (left right : String) (depth : Nat) : List String → String
  | [] => left ++ right
  | items =>
    left ++ String.intercalate "," (items.map (newline (depth + 1) ++ ·)) ++ newline depth ++ right

mutual

def textAt (depth : Nat) : Json → String
  | bool b => if b then "true" else "false"
  | num n => n.repr
  | str s => string s
  | arr items => enclose "[" "]" depth (itemTexts (depth + 1) items)
  | obj fields => enclose "\x7b" "\x7d" depth (fieldTexts (depth + 1) fields)

def itemTexts (depth : Nat) : List Json → List String
  | [] => []
  | item :: items => item.textAt depth :: itemTexts depth items

def fieldTexts (depth : Nat) : List (String × Json) → List String
  | [] => []
  | (name, value) :: fields =>
    (string name ++ ": " ++ value.textAt depth) :: fieldTexts depth fields

end

def text (value : Json) : String := value.textAt 0

end Json

end FlowGraph
