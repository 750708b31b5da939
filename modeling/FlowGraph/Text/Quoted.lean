import FlowGraph.Text.Hidden
/-!
Quoted text: characters that would be mistaken or not be seen are written as escapes, so that
every text has a form in one line.
-/

set_option autoImplicit false

namespace FlowGraph.Text

def hexDigits (n : Nat) : List Char := Nat.toDigits 16 n

/-- A character by its number, between braces. -/
def escapeByNumber (c : Char) : List Char :=
  '\\' :: 'u' :: '\x7b' :: (hexDigits c.toNat ++ ['\x7d'])

def quoteChar (c : Char) : List Char :=
  match c with
  | '\x00' => ['\\', '0']
  | '\t' => ['\\', 't']
  | '\n' => ['\\', 'n']
  | '\r' => ['\\', 'r']
  | '"' => ['\\', '"']
  | '\\' => ['\\', '\\']
  | c => if isHidden c then escapeByNumber c else [c]

def quote (s : String) : String :=
  String.ofList ('"' :: (s.toList.flatMap quoteChar ++ ['"']))

end FlowGraph.Text
