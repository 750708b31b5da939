import FlowGraph.Text.Pattern.Cursor
import FlowGraph.Text.Pattern.Tree
/-!
Reading what follows a backslash: the code of a character, a class, a condition on places, or a
sign that stands for itself.
-/

set_option autoImplicit false

namespace FlowGraph.Text

def isCodeDigit (c : Char) : Bool :=
  c.isDigit || ('a' ≤ c && c ≤ 'f') || ('A' ≤ c && c ≤ 'F')

def codeDigitValue (c : Char) : Nat :=
  if c.isDigit then c.toNat - '0'.toNat else c.toLower.toNat - 'a'.toNat + 10

def ofCodeDigits? (digits : List Char) : Option Char :=
  let n := digits.foldl (fun n d => 16 * n + codeDigitValue d) 0
  if n.isValidChar then some (Char.ofNat n) else none

/-- The number of digits of a code that a letter begins. -/
def codeLength? : Char → Option Nat
  | 'x' => some 2
  | 'u' => some 4
  | 'U' => some 8
  | _ => none

/-- The set that a letter stands for after a backslash, and whether it is negated. -/
def letteredSet? : Char → Option (NamedSet × Bool)
  | 'd' => some (.digit, false)
  | 'D' => some (.digit, true)
  | 's' => some (.space, false)
  | 'S' => some (.space, true)
  | 'w' => some (.word, false)
  | 'W' => some (.word, true)
  | _ => none

def escapedAssertion? : Char → Option Assertion
  | 'A' => some .textStart
  | 'z' => some .textStop
  | 'b' => some (.word .edge)
  | 'B' => some (.word .noEdge)
  | '<' => some (.word .start)
  | '>' => some (.word .stop)
  | _ => none

/-- The character that one stands for after a backslash: a control for some letters, and itself
for a sign. -/
def escapedChar? : Char → Option Char
  | 'a' => some '\x07'
  | 'f' => some '\x0c'
  | 'n' => some '\n'
  | 'r' => some '\r'
  | 't' => some '\t'
  | 'v' => some '\x0b'
  | c => if c.toNat < 128 && !c.isAlphanum && c != '<' && c != '>' then some c else none

def namedWordEdge? (name : List Char) : Option WordEdge :=
  match String.ofList name with
  | "start" => some .start
  | "end" => some .stop
  | "start-half" => some .clearBefore
  | "end-half" => some .clearAfter
  | _ => none

namespace Cursor

def codeDigits : Nat → Cursor → Except PatternFlaw (List Char × Cursor)
  | 0, c => .ok ([], c)
  | n + 1, c =>
    match c.rest with
    | [] => .error { span := c.here, issue := .unfinishedEscape }
    | x :: _ => do
      unless isCodeDigit x do throw { span := c.nextSpan, issue := .badCodeDigit }
      let (xs, after) ← codeDigits n c.advance
      return (x :: xs, after)

def fixedCode (c : Cursor) (length : Nat) : Except PatternFlaw (Char × Cursor) := do
  let (digits, after) ← codeDigits length c
  match ofCodeDigits? digits with
  | some x => return (x, after)
  | none => throw { span := c.spanTo after, issue := .badCode }

def bracedCode (c : Cursor) : Except PatternFlaw (Char × Cursor) := do
  let (digits, close) := c.advance.takeAll isCodeDigit
  match close.rest with
  | [] => throw { span := c.spanTo close, issue := .unfinishedEscape }
  | x :: _ =>
    if x != '\x7d' then throw { span := close.nextSpan, issue := .badCodeDigit }
    let after := close.advance
    if digits.isEmpty then throw { span := c.spanTo after, issue := .missingCode }
    match ofCodeDigits? digits with
    | some x => return (x, after)
    | none => throw { span := c.pass.spanTo close, issue := .badCode }

/-- Reads the code of a character, from the backslash and the letter after it on. -/
def code (start letter : Cursor) (length : Nat) : Except PatternFlaw (PatternLiteral × Cursor) := do
  let c := letter.advance
  match c.rest with
  | [] => throw { span := c.here, issue := .unfinishedEscape }
  | '\x7b' :: _ =>
    let (char, after) ← c.bracedCode
    return ({ span := start.spanTo after, char }, after)
  | _ =>
    let (char, after) ← c.fixedCode length
    return ({ span := start.spanTo after, char, isByte := length = 2 }, after)

/-- Reads a property, from the backslash and the letter after it on: one letter, or a name in
braces. -/
def property (start letter : Cursor) : Except PatternFlaw (ClassTree × Cursor) := do
  let c := letter.advance
  match c.rest with
  | [] => throw { span := c.here, issue := .unfinishedEscape }
  | '\x7b' :: _ =>
    let (name, close) := c.advance.takeAll (· != '\x7d')
    if close.atEnd then throw { span := close.here, issue := .unfinishedEscape }
    return (.property (start.spanTo close.pass) name, close.pass)
  | '\\' :: _ => throw { span := c.nextSpan, issue := .badProperty }
  | x :: _ => return (.property (start.spanTo c.advance) [x], c.advance)

/-- Reads the name of a condition on words in braces. There is none if what follows the brace
does not begin a name: the brace then begins a count. -/
def wordEdge? (start brace : Cursor) : Except PatternFlaw (Option (WordEdge × Cursor)) := do
  let isNameChar (x : Char) : Bool := x.isAlpha || x == '-'
  let c := brace.advance
  match c.rest with
  | [] => throw { span := start.spanTo c, issue := .unclosedBrace }
  | x :: _ =>
    if !isNameChar x then return none
    let (name, close) := c.takeAll isNameChar
    if close.rest.head? != some '\x7d' then
      throw { span := brace.spanTo close, issue := .unclosedWordEdge }
    match namedWordEdge? name with
    | some condition => return some (condition, close.pass)
    | none => throw { span := c.spanTo close, issue := .unknownWordEdge }

/-- Reads a condition on places. The condition on both edges of words may be followed by the name
of another one in braces. -/
def assertion (start after : Cursor) (assertion : Assertion) :
    Except PatternFlaw (PatternTree × Cursor) := do
  let plain : PatternTree × Cursor := (.assertion (start.spanTo after) assertion, after)
  if assertion = .word .edge && after.rest.head? = some '\x7b' then
    match ← wordEdge? start after with
    | some (condition, after) =>
      return (.assertion (start.spanTo after) (.word condition), after)
    | none => return plain
  else return plain

def escape (start : Cursor) : Except PatternFlaw (PatternTree × Cursor) := do
  let c := start.pass
  match c.rest with
  | [] => throw { span := start.spanTo c, issue := .unfinishedEscape }
  | x :: _ =>
    let after := c.pass
    let span := start.spanTo after
    if x.isDigit then throw { span, issue := .backReference }
    if x = 'p' || x = 'P' then
      let (charClass, after) ← start.property c
      return (.charClass charClass, after)
    match codeLength? x, letteredSet? x, escapedAssertion? x, escapedChar? x with
    | some length, _, _, _ =>
      let (literal, after) ← start.code c length
      return (.literal literal, after)
    | none, some (set, negated), _, _ => return (.charClass (.lettered span set negated), after)
    | none, none, some assertion, _ => start.assertion after assertion
    | none, none, none, some char => return (.literal { span, char }, after)
    | none, none, none, none => throw { span, issue := .unknownEscape }

end Cursor

end FlowGraph.Text
