import FlowGraph.Text.Blank
import FlowGraph.Text.Pattern.Fault
/-!
Walking through the text of a pattern. A cursor is at a place in the text and knows what is left
of it. In a spaced pattern, blanks and remarks are passed over between characters.
-/

set_option autoImplicit false

namespace FlowGraph.Text

/-- A place in a text that is read, with what is left of the text. -/
structure Cursor where
  rest : List Char
  place : Place := {}
  /-- Whether blanks and remarks do not count. -/
  spaced : Bool := false
  deriving DecidableEq, Repr

/-- How many characters in front do not count in a spaced pattern: blanks, and remarks from a
number sign to the end of the line. -/
def ignoredLength (inRemark : Bool) : List Char → Nat
  | [] => 0
  | c :: rest =>
    if inRemark then ignoredLength (c != '\n') rest + 1
    else if c = '#' then ignoredLength true rest + 1
    else if isBlank c then ignoredLength false rest + 1
    else 0

namespace Cursor

def atEnd (c : Cursor) : Bool := c.rest.isEmpty

def pass (c : Cursor) : Cursor :=
  match c.rest with
  | [] => c
  | x :: rest => { c with rest, place := c.place.after x }

def passMany (c : Cursor) : Nat → Cursor
  | 0 => c
  | n + 1 => c.pass.passMany n

def passIgnored (c : Cursor) : Cursor :=
  if c.spaced then c.passMany (ignoredLength false c.rest) else c

/-- The cursor after the next character and what does not count. -/
def advance (c : Cursor) : Cursor := c.pass.passIgnored

def spanTo (c d : Cursor) : Span := { start := c.place, stop := d.place }

def here (c : Cursor) : Span := c.spanTo c

def nextSpan (c : Cursor) : Span := c.spanTo c.pass

/-- The next characters that are in a class, and the cursor after them; at most as many as are
in a list. -/
def takeWithin (accepts : Char → Bool) : List Char → Cursor → List Char × Cursor
  | [], c => ([], c)
  | _ :: bound, c =>
    match c.rest with
    | [] => ([], c)
    | x :: _ =>
      if accepts x then
        let (xs, after) := takeWithin accepts bound c.advance
        (x :: xs, after)
      else ([], c)

def takeAll (c : Cursor) (accepts : Char → Bool) : List Char × Cursor :=
  takeWithin accepts c.rest c

/-- The character after the next one that counts, as far as it is looked for here: blanks are
passed over, and a number sign once. Where only such characters are left, the first one. -/
def peekCounted (c : Cursor) : Option Char :=
  let later := c.rest.tail
  if c.spaced then
    let counted := later.dropWhile isBlank
    let counted := if counted.head? = some '#' then counted.tail.dropWhile isBlank else counted
    counted.head?.or later.head?
  else later.head?

end Cursor

end FlowGraph.Text
