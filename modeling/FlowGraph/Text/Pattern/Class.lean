import FlowGraph.Text.Pattern.Escape
/-!
Reading a class in brackets. Items stand next to each other between operators, which join from
the left; brackets may stand in brackets.
-/

set_option autoImplicit false

namespace FlowGraph.Text

/-- Items of a class that stand next to each other, the latest first, with their characters. -/
structure ClassItems where
  span : Span
  items : List ClassTree := []

namespace ClassItems

def add (i : ClassItems) (item : ClassTree) : ClassItems :=
  { span :=
      { start := if i.items.isEmpty then item.span.start else i.span.start
        stop := item.span.stop }
    items := item :: i.items }

def tree (i : ClassItems) : ClassTree :=
  match i.items with
  | [] => .nothing i.span
  | [item] => item
  | items => .several i.span items.reverse

end ClassItems

structure OpenClass where
  opening : Span
  negated : Bool
  /-- What is in front of the latest operator, and the operator. -/
  left : Option (ClassTree × SetOperation) := none
  /-- The items in front of the bracket in the brackets around it. -/
  before : ClassItems

/-- The class in a bracket, with what is behind its latest operator. -/
def OpenClass.tree (o : OpenClass) (right : ClassTree) : ClassTree :=
  match o.left with
  | none => right
  | some (left, operation) =>
    .combined { start := left.span.start, stop := right.span.stop } operation left right

def NamedSet.ofName? (name : List Char) : Option NamedSet :=
  match String.ofList name with
  | "alnum" => some alnum
  | "alpha" => some alpha
  | "ascii" => some ascii
  | "blank" => some blank
  | "cntrl" => some control
  | "digit" => some digit
  | "graph" => some graph
  | "lower" => some lower
  | "print" => some print
  | "punct" => some punctuation
  | "space" => some space
  | "upper" => some upper
  | "word" => some word
  | "xdigit" => some hexDigit
  | _ => none

def SetOperation.atHead? : List Char → Option SetOperation
  | '&' :: '&' :: _ => some intersection
  | '-' :: '-' :: _ => some difference
  | '~' :: '~' :: _ => some symmetricDifference
  | _ => none

namespace Cursor

/-- Reads a set by its name between brackets and colons, if there is one. -/
def namedSet? (c : Cursor) : Option (ClassTree × Cursor) :=
  match c.rest with
  | '[' :: ':' :: rest =>
    let negated := rest.head? = some '^'
    let body := if negated then rest.tail else rest
    let name := body.takeWhile (· != ':')
    match body.drop name.length, NamedSet.ofName? name with
    | ':' :: ']' :: _, some set =>
      let after := c.passMany (2 + (if negated then 1 else 0) + name.length + 2)
      some (.named (c.spanTo after) set negated, after)
    | _, _ => none
  | _ => none

/-- Adds a character to items again and again while it comes next, at most as often as a list is
long. -/
def leadingItems (start : Cursor) (char : Char) :
    List Char → ClassItems → Cursor → Except PatternFlaw (ClassItems × Cursor)
  | [], items, c => .ok (items, c)
  | _ :: bound, items, c =>
    if c.rest.head? = some char then
      let items := items.add (.literal { span := c.nextSpan, char })
      let after := c.advance
      if after.atEnd then .error { span := start.here, issue := .unclosedClass }
      else leadingItems start char bound items after
    else .ok (items, c)

/-- Opens a bracket. It may be negated, dashes at the beginning stand for themselves, and so does
a closing bracket right there. -/
def openClass (start : Cursor) (before : ClassItems) :
    Except PatternFlaw (OpenClass × ClassItems × Cursor) := do
  let unclosed (c : Cursor) : PatternFlaw := { span := start.spanTo c, issue := .unclosedClass }
  let c := start.advance
  if c.atEnd then throw (unclosed c)
  let negated := c.rest.head? = some '^'
  let c := if negated then c.advance else c
  if c.atEnd then throw (unclosed c)
  let (items, c) ← start.leadingItems '-' c.rest { span := c.here } c
  if items.items.isEmpty && c.rest.head? = some ']' then
    let items := items.add (.literal { span := c.nextSpan, char := ']' })
    let after := c.advance
    if after.atEnd then throw (unclosed after)
    return ({ opening := start.spanTo after, negated, before }, items, after)
  else return ({ opening := start.spanTo c, negated, before }, items, c)

/-- Reads a character of a class, or what a backslash begins there. -/
def classItem (c : Cursor) : Except PatternFlaw (PatternTree × Cursor) :=
  match c.rest with
  | [] => .ok (.empty, c)
  | '\\' :: _ => c.escape
  | char :: _ => .ok (.literal { span := c.nextSpan, char }, c.pass)

def asItem (c : Cursor) : PatternTree → Except PatternFlaw ClassTree
  | .literal l => .ok (.literal l)
  | .charClass item => .ok item
  | tree => .error { span := tree.span?.getD c.here, issue := .assertionInClass }

def asLiteral (c : Cursor) : PatternTree → Except PatternFlaw PatternLiteral
  | .literal l => .ok l
  | tree => .error { span := tree.span?.getD c.here, issue := .endlessRange }

/-- Reads an item of a class: one character or what stands for several, or all from a character
to another. A dash in front of a closing bracket or of a dash makes no range. -/
def classRange (start : Cursor) (opening : Span) : Except PatternFlaw (ClassTree × Cursor) := do
  let unclosed : PatternFlaw := { span := opening, issue := .unclosedClass }
  let (first, c) ← start.classItem
  let c := c.passIgnored
  if c.atEnd then throw unclosed
  let next := c.peekCounted
  if c.rest.head? != some '-' || next = some ']' || next = some '-' then
    return (← start.asItem first, c)
  let c := c.advance
  if c.atEnd then throw unclosed
  let (last, after) ← c.classItem
  let first ← start.asLiteral first
  let last ← c.asLiteral last
  let span : Span := { start := first.span.start, stop := last.span.stop }
  if last.char < first.char then throw { span, issue := .emptyRange }
  return (.range span first last, after)

/-- Reads a class on from inside its brackets, the innermost of which is given first. Each step
passes a character, so the characters that are left bound the steps. -/
def classFrom : List Char → OpenClass → List OpenClass → ClassItems → Cursor →
    Except PatternFlaw (ClassTree × Cursor)
  | [], inner, _, _, _ => .error { span := inner.opening, issue := .unclosedClass }
  | _ :: bound, inner, around, items, c => do
    let c := c.passIgnored
    match c.rest with
    | [] => throw { span := inner.opening, issue := .unclosedClass }
    | '[' :: _ =>
      match c.namedSet? with
      | some (item, after) => classFrom bound inner around (items.add item) after
      | none =>
        let (opened, items, after) ← c.openClass items
        classFrom bound opened (inner :: around) items after
    | ']' :: _ =>
      let after := c.pass
      let span : Span := { start := inner.opening.start, stop := after.place }
      let item : ClassTree := .bracketed span inner.negated (inner.tree items.tree)
      match around with
      | [] => return (item, after)
      | outer :: around => classFrom bound outer around (inner.before.add item) after
    | rest =>
      match SetOperation.atHead? rest with
      | some operation =>
        let after := c.passMany 2
        let left := some (inner.tree items.tree, operation)
        classFrom bound { inner with left } around { span := after.here } after
      | none =>
        let (item, after) ← c.classRange inner.opening
        classFrom bound inner around (items.add item) after

def bracketed (c : Cursor) : Except PatternFlaw (ClassTree × Cursor) := do
  let (opened, items, after) ← c.openClass { span := c.here }
  classFrom c.rest opened [] items after

end Cursor

end FlowGraph.Text
