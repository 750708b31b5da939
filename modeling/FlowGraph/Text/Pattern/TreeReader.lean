import FlowGraph.Text.Letter
import FlowGraph.Text.Pattern.Class
/-!
Reading the written form of a pattern. Signs join the parts around them, a backslash takes the
next character out of its role or gives it one, and every other character stands for itself. A
text that is no pattern is refused at the first place where that shows.
-/

set_option autoImplicit false

namespace FlowGraph.Text

/-- What is read of a group: the row being read, and the rows in front of its last bar, all with
the latest part first. -/
structure GroupReading where
  start : Place := {}
  items : List PatternTree := []
  first : Place := {}
  rows : List PatternTree := []

namespace GroupReading

def add (g : GroupReading) (item : PatternTree) : GroupReading :=
  { g with items := item :: g.items }

def row (g : GroupReading) (stop : Place) : PatternTree :=
  PatternTree.ofPieces { start := g.start, stop } g.items.reverse

def tree (g : GroupReading) (stop : Place) : PatternTree :=
  if g.rows.isEmpty then g.row stop
  else .choice { start := g.first, stop } (g.row stop :: g.rows).reverse

/-- The group with a bar at a place, and a row that begins behind it. -/
def bar (g : GroupReading) (stop start : Place) : GroupReading :=
  { start, first := g.first, rows := g.row stop :: g.rows }

end GroupReading

structure OpenGroup where
  /-- What is read in front of the group. -/
  before : GroupReading
  opening : Span
  captured : Bool
  settings : List (PatternFlag × Bool)
  /-- Whether blanks counted in front of the group. -/
  spaced : Bool

/-- A reading under way: the group being read, the groups around it, the innermost first, and the
names of groups so far. -/
structure PatternReading where
  cursor : Cursor
  group : GroupReading := {}
  around : List OpenGroup := []
  names : List (List Char × Span) := []

/-- A flag or a minus among flags. -/
structure FlagItem where
  span : Span
  /-- The flag; without it, the minus. -/
  flag : Option PatternFlag

def PatternFlag.ofChar? : Char → Option PatternFlag
  | 'i' => some caseless
  | 'm' => some manyLines
  | 's' => some wholeDot
  | 'U' => some swapped
  | 'u' => some wide
  | 'R' => some returns
  | 'x' => some spaced
  | _ => none

/-- What flags set, in order, and clear behind a minus. -/
def FlagItem.settings (value : Bool) : List FlagItem → List (PatternFlag × Bool)
  | [] => []
  | item :: items =>
    match item.flag with
    | none => settings false items
    | some flag => (flag, value) :: settings value items

def isGroupNameChar (isFirst : Bool) (c : Char) : Bool :=
  c == '_' || isLetter c || (!isFirst && (c == '.' || c == '[' || c == ']' || isNumeral c))

namespace Cursor

/-- Reads flags up to what ends them, at most as many as a list is long. They are given the latest
first. -/
def flagItems :
    List Char → List FlagItem → Cursor → Except PatternFlaw (List FlagItem × Cursor)
  | [], _, c => .error { span := c.here, issue := .unclosedFlags }
  | _ :: bound, items, c =>
    match c.rest with
    | [] => .error { span := c.here, issue := .unclosedFlags }
    | x :: _ => do
      let span := c.nextSpan
      if x = ':' || x = ')' then
        if let some { span, flag := none } := items.head? then
          throw { span, issue := .uselessMinus }
        return (items, c)
      let flag := PatternFlag.ofChar? x
      if flag.isNone && x != '-' then throw { span, issue := .unknownFlag }
      if let some earlier := items.find? (·.flag = flag) then
        let issue := if flag.isNone then .repeatedMinus else .repeatedFlag
        throw { span, issue, earlier := some earlier.span }
      flagItems bound ({ span, flag } :: items) c.pass

/-- Reads the name of a group up to the angle that ends it, at most as long as a list. -/
def groupName (start : Cursor) :
    List Char → Cursor → Except PatternFlaw (List Char × Cursor)
  | [], c => .error { span := c.here, issue := .unclosedGroupName }
  | _ :: bound, c =>
    match c.rest with
    | [] => .error { span := c.here, issue := .unclosedGroupName }
    | '>' :: _ => .ok ([], c)
    | x :: _ => do
      unless isGroupNameChar (c.place = start.place) x do
        throw { span := c.nextSpan, issue := .badGroupNameChar }
      let (name, close) ← groupName start bound c.pass
      return (x :: name, close)

/-- Reads a number, with blanks around. What is wrong with it is left to who needs the number. -/
def number (c : Cursor) : Except PatternFlaw Nat × Cursor :=
  let (_, start) := c.takeAll isBlank
  let (digits, after) := start.takeAll Char.isDigit
  let n := digits.foldl (fun n d => 10 * n + (d.toNat - '0'.toNat)) 0
  let value : Except PatternFlaw Nat :=
    if digits.isEmpty then .error { span := start.spanTo after, issue := .missingCount }
    else if Nat.pow 2 32 ≤ n then .error { span := start.spanTo after, issue := .bigCount }
    else .ok n
  (value, (after.takeAll isBlank).2)

/-- Reads a count in braces, up to the closing one: a number, a least one, or both ends. -/
def count (start : Cursor) : Except PatternFlaw (Nat × Option Nat × Cursor) := do
  let unclosed (c : Cursor) : PatternFlaw := { span := start.spanTo c, issue := .unclosedCount }
  let c := start.advance
  if c.atEnd then throw (unclosed c)
  let (least, c) := c.number
  if c.atEnd then throw (unclosed c)
  let (least, most, c) ←
    if c.rest.head? = some ',' then
      let c := c.advance
      if c.atEnd then throw (unclosed c)
      if c.rest.head? = some '\x7d' then pure (← least, none, c)
      else
        let least ← least
        let (most, c) := c.number
        pure (least, some (← most), c)
    else
      let least ← least
      pure (least, some least, c)
  if c.rest.head? != some '\x7d' then throw (unclosed c)
  return (least, most, c)

end Cursor

/-- How long the signs are that a look-around begins with behind its bracket, if one begins. -/
def lookAroundLength? : List Char → Option Nat
  | '?' :: '=' :: _ | '?' :: '!' :: _ => some 2
  | '?' :: '<' :: '=' :: _ | '?' :: '<' :: '!' :: _ => some 3
  | _ => none

/-- How long the signs are that a name begins with behind the bracket of a group, if one begins. -/
def groupNameStart? : List Char → Option Nat
  | '?' :: 'P' :: '<' :: _ => some 3
  | '?' :: '<' :: _ => some 2
  | _ => none

namespace PatternReading

def add (r : PatternReading) (item : PatternTree) (cursor : Cursor) : PatternReading :=
  { r with group := r.group.add item, cursor }

def openGroup (r : PatternReading) (captured : Bool) (settings : List (PatternFlag × Bool))
    (cursor : Cursor) : PatternReading :=
  let opened : OpenGroup :=
    { before := r.group, opening := r.cursor.nextSpan, captured, settings
      spaced := r.cursor.spaced }
  let cursor := { cursor with spaced := (settings.lookup .spaced).getD r.cursor.spaced }
  { r with
    cursor
    group := { start := cursor.place, first := cursor.place }
    around := opened :: r.around }

/-- Reads an opening bracket and the signs behind it: a name, flags for the group or for what
follows, or nothing. -/
def readOpening (r : PatternReading) : Except PatternFlaw PatternReading := do
  let c := r.cursor.advance
  if let some length := lookAroundLength? c.rest then
    throw { span := r.cursor.spanTo (c.passMany length), issue := .lookAround }
  match groupNameStart? c.rest, c.rest with
  | some length, _ =>
    let start := c.passMany length
    let (name, close) ← start.groupName start.rest start
    if name.isEmpty then throw { span := start.here, issue := .emptyGroupName }
    let span := start.spanTo close
    if let some earlier := r.names.lookup name then
      throw { span, issue := .repeatedGroupName, earlier := some earlier }
    return { r with names := (name, span) :: r.names }.openGroup true [] close.pass
  | none, '?' :: _ =>
    let start := c.pass
    if start.atEnd then throw { span := r.cursor.nextSpan, issue := .unclosedGroup }
    let (items, close) ← start.flagItems start.rest []
    let settings := FlagItem.settings true items.reverse
    if close.rest.head? = some ')' then
      if items.isEmpty then throw { span := c.here, issue := .nothingToRepeat }
      let spaced := (settings.lookup .spaced).getD r.cursor.spaced
      return r.add (.flags settings) { close.pass with spaced }
    else return r.openGroup false settings close.pass
  | none, _ => return r.openGroup true [] c

def closeGroup (r : PatternReading) : Except PatternFlaw PatternReading :=
  match r.around with
  | [] => .error { span := r.cursor.nextSpan, issue := .unopenedGroup }
  | g :: around =>
    let after := r.cursor.pass
    let span : Span := { start := g.opening.start, stop := after.place }
    .ok
      { r with
        cursor := { after with spaced := g.spaced }
        group := g.before.add (.group span g.captured g.settings (r.group.tree r.cursor.place))
        around }

/-- Repeats the latest part, up to a cursor. A question mark there asks for few pieces first. -/
def repeatLast (r : PatternReading) (least : Nat) (most : Option Nat) (cursor : Cursor) :
    Except PatternFlaw PatternReading :=
  let missing : PatternFlaw := { span := r.cursor.here, issue := .nothingToRepeat }
  match r.group.items with
  | [] => .error missing
  | item :: items =>
    match item.span? with
    | none => .error missing
    | some span =>
      let fewFirst := cursor.rest.head? = some '?'
      let cursor := if fewFirst then cursor.pass else cursor
      let item := .repetition { span with stop := cursor.place } item least most fewFirst
      .ok { r with group := { r.group with items := item :: items }, cursor }

def countLast (r : PatternReading) : Except PatternFlaw PatternReading := do
  if (r.group.items.head?.bind PatternTree.span?).isNone then
    throw { span := r.cursor.here, issue := .nothingToRepeat }
  let (least, most, close) ← r.cursor.count
  let repeated ← r.repeatLast least most close.advance
  if most.any (· < least) then
    throw { span := r.cursor.spanTo repeated.cursor, issue := .emptyCount }
  return repeated

def step (r : PatternReading) (char : Char) : Except PatternFlaw PatternReading :=
  let c := r.cursor
  match char with
  | '(' => r.readOpening
  | ')' => r.closeGroup
  | '|' => .ok { r with group := r.group.bar c.place c.pass.place, cursor := c.pass }
  | '?' => r.repeatLast 0 (some 1) c.pass
  | '*' => r.repeatLast 0 none c.pass
  | '+' => r.repeatLast 1 none c.pass
  | '\x7b' => r.countLast
  | '[' => do
    let (charClass, after) ← c.bracketed
    return r.add (.charClass charClass) after
  | '\\' => do
    let (item, after) ← c.escape
    return r.add item after
  | '.' => .ok (r.add (.dot c.nextSpan) c.pass)
  | '^' => .ok (r.add (.assertion c.nextSpan .lineStart) c.pass)
  | '$' => .ok (r.add (.assertion c.nextSpan .lineStop) c.pass)
  | _ => .ok (r.add (.literal { span := c.nextSpan, char }) c.pass)

/-- The end of a reading: no group may be open. -/
def finish (r : PatternReading) : Except PatternFlaw PatternTree :=
  match r.around with
  | [] => .ok (r.group.tree r.cursor.place)
  | g :: _ => .error { span := g.opening, issue := .unclosedGroup }

/-- Reads what is left of a text. Each step passes a character, so the characters that are
left bound the steps. -/
def readFrom : List Char → PatternReading → Except PatternFlaw PatternTree
  | [], r => r.finish
  | _ :: bound, r =>
    let r := { r with cursor := r.cursor.passIgnored }
    match r.cursor.rest with
    | [] => r.finish
    | char :: _ => do readFrom bound (← r.step char)

end PatternReading

/-- Reads the written form of a pattern. Its parts may not be too deep in each other. -/
def PatternTree.read (source : List Char) : Except PatternFlaw PatternTree := do
  let tree ← PatternReading.readFrom source { cursor := { rest := source } }
  match tree.deep? mostDepth with
  | some span => throw { span, issue := .tooDeep }
  | none => return tree

end FlowGraph.Text
