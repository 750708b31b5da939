import FlowGraph.Text.Pattern.Form
import FlowGraph.Text.Pattern.Tree
/-!
What the written form of a pattern means. Flags hold to the end of their group. In the wide sense
a pattern is about characters of all scripts, and there are no classes of letters and no cases
known; in the narrow sense it is about bytes, and must not take in parts of a character.
-/

set_option autoImplicit false

namespace FlowGraph.Text

structure PatternFlags where
  caseless : Bool := false
  manyLines : Bool := false
  wholeDot : Bool := false
  swapped : Bool := false
  wide : Bool := true
  returns : Bool := false
  deriving DecidableEq, Repr

namespace PatternFlags

/-- The flags after a setting. Blanks are passed over where the pattern is read. -/
def set (f : PatternFlags) : PatternFlag × Bool → PatternFlags
  | (.caseless, value) => { f with caseless := value }
  | (.manyLines, value) => { f with manyLines := value }
  | (.wholeDot, value) => { f with wholeDot := value }
  | (.swapped, value) => { f with swapped := value }
  | (.wide, value) => { f with wide := value }
  | (.returns, value) => { f with returns := value }
  | (.spaced, _) => f

def setAll (f : PatternFlags) (settings : List (PatternFlag × Bool)) : PatternFlags :=
  settings.foldl set f

def landmark (f : PatternFlags) : Assertion → Landmark
  | .lineStart => if f.manyLines then .lineStart f.returns else .start
  | .lineStop => if f.manyLines then .lineStop f.returns else .stop
  | .textStart => .start
  | .textStop => .stop
  | .word condition => .word condition f.wide

def dot (f : PatternFlags) : CharSet :=
  if f.wholeDot then CharSet.complement {}
  else if f.returns then (CharSet.ofRanges [('\n', '\n'), ('\r', '\r')]).complement
  else (CharSet.ofRanges [('\n', '\n')]).complement

end PatternFlags

def NamedSet.chars : NamedSet → CharSet
  | alnum => .ofRanges [('0', '9'), ('A', 'Z'), ('a', 'z')]
  | alpha => .ofRanges [('A', 'Z'), ('a', 'z')]
  | ascii => .ofRanges [('\x00', '\x7f')]
  | blank => .ofRanges [('\t', '\t'), (' ', ' ')]
  | control => .ofRanges [('\x00', '\x1f'), ('\x7f', '\x7f')]
  | digit => .ofRanges [('0', '9')]
  | graph => .ofRanges [('!', '~')]
  | lower => .ofRanges [('a', 'z')]
  | print => .ofRanges [(' ', '~')]
  | punctuation => .ofRanges [('!', '/'), (':', '@'), ('[', '\x60'), ('\x7b', '~')]
  | space => .ofRanges [('\t', '\r'), (' ', ' ')]
  | upper => .ofRanges [('A', 'Z')]
  | word => .ofRanges [('0', '9'), ('A', 'Z'), ('_', '_'), ('a', 'z')]
  | hexDigit => .ofRanges [('0', '9'), ('A', 'F'), ('a', 'f')]

/-- What a class means so far: its characters, and whether they are known to be in both cases. -/
structure ClassMeaning where
  chars : CharSet := {}
  closed : Bool := true
  deriving DecidableEq, Repr

namespace ClassMeaning

def add (m : ClassMeaning) (first last : Char) : ClassMeaning :=
  { chars := m.chars.union (CharSet.ofRange first last), closed := false }

def union (m n : ClassMeaning) : ClassMeaning :=
  if n.chars.isEmpty || m.chars = n.chars then m
  else { chars := m.chars.union n.chars, closed := m.closed && n.closed }

def intersection (m n : ClassMeaning) : ClassMeaning :=
  if m.chars.isEmpty then m
  else if n.chars.isEmpty then {}
  else { chars := m.chars.intersection n.chars, closed := m.closed && n.closed }

def difference (m n : ClassMeaning) : ClassMeaning :=
  if m.chars.isEmpty || n.chars.isEmpty then m
  else { chars := m.chars.difference n.chars, closed := m.closed && n.closed }

def combine (m n : ClassMeaning) : SetOperation → ClassMeaning
  | .intersection => m.intersection n
  | .difference => m.difference n
  | .symmetricDifference => (m.union n).difference (m.intersection n)

/-- In both cases, if letters stand for both. The cases of letters of all scripts are not
known. -/
def inCases (m : ClassMeaning) (flags : PatternFlags) (span : Span) :
    Except PatternFlaw ClassMeaning :=
  if !flags.caseless then .ok m
  else if flags.wide then
    if m.closed || m.chars.isEmpty then .ok { m with closed := true }
    else .error { span, issue := .noWideCases }
  else .ok { chars := m.chars.bothCases, closed := true }

/-- Negated, if that is asked for. In the narrow sense the rest of the bytes are no text. -/
def negatedIf (m : ClassMeaning) (negated : Bool) (flags : PatternFlags) (span : Span) :
    Except PatternFlaw ClassMeaning :=
  if !negated then .ok m
  else if flags.wide then
    .ok { chars := m.chars.complement, closed := m.closed || m.chars.isEmpty }
  else .error { span, issue := .notText }

end ClassMeaning

/-- The character of a literal; the code of a byte is no text unless it is plain. -/
def PatternLiteral.asText (l : PatternLiteral) (flags : PatternFlags) :
    Except PatternFlaw Char :=
  if !flags.wide && l.isByte && 0x7f < l.char.toNat then
    .error { span := l.span, issue := .notText }
  else .ok l.char

/-- The character of a literal in a class; in the narrow sense it has to be plain. -/
def PatternLiteral.inClass (l : PatternLiteral) (flags : PatternFlags) :
    Except PatternFlaw Char := do
  let char ← l.asText flags
  if !flags.wide && 0x7f < char.toNat then throw { span := l.span, issue := .wideOnly }
  return char

def PatternLiteral.meaning (l : PatternLiteral) (flags : PatternFlags) :
    Except PatternFlaw Pattern := do
  let char ← l.asText flags
  if !flags.caseless then return .word [char]
  if flags.wide then throw { span := l.span, issue := .noWideCases }
  if char.isAlpha then return .ofSet (CharSet.ofRange char char).bothCases true
  else return .word [char]

/-- The properties whose values are what is missing: abbreviations that some values share with
properties. -/
def sharedAbbreviations : List String := ["cf", "sc", "lc"]

/-- The name of a property without what does not count: a leading "is", signs between words, what
is not plain, and case. -/
def plainPropertyName (name : List Char) : String :=
  let name :=
    match name with
    | i :: s :: rest => if i.toLower = 'i' && s.toLower = 's' then rest else name
    | name => name
  let kept := name.filter fun c => c.toNat < 128 && c != ' ' && c != '_' && c != '-'
  String.ofList (kept.map Char.toLower)

namespace ClassTree

mutual

def addTo (flags : PatternFlags) (before : ClassMeaning) :
    ClassTree → Except PatternFlaw ClassMeaning
  | nothing _ => .ok before
  | literal l => do
    let char ← l.inClass flags
    return before.add char char
  | range _ first last => do
    let low ← first.inClass flags
    let high ← last.inClass flags
    return before.add low high
  | named span set negated => do
    let m ← ClassMeaning.inCases { chars := set.chars, closed := false } flags span
    return before.union (← m.negatedIf negated flags span)
  | lettered span set negated => do
    if flags.wide then throw { span, issue := .noWideClass }
    let m ← ClassMeaning.negatedIf { chars := set.chars, closed := false } negated flags span
    return before.union m
  | property span name =>
    let issue :=
      if !flags.wide then .wideOnly
      else if sharedAbbreviations.contains (plainPropertyName name) then .noPropertyValue
      else .noProperty
    .error { span, issue }
  | bracketed span negated inner => do
    let m ← (← inner.addTo flags {}).inCases flags span
    return before.union (← m.negatedIf negated flags span)
  | several _ items => addAllTo flags before items
  | combined _ operation left right => do
    let l ← left.addTo flags {}
    let r ← right.addTo flags {}
    let r ← r.inCases flags right.span
    let l ← l.inCases flags left.span
    return before.union (l.combine r operation)

def addAllTo (flags : PatternFlags) (before : ClassMeaning) :
    List ClassTree → Except PatternFlaw ClassMeaning
  | [] => .ok before
  | item :: items => do addAllTo flags (← item.addTo flags before) items

end

end ClassTree

namespace PatternTree

mutual

/-- What a pattern means, and the flags that hold behind it. -/
def meaning (flags : PatternFlags) : PatternTree → Except PatternFlaw (Pattern × PatternFlags)
  | empty => .ok (.empty, flags)
  | .flags settings => .ok (.empty, flags.setAll settings)
  | literal l => do return (← l.meaning flags, flags)
  | dot span =>
    if flags.wide then .ok (.ofSet flags.dot false, flags)
    else .error { span, issue := .notText }
  | assertion _ condition => .ok (.landmark (flags.landmark condition), flags)
  | charClass c => do return (.ofSet (← c.addTo flags {}).chars !flags.wide, flags)
  | repetition _ piece least most fewFirst => do
    let (p, flags) ← piece.meaning flags
    return (p.times least most (fewFirst != flags.swapped), flags)
  | group _ captured settings inner => do
    let (p, _) ← inner.meaning (flags.setAll settings)
    return (if captured then .captured p else p, flags)
  | row _ pieces => do
    let (patterns, flags) ← meanings flags pieces
    return (.sequence patterns, flags)
  | choice _ rows => do
    let (patterns, flags) ← meanings flags rows
    return (.choice patterns, flags)

def meanings (flags : PatternFlags) :
    List PatternTree → Except PatternFlaw (List Pattern × PatternFlags)
  | [] => .ok ([], flags)
  | piece :: pieces => do
    let (p, flags) ← piece.meaning flags
    let (ps, flags) ← meanings flags pieces
    return (p :: ps, flags)

end

end PatternTree

end FlowGraph.Text
