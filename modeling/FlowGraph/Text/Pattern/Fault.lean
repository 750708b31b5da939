import FlowGraph.Text.Pieces
/-!
What can be wrong with the text of a pattern, and how it is told: the text, marks below the
characters that are at fault, and a sentence. A text of several lines is told with their numbers.
-/

set_option autoImplicit false

namespace FlowGraph.Text

/-- A place in a text, by line and column, both counted from one. -/
structure Place where
  line : Nat := 1
  column : Nat := 1
  deriving DecidableEq, Repr

def Place.after (p : Place) (c : Char) : Place :=
  if c = '\n' then { line := p.line + 1 } else { p with column := p.column + 1 }

structure Span where
  start : Place
  stop : Place
  deriving DecidableEq, Repr

inductive PatternIssue where
  | unclosedGroup
  | unopenedGroup
  | emptyGroupName
  | badGroupNameChar
  | unclosedGroupName
  | repeatedGroupName
  | lookAround
  | unknownFlag
  | repeatedFlag
  | repeatedMinus
  | uselessMinus
  | unclosedFlags
  | nothingToRepeat
  | unclosedCount
  | missingCount
  | bigCount
  | emptyCount
  | unclosedClass
  | emptyRange
  | endlessRange
  | assertionInClass
  | unfinishedEscape
  | unknownEscape
  | backReference
  | missingCode
  | badCodeDigit
  | badCode
  | badProperty
  | unclosedWordEdge
  | unknownWordEdge
  | unclosedBrace
  | tooDeep
  | wideOnly
  | notText
  | noProperty
  | noPropertyValue
  | noWideClass
  | noWideCases
  deriving DecidableEq, Repr

/-- How deep parts of a pattern may be in each other. -/
def mostDepth : Nat := 250

def PatternIssue.message : PatternIssue → String
  | unclosedGroup => "unclosed group"
  | unopenedGroup => "unopened group"
  | emptyGroupName => "empty capture group name"
  | badGroupNameChar => "invalid capture group character"
  | unclosedGroupName => "unclosed capture group name"
  | repeatedGroupName => "duplicate capture group name"
  | lookAround => "look-around, including look-ahead and look-behind, is not supported"
  | unknownFlag => "unrecognized flag"
  | repeatedFlag => "duplicate flag"
  | repeatedMinus => "flag negation operator repeated"
  | uselessMinus => "dangling flag negation operator"
  | unclosedFlags => "expected flag but got end of regex"
  | nothingToRepeat => "repetition operator missing expression"
  | unclosedCount => "unclosed counted repetition"
  | missingCount => "repetition quantifier expects a valid decimal"
  | bigCount => "decimal literal invalid"
  | emptyCount => "invalid repetition count range, the start must be <= the end"
  | unclosedClass => "unclosed character class"
  | emptyRange => "invalid character class range, the start must be <= the end"
  | endlessRange => "invalid range boundary, must be a literal"
  | assertionInClass => "invalid escape sequence found in character class"
  | unfinishedEscape => "incomplete escape sequence, reached end of pattern prematurely"
  | unknownEscape => "unrecognized escape sequence"
  | backReference => "backreferences are not supported"
  | missingCode => "hexadecimal literal empty"
  | badCodeDigit => "invalid hexadecimal digit"
  | badCode => "hexadecimal literal is not a Unicode scalar value"
  | badProperty => "invalid Unicode character class"
  | unclosedWordEdge =>
    "special word boundary assertion is either unclosed or contains an invalid character"
  | unknownWordEdge =>
    "unrecognized special word boundary assertion, valid choices are: start, end, start-half " ++
      "or end-half"
  | unclosedBrace =>
    "found either the beginning of a special word boundary or a bounded repetition on a \\b " ++
      "with an opening brace, but no closing brace"
  | tooDeep =>
    "exceed the maximum number of nested parentheses/brackets (" ++ toString mostDepth ++ ")"
  | wideOnly => "Unicode not allowed here"
  | notText => "pattern can match invalid UTF-8"
  | noProperty => "Unicode property not found"
  | noPropertyValue => "Unicode property value not found"
  | noWideClass =>
    "Unicode-aware Perl class not found (make sure the unicode-perl feature is enabled)"
  | noWideCases =>
    "Unicode-aware case insensitivity matching is not available " ++
      "(make sure the unicode-case feature is enabled)"

/-- An issue with the characters at fault, and with earlier ones that they are in conflict with. -/
structure PatternFlaw where
  span : Span
  issue : PatternIssue
  earlier : Option Span := none
  deriving DecidableEq, Repr

namespace PatternFlaw

def spans (f : PatternFlaw) : List Span := f.earlier.toList ++ [f.span]

/-- The lines of a text as they are shown: a return in front of a line feed is not shown, nor is
an empty last line. -/
def shownLines (source : List Char) : List (List Char) :=
  let pieces := lines source
  let ended := pieces.dropLast.map fun line =>
    if line.getLast? = some '\r' then line.dropLast else line
  ended ++ (pieces.getLast?.toList.filter fun line => !line.isEmpty)

/-- Marks below the characters of spans, from a column on. -/
def marks (column : Nat) : List Span → List Char
  | [] => []
  | span :: spans =>
    let gap := span.start.column - column
    let width := max 1 (span.stop.column - span.start.column)
    List.replicate gap ' ' ++ List.replicate width '^' ++ marks (column + gap + width) spans

/-- Lines with their numbers from one on behind a margin, and marks below the lines that spans
are in. -/
def markedLines (spans : List Span) (margin : Nat → List Char) (lines : List (List Char)) :
    List Char :=
  (lines.zipIdx 1).flatMap fun (line, number) =>
    let noted := spans.filter fun span => span.start.line = number && span.stop.line = number
    let below :=
      if noted.isEmpty then []
      else List.replicate (margin number).length ' ' ++ marks 1 noted ++ ['\n']
    margin number ++ line ++ '\n' :: below

def spanLine (span : Span) : String :=
  "on line " ++ toString span.start.line ++ " (column " ++ toString span.start.column ++
    ") through line " ++ toString span.stop.line ++ " (column " ++
    toString (span.stop.column - 1) ++ ")\n"

def message (source : List Char) (f : PatternFlaw) : String :=
  let body :=
    if source.contains '\n' then
      let width := (toString (lines source).length).length
      let margin (number : Nat) : List Char :=
        let digits := (toString number).toList
        List.replicate (width - digits.length) ' ' ++ digits ++ [':', ' ']
      let divider := String.ofList (List.replicate 79 '~') ++ "\n"
      let long := f.spans.filter fun span => span.start.line != span.stop.line
      divider ++ String.ofList (markedLines f.spans margin (shownLines source)) ++ divider ++
        String.join (long.map spanLine)
    else
      String.ofList (markedLines f.spans (fun _ => [' ', ' ', ' ', ' ']) (shownLines source))
  "regex parse error:\n" ++ body ++ "error: " ++ f.issue.message

end PatternFlaw

inductive PatternFault where
  | malformed (source : List Char) (flaw : PatternFlaw)
  | tooLarge (limit : Nat)
  | wideWords
  deriving DecidableEq, Repr

def PatternFault.message : PatternFault → String
  | malformed source flaw => flaw.message source
  | tooLarge limit => "Compiled regex exceeds size limit of " ++ toString limit ++ " bytes."
  | wideWords => "error building NFA"

end FlowGraph.Text
