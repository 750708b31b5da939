import FlowGraph.Text.Pattern.Meaning
import FlowGraph.Text.Pattern.Stem
import FlowGraph.Text.Pattern.TreeReader
/-!
Reading a pattern: its written form, what that means, and whether an automaton for it fits into
memory.
-/

set_option autoImplicit false

namespace FlowGraph.Text.Pattern

/-- The pattern of a text, if it is well formed. -/
def ofSource (source : List Char) : Except PatternFlaw Pattern := do
  let tree ← PatternTree.read source
  let (pattern, _) ← tree.meaning {}
  return pattern

/-- A pattern that can be looked for. Unless it is a list of words, the automaton that reads
forward is made first, then the words are asked for, and then the other automaton is made. -/
def usable (p : Pattern) : Except PatternFault Pattern :=
  if p.isWordList then .ok p
  else if (p.automatonSize false).isTooLarge then .error (.tooLarge AutomatonSize.limit)
  else if p.asksWideWords then .error .wideWords
  else if (p.automatonSize true).isTooLarge then .error (.tooLarge AutomatonSize.limit)
  else .ok p

def read (text : String) : Except PatternFault Pattern :=
  match ofSource text.toList with
  | .error flaw => .error (.malformed text.toList flaw)
  | .ok pattern => pattern.usable

end FlowGraph.Text.Pattern
