import FlowGraph.Index.BitSet
import FlowGraph.Index.SlotMap
import FlowGraph.Text.Quoted
/-!
Dumps: values written out in full, with the names of their types and fields. Lists stand in
brackets, maps and records in braces.
-/

set_option autoImplicit false

namespace FlowGraph

universe u

class Dump (α : Type u) where
  dump : α → String

export Dump (dump)

namespace Dump

variable {α : Type u}

def brackets (items : List String) : String := "[" ++ String.intercalate ", " items ++ "]"

def entries (rows : List (String × String)) : String :=
  "\x7b" ++ String.intercalate ", " (rows.map fun row => row.1 ++ ": " ++ row.2) ++ "\x7d"

/-- A named record with at least one field. -/
def record (name : String) (fields : List (String × String)) : String :=
  let written := fields.map fun field => field.1 ++ ": " ++ field.2
  name ++ " \x7b " ++ String.intercalate ", " written ++ " \x7d"

instance : Dump Nat := ⟨Nat.repr⟩

instance : Dump String := ⟨Text.quote⟩

instance [Dump α] : Dump (List α) := ⟨fun values => brackets (values.map dump)⟩

instance [Dump α] : Dump (Array α) := ⟨fun values => dump values.toList⟩

instance [Dump α] : Dump (SlotMap α) :=
  ⟨fun m => entries (m.toList.map fun entry => (dump entry.1, dump entry.2))⟩

instance : Dump BitSet :=
  ⟨fun s => record "IndexSet" [("words", dump (s.words.map UInt64.toNat))]⟩

end Dump

end FlowGraph
