import FlowGraph.Index.Capacity
import FlowGraph.Search.Preorder
import FlowGraph.Text.Dump
/-!
The tree that a table of immediate dominators stands for. The table may be any: its row 0
belongs to the entry and says nothing, and each other row makes its number a child of the number
it holds. The preorder begins at 0 and takes what hangs together with it.
-/

set_option autoImplicit false

namespace FlowGraph

/-- The children of each number that has any. -/
structure IdomTree where
  childLists : SlotMap (List Nat)

namespace IdomTree

def addFirst (row : Nat × Nat) (lists : SlotMap (List Nat)) : SlotMap (List Nat) :=
  lists.upsert row.1 fun children => row.2 :: children.getD []

/-- The tree of a table. Rows are taken from the last up, so that children increase. -/
def ofTable (idom : Array Nat) : IdomTree :=
  { childLists := (idom.toList.zipIdx.drop 1).foldr addFirst ∅ }

def ofTable? (idom : Array Nat) : Option IdomTree :=
  if (idom.toList.drop 1).all (· < SlotMap.capacity (List Nat)) then some (ofTable idom) else none

/-- The children of a number, increasing; none for a number that the table does not hold. -/
def children (t : IdomTree) (i : Nat) : List Nat := (t.childLists.get? i).getD []

def toList (t : IdomTree) : List (Nat × List Nat) := t.childLists.toList

def childCount (t : IdomTree) : Nat := (t.toList.map fun entry => entry.2.length).foldr (· + ·) 0

/-- The numbers that hang together with 0, each before its children. There are at most as many
as there are children, and 0. -/
def preorder (t : IdomTree) : Array Nat :=
  (Graph.mk t.children).preorder (t.childCount + 1) 0

instance : Dump IdomTree :=
  ⟨fun t => Dump.record "DominatorTree" [("children", dump t.childLists)]⟩

end IdomTree

end FlowGraph
