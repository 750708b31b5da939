import FlowGraph.Index.SlotMap
/-!
How far the slots of a map can reach. The operations of maps take it that there is memory for a
slot at every index; memory is finite, and the wider the slots are, the fewer of them fit.
-/

set_option autoImplicit false

namespace FlowGraph

universe u v

/-- How many words memory can hold. -/
def memoryWords : Nat := Nat.pow 2 60 - 1

/-- Values that slots of a fixed width hold. -/
class Slotted (α : Type u) where
  width : Nat

/-- A slot for a number takes the number and a mark. -/
instance : Slotted Nat := ⟨2⟩

/-- A slot for a text takes its place in memory and two sizes. -/
instance : Slotted String := ⟨3⟩

instance {α : Type u} : Slotted (List α) := ⟨3⟩

namespace SlotMap

def capacity (α : Type u) [Slotted α] : Nat := memoryWords / Slotted.width α

/-- What an operation that needs a slot at an index gives, if there can be one. -/
def within? {α : Type u} {β : Type v} [Slotted α] (m : SlotMap α) (i : Nat)
    (operation : SlotMap α → β) : Option β :=
  if i < capacity α then some (operation m) else none

end SlotMap

end FlowGraph
