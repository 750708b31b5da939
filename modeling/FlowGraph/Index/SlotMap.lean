/-!
Maps keyed by small indexes. The value of an index stands in the slot of that number, so a map
takes as many slots as its largest index needs. The lemmas give each operation by what `get?`
answers afterwards.
-/

set_option autoImplicit false

namespace FlowGraph

universe u v

/-- A finite map from indexes to values, kept as an array of slots that may be empty. -/
structure SlotMap (α : Type u) where
  slots : Array (Option α) := #[]
  size : Nat := 0
  size_eq : size = slots.countP Option.isSome := by rfl

namespace SlotMap

variable {α : Type u}

def empty : SlotMap α := {}

instance : EmptyCollection (SlotMap α) := ⟨empty⟩

instance : Inhabited (SlotMap α) := ⟨empty⟩

def get? (m : SlotMap α) (i : Nat) : Option α := m.slots[i]?.join

def contains (m : SlotMap α) (i : Nat) : Bool := (m.get? i).isSome

def isEmpty (m : SlotMap α) : Bool := m.size == 0

private theorem countP_rightpad (slots : Array (Option α)) (n : Nat) :
    (slots.rightpad n none).countP Option.isSome = slots.countP Option.isSome := by
  simp [Array.rightpad, Array.countP_replicate]

private theorem lt_size_rightpad (slots : Array (Option α)) (i : Nat) :
    i < (slots.rightpad (i + 1) none).size := by
  simp
  omega

private theorem getElem?_rightpad (slots : Array (Option α)) (n j : Nat) :
    (slots.rightpad n none)[j]?.join = slots[j]?.join := by
  simp only [Array.rightpad, Array.getElem?_append, Array.getElem?_replicate]
  split
  · rfl
  · rename_i h
    rw [Array.getElem?_eq_none (by omega)]
    split <;> rfl

private theorem countP_set_slot (slots : Array (Option α)) (i : Nat) (v : α)
    (h : i < slots.size) :
    (slots.set i (some v)).countP Option.isSome =
      if slots[i].isSome then slots.countP Option.isSome
      else slots.countP Option.isSome + 1 := by
  rw [Array.countP_set]
  have := Array.boole_getElem_le_countP (p := Option.isSome) h
  split <;> simp_all

private theorem isSome_getElem_rightpad (slots : Array (Option α)) (i : Nat)
    (h : i < (slots.rightpad (i + 1) none).size) :
    ((slots.rightpad (i + 1) none)[i]).isSome = (slots[i]?.join).isSome := by
  rw [← getElem?_rightpad slots (i + 1) i, Array.getElem?_eq_getElem h, Option.join_some]

def insert (m : SlotMap α) (i : Nat) (v : α) : SlotMap α :=
  let present := m.contains i
  { slots := (m.slots.rightpad (i + 1) none).set i (some v) (lt_size_rightpad m.slots i)
    size := if present then m.size else m.size + 1
    size_eq := by
      rw [countP_set_slot, countP_rightpad, isSome_getElem_rightpad, m.size_eq]
      rfl }

/-- Stores a value and gives back the one that stood at the index before. -/
def exchange (m : SlotMap α) (i : Nat) (v : α) : Option α × SlotMap α :=
  (m.get? i, m.insert i v)

/-- Changes the value at an index; an index without one stays without. -/
def modify (m : SlotMap α) (i : Nat) (f : α → α) : SlotMap α :=
  match m.get? i with
  | some v => m.insert i (f v)
  | none => m

/-- Replaces the value at an index, and refuses where there is none. -/
def replace? (m : SlotMap α) (i : Nat) (v : α) : Option (SlotMap α) :=
  if m.contains i then some (m.insert i v) else none

def upsert (m : SlotMap α) (i : Nat) (f : Option α → α) : SlotMap α :=
  m.insert i (f (m.get? i))

/-- The value at an index, after storing a made one where there was none. The function, which may
have effects, runs only then. -/
def getOrInsertM {M : Type u → Type v} [Monad M] (m : SlotMap α) (i : Nat) (make : Unit → M α) :
    M (α × SlotMap α) :=
  match m.get? i with
  | some v => pure (v, m)
  | none => do
    let v ← make ()
    return (v, m.insert i v)

def getOrInsert (m : SlotMap α) (i : Nat) (make : Unit → α) : α × SlotMap α :=
  Id.run (m.getOrInsertM i fun _ => pure (make ()))

/-- Every entry, in increasing order of index. -/
def toList (m : SlotMap α) : List (Nat × α) :=
  m.slots.toList.zipIdx.filterMap fun slot => slot.1.map (slot.2, ·)

@[simp] theorem get?_empty (i : Nat) : (∅ : SlotMap α).get? i = none := by
  simp [EmptyCollection.emptyCollection, empty, get?]

theorem get?_insert (m : SlotMap α) (i j : Nat) (v : α) :
    (m.insert i v).get? j = if j = i then some v else m.get? j := by
  simp only [get?, insert]
  by_cases h : j = i
  · subst h
    simp
  · rw [Array.getElem?_set_ne _ (Ne.symm h), getElem?_rightpad, if_neg h]

theorem get?_upsert (m : SlotMap α) (i j : Nat) (f : Option α → α) :
    (m.upsert i f).get? j = if j = i then some (f (m.get? j)) else m.get? j := by
  rw [upsert, get?_insert]
  split
  · rename_i h
    rw [h]
  · rfl

theorem mem_toList {m : SlotMap α} {i : Nat} {v : α} : (i, v) ∈ m.toList ↔ m.get? i = some v := by
  simp only [toList, get?, List.mem_filterMap, Prod.exists, Option.map_eq_some_iff,
    List.mem_zipIdx_iff_getElem?, Array.getElem?_toList, Option.join_eq_some_iff]
  constructor
  · rintro ⟨slot, j, hslot, w, rfl, heq⟩
    obtain ⟨rfl, rfl⟩ := Prod.mk.inj heq
    exact hslot
  · intro hslot
    exact ⟨some v, i, hslot, v, rfl, rfl⟩

end SlotMap

end FlowGraph
