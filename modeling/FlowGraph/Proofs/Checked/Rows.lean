import FlowGraph.Proofs.Index.Rows
/-!
Tables as flat arrays of numbers, where an access may be out of range. A computation on such tables
has no result if it reads or writes a row that is not there, or if something it requires does not
hold. The rows of a vector over the numbers below its size are such a table, in which no number
below the size is out of range.
-/

set_option autoImplicit false

namespace FlowGraph

variable {α β : Type} {n : Nat}

/-- Writes a row, if the table has it. -/
def writeRow (table : Array α) (i : Nat) (x : α) : Option (Array α) :=
  if h : i < table.size then some (table.set i x) else none

def require (p : Prop) [Decidable p] : Option Unit := if p then some () else none

theorem require_of {p : Prop} {d : Decidable p} (h : p) : require p = some () := if_pos h

/-- The rows of a vector, in the form that tables have. -/
def rowsOf (form : α → β) (xs : Vector α n) : Array β := (xs.map form).toArray

@[simp] theorem size_rowsOf (form : α → β) (xs : Vector α n) : (rowsOf form xs).size = n := by
  simp [rowsOf]

@[simp] theorem getElem?_rowsOf (form : α → β) (xs : Vector α n) (i : Fin n) :
    (rowsOf form xs)[i.val]? = some (form (xs.get i)) := by
  simp [rowsOf, get_eq_getElem]

theorem writeRow_rowsOf {form : α → β} {xs : Vector α n} {x : α} {y : β} (h : form x = y)
    (i : Fin n) : writeRow (rowsOf form xs) i.val y = some (rowsOf form (xs.set i x i.isLt)) := by
  subst h
  simp [writeRow, rowsOf]

@[simp] theorem writeRow_val {m : Nat} (xs : Vector (Fin m) n) (i : Fin n) (x : Fin m) :
    writeRow (rowsOf Fin.val xs) i.val x.val = some (rowsOf Fin.val (xs.set i x i.isLt)) :=
  writeRow_rowsOf rfl i

theorem rowsOf_replicate (form : α → β) (x : α) :
    rowsOf form (Vector.replicate n x) = Array.replicate n (form x) := by
  simp [rowsOf]

theorem rowsOf_id : rowsOf Fin.val (Vector.ofFn (id : Fin n → Fin n)) = Array.range n := by
  apply Array.ext <;> simp [rowsOf]

end FlowGraph
