/-!
Vectors as tables over their indexes: what is read after a write, and when two tables are equal.
-/

set_option autoImplicit false

namespace FlowGraph

variable {α : Type} {n : Nat}

theorem get_eq_getElem (xs : Vector α n) (i : Fin n) : xs.get i = xs[i.val] := rfl

theorem get_set (xs : Vector α n) (i j : Fin n) (x : α) :
    (xs.set i x i.isLt).get j = if j = i then x else xs.get j := by
  by_cases h : j = i
  · simp [get_eq_getElem, h]
  · have hne : i.val ≠ j.val := fun heq => h (Fin.ext heq.symm)
    rw [if_neg h, get_eq_getElem, get_eq_getElem, Vector.getElem_set_ne _ _ hne]

@[simp] theorem get_ofFn (f : Fin n → α) (i : Fin n) : (Vector.ofFn f).get i = f i := by
  simp [get_eq_getElem]

@[simp] theorem get_replicate (x : α) (i : Fin n) : (Vector.replicate n x).get i = x := by
  simp [get_eq_getElem]

theorem ext_get {xs ys : Vector α n} (h : ∀ i, xs.get i = ys.get i) : xs = ys :=
  Vector.ext fun i hi => h ⟨i, hi⟩

end FlowGraph
