/-!
Ancestors in a tree that is given by the parent of each node. The root is its own parent, so that
going up from it leads nowhere else.
-/

set_option autoImplicit false

namespace FlowGraph

/-- The nodes on the way up from a node, itself included; a root is its own parent. -/
inductive Ancestor {α : Type} (parent : α → α) (a : α) : α → Prop
  | refl : Ancestor parent a a
  | up {v : α} (h : Ancestor parent a (parent v)) : Ancestor parent a v

namespace Ancestor

variable {α : Type} {parent parent' : α → α} {a b c v : α}

theorem trans (h : Ancestor parent a b) (k : Ancestor parent b c) : Ancestor parent a c := by
  induction k with
  | refl => exact h
  | up _ ih => exact up ih

theorem parent_of_ne (h : Ancestor parent a v) (hne : a ≠ v) : Ancestor parent a (parent v) := by
  cases h with
  | refl => exact absurd rfl hne
  | up h => exact h

theorem eq_of_root {r : α} (root : parent r = r) (h : Ancestor parent a r) : a = r := by
  generalize hz : r = z at h
  induction h with
  | refl => rfl
  | up _ ih =>
    subst hz
    exact (ih root.symm).trans root

theorem total (h : Ancestor parent a v) (k : Ancestor parent b v) :
    Ancestor parent a b ∨ Ancestor parent b a := by
  induction h with
  | refl => exact Or.inr k
  | up h ih =>
    cases k with
    | refl => exact Or.inl (up h)
    | up k => exact ih k

theorem congr {inside : α → Prop} (closed : ∀ j, inside j → inside (parent j))
    (agree : ∀ j, inside j → parent' j = parent j) (h : Ancestor parent a v) (hv : inside v) :
    Ancestor parent' a v := by
  induction h with
  | refl => exact refl
  | @up v _ ih =>
    refine up ?_
    rw [agree v hv]
    exact ih (closed v hv)

theorem of_map {β : Type} {above : β → β} {f : β → α} (hf : Function.Injective f)
    (hparent : ∀ j, f (above j) = parent (f j)) {x y : β} (h : Ancestor parent (f x) (f y)) :
    Ancestor above x y := by
  generalize hz : f y = z at h
  induction h generalizing y with
  | refl =>
    obtain rfl := hf hz
    exact refl
  | @up z _ ih =>
    subst hz
    exact up (ih (hparent y))

end Ancestor

end FlowGraph
