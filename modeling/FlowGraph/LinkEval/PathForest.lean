/-!
Ancestor links with labels, and their compression. The label of a node that is not a root is a
node of least value between the node and its ancestor, so that a label and the labels further up
together stand for a whole path.
-/

set_option autoImplicit false

namespace FlowGraph

/-- A forest on `n` nodes: the ancestor of each node, none for a root, and its label. -/
structure PathForest (n : Nat) where
  ancestor : Vector (Option (Fin n)) n
  label : Vector (Fin n) n

namespace PathForest

variable {n : Nat}

def singletons (n : Nat) : PathForest n :=
  { ancestor := Vector.replicate n none, label := Vector.ofFn id }

def isRoot (f : PathForest n) (v : Fin n) : Bool := (f.ancestor.get v).isNone

/-- Puts in front of `path` the nodes from `v` upward whose ancestor is not a root. The last of
them comes to stand first. The first argument bounds the steps; a path without repetition has at
most `n` nodes. -/
def climb (f : PathForest n) : Nat → Fin n → List (Fin n) → List (Fin n)
  | 0, _, path => path
  | steps + 1, v, path =>
    match f.ancestor.get v with
    | none => path
    | some a => if f.isRoot a then path else climb f steps a (v :: path)

/-- The node of less value of two, and the second if neither is. -/
def lesser (semi : Fin n → Nat) (u v : Fin n) : Fin n := if semi u < semi v then u else v

/-- Replaces the ancestor of a node by the next one up, and improves the label by the label of
the one left out. -/
def shortcut (semi : Fin n → Nat) (f : PathForest n) (v : Fin n) : PathForest n :=
  match f.ancestor.get v with
  | none => f
  | some a =>
    let best := lesser semi (f.label.get a) (f.label.get v)
    let next := f.ancestor.get a
    { ancestor := f.ancestor.set v next v.isLt, label := f.label.set v best v.isLt }

/-- Makes the root of its tree the ancestor of every node from `v` upward, from the root down. -/
def compress (semi : Fin n → Nat) (f : PathForest n) (v : Fin n) : PathForest n :=
  (f.climb n v []).foldl (shortcut semi) f

end PathForest

end FlowGraph
