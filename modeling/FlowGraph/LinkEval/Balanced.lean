import FlowGraph.LinkEval.Basic
import FlowGraph.LinkEval.PathForest
/-!
The forest balanced by size. A tree is stored as a chain of subtrees: the root heads the first,
`child` leads from the head of one to the head of the next, and the labels of the later heads do
not increase in value. Heads are roots of `ancestor`, and the size at a head counts its subtree
and all later ones. A label of the chain stands for the nodes of its own subtree and of those
after it, which is why a link may rebalance the chain as long as it keeps the order of labels.
-/

set_option autoImplicit false

namespace FlowGraph

/-- A forest of chains of subtrees: the head of the next subtree, and the size from a head on. -/
structure BalancedLinks (n : Nat) extends PathForest n where
  child : Vector (Option (Fin n)) n
  size : Vector Nat n

namespace BalancedLinks

variable {n : Nat}

def singletons (n : Nat) : BalancedLinks n :=
  { toPathForest := PathForest.singletons n
    child := Vector.replicate n none
    size := Vector.replicate n 1 }

/-- The size from a head on, and nothing at the end of a chain. -/
def sizeFrom (f : BalancedLinks n) : Option (Fin n) → Nat
  | none => 0
  | some v => f.size.get v

/-- Joins the subtree headed by `s` with the later ones whose label has a greater value than
`best`, the larger subtree of two above the smaller. It gives the last head. The first argument
bounds the steps; a chain has at most `n` heads. -/
def merge (semi : Fin n → Nat) (best : Fin n) : Nat → Fin n → BalancedLinks n →
    Fin n × BalancedLinks n
  | 0, s, f => (s, f)
  | steps + 1, s, f =>
    match f.child.get s with
    | none => (s, f)
    | some c =>
      if semi best < semi (f.label.get c) then
        let next := f.child.get c
        if f.size.get s + f.sizeFrom next ≥ 2 * f.size.get c then
          merge semi best steps s
            { f with
              ancestor := f.ancestor.set c (some s) c.isLt
              child := f.child.set s next s.isLt }
        else
          let total := f.size.get s
          merge semi best steps c
            { f with
              ancestor := f.ancestor.set s (some c) s.isLt
              size := f.size.set c total c.isLt }
      else (s, f)

/-- Hangs the heads of a chain below a node. The first argument bounds the steps. -/
def attach (parent : Fin n) : Nat → Option (Fin n) → BalancedLinks n → BalancedLinks n
  | 0, _, f => f
  | _ + 1, none, f => f
  | steps + 1, some s, f =>
    let next := f.child.get s
    attach parent steps next { f with ancestor := f.ancestor.set s (some parent) s.isLt }

/-- Hangs a root below a node. The chain of the root is merged where its label has to stand for
more than before; then the smaller of the two chains is hung directly below the parent, and the
other follows it. -/
def link (semi : Fin n → Nat) (f : BalancedLinks n) (parent node : Fin n) : BalancedLinks n :=
  let best := f.label.get node
  let (s, f) := merge semi best n node f
  let f := { f with label := f.label.set s best s.isLt }
  let total := f.size.get parent + f.size.get node
  let f := { f with size := f.size.set parent total parent.isLt }
  if f.size.get parent < 2 * f.size.get node then
    let rest := f.child.get parent
    attach parent n rest { f with child := f.child.set parent (some s) parent.isLt }
  else
    attach parent n (some s) f

/-- The lesser of the labels of a node and of the head of its subtree, after compression. -/
def eval (semi : Fin n → Nat) (f : BalancedLinks n) (v : Fin n) : Fin n × BalancedLinks n :=
  let g := f.toPathForest.compress semi v
  let head := (g.ancestor.get v).getD v
  (PathForest.lesser semi (g.label.get head) (g.label.get v), { f with toPathForest := g })

instance : LinkEval BalancedLinks where
  singletons := singletons
  link semi parent node f := f.link semi parent node
  eval semi node f := f.eval semi node

end BalancedLinks

end FlowGraph
