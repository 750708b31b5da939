import FlowGraph.LinkEval.Basic
import FlowGraph.LinkEval.PathForest
/-!
The forest of plain links. The ancestor of a linked node is its parent until a compression, and
the label of the queried node is the answer.
-/

set_option autoImplicit false

namespace FlowGraph

/-- A forest whose links are kept as they are made. -/
structure SimpleLinks (n : Nat) extends PathForest n

namespace SimpleLinks

variable {n : Nat}

def link (f : SimpleLinks n) (parent node : Fin n) : SimpleLinks n :=
  { f with ancestor := f.ancestor.set node (some parent) node.isLt }

/-- A root answers itself; any other node answers its label after compression. -/
def eval (semi : Fin n → Nat) (f : SimpleLinks n) (v : Fin n) : Fin n × SimpleLinks n :=
  if f.isRoot v then (v, f)
  else
    let g := f.toPathForest.compress semi v
    (g.label.get v, { toPathForest := g })

instance : LinkEval SimpleLinks where
  singletons n := { toPathForest := PathForest.singletons n }
  link _ parent node f := f.link parent node
  eval semi node f := f.eval semi node

end SimpleLinks

end FlowGraph
