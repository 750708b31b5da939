/-!
Forests that answer minimum queries along tree paths. Nodes begin as trees of their own; `link`
hangs a root below another node, and `eval` finds a node of least value on the path from a node
up to, but without, the root of its tree.
-/

set_option autoImplicit false

namespace FlowGraph

inductive LinkEvalKind where
  /-- Plain links, and compressed paths. -/
  | simple
  /-- Subtrees balanced by size, and compressed paths. -/
  | balanced
  deriving DecidableEq, Repr

/-- The forests over `n` nodes with link and eval. Both operations read the values `semi` of
the nodes as they are at the time; a value may only be lowered while its node is a root. The
answer to a root is the root. For any other node, a forest may also answer the root of its tree,
if the value there is strictly less than all others of the path. -/
class LinkEval (F : Nat → Type) where
  singletons (n : Nat) : F n
  /-- Hangs the root `node` below `parent`. -/
  link {n : Nat} (semi : Fin n → Nat) (parent node : Fin n) (forest : F n) : F n
  /-- The answer for `node`, and the forest with shorter paths. -/
  eval {n : Nat} (semi : Fin n → Nat) (node : Fin n) (forest : F n) : Fin n × F n

end FlowGraph
