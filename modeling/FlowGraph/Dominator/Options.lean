import FlowGraph.LinkEval.Basic
import FlowGraph.Text.Dump
/-!
What a computation of dominators may be told: how many vertices it may reach, and the kind of
forest that answers its queries.
-/

set_option autoImplicit false

namespace FlowGraph

def LinkEvalKind.name : LinkEvalKind → String
  | simple => "Simple"
  | balanced => "Balanced"

/-- How dominators are computed. Plain links are the default, since most graphs are small. -/
structure Options where
  /-- How many vertices may be reachable from the entry. -/
  bound : Nat
  linkEval : LinkEvalKind := .simple
  deriving DecidableEq

namespace Options

def withLinkEval (o : Options) (kind : LinkEvalKind) : Options := { o with linkEval := kind }

instance : Dump Options :=
  ⟨fun o => Dump.record "DominatorSettings"
    [("vertex_bound", dump o.bound), ("link_eval", o.linkEval.name)]⟩

end Options

end FlowGraph
