import FlowGraph.Graph.Basic
import FlowGraph.LinkEval.Basic
/-!
Immediate dominators from a numbered spanning tree. A sweep takes the numbers from the largest
down. It settles the candidates that wait for a number, lowers its semidominator over its
predecessors, lets it wait for that semidominator, and links it below its parent. A last pass in
increasing order resolves the candidates that were only relative.
-/

set_option autoImplicit false

namespace FlowGraph

/-- A flow graph reduced to numbers: parents in a depth-first spanning tree, and predecessors. -/
structure Flow (n : Nat) where
  parent : Fin n → Fin n
  preds : Fin n → List (Fin n)

/-- The state of a sweep: least semidominators found so far, candidates for immediate
dominators, the numbers that wait for each number, the latest first, and the forest of the
numbers already taken. -/
structure Sweep (F : Nat → Type) (n : Nat) where
  semi : Vector (Fin n) n
  idom : Vector (Fin n) n
  waiting : Vector (List (Fin n)) n
  forest : F n

namespace Sweep

variable {F : Nat → Type} [LinkEval F] {n : Nat}

def start (F : Nat → Type) [LinkEval F] (n : Nat) [HasEntry n] : Sweep F n :=
  { semi := Vector.ofFn id
    idom := Vector.replicate n 0
    waiting := Vector.replicate n []
    forest := LinkEval.singletons n }

def eval (s : Sweep F n) (v : Fin n) : Fin n × Sweep F n :=
  let semi := s.semi
  let answer := LinkEval.eval (fun u => (semi.get u).val) v s.forest
  (answer.1, { s with forest := answer.2 })

/-- Settles a number that waits for `w`: its immediate dominator is `w`, or that of a node with
a lesser semidominator, which stands in for it until the last pass. -/
def settle (w v : Fin n) (s : Sweep F n) : Sweep F n :=
  let answer := s.eval v
  let u := answer.1
  let s := answer.2
  let candidate := if s.semi.get u < s.semi.get v then u else w
  { s with idom := s.idom.set v candidate v.isLt }

/-- Lowers the semidominator of `w` to that of the node found above a predecessor. -/
def lower (w : Fin n) (s : Sweep F n) (p : Fin n) : Sweep F n :=
  let answer := s.eval p
  let found := answer.2.semi.get answer.1
  let s := answer.2
  if found < s.semi.get w then { s with semi := s.semi.set w found w.isLt } else s

/-- Settles the numbers that wait for `w`, in the order they came, and none waits any more. -/
def settleWaiting (s : Sweep F n) (w : Fin n) : Sweep F n :=
  let waiting := s.waiting.get w
  waiting.foldr (settle w) { s with waiting := s.waiting.set w [] w.isLt }

def wait (s : Sweep F n) (w : Fin n) : Sweep F n :=
  let d := s.semi.get w
  let waiting := s.waiting.get d
  { s with waiting := s.waiting.set d (w :: waiting) d.isLt }

def link (s : Sweep F n) (parent w : Fin n) : Sweep F n :=
  let semi := s.semi
  { s with forest := LinkEval.link (fun u => (semi.get u).val) parent w s.forest }

def step (flow : Flow n) (s : Sweep F n) (w : Fin n) : Sweep F n :=
  let s := s.settleWaiting w
  let s := (flow.preds w).foldl (lower w) s
  (s.wait w).link (flow.parent w) w

/-- The state when the numbers from `k` up are taken, the largest first. -/
def taken (F : Nat → Type) [LinkEval F] {n : Nat} [HasEntry n] (flow : Flow n) (k : Nat) :
    Sweep F n :=
  ((List.finRange n).drop k).foldr (fun w s => s.step flow w) (start F n)

theorem taken_of_le (F : Nat → Type) [LinkEval F] {n : Nat} [HasEntry n] (flow : Flow n) {k : Nat}
    (h : n ≤ k) : taken F flow k = start F n := by
  rw [taken, List.drop_eq_nil_of_le (by simpa using h), List.foldr_nil]

theorem taken_eq_step (F : Nat → Type) [LinkEval F] {n : Nat} [HasEntry n] (flow : Flow n) {k : Nat}
    (h : k < n) : taken F flow k = (taken F flow (k + 1)).step flow ⟨k, h⟩ := by
  rw [taken, List.drop_eq_getElem_cons (by simpa using h), List.foldr_cons, taken]
  simp

end Sweep

/-- Replaces the candidate of a number, if it is not the semidominator, by the immediate dominator
of the number that the candidate names. -/
def resolveAt {n : Nat} (semi idom : Vector (Fin n) n) (w : Fin n) : Vector (Fin n) n :=
  let candidate := idom.get w
  if candidate = semi.get w then idom
  else
    let final := idom.get candidate
    idom.set w final w.isLt

/-- The candidates when those of the numbers below `k` are resolved, in increasing order. A
candidate is less than its number, so what it names is final. -/
def resolved {n : Nat} (semi idom : Vector (Fin n) n) (k : Nat) : Vector (Fin n) n :=
  ((List.finRange n).take k).foldl (resolveAt semi) idom

theorem resolved_zero {n : Nat} (semi idom : Vector (Fin n) n) : resolved semi idom 0 = idom := rfl

theorem resolved_succ {n : Nat} (semi idom : Vector (Fin n) n) {k : Nat} (h : k < n) :
    resolved semi idom (k + 1) = resolveAt semi (resolved semi idom k) ⟨k, h⟩ := by
  rw [resolved, List.take_succ_eq_append_getElem (by simpa using h), List.foldl_append, resolved]
  simp

/-- The immediate dominator of every number; the entry is its own. -/
def Flow.idoms (F : Nat → Type) [LinkEval F] {n : Nat} [HasEntry n] (flow : Flow n) :
    Vector (Fin n) n :=
  let s := Sweep.taken F flow 1
  resolved s.semi s.idom n

end FlowGraph
