import FlowGraph.Proofs.LinkEval.Balanced
import FlowGraph.Proofs.LinkEval.Simple
import Mathlib.Computability.StateTransition
/-!
Compression as two loops and as a recursion. The loops first climb from a node and stack up the
nodes they pass, and then take the nodes from the stack and cut each short, while the table that
the way up was read from changes. The recursion first compresses the way of the ancestor and then
cuts the node short. Both come to the same tables, and so does the bounded climb of a forest.
-/

set_option autoImplicit false

namespace FlowGraph

variable {n : Nat} {semi : Fin n → Nat}

structure LinkTables (n : Nat) where
  ancestor : Fin n → Option (Fin n)
  label : Fin n → Fin n

namespace LinkTables

/-- The node `v` takes over what its ancestor `a` has: the ancestor of `a`, and the label of `a` if
that has less value than its own. -/
def takeOver (semi : Fin n → Nat) (t : LinkTables n) (v a : Fin n) : LinkTables n where
  ancestor := Function.update t.ancestor v (t.ancestor a)
  label :=
    if semi (t.label a) < semi (t.label v) then Function.update t.label v (t.label a) else t.label

/-- What compression from a node makes of tables, by recursion. Nothing is to be done below a root;
otherwise the ancestor comes first, and what the node takes over is read afterwards. -/
inductive Compresses (semi : Fin n → Nat) : LinkTables n → Fin n → LinkTables n → Prop
  | done {t : LinkTables n} {v a : Fin n} (hv : t.ancestor v = some a)
      (ha : t.ancestor a = none) : Compresses semi t v t
  | above {t t' : LinkTables n} {v a b c : Fin n} (hv : t.ancestor v = some a)
      (ha : t.ancestor a = some b) (first : Compresses semi t a t')
      (hc : t'.ancestor v = some c) : Compresses semi t v (t'.takeOver semi v c)

private theorem Compresses.unique {t t₁ t₂ : LinkTables n} {v : Fin n} (h : Compresses semi t v t₁)
    (h' : Compresses semi t v t₂) : t₁ = t₂ := by
  induction h generalizing t₂ with
  | done hv ha =>
    cases h' with
    | done _ _ => rfl
    | above hv' ha' _ _ =>
      obtain rfl := Option.some.inj (hv.symm.trans hv')
      cases ha.symm.trans ha'
  | above hv ha _ hc ih =>
    cases h' with
    | done hv' ha' =>
      obtain rfl := Option.some.inj (hv.symm.trans hv')
      cases ha.symm.trans ha'
    | above hv' _ first hc' =>
      obtain rfl := Option.some.inj (hv.symm.trans hv')
      obtain rfl := ih first
      obtain rfl := Option.some.inj (hc.symm.trans hc')
      rfl

end LinkTables

namespace PathForest

variable {f : PathForest n} {v a b r y : Fin n} {path stack : List (Fin n)}

def tables (f : PathForest n) : LinkTables n := { ancestor := f.up, label := f.label.get }

private theorem tables_shortcut (semi : Fin n → Nat) (h : f.up v = some a) :
    (f.shortcut semi v).tables = f.tables.takeOver semi v a := by
  have label : (f.shortcut semi v).label.get = (f.tables.takeOver semi v a).label := by
    funext y
    rw [label_shortcut semi h]
    simp only [LinkTables.takeOver, tables, lesser]
    by_cases hy : y = v
    · subst hy
      by_cases hlt : semi (f.label.get a) < semi (f.label.get y) <;> simp [hlt]
    · by_cases hlt : semi (f.label.get a) < semi (f.label.get v) <;> simp [hlt, hy]
  rw [tables, up_shortcut semi h, label]
  rfl

private theorem shortcut_of_ne (semi : Fin n → Nat) (f : PathForest n) (hne : y ≠ v) :
    (f.shortcut semi v).up y = f.up y ∧ (f.shortcut semi v).label.get y = f.label.get y := by
  cases hv : f.up v with
  | none =>
    have h : f.ancestor.get v = none := hv
    simp only [shortcut, h, and_self]
  | some a =>
    rw [up_shortcut semi hv, Function.update_of_ne hne, label_shortcut semi hv, if_neg hne]
    exact ⟨rfl, rfl⟩

private theorem compress_of_notMem_dropLast (semi : Fin n → Nat) (way : Ascent f.up v path r)
    (hy : y ∉ path.dropLast) : (f.compress semi v).up y = f.up y ∧
      (f.compress semi v).label.get y = f.label.get y := by
  rw [compress_eq semi way]
  generalize path.dropLast = nodes at hy
  induction nodes with
  | nil => exact ⟨rfl, rfl⟩
  | cons x below ih =>
    rw [List.mem_cons, not_or] at hy
    obtain ⟨hne, hbelow⟩ := hy
    obtain ⟨up, label⟩ := shortcut_of_ne semi (below.foldr (fun x g => g.shortcut semi x) f) hne
    obtain ⟨up', label'⟩ := ih hbelow
    exact ⟨up.trans up', label.trans label'⟩

private theorem compresses_tables (semi : Fin n → Nat) (way : Ascent f.up v path r) (hne : v ≠ r) :
    f.tables.Compresses semi v (f.compress semi v).tables := by
  induction way with
  | root _ => exact absurd rfl hne
  | @step v a r path hv rest ih =>
    cases rest with
    | root ha =>
      rw [compress_below_root semi hv ha]
      exact .done hv ha
    | @step _ b _ path ha rest =>
      have hne : a ≠ r := by
        rintro rfl
        simp [rest.top] at ha
      obtain ⟨heq, hva, -⟩ := compress_step semi hv ha rest
      rw [heq, tables_shortcut semi hva]
      exact .above hv ha (ih hne) hva

/-- The states of the two loops: a node to climb from, or no more, with the stack of nodes met. -/
inductive LoopState (n : Nat) where
  | climb (f : PathForest n) (v : Fin n) (stack : List (Fin n))
  | unstack (f : PathForest n) (stack : List (Fin n))

namespace LoopState

/-- One round of a loop. Climbing goes on while the ancestor of the node is not a root; then the
nodes on the stack are cut short, and the loops end when there is none. -/
def next (semi : Fin n → Nat) : LoopState n → Option (LoopState n)
  | climb f v stack => do
    let a ← f.up v
    match f.up a with
    | some _ => return climb f a (v :: stack)
    | none => return unstack f stack
  | unstack f (v :: stack) => some (unstack (f.shortcut semi v) stack)
  | unstack _ [] => none

open StateTransition

private theorem reaches_unstack (way : Ascent f.up v path r) (hne : v ≠ r) (stack : List (Fin n)) :
    Reaches (next semi) (climb f v stack) (unstack f (path.dropLast.reverse ++ stack)) := by
  induction way generalizing stack with
  | root _ => exact absurd rfl hne
  | @step v a r path hv rest ih =>
    cases rest with
    | root ha =>
      refine Relation.ReflTransGen.single ?_
      simp [next, hv, ha]
    | @step _ b _ path ha rest =>
      have hne : a ≠ r := by
        rintro rfl
        simp [rest.top] at ha
      have round : climb f a (v :: stack) ∈ next semi (climb f v stack) := by
        simp [next, hv, ha]
      have later := ih hne (v :: stack)
      rw [List.dropLast_cons_of_ne_nil (List.cons_ne_nil a path), List.reverse_cons,
        List.append_assoc]
      exact Relation.ReflTransGen.head round later

private theorem reaches_unstack_nil (f : PathForest n) (stack : List (Fin n)) :
    Reaches (next semi) (unstack f stack) (unstack (stack.foldl (shortcut semi) f) []) := by
  induction stack generalizing f with
  | nil => exact Relation.ReflTransGen.refl
  | cons v stack ih => exact Relation.ReflTransGen.head rfl (ih _)

private theorem mem_eval (way : Ascent f.up v path r) (hne : v ≠ r) :
    unstack (f.compress semi v) [] ∈ eval (next semi) (climb f v []) := by
  refine StateTransition.mem_eval.2 ⟨?_, rfl⟩
  have climbed : Reaches (next semi) (climb f v []) (unstack f (path.dropLast.reverse ++ [])) :=
    reaches_unstack way hne []
  rw [← climb_eq way way.length_lt.le] at climbed
  exact Relation.ReflTransGen.trans climbed (reaches_unstack_nil f _)

end LoopState

/-- What compression from a node `v` comes to, whose way up passes `path` and ends at `r`: both the
loops and the recursion end with the tables of `g`, and only nodes passed below the highest are
changed. -/
structure CompressesTo (semi : Fin n → Nat) (f : PathForest n) (v : Fin n) (path : List (Fin n))
    (r : Fin n) (g : PathForest n) : Prop where
  loops_end : LoopState.unstack g [] ∈
    StateTransition.eval (LoopState.next semi) (LoopState.climb f v [])
  recursion_iff : ∀ t, f.tables.Compresses semi v t ↔ t = g.tables
  unchanged : ∀ y, y ∉ path.dropLast → g.up y = f.up y ∧ g.label.get y = f.label.get y
  top : g.up v = some r

/-- Compression from a node that has an ancestor, in tables where its way up ends, is what the loops
and the recursion come to; and it is what a query makes of the tables of either forest. The values
are any numbers, so the labels may name a sentinel that has less value than all nodes. -/
theorem compressesTo_compress (semi : Fin n → Nat) (way : Ascent f.up v path r)
    (linked : f.up v ≠ none) : CompressesTo semi f v path r (f.compress semi v) ∧
      (∀ links : SimpleLinks n, links.toPathForest = f →
        (links.eval semi v).2.toPathForest = f.compress semi v) ∧
      ∀ links : BalancedLinks n, links.toPathForest = f →
        (links.eval semi v).2.toPathForest = f.compress semi v := by
  have hne : v ≠ r := by
    rintro rfl
    exact linked way.top
  have recursion := compresses_tables semi way hne
  refine ⟨⟨LoopState.mem_eval way hne, fun t => ⟨fun h => h.unique recursion, ?_⟩,
    fun y => compress_of_notMem_dropLast semi way, up_compress semi way hne⟩, ?_, ?_⟩
  · rintro rfl
    exact recursion
  · rintro links rfl
    have root : ¬ links.isRoot v = true := by rwa [isRoot_iff]
    rw [SimpleLinks.eval, if_neg root]
  · rintro links rfl
    rfl

theorem compressesTo_compress_sentinel :
    let semi : Fin 6 → Nat := ![0, 1, 4, 2, 5, 3]
    let f : PathForest 6 :=
      { ancestor := #v[none, none, some 1, some 2, some 3, some 3], label := #v[0, 1, 0, 3, 4, 5] }
    Ascent f.up 4 [4, 3, 2] 1 ∧ f.up 4 ≠ none ∧
      (f.compress semi 4).label = #v[0, 1, 0, 0, 0, 5] ∧
      CompressesTo semi f 4 [4, 3, 2] 1 (f.compress semi 4) ∧
      (∀ links : SimpleLinks 6, links.toPathForest = f →
        (links.eval semi 4).2.toPathForest = f.compress semi 4) ∧
      ∀ links : BalancedLinks 6, links.toPathForest = f →
        (links.eval semi 4).2.toPathForest = f.compress semi 4 := by
  intro semi f
  have way : Ascent f.up 4 [4, 3, 2] 1 :=
    .step (a := 3) rfl (.step (a := 2) rfl (.step (a := 1) rfl (.root rfl)))
  exact ⟨way, by decide, by decide, compressesTo_compress semi way (by decide)⟩

end PathForest

end FlowGraph
