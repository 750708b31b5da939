import FlowGraph.Proofs.Checked.Rows
import FlowGraph.Proofs.LinkEval.Balanced
import FlowGraph.Proofs.LinkEval.Simple
/-!
Forests with link and eval on flat tables. Every access is checked, a link requires two different
roots, compression requires a node that has an ancestor, and a loop that has not ended after as
many steps as there are nodes has no result. In legal use none of this is lost: the flat tables go
on to hold the rows of the forest.
-/

set_option autoImplicit false

namespace FlowGraph

/-- A forest with link and eval whose accesses are checked. -/
class CheckedLinkEval (R : Type) where
  singletons (n : Nat) : R
  link (semi : Array Nat) (parent node : Nat) (forest : R) : Option R
  eval (semi : Array Nat) (node : Nat) (forest : R) : Option (Nat × R)

structure PathRows where
  ancestor : Array (Option Nat)
  label : Array Nat

namespace PathRows

def singletons (n : Nat) : PathRows :=
  { ancestor := Array.replicate n none, label := Array.range n }

def above (f : PathRows) (v : Nat) : Option Nat := do
  let a ← f.ancestor[v]?
  a

/-- Requires two different nodes without ancestors. -/
def requireRoots (f : PathRows) (parent node : Nat) : Option Unit := do
  require ((← f.ancestor[parent]?) = none)
  require ((← f.ancestor[node]?) = none)
  require (parent ≠ node)

def climb (f : PathRows) : Nat → Nat → List Nat → Option (List Nat)
  | 0, _, _ => none
  | steps + 1, v, path => do
    let a ← f.above v
    match ← f.ancestor[a]? with
    | none => return path
    | some _ => f.climb steps a (v :: path)

def lesser (semi : Array Nat) (u v : Nat) : Option Nat := do
  let x ← semi[u]?
  let y ← semi[v]?
  return if x < y then u else v

def shortcut (semi : Array Nat) (f : PathRows) (v : Nat) : Option PathRows := do
  let a ← f.above v
  let best ← lesser semi (← f.label[a]?) (← f.label[v]?)
  let next ← f.ancestor[a]?
  return { ancestor := ← writeRow f.ancestor v next, label := ← writeRow f.label v best }

def compress (semi : Array Nat) (f : PathRows) (v : Nat) : Option PathRows := do
  let path ← f.climb f.ancestor.size v []
  path.foldlM (shortcut semi) f

end PathRows

structure SimpleRows extends PathRows

namespace SimpleRows

def link (f : SimpleRows) (parent node : Nat) : Option SimpleRows := do
  f.requireRoots parent node
  return { f with ancestor := ← writeRow f.ancestor node (some parent) }

def eval (semi : Array Nat) (f : SimpleRows) (v : Nat) : Option (Nat × SimpleRows) := do
  match ← f.ancestor[v]? with
  | none => return (v, f)
  | some _ =>
    let g ← f.toPathRows.compress semi v
    return (← g.label[v]?, { toPathRows := g })

instance : CheckedLinkEval SimpleRows where
  singletons n := { toPathRows := PathRows.singletons n }
  link _ parent node f := f.link parent node
  eval semi node f := f.eval semi node

end SimpleRows

structure BalancedRows extends PathRows where
  child : Array (Option Nat)
  size : Array Nat

namespace BalancedRows

def singletons (n : Nat) : BalancedRows :=
  { toPathRows := PathRows.singletons n
    child := Array.replicate n none
    size := Array.replicate n 1 }

def sizeFrom (f : BalancedRows) : Option Nat → Option Nat
  | none => some 0
  | some v => f.size[v]?

def merge (semi : Array Nat) (best : Nat) :
    Nat → Nat → BalancedRows → Option (Nat × BalancedRows)
  | 0, _, _ => none
  | steps + 1, s, f => do
    match ← f.child[s]? with
    | none => return (s, f)
    | some c =>
      if (← semi[best]?) < (← semi[← f.label[c]?]?) then
        let next ← f.child[c]?
        if (← f.size[s]?) + (← f.sizeFrom next) ≥ 2 * (← f.size[c]?) then
          let ancestor ← writeRow f.ancestor c (some s)
          let child ← writeRow f.child s next
          merge semi best steps s { f with ancestor, child }
        else
          let size ← writeRow f.size c (← f.size[s]?)
          let ancestor ← writeRow f.ancestor s (some c)
          merge semi best steps c { f with ancestor, size }
      else return (s, f)

def attach (parent : Nat) : Nat → Option Nat → BalancedRows → Option BalancedRows
  | _, none, f => some f
  | 0, some _, _ => none
  | steps + 1, some s, f => do
    let ancestor ← writeRow f.ancestor s (some parent)
    attach parent steps (← f.child[s]?) { f with ancestor }

def link (semi : Array Nat) (f : BalancedRows) (parent node : Nat) : Option BalancedRows := do
  f.requireRoots parent node
  let best ← f.label[node]?
  let (s, f) ← merge semi best f.ancestor.size node f
  let f := { f with label := ← writeRow f.label s best }
  let total := (← f.size[parent]?) + (← f.size[node]?)
  let f := { f with size := ← writeRow f.size parent total }
  if (← f.size[parent]?) < 2 * (← f.size[node]?) then
    let rest ← f.child[parent]?
    attach parent f.ancestor.size rest { f with child := ← writeRow f.child parent (some s) }
  else
    attach parent f.ancestor.size (some s) f

def eval (semi : Array Nat) (f : BalancedRows) (v : Nat) : Option (Nat × BalancedRows) := do
  match ← f.ancestor[v]? with
  | none => return (← f.label[v]?, f)
  | some _ =>
    let g ← f.toPathRows.compress semi v
    let a ← g.above v
    return (← PathRows.lesser semi (← g.label[a]?) (← g.label[v]?), { f with toPathRows := g })

instance : CheckedLinkEval BalancedRows where
  singletons := singletons
  link semi parent node f := f.link semi parent node
  eval semi node f := f.eval semi node

end BalancedRows

section Rows

variable {n : Nat} {semi : Array Nat} {values : Fin n → Nat}

/-- A flat table that has a value for every number below its size. -/
def HoldsValues (semi : Array Nat) (values : Fin n → Nat) : Prop :=
  ∀ u : Fin n, semi[u.val]? = some (values u)

namespace PathForest

def rows (f : PathForest n) : PathRows :=
  { ancestor := rowsOf (Option.map Fin.val) f.ancestor, label := rowsOf Fin.val f.label }

variable {f : PathForest n} {u v a p w r : Fin n} {path : List (Fin n)}

private theorem rows_singletons (n : Nat) : (singletons n).rows = PathRows.singletons n := by
  rw [rows, singletons, PathRows.singletons, rowsOf_replicate, rowsOf_id]
  rfl

@[simp] theorem ancestor_rows (f : PathForest n) (v : Fin n) :
    f.rows.ancestor[v.val]? = some ((f.up v).map Fin.val) :=
  getElem?_rowsOf _ f.ancestor v

@[simp] theorem label_rows (f : PathForest n) (v : Fin n) :
    f.rows.label[v.val]? = some (f.label.get v).val :=
  getElem?_rowsOf _ f.label v

private theorem writeRow_ancestor (f : PathForest n) (v : Fin n) (o : Option (Fin n)) :
    writeRow f.rows.ancestor v.val (o.map Fin.val) =
      some (rowsOf (Option.map Fin.val) (f.ancestor.set v o v.isLt)) :=
  writeRow_rowsOf rfl v

private theorem writeRow_label (f : PathForest n) (v x : Fin n) :
    writeRow f.rows.label v.val x.val = some (rowsOf Fin.val (f.label.set v x v.isLt)) :=
  writeRow_rowsOf rfl v

private theorem size_rows (f : PathForest n) : f.rows.ancestor.size = n := size_rowsOf _ f.ancestor

private theorem above_rows (h : f.up v = some a) : f.rows.above v.val = some a.val := by
  simp [PathRows.above, h]

private theorem requireRoots_rows (hp : f.up p = none) (hw : f.up w = none) (hne : p ≠ w) :
    f.rows.requireRoots p.val w.val = some () := by
  have hne' : p.val ≠ w.val := fun h => hne (Fin.ext h)
  simp [PathRows.requireRoots, hp, hw, require, hne']

private theorem lesser_values (h : HoldsValues semi values) (u v : Fin n) :
    PathRows.lesser semi u.val v.val = some (lesser values u v).val := by
  simp only [PathRows.lesser, h u, h v, Option.bind_eq_bind, Option.bind_some, lesser]
  split <;> rfl

private theorem shortcut_rows (h : HoldsValues semi values) (hv : f.up v = some a) :
    PathRows.shortcut semi f.rows v.val = some (f.shortcut values v).rows := by
  have hv' : f.ancestor.get v = some a := hv
  simp only [PathRows.shortcut, above_rows hv, label_rows, lesser_values h, ancestor_rows,
    writeRow_ancestor, writeRow_label, Option.bind_eq_bind, Option.bind_some]
  simp only [shortcut, hv']
  rfl

private theorem climb_rows (way : Ascent f.up v path r) (hne : v ≠ r) {steps : Nat}
    (hsteps : path.length ≤ steps) (below : List (Fin n)) :
    f.rows.climb steps v.val (below.map Fin.val) =
      some ((path.dropLast.reverse ++ below).map Fin.val) := by
  induction way generalizing steps below with
  | root _ => exact absurd rfl hne
  | @step v a r path hv rest ih =>
    obtain ⟨steps, rfl⟩ : ∃ k, steps = k + 1 := ⟨steps - 1, by
      rw [List.length_cons] at hsteps
      omega⟩
    rw [List.length_cons, Nat.add_le_add_iff_right] at hsteps
    simp only [PathRows.climb, above_rows hv, ancestor_rows, Option.bind_eq_bind,
      Option.bind_some]
    cases rest with
    | root ha => simp [ha]
    | @step _ b _ path ha rest =>
      have har : a ≠ r := by
        rintro rfl
        simp [rest.top] at ha
      have hclimb := ih har hsteps (v :: below)
      rw [List.map_cons] at hclimb
      rw [ha, List.dropLast_cons_of_ne_nil (List.cons_ne_nil a path)]
      simp [hclimb]

private theorem compress_rows (h : HoldsValues semi values) (way : Ascent f.up v path r)
    (hne : v ≠ r) :
    f.rows.compress semi v.val = some (f.compress values v).rows := by
  have hclimb := climb_rows way hne way.length_lt.le []
  rw [List.map_nil, List.append_nil] at hclimb
  rw [PathRows.compress, size_rows, hclimb, Option.bind_eq_bind, Option.bind_some]
  clear hclimb hne
  induction way with
  | root hv => simp [compress_of_root values hv]
  | @step v a r path hv rest ih =>
    cases rest with
    | root ha => simp [compress_below_root values hv ha]
    | @step _ b _ path ha rest =>
      obtain ⟨heq, hva, -⟩ := compress_step values hv ha rest
      rw [List.dropLast_cons_of_ne_nil (List.cons_ne_nil a path), List.reverse_cons,
        List.map_append, List.foldlM_append, ih, heq]
      simp [shortcut_rows h hva]

end PathForest

namespace SimpleLinks

def rows (f : SimpleLinks n) : SimpleRows := { toPathRows := f.toPathForest.rows }

variable {f : SimpleLinks n} {p w v r : Fin n} {path : List (Fin n)}

private theorem link_rows (hp : f.up p = none) (hw : f.up w = none) (hne : p ≠ w) :
    f.rows.link p.val w.val = some (f.link p w).rows := by
  have hancestor := f.writeRow_ancestor w (some p)
  rw [Option.map_some] at hancestor
  simp only [SimpleRows.link, rows, PathForest.requireRoots_rows hp hw hne, hancestor,
    Option.bind_eq_bind, Option.bind_some]
  rfl

private theorem eval_rows (h : HoldsValues semi values) (way : Ascent f.up v path r) :
    f.rows.eval semi v.val = some ((f.eval values v).1.val, (f.eval values v).2.rows) := by
  cases hv : f.up v with
  | none =>
    rw [eval, if_pos ((f.isRoot_iff v).2 hv)]
    simp [SimpleRows.eval, rows, hv]
  | some a =>
    have hroot : ¬ f.isRoot v = true := by simp [PathForest.isRoot_iff, hv]
    have hne : v ≠ r := by
      rintro rfl
      simp [way.top] at hv
    rw [eval, if_neg hroot]
    simp [SimpleRows.eval, rows, hv, PathForest.compress_rows h way hne]

end SimpleLinks

namespace BalancedLinks

def rows (f : BalancedLinks n) : BalancedRows :=
  { toPathRows := f.toPathForest.rows
    child := rowsOf (Option.map Fin.val) f.child
    size := rowsOf id f.size }

variable {f : BalancedLinks n} {p w v r s c : Fin n} {path rest : List (Fin n)}

@[simp] theorem child_rows (f : BalancedLinks n) (v : Fin n) :
    f.rows.child[v.val]? = some ((f.down v).map Fin.val) :=
  getElem?_rowsOf _ f.child v

@[simp] theorem size_rows (f : BalancedLinks n) (v : Fin n) :
    f.rows.size[v.val]? = some (f.size.get v) :=
  getElem?_rowsOf _ f.size v

private theorem sizeFrom_rows (f : BalancedLinks n) (o : Option (Fin n)) :
    f.rows.sizeFrom (o.map Fin.val) = some (f.sizeFrom o) := by
  cases o with
  | none => rfl
  | some v => exact size_rows f v

@[simp] theorem toPathRows_rows (f : BalancedLinks n) :
    f.rows.toPathRows = f.toPathForest.rows := rfl

private theorem writeRow_child (f : BalancedLinks n) (v : Fin n) (o : Option (Fin n)) :
    writeRow f.rows.child v.val (o.map Fin.val) =
      some (rowsOf (Option.map Fin.val) (f.child.set v o v.isLt)) :=
  writeRow_rowsOf rfl v

private theorem writeRow_size (f : BalancedLinks n) (v : Fin n) (k : Nat) :
    writeRow f.rows.size v.val k = some (rowsOf id (f.size.set v k v.isLt)) :=
  writeRow_rowsOf rfl v

private theorem merge_rows (h : HoldsValues semi values) (best : Fin n) {steps : Nat}
    (row : RootChain f s rest) (hsteps : rest.length < steps) :
    BalancedRows.merge semi best.val steps s.val f.rows =
      some ((merge values best steps s f).1.val, (merge values best steps s f).2.rows) := by
  induction rest generalizing s f steps with
  | nil =>
    obtain ⟨steps, rfl⟩ : ∃ k, steps = k + 1 := ⟨steps - 1, by omega⟩
    have hdown := row.chain.of_nil
    simp [BalancedRows.merge, hdown, merge_of_none values best hdown]
  | cons c rest ih =>
    obtain ⟨steps, rfl⟩ : ∃ k, steps = k + 1 := ⟨steps - 1, by omega⟩
    rw [List.length_cons, Nat.add_lt_add_iff_right] at hsteps
    obtain ⟨hc, -⟩ := row.chain.of_cons
    have hbelow := f.writeRow_ancestor c (some s)
    have habove := f.writeRow_ancestor s (some c)
    rw [Option.map_some] at hbelow habove
    rw [merge_of_some values best hc]
    simp only [BalancedRows.merge, child_rows, toPathRows_rows, PathForest.label_rows, h best,
      h (f.label.get c), hc, size_rows, sizeFrom_rows, hbelow, habove, writeRow_child,
      writeRow_size, Option.map_some, Option.bind_eq_bind, Option.bind_some]
    split
    · split
      · rename_i larger
        exact ih (row.below (joinedBelow larger)) hsteps
      · rename_i smaller
        exact ih (row.above (joinedAbove (Nat.lt_of_not_le smaller))) hsteps
    · rfl

private theorem attach_rows {o : Option (Fin n)} {hung : List (Fin n)} {steps : Nat} (p : Fin n)
    {down : Fin n → Option (Fin n)} (hdown : f.down = down) (chain : Chain down o hung)
    (hsteps : hung.length ≤ steps) :
    BalancedRows.attach p.val steps (o.map Fin.val) f.rows = some (attach p steps o f).rows := by
  induction chain generalizing f steps with
  | done => cases steps <;> simp [BalancedRows.attach, attach]
  | @next v rest chain ih =>
    obtain ⟨steps, rfl⟩ : ∃ k, steps = k + 1 := ⟨steps - 1, by
      rw [List.length_cons] at hsteps
      omega⟩
    rw [List.length_cons, Nat.add_le_add_iff_right] at hsteps
    have hancestor := f.writeRow_ancestor v (some p)
    rw [Option.map_some] at hancestor
    subst hdown
    simp only [BalancedRows.attach, child_rows, toPathRows_rows, hancestor, Option.map_some,
      Option.bind_eq_bind, Option.bind_some]
    exact ih (f := { f with ancestor := f.ancestor.set v (some p) v.isLt }) rfl hsteps

private theorem link_rows {links : Links n} {heads : Fin n → List (Fin n)}
    (h : HoldsValues semi values) (inv : f.Chained links values heads) (hp : links p = none)
    (hw : links w = none) (hne : p ≠ w) :
    f.rows.link semi p.val w.val = some (f.link values p w).rows := by
  obtain ⟨merged, left, hmerged, fused⟩ := inv.exists_fused hw
  have hsteps : (heads w).length < n := (Chain.next (inv.chain w hw)).length_le
  have hmerge := merge_rows h (f.label.get w) (inv.rootChain hw) hsteps
  have hroots := PathForest.requireRoots_rows (inv.root_up p hp) (inv.root_up w hw) hne
  simp only [BalancedRows.link, toPathRows_rows, hroots, PathForest.label_rows,
    PathForest.size_rows, hmerge, Option.bind_eq_bind, Option.bind_some]
  simp only [link]
  generalize merge values (f.label.get w) n w f = m at *
  obtain ⟨t, g⟩ := m
  simp only [size_rows, child_rows, PathForest.writeRow_label, writeRow_size, Option.bind_some,
    getElem?_rowsOf, id]
  let f₂ : BalancedLinks n :=
    { g with
      label := g.label.set t (f.label.get w) t.isLt
      size := g.size.set p (g.size.get p + g.size.get w) p.isLt }
  have fuse := fused f₂ rfl fun y => get_set g.label t y _
  split
  · have hchild := g.writeRow_child p (some t)
    rw [Option.map_some] at hchild
    have hold := fuse.chain_old inv hp hne hmerged.down_other
      (funext fun y => get_set_child g p y (some t))
    rw [hchild, Option.bind_some]
    exact attach_rows (f := { f₂ with child := g.child.set p (some t) p.isLt }) p rfl hold
      hold.length_le
  · have hnew : Chain f₂.down (some t) (t :: left) := Chain.next hmerged.chain
    exact attach_rows (f := f₂) p rfl hnew hnew.length_le

private theorem eval_rows (h : HoldsValues semi values) (way : Ascent f.up v path r) :
    f.rows.eval semi v.val = some ((f.eval values v).1.val, (f.eval values v).2.rows) := by
  cases hv : f.up v with
  | none =>
    have hanc : f.ancestor.get v = none := hv
    have heval : f.eval values v = (f.label.get v, f) := by
      simp [eval, PathForest.compress_of_root values hv, hanc, PathForest.lesser]
    rw [heval]
    simp [BalancedRows.eval, hv]
  | some a =>
    have hne : v ≠ r := by
      rintro rfl
      simp [way.top] at hv
    have hup := PathForest.up_compress values way hne
    have hanc : (f.compress values v).ancestor.get v = some r := hup
    have heval : f.eval values v =
        (PathForest.lesser values ((f.compress values v).label.get r)
          ((f.compress values v).label.get v),
          { f with toPathForest := f.compress values v }) := by
      simp [eval, hanc]
    rw [heval]
    simp [BalancedRows.eval, hv, PathForest.compress_rows h way hne, PathForest.above_rows hup,
      PathForest.lesser_values h, rows]

end BalancedLinks

end Rows

/-- A forest whose rows a checked forest goes on to hold, as long as its use is legal. -/
class RefinedLinkEval (F : Nat → Type) (R : Type) [LinkEval F] [CheckedLinkEval R] where
  rows {n : Nat} (f : F n) : R
  rows_singletons (n : Nat) : rows (LinkEval.singletons n : F n) = CheckedLinkEval.singletons n
  link_rows {n : Nat} {f : F n} {links : Links n} {semi : Array Nat} {values : Fin n → Nat}
    {p w : Fin n} (run : LegalRun F f links values) (h : HoldsValues semi values)
    (hp : links p = none) (hw : links w = none) (hne : p ≠ w) :
    CheckedLinkEval.link semi p.val w.val (rows f) = some (rows (LinkEval.link values p w f))
  eval_rows {n : Nat} {f : F n} {links : Links n} {semi : Array Nat} {values : Fin n → Nat}
    (run : LegalRun F f links values) (h : HoldsValues semi values) (v : Fin n) :
    CheckedLinkEval.eval semi v.val (rows f) =
      some ((LinkEval.eval values v f).1.val, rows (LinkEval.eval values v f).2)

instance : RefinedLinkEval SimpleLinks SimpleRows where
  rows f := f.rows
  rows_singletons n := congrArg SimpleRows.mk (PathForest.rows_singletons n)
  link_rows {n f links semi values p w} run _ hp hw hne := by
    have inv := SimpleLinks.represents_of_graftRun (SimpleLinks.graftRun_of_legalRun run)
    exact SimpleLinks.link_rows ((inv.root_iff p).2 hp) ((inv.root_iff w).2 hw) hne
  eval_rows {n f links semi values} run h v := by
    have inv := SimpleLinks.represents_of_graftRun (SimpleLinks.graftRun_of_legalRun run)
    obtain ⟨_, _, _, _, way, _⟩ := inv.ways v
    exact SimpleLinks.eval_rows h way

instance : RefinedLinkEval BalancedLinks BalancedRows where
  rows f := f.rows
  rows_singletons n := by
    change BalancedLinks.rows (BalancedLinks.singletons n) = BalancedRows.singletons n
    rw [BalancedLinks.rows, BalancedLinks.singletons, BalancedRows.singletons,
      PathForest.rows_singletons, rowsOf_replicate, rowsOf_replicate]
    rfl
  link_rows {n f links semi values p w} run h hp hw hne := by
    obtain ⟨_, inv⟩ := BalancedLinks.exists_chained_of_legalRun run
    exact BalancedLinks.link_rows h inv hp hw hne
  eval_rows {n f links semi values} run h v := by
    obtain ⟨_, inv⟩ := BalancedLinks.exists_chained_of_legalRun run
    obtain ⟨_, _, _, _, _, way, _⟩ := inv.ways v
    exact BalancedLinks.eval_rows h way

end FlowGraph
