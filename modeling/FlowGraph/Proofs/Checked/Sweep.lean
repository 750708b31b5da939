import FlowGraph.Proofs.Checked.Links
import FlowGraph.Proofs.Dominator.Resolution
/-!
Sweeps on flat tables. Every access is checked, a number has to be greater than its semidominator
before it waits for it, what is left waiting for the entry must have the entry for a candidate, and
the last pass may only read a row above the one that it writes. Two accounts are kept: which number
waited for which, and which was settled from which. A sweep over a depth-first tree with a refined
forest loses nothing by the checks, and its accounts show every number once.
-/

set_option autoImplicit false

namespace FlowGraph

/-- A sweep on flat tables, with the accounts of the numbers that waited and of those settled. -/
structure CheckedSweep (R : Type) where
  semi : Array Nat
  idom : Array Nat
  waiting : Array (List Nat)
  forest : R
  entered : List (Nat × Nat)
  settled : List (Nat × Nat)

namespace CheckedSweep

variable {R : Type} [CheckedLinkEval R]

def start (R : Type) [CheckedLinkEval R] (n : Nat) : CheckedSweep R :=
  { semi := Array.range n
    idom := Array.replicate n 0
    waiting := Array.replicate n []
    forest := CheckedLinkEval.singletons n
    entered := []
    settled := [] }

def eval (s : CheckedSweep R) (v : Nat) : Option (Nat × CheckedSweep R) := do
  let (u, forest) ← CheckedLinkEval.eval s.semi v s.forest
  return (u, { s with forest })

def settle (w v : Nat) (s : CheckedSweep R) : Option (CheckedSweep R) := do
  let (u, s) ← s.eval v
  let candidate := if (← s.semi[u]?) < (← s.semi[v]?) then u else w
  return { s with idom := ← writeRow s.idom v candidate, settled := (v, w) :: s.settled }

def lower (w : Nat) (s : CheckedSweep R) (p : Nat) : Option (CheckedSweep R) := do
  let (u, s) ← s.eval p
  let found ← s.semi[u]?
  if found < (← s.semi[w]?) then return { s with semi := ← writeRow s.semi w found }
  else return s

def settleWaiting (s : CheckedSweep R) (w : Nat) : Option (CheckedSweep R) := do
  let row ← s.waiting[w]?
  row.foldrM (settle w) { s with waiting := ← writeRow s.waiting w [] }

def wait (s : CheckedSweep R) (w : Nat) : Option (CheckedSweep R) := do
  let d ← s.semi[w]?
  require (d < w)
  let row ← s.waiting[d]?
  return { s with waiting := ← writeRow s.waiting d (w :: row), entered := (w, d) :: s.entered }

def link (s : CheckedSweep R) (parent w : Nat) : Option (CheckedSweep R) := do
  return { s with forest := ← CheckedLinkEval.link s.semi parent w s.forest }

def step (parents : Array Nat) (predecessors : Array (List Nat)) (s : CheckedSweep R) (w : Nat) :
    Option (CheckedSweep R) := do
  let s ← s.settleWaiting w
  let s ← (← predecessors[w]?).foldlM (lower w) s
  let s ← s.wait w
  s.link (← parents[w]?) w

def taken (R : Type) [CheckedLinkEval R] (parents : Array Nat) (predecessors : Array (List Nat))
    (k : Nat) : Option (CheckedSweep R) :=
  ((List.range parents.size).drop k).foldrM (fun w s => s.step parents predecessors w)
    (start R parents.size)

def resolveAt (semi idom : Array Nat) (w : Nat) : Option (Array Nat) := do
  let candidate ← idom[w]?
  if candidate = (← semi[w]?) then return idom
  else
    require (candidate < w)
    writeRow idom w (← idom[candidate]?)

def finish (s : CheckedSweep R) : Option (Array Nat) := do
  let row ← s.waiting[0]?
  require (∀ v ∈ row, s.idom[v]? = some 0)
  ((List.range s.idom.size).drop 1).foldlM (resolveAt s.semi) s.idom

end CheckedSweep

/-- The immediate dominators by number, with the state of the sweep before the last pass. -/
def checkedIdoms (R : Type) [CheckedLinkEval R] (parents : Array Nat)
    (predecessors : Array (List Nat)) : Option (CheckedSweep R × Array Nat) := do
  let s ← CheckedSweep.taken R parents predecessors 1
  return (s, ← s.finish)

/-- Flat tables that have the parent and the predecessors of every number. -/
structure Flow.HeldBy {n : Nat} (flow : Flow n) (parents : Array Nat)
    (predecessors : Array (List Nat)) : Prop where
  size_parents : parents.size = n
  parents_eq : ∀ w : Fin n, parents[w.val]? = some (flow.parent w).val
  predecessors_eq : ∀ w : Fin n, predecessors[w.val]? = some ((flow.preds w).map Fin.val)

namespace Sweep

private theorem holdsValues_semi {F : Nat → Type} {n : Nat} (s : Sweep F n) :
    HoldsValues (rowsOf Fin.val s.semi) s.values :=
  getElem?_rowsOf Fin.val s.semi

section Rows

variable {F : Nat → Type} {R : Type} [LinkEval F] [CheckedLinkEval R] [RefinedLinkEval F R]
  {n : Nat} {s : Sweep F n} {links : Links n} {w v p : Fin n} {entered settled : List (Nat × Nat)}

def rows (R : Type) [CheckedLinkEval R] [RefinedLinkEval F R] (s : Sweep F n)
    (entered settled : List (Nat × Nat)) : CheckedSweep R :=
  { semi := rowsOf Fin.val s.semi
    idom := rowsOf Fin.val s.idom
    waiting := rowsOf (List.map Fin.val) s.waiting
    forest := RefinedLinkEval.rows s.forest
    entered
    settled }

private theorem Legal.eval_rows (h : s.Legal links) (v : Fin n) :
    (s.rows R entered settled).eval v.val =
      some ((s.eval v).1.val, (s.eval v).2.rows R entered settled) := by
  have heval := RefinedLinkEval.eval_rows (R := R) h s.holdsValues_semi v
  simp only [CheckedSweep.eval, rows, heval, Option.bind_eq_bind, Option.bind_some]
  rfl

private theorem Legal.settle_rows (h : s.Legal links) (w v : Fin n) :
    CheckedSweep.settle w.val v.val (s.rows R entered settled) =
      some ((s.settle w v).rows R entered ((v.val, w.val) :: settled)) := by
  simp only [CheckedSweep.settle, h.eval_rows, Option.bind_eq_bind, Option.bind_some]
  simp only [rows, getElem?_rowsOf, Option.bind_some, ← Fin.lt_def, ← apply_ite Fin.val,
    writeRow_val]
  rfl

omit [CheckedLinkEval R] [RefinedLinkEval F R] in
private theorem Legal.settleAll (h : s.Legal links) (w : Fin n) (vs : List (Fin n)) :
    (vs.foldr (Sweep.settle w) s).Legal links := by
  induction vs with
  | nil => exact h
  | cons v vs ih => exact ih.settle

private theorem Legal.settleAll_rows (h : s.Legal links) (w : Fin n) (vs : List (Fin n)) :
    (vs.map Fin.val).foldrM (CheckedSweep.settle w.val) (s.rows R entered settled) =
      some ((vs.foldr (Sweep.settle w) s).rows R entered
        (vs.map (fun v => (v.val, w.val)) ++ settled)) := by
  induction vs with
  | nil => rfl
  | cons v vs ih =>
    have legal : (vs.foldr (Sweep.settle w) s).Legal links := h.settleAll w vs
    rw [List.map_cons, List.foldrM_cons, ih, Option.bind_eq_bind, Option.bind_some,
      legal.settle_rows]
    rfl

private theorem Legal.lower_rows (h : s.Legal links) (w p : Fin n) :
    CheckedSweep.lower w.val (s.rows R entered settled) p.val =
      some ((s.lower w p).rows R entered settled) := by
  simp only [CheckedSweep.lower, h.eval_rows, Option.bind_eq_bind, Option.bind_some]
  simp only [rows, getElem?_rowsOf, Option.bind_some, ← Fin.lt_def, writeRow_val,
    Sweep.lower]
  split <;> rfl

omit [CheckedLinkEval R] [RefinedLinkEval F R] in
private theorem Legal.lowerAll (h : s.Legal links) (hw : links w = none) (ps : List (Fin n)) :
    (ps.foldl (Sweep.lower w) s).Legal links := by
  induction ps generalizing s with
  | nil => exact h
  | cons p ps ih => exact ih (h.lower hw)

private theorem Legal.lowerAll_rows (h : s.Legal links) (hw : links w = none) (ps : List (Fin n)) :
    (ps.map Fin.val).foldlM (CheckedSweep.lower w.val) (s.rows R entered settled) =
      some ((ps.foldl (Sweep.lower w) s).rows R entered settled) := by
  induction ps generalizing s with
  | nil => rfl
  | cons p ps ih =>
    rw [List.map_cons, List.foldlM_cons, h.lower_rows, Option.bind_eq_bind, Option.bind_some,
      ih (h.lower hw)]
    rfl

private theorem Legal.settleWaiting_rows (h : s.Legal links) (w : Fin n) :
    (s.rows R entered settled).settleWaiting w.val =
      some ((s.settleWaiting w).rows R entered
        ((s.waiting.get w).map (fun v => (v.val, w.val)) ++ settled)) := by
  have legal : Legal { s with waiting := s.waiting.set w [] w.isLt } links := h
  have hsettle : ((s.waiting.get w).map Fin.val).foldrM (CheckedSweep.settle w.val)
      ({ s with waiting := s.waiting.set w [] w.isLt }.rows R entered settled) = _ :=
    legal.settleAll_rows w (s.waiting.get w)
  have hwrite : writeRow (rowsOf (List.map Fin.val) s.waiting) w.val [] =
      some (rowsOf (List.map Fin.val) (s.waiting.set w [] w.isLt)) :=
    writeRow_rowsOf List.map_nil w
  simp only [rows] at hsettle
  simp only [CheckedSweep.settleWaiting, rows, getElem?_rowsOf, hwrite, hsettle,
    Option.bind_eq_bind, Option.bind_some]
  rfl

private theorem wait_rows (s : Sweep F n) (hlt : s.semi.get w < w) :
    (s.rows R entered settled).wait w.val =
      some ((s.wait w).rows R ((w.val, (s.semi.get w).val) :: entered) settled) := by
  have hwrite : writeRow (rowsOf (List.map Fin.val) s.waiting) (s.semi.get w).val
      (w.val :: (s.waiting.get (s.semi.get w)).map Fin.val) = _ :=
    writeRow_rowsOf (x := w :: s.waiting.get (s.semi.get w)) rfl _
  simp only [CheckedSweep.wait, rows, getElem?_rowsOf, require_of (show _ < w.val from hlt),
    hwrite, Option.bind_eq_bind, Option.bind_some]
  rfl

private theorem Legal.link_rows (h : s.Legal links) (hp : links p = none) (hw : links w = none)
    (hne : p ≠ w) : (s.rows R entered settled).link p.val w.val =
      some ((s.link p w).rows R entered settled) := by
  have hlink := RefinedLinkEval.link_rows (R := R) h s.holdsValues_semi hp hw hne
  simp only [CheckedSweep.link, rows, hlink, Option.bind_eq_bind, Option.bind_some]
  rfl

private theorem Legal.step_rows {flow : Flow n} {parents : Array Nat}
    {predecessors : Array (List Nat)} (h : s.Legal links) (held : flow.HeldBy parents predecessors)
    (hp : links (flow.parent w) = none) (hw : links w = none) (hne : flow.parent w ≠ w)
    (hlt : (s.step flow w).semi.get w < w) :
    (s.rows R entered settled).step parents predecessors w.val =
      some ((s.step flow w).rows R ((w.val, ((s.step flow w).semi.get w).val) :: entered)
        ((s.waiting.get w).map (fun v => (v.val, w.val)) ++ settled)) := by
  have legal₀ : Legal { s with waiting := s.waiting.set w [] w.isLt } links := h
  have legal₁ : (s.settleWaiting w).Legal links := legal₀.settleAll w (s.waiting.get w)
  have legal₂ := legal₁.lowerAll hw (flow.preds w)
  have legal₃ : (((flow.preds w).foldl (Sweep.lower w) (s.settleWaiting w)).wait w).Legal links :=
    legal₂
  have hlt' : ((flow.preds w).foldl (Sweep.lower w) (s.settleWaiting w)).semi.get w < w := hlt
  simp only [CheckedSweep.step, h.settleWaiting_rows, held.predecessors_eq w, held.parents_eq w,
    legal₁.lowerAll_rows hw, wait_rows _ hlt', legal₃.link_rows hp hw hne, Option.bind_eq_bind,
    Option.bind_some]
  rfl

end Rows

variable {n : Nat} [HasEntry n] {flow : Flow n}

private theorem Swept.semi_eq {s s' : Sweep Links n} {w v : Fin n} (h : Swept flow (w.val + 1) s)
    (h' : Swept flow w.val s') (hne : v ≠ w) : s'.semi.get v = s.semi.get v := by
  rcases Nat.lt_or_gt_of_ne (Fin.val_ne_of_ne hne) with hlt | hgt
  · rw [h'.before v hlt, h.before v (Nat.lt_succ_of_lt hlt)]
  · exact (h'.after v hgt.le).unique (h.after v hgt)

/-- The accounts when the numbers from `k` up are taken: each of them waited once, for its
semidominator, and those with a semidominator that was taken are settled, each once. -/
structure Accounts (k : Nat) (semi : Fin n → Fin n) (entered settled : List (Nat × Nat)) :
    Prop where
  entered_eq : entered = ((List.finRange n).drop k).map fun v => (v.val, (semi v).val)
  settled_eq : ∃ vs : List (Fin n), settled = vs.map (fun v => (v.val, (semi v).val)) ∧
    vs.Nodup ∧ ∀ v, v ∈ vs ↔ k ≤ (semi v).val

private theorem Accounts.take {s s' : Sweep Links n} {w : Fin n}
    {entered settled : List (Nat × Nat)} (acc : Accounts (w.val + 1) s.semi.get entered settled)
    (h : Swept flow (w.val + 1) s) (h' : Swept flow w.val s') (hlt : s'.semi.get w < w) :
    Accounts w.val s'.semi.get ((w.val, (s'.semi.get w).val) :: entered)
      ((s.waiting.get w).map (fun v => (v.val, w.val)) ++ settled) := by
  obtain ⟨rfl, vs, rfl, nodup, mem⟩ := acc
  constructor
  · rw [drop_finRange, List.map_cons]
    congr 1
    refine List.map_congr_left fun v hv => ?_
    have hne : v ≠ w := by
      rintro rfl
      exact absurd (mem_drop_finRange.1 hv) (Nat.not_succ_le_self _)
    rw [h.semi_eq h' hne]
  · have old : ∀ v ∈ s.waiting.get w ++ vs, v ≠ w := by
      intro v hv
      rcases List.mem_append.1 hv with hv | hv
      · exact (h.mem_waiting.1 hv).1.ne'
      · have hle := (mem v).1 hv
        rintro rfl
        rw [h.before v v.val.lt_succ_self] at hle
        exact absurd hle (Nat.not_succ_le_self _)
    refine ⟨s.waiting.get w ++ vs, ?_, ?_, fun v => ?_⟩
    · rw [List.map_append]
      congr 1
      · refine List.map_congr_left fun v hv => ?_
        rw [h.semi_eq h' (old v (List.mem_append_left _ hv)), (h.mem_waiting.1 hv).2]
      · refine List.map_congr_left fun v hv => ?_
        rw [h.semi_eq h' (old v (List.mem_append_right _ hv))]
    · have hwaiting : (s.waiting.get w).Nodup := by
        rw [h.waiting w, if_pos w.val.lt_succ_self]
        exact ((List.nodup_finRange n).sublist (List.drop_sublist _ _)).filter _
      refine List.nodup_append.2 ⟨hwaiting, nodup, ?_⟩
      rintro v hv x hx rfl
      have hle := (mem v).1 hx
      rw [(h.mem_waiting.1 hv).2] at hle
      exact absurd hle (Nat.not_succ_le_self _)
    · by_cases hvw : v = w
      · subst hvw
        constructor
        · exact fun hmem => absurd rfl (old v hmem)
        · exact fun hle => absurd hlt (Nat.not_lt_of_le hle)
      · rw [h.semi_eq h' hvw, List.mem_append, h.mem_waiting, mem]
        constructor
        · rintro (⟨-, heq⟩ | hle)
          · rw [heq]
          · omega
        · intro hle
          rcases hle.eq_or_lt with heq | hlt
          · have heq : s.semi.get v = w := Fin.ext heq.symm
            refine Or.inl ⟨lt_of_le_of_ne (le_of_not_gt fun hlt => ?_) (Ne.symm hvw), heq⟩
            rw [h.before v (Nat.lt_succ_of_lt hlt)] at heq
            exact hvw heq
          · exact Or.inr hlt

private theorem rows_start (F : Nat → Type) (R : Type) [LinkEval F] [CheckedLinkEval R]
    [RefinedLinkEval F R] (n : Nat) [HasEntry n] :
    (start F n).rows R [] [] = CheckedSweep.start R n := by
  rw [rows, start, CheckedSweep.start, rowsOf_id, rowsOf_replicate, rowsOf_replicate,
    RefinedLinkEval.rows_singletons]
  simp

theorem exists_taken_rows (F : Nat → Type) (R : Type) [LinkEval F] [LawfulLinkEval F]
    [CheckedLinkEval R] [RefinedLinkEval F R] (df : flow.DepthFirst)
    {parents : Array Nat} {predecessors : Array (List Nat)}
    (held : flow.HeldBy parents predecessors) {k : Nat} (hk : 0 < k) (hkn : k ≤ n) :
    ∃ entered settled, Accounts k (taken F flow k).semi.get entered settled ∧
      CheckedSweep.taken R parents predecessors k =
        some ((taken F flow k).rows R entered settled) := by
  induction hkn using Nat.decreasingInduction with
  | self =>
    rw [taken_of_le F flow le_rfl]
    refine ⟨[], [], ⟨?_, [], rfl, List.nodup_nil, fun v => ?_⟩, ?_⟩
    · rw [List.drop_eq_nil_of_le (by simp), List.map_nil]
    · simp
    · rw [CheckedSweep.taken, held.size_parents, List.drop_eq_nil_of_le (by simp), rows_start]
      rfl
  | of_succ k hkn ih =>
    obtain ⟨entered, settled, acc, heq⟩ := ih k.succ_pos
    obtain ⟨legal, run⟩ := freeRun_taken F df k.succ_pos hkn
    obtain ⟨-, run'⟩ := freeRun_taken F df hk hkn.le
    let w : Fin n := ⟨k, hkn⟩
    have h : Swept flow (w.val + 1) ((taken F flow (k + 1)).withForest (flow.links (k + 1))) :=
      run.swept df
    have h' : Swept flow w.val ((taken F flow k).withForest (flow.links k)) := run'.swept df
    have hw : w ≠ 0 := by
      intro h
      exact absurd (congrArg Fin.val h) (by simpa [w] using hk.ne')
    have hlt : (taken F flow k).semi.get w < w := df.lt_of_isSemi (h'.after w le_rfl) hw
    refine ⟨_, _, acc.take h h' hlt, ?_⟩
    have hparent : flow.links (k + 1) (flow.parent w) = none :=
      Flow.links_eq_none_iff.2 (Nat.lt_succ_of_lt (df.parent_lt w hw))
    have hroot : flow.links (k + 1) w = none := Flow.links_eq_none_iff.2 k.lt_succ_self
    have hsplit : (List.range n).drop k = k :: (List.range n).drop (k + 1) := by
      rw [List.drop_eq_getElem_cons (by simpa using hkn), List.getElem_range]
    rw [CheckedSweep.taken, held.size_parents] at heq ⊢
    rw [taken_eq_step F flow hkn] at hlt ⊢
    rw [hsplit, List.foldrM_cons, heq, Option.bind_eq_bind, Option.bind_some]
    exact legal.step_rows held hparent hroot (df.parent_lt w hw).ne hlt

end Sweep

section LastPass

variable {n : Nat} {semi idom : Vector (Fin n) n}

private theorem resolveAt_rows {w : Fin n} (hlt : idom.get w < w) :
    CheckedSweep.resolveAt (rowsOf Fin.val semi) (rowsOf Fin.val idom) w.val =
      some (rowsOf Fin.val (resolveAt semi idom w)) := by
  have hlt' : (idom.get w).val < w.val := hlt
  simp only [CheckedSweep.resolveAt, getElem?_rowsOf, require_of hlt', writeRow_val,
    Option.bind_eq_bind, Option.bind_some, Fin.val_inj, resolveAt]
  split <;> rfl

variable [HasEntry n] {flow : Flow n}

private theorem resolved_rows (h : flow.Resolvable semi idom) (df : flow.DepthFirst) {k : Nat}
    (hk : k + 1 ≤ n) :
    (((List.range n).drop 1).take k).foldlM (CheckedSweep.resolveAt (rowsOf Fin.val semi))
      (rowsOf Fin.val idom) = some (rowsOf Fin.val (resolved semi idom (k + 1))) := by
  induction k with
  | zero =>
    have hfirst : (⟨0, hk⟩ : Fin n) = 0 := Fin.ext (by simp)
    have hsame : resolveAt semi idom (0 : Fin n) = idom := by
      simp only [resolveAt, h.idom_zero, h.semi_zero, if_true]
    rw [resolved_succ semi idom hk, resolved_zero, hfirst, hsame]
    rfl
  | succ k ih =>
    let w : Fin n := ⟨k + 1, hk⟩
    have hw : w ≠ 0 := fun heq => by simpa [w] using congrArg Fin.val heq
    obtain ⟨hahead, hlt⟩ := h.ahead df hw
    have htake : ((List.range n).drop 1).take (k + 1) =
        ((List.range n).drop 1).take k ++ [w.val] := by
      rw [List.take_succ_eq_append_getElem (by simp; omega)]
      simp [w, Nat.add_comm]
    rw [htake, List.foldlM_append, ih (Nat.le_of_succ_le hk), Option.bind_eq_bind,
      Option.bind_some, List.foldlM_cons, resolveAt_rows (hahead.symm ▸ hlt),
      resolved_succ semi idom hk]
    rfl

theorem Sweep.Swept.finish_rows {F : Nat → Type} {R : Type} [LinkEval F] [CheckedLinkEval R]
    [RefinedLinkEval F R] {s : Sweep F n} {links : Links n} {entered settled : List (Nat × Nat)}
    (h : Swept flow 1 (s.withForest links)) (df : flow.DepthFirst) :
    (s.rows R entered settled).finish = some (rowsOf Fin.val (resolved s.semi s.idom n)) := by
  have hn : 1 ≤ n := Nat.one_le_iff_ne_zero.2 (NeZero.ne n)
  have hrow : (s.rows R entered settled).waiting[0]? =
      some ((s.waiting.get (0 : Fin n)).map Fin.val) := by
    rw [rows, ← getElem?_rowsOf, Fin.val_zero]
  have hfirst : ∀ v ∈ (s.waiting.get (0 : Fin n)).map Fin.val,
      (s.rows R entered settled).idom[v]? = some 0 := by
    intro v hv
    obtain ⟨x, hx, rfl⟩ := List.mem_map.1 hv
    have hwaiting := h.waiting 0
    rw [Fin.val_zero, if_pos Nat.one_pos] at hwaiting
    have hmem : x ∈ (s.withForest links).waiting.get (0 : Fin n) := hx
    rw [hwaiting] at hmem
    have hsemi : s.semi.get x = 0 := of_decide_eq_true (List.mem_filter.1 hmem).2
    have hidom : s.idom.get x = 0 := h.unsettled x (by simp [withForest, hsemi])
    rw [rows, getElem?_rowsOf, hidom, Fin.val_zero]
  have hlast := resolved_rows h.resolvable df (k := n - 1) (by omega)
  have htake : ((List.range n).drop 1).take (n - 1) = (List.range n).drop 1 :=
    List.take_of_length_le (by simp)
  rw [htake, Nat.sub_add_cancel hn] at hlast
  have hsize : (s.rows R entered settled).idom.size = n := size_rowsOf Fin.val s.idom
  rw [CheckedSweep.finish, hrow, Option.bind_eq_bind, Option.bind_some, require_of hfirst,
    Option.bind_eq_bind, Option.bind_some, hsize]
  exact hlast

end LastPass

end FlowGraph
