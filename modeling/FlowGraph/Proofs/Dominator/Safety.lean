import FlowGraph.Proofs.Checked.Sweep
import FlowGraph.Proofs.Search.Exploration
/-!
Sweeps over the trees of searches are safe. With either forest, the checked sweep over the flat
tables of the tree loses nothing by its checks and ends with the immediate dominators; its accounts
show that every number but the entry waited once and, unless it waited for the entry, was settled
once; and the last pass reads rows that are final.
-/

set_option autoImplicit false

namespace FlowGraph

universe u

private theorem filter_account {n : Nat} {g : Fin n → Nat} {vs : List (Fin n)} (nodup : vs.Nodup)
    (w : Fin n) : (vs.map fun v => (v.val, g v)).filter (fun e => e.1 = w.val) =
      if w ∈ vs then [(w.val, g w)] else [] := by
  induction vs with
  | nil => rfl
  | cons v vs ih =>
    obtain ⟨hv, hvs⟩ := List.nodup_cons.1 nodup
    rw [List.map_cons, List.filter_cons, ih hvs]
    by_cases hvw : v = w
    · subst hvw
      simp [hv]
    · have hne : v.val ≠ w.val := Fin.val_ne_of_ne hvw
      simp [hne, Ne.symm hvw]

/-- Every number but 0 entered one list of waiting numbers, that of its semidominator, which is
less than it; and it was settled from there, once, unless that is the list of 0. -/
structure CheckedSweep.SeesEachOnce {R : Type} (n : Nat) (s : CheckedSweep R) : Prop where
  entered_once : ∀ w, 0 < w → w < n → ∃ d, s.semi[w]? = some d ∧ d < w ∧
    s.entered.filter (fun e => e.1 = w) = [(w, d)]
  settled_once : ∀ w d, (w, d) ∈ s.entered →
    s.settled.filter (fun e => e.1 = w) = if d = 0 then [] else [(w, d)]

/-- A number whose candidate is not its semidominator is resolved through a row above its own that
no later step of the last pass changes. -/
def ReadsFinalRows {n : Nat} [HasEntry n] (semi idom : Vector (Fin n) n) : Prop :=
  ∀ w : Fin n, w ≠ 0 → let table := resolved semi idom w.val
    table.get w ≠ semi.get w → table.get w < w ∧
      ∀ k, w.val ≤ k → k ≤ n → (resolved semi idom k).get (table.get w) = table.get (table.get w)

private theorem Flow.Resolvable.readsFinalRows {n : Nat} [HasEntry n] {flow : Flow n}
    {semi idom : Vector (Fin n) n} (h : flow.Resolvable semi idom) (df : flow.DepthFirst) :
    ReadsFinalRows semi idom := by
  intro w hw table _
  obtain ⟨hahead, hlt⟩ := h.ahead df hw
  have hlt' : table.get w < w := hahead.symm ▸ hlt
  exact ⟨hlt', fun k hwk hk => get_resolved_of_lt semi idom hwk hk hlt'⟩

namespace Sweep

variable {n : Nat} [HasEntry n] {flow : Flow n}

private theorem Accounts.seesEachOnce {F : Nat → Type} {R : Type} [LinkEval F] [CheckedLinkEval R]
    [RefinedLinkEval F R] {s : Sweep F n} {s' : Sweep Links n} {entered settled : List (Nat × Nat)}
    (acc : Accounts 1 s.semi.get entered settled) (h : Swept flow 1 s') (hsemi : s'.semi = s.semi)
    (df : flow.DepthFirst) : (s.rows R entered settled).SeesEachOnce n := by
  obtain ⟨rfl, vs, rfl, nodup, mem⟩ := acc
  have hdrop : ((List.finRange n).drop 1).Nodup :=
    (List.nodup_finRange n).sublist (List.drop_sublist 1 _)
  constructor
  · intro w hw hwn
    have hmem : (⟨w, hwn⟩ : Fin n) ∈ (List.finRange n).drop 1 := mem_drop_finRange.2 hw
    have hlt : s.semi.get ⟨w, hwn⟩ < ⟨w, hwn⟩ := by
      rw [← hsemi]
      refine df.lt_of_isSemi (h.after ⟨w, hwn⟩ hw) fun heq => ?_
      simp [Fin.ext_iff] at heq
      omega
    refine ⟨(s.semi.get ⟨w, hwn⟩).val, getElem?_rowsOf Fin.val s.semi ⟨w, hwn⟩, hlt, ?_⟩
    have hfilter := filter_account (g := fun v => (s.semi.get v).val) hdrop ⟨w, hwn⟩
    rwa [if_pos hmem] at hfilter
  · intro w d hd
    obtain ⟨v, -, heq⟩ := List.mem_map.1 hd
    obtain ⟨rfl, rfl⟩ := Prod.mk.inj heq
    have hfilter := filter_account (g := fun v => (s.semi.get v).val) nodup v
    simp only [mem, Nat.one_le_iff_ne_zero] at hfilter
    rw [rows, hfilter, ite_not]

private theorem exists_checkedIdoms (F : Nat → Type) (R : Type) [LinkEval F] [LawfulLinkEval F]
    [CheckedLinkEval R] [RefinedLinkEval F R] (df : flow.DepthFirst) {parents : Array Nat}
    {predecessors : Array (List Nat)} (held : flow.HeldBy parents predecessors) :
    ∃ s, checkedIdoms R parents predecessors = some (s, rowsOf Fin.val (flow.idoms F)) ∧
      s.SeesEachOnce n := by
  have hn : 1 ≤ n := Nat.one_le_iff_ne_zero.2 (NeZero.ne n)
  obtain ⟨entered, settled, acc, heq⟩ := exists_taken_rows F R df held Nat.one_pos hn
  have h := (freeRun_taken F df Nat.one_pos hn).2.swept df
  refine ⟨_, ?_, acc.seesEachOnce (R := R) h rfl df⟩
  rw [checkedIdoms, heq, Option.bind_eq_bind, Option.bind_some, h.finish_rows df]
  rfl

/-- A number that is its own parent cannot be linked. -/
example : (checkedIdoms SimpleRows #[0, 1] #[[], [0]]).isNone = true := by decide

end Sweep

namespace SpanningTree

variable {N : Type u}

private theorem flow_heldBy (t : SpanningTree N) : t.flow.HeldBy t.parents t.predecessors where
  size_parents := t.valid.size_parents
  parents_eq w :=
    Array.getElem?_eq_getElem (w.isLt.trans_eq t.valid.size_parents.symm)
  predecessors_eq w := by
    have hw : w.val < t.predecessors.size := w.isLt.trans_eq t.valid.size_predecessors.symm
    have hpreds : (t.preds w).map Fin.val = t.predecessors[w.val] := by
      rw [map_val_preds, Tables.predsAt, Array.getElem?_eq_getElem hw, Option.getD_some]
    exact (Array.getElem?_eq_getElem hw).trans (congrArg some hpreds.symm)

/-- The sweep over a tree is safe. On the flat tables of the tree and with the checked forest `R` no
access is out of range, no link is of a node that has an ancestor or of a node to itself, no
compression begins at a root, no loop goes on for too long and no assertion fails: there is a
result, and it is the table that the sweep with the forest `F` computes. Every number enters one
list and is settled from it once, and the last pass reads final rows.

The links are those of the numbers to their parents, with any forest. With plain links a node that
is linked already has an ancestor, so there it is seen that both nodes are still roots. In the
forest balanced by size the heads below a root have no ancestor either. -/
structure RunsSafely (F : Nat → Type) [LinkEval F] (R : Type) [CheckedLinkEval R]
    (t : SpanningTree N) : Prop where
  result : ∃ s, checkedIdoms R t.parents t.predecessors =
      some (s, ((t.flow.idoms F).map Fin.val).toArray) ∧ s.SeesEachOnce t.size
  final : ReadsFinalRows (Sweep.taken F t.flow 1).semi (Sweep.taken F t.flow 1).idom

private theorem runsSafely (F : Nat → Type) (R : Type) [LinkEval F] [LawfulLinkEval F]
    [CheckedLinkEval R] [RefinedLinkEval F R] {t : SpanningTree N} (df : t.flow.DepthFirst) :
    t.RunsSafely F R := by
  have hn : 1 ≤ t.size := Nat.one_le_iff_ne_zero.2 (NeZero.ne t.size)
  have h := (Sweep.freeRun_taken F df Nat.one_pos hn).2.swept df
  exact ⟨Sweep.exists_checkedIdoms F R df t.flow_heldBy, h.resolvable.readsFinalRows df⟩

variable [Node N] {g : Graph N} {bound : Nat} {entry : N} {t : SpanningTree N}

/-- Over the tree of any search the sweep is safe, with plain links and with the forest balanced by
size. -/
theorem runsSafely_of_explore (h : (g.explore bound entry).result = .ok t) :
    t.RunsSafely SimpleLinks SimpleRows ∧ t.RunsSafely BalancedLinks BalancedRows := by
  have df := depthFirst_of_explore h
  exact ⟨runsSafely SimpleLinks SimpleRows df, runsSafely BalancedLinks BalancedRows df⟩

theorem runsSafely_of_deferred :
    ∃ t, ((Graph.ofRows [[1, 3], [2, 4], [3], [4], []]).explore 5 0).result = .ok t ∧
      t.RunsSafely SimpleLinks SimpleRows ∧ t.RunsSafely BalancedLinks BalancedRows := by
  have room := Graph.encard_reachable_ofRows [[1, 3], [2, 4], [3], [4], []] 0 (by decide)
    (by decide)
  obtain ⟨t, ht⟩ := Graph.exists_explore room
  exact ⟨t, ht, runsSafely_of_explore ht⟩

end SpanningTree

end FlowGraph
