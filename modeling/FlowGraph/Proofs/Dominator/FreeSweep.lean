import FlowGraph.Proofs.Dominator.DepthFirst
import FlowGraph.Proofs.Index.Rows
import FlowGraph.Proofs.LinkEval.Contract
/-!
Sweeps whose queries are answered freely. Instead of a forest, a free sweep keeps the links that
were made, and each query may have any answer that the contract of forests allows. A sweep with a
lawful forest is one of them.
-/

set_option autoImplicit false

namespace FlowGraph

variable {n : Nat}

namespace Sweep

variable {F G : Nat → Type}

def values (s : Sweep F n) : Fin n → Nat := fun u => (s.semi.get u).val

def withForest (s : Sweep F n) (f : G n) : Sweep G n :=
  { semi := s.semi, idom := s.idom, waiting := s.waiting, forest := f }

/-- The candidate of `v`, which waited for `w`, after the answer `u`. -/
def record (s : Sweep F n) (w v u : Fin n) : Sweep F n :=
  let candidate := if s.semi.get u < s.semi.get v then u else w
  { s with idom := s.idom.set v candidate v.isLt }

/-- The semidominator of `w` after the answer `u` for a predecessor. -/
def improve (s : Sweep F n) (w u : Fin n) : Sweep F n :=
  let found := s.semi.get u
  if found < s.semi.get w then { s with semi := s.semi.set w found w.isLt } else s

def hang (s : Sweep Links n) (parent w : Fin n) : Sweep Links n :=
  { s with forest := Function.update s.forest w (some parent) }

inductive Settled (w : Fin n) : List (Fin n) → Sweep Links n → Sweep Links n → Prop
  | done (s : Sweep Links n) : Settled w [] s s
  | next {v u : Fin n} {vs : List (Fin n)} {s s' : Sweep Links n} (rest : Settled w vs s s')
      (answer : Answers s'.forest s'.values v u) : Settled w (v :: vs) s (s'.record w v u)

inductive Lowered (w : Fin n) : List (Fin n) → Sweep Links n → Sweep Links n → Prop
  | done (s : Sweep Links n) : Lowered w [] s s
  | next {p u : Fin n} {ps : List (Fin n)} {s s' : Sweep Links n}
      (answer : Answers s.forest s.values p u) (rest : Lowered w ps (s.improve w u) s') :
      Lowered w (p :: ps) s s'

/-- The sweeps in which every query has some allowed answer: `FreeRun flow k s` says that `s` may
be the state when the numbers from `k` up are taken. -/
inductive FreeRun [HasEntry n] (flow : Flow n) : Nat → Sweep Links n → Prop
  | start : FreeRun flow n
      { semi := Vector.ofFn id
        idom := Vector.replicate n 0
        waiting := Vector.replicate n []
        forest := fun _ => none }
  | take {w : Fin n} {s s' s'' : Sweep Links n} (hw : w ≠ 0) (run : FreeRun flow (w.val + 1) s)
      (settled : Settled w (s.waiting.get w) { s with waiting := s.waiting.set w [] w.isLt } s')
      (lowered : Lowered w (flow.preds w) s' s'') :
      FreeRun flow w.val ((s''.wait w).hang (flow.parent w) w)

@[simp] theorem improve_forest (s : Sweep F n) (w u : Fin n) :
    (s.improve w u).forest = s.forest := by
  simp only [improve]
  split <;> rfl

@[simp] theorem improve_idom (s : Sweep F n) (w u : Fin n) : (s.improve w u).idom = s.idom := by
  simp only [improve]
  split <;> rfl

@[simp] theorem improve_waiting (s : Sweep F n) (w u : Fin n) :
    (s.improve w u).waiting = s.waiting := by
  simp only [improve]
  split <;> rfl

private theorem improve_withForest (s : Sweep F n) (f : G n) (w u : Fin n) :
    (s.improve w u).withForest f = (s.withForest f).improve w u := by
  by_cases h : s.semi.get u < s.semi.get w
  · have h' : (s.withForest f).semi.get u < (s.withForest f).semi.get w := h
    simp only [improve, if_pos h, if_pos h']
    rfl
  · have h' : ¬ (s.withForest f).semi.get u < (s.withForest f).semi.get w := h
    simp only [improve, if_neg h, if_neg h']

theorem improve_semi (s : Sweep F n) (w u v : Fin n) :
    (s.improve w u).semi.get v =
      if v = w then min (s.semi.get w) (s.semi.get u) else s.semi.get v := by
  simp only [improve]
  split
  next h =>
    rw [get_set]
    by_cases hv : v = w
    · simp only [hv, if_true, min_eq_right h.le]
    · simp only [hv, if_false]
  next h =>
    by_cases hv : v = w
    · simp only [hv, if_true, min_eq_left (le_of_not_gt h)]
    · simp only [hv, if_false]

end Sweep

namespace Flow

/-- The links when the numbers from `k` up are linked below their parents. -/
def links (flow : Flow n) (k : Nat) : Links n :=
  fun v => if k ≤ v.val then some (flow.parent v) else none

variable {flow : Flow n} {k : Nat} {v w : Fin n}

theorem links_eq_none_iff : flow.links k v = none ↔ v.val < k := by
  simp [links]

theorem links_of_le (h : k ≤ v.val) : flow.links k v = some (flow.parent v) :=
  if_pos h

theorem exists_parent_eq_root {r : Fin n} {path : List (Fin n)}
    (way : Ascent (flow.links k) v path r) (hne : v ≠ r) : ∃ z ∈ path, flow.parent z = r := by
  induction way with
  | root _ => exact absurd rfl hne
  | @step v a r path h _ ih =>
    have ha : flow.parent v = a := by
      unfold links at h
      split at h
      · exact Option.some.inj h
      · cases h
    by_cases har : a = r
    · exact ⟨v, List.mem_cons_self, ha.trans har⟩
    · obtain ⟨z, hz, hzr⟩ := ih har
      exact ⟨z, List.mem_cons_of_mem v hz, hzr⟩

theorem links_length (flow : Flow n) : flow.links n = fun _ => none := by
  ext v
  simp [links_eq_none_iff.2 v.isLt]

theorem update_links (flow : Flow n) (w : Fin n) :
    Function.update (flow.links (w.val + 1)) w (some (flow.parent w)) = flow.links w.val := by
  ext1 v
  rw [Function.update_apply]
  by_cases hv : v = w
  · rw [if_pos hv, hv, links_of_le le_rfl]
  · have hne : v.val ≠ w.val := fun h => hv (Fin.ext h)
    have hiff : w.val + 1 ≤ v.val ↔ w.val ≤ v.val := by omega
    simp only [if_neg hv, links, hiff]

end Flow

namespace Sweep

section Lawful

variable {F : Nat → Type} [LinkEval F] {links : Links n} {w v p : Fin n}

def Legal (s : Sweep F n) (links : Links n) : Prop := LegalRun F s.forest links s.values

private theorem Legal.answers [LawfulLinkEval F] {s : Sweep F n} (h : s.Legal links) (v : Fin n) :
    Answers links s.values v (s.eval v).1 :=
  LawfulLinkEval.answers h v

theorem Legal.settle {s : Sweep F n} (h : s.Legal links) : (s.settle w v).Legal links :=
  LegalRun.eval v h

private theorem lower_eq (s : Sweep F n) (w p : Fin n) :
    s.lower w p = (s.eval p).2.improve w (s.eval p).1 := rfl

theorem Legal.lower {s : Sweep F n} (h : s.Legal links) (hw : links w = none) :
    (s.lower w p).Legal links := by
  have run : LegalRun F (s.eval p).2.forest links s.values := LegalRun.eval p h
  unfold Legal
  rw [lower_eq, improve_forest]
  refine run.revalue ?_
  intro v hv
  have hne : v ≠ w := by
    rintro rfl
    exact hv hw
  simp only [values, improve_semi, if_neg hne]
  rfl

private theorem Legal.settled [LawfulLinkEval F] {s : Sweep F n} (h : s.Legal links) (w : Fin n)
    (vs : List (Fin n)) :
    (vs.foldr (Sweep.settle w) s).Legal links ∧
      Settled w vs (s.withForest links) ((vs.foldr (Sweep.settle w) s).withForest links) := by
  induction vs with
  | nil => exact ⟨h, Settled.done _⟩
  | cons v vs ih =>
    obtain ⟨legal, settled⟩ := ih
    exact ⟨legal.settle, settled.next (legal.answers v)⟩

private theorem Legal.lowered [LawfulLinkEval F] {s : Sweep F n} (h : s.Legal links)
    (hw : links w = none) (ps : List (Fin n)) :
    (ps.foldl (Sweep.lower w) s).Legal links ∧
      Lowered w ps (s.withForest links) ((ps.foldl (Sweep.lower w) s).withForest links) := by
  induction ps generalizing s with
  | nil => exact ⟨h, Lowered.done _⟩
  | cons p ps ih =>
    obtain ⟨legal, lowered⟩ := ih (h.lower hw)
    refine ⟨legal, Lowered.next (h.answers p) ?_⟩
    have heq : (s.lower w p).withForest links =
        (s.withForest links).improve w (s.eval p).1 :=
      improve_withForest (s.eval p).2 links w (s.eval p).1
    rwa [heq] at lowered

private theorem Legal.hang {s : Sweep F n} (h : s.Legal links) (hp : links p = none)
    (hw : links w = none) (ne : p ≠ w) :
    (s.link p w).Legal (Function.update links w (some p)) :=
  LegalRun.link h hp hw ne

theorem freeRun_taken (F : Nat → Type) [LinkEval F] [LawfulLinkEval F] [HasEntry n] {flow : Flow n}
    (df : flow.DepthFirst) {k : Nat} (hk : 0 < k) (hkn : k ≤ n) :
    (taken F flow k).Legal (flow.links k) ∧
      FreeRun flow k ((taken F flow k).withForest (flow.links k)) := by
  induction hkn using Nat.decreasingInduction with
  | self =>
    rw [taken_of_le F flow le_rfl, flow.links_length]
    exact ⟨LegalRun.start _, FreeRun.start⟩
  | of_succ k hkn ih =>
    obtain ⟨legal, run⟩ := ih k.succ_pos
    rw [taken_eq_step F flow hkn]
    generalize taken F flow (k + 1) = s at legal run
    let w : Fin n := ⟨k, hkn⟩
    have hw : w ≠ 0 := by
      intro h
      exact absurd (congrArg Fin.val h) (by simpa [w] using hk.ne')
    have hroot : flow.links (k + 1) w = none := Flow.links_eq_none_iff.2 k.lt_succ_self
    have hparent : flow.links (k + 1) (flow.parent w) = none :=
      Flow.links_eq_none_iff.2 (Nat.lt_succ_of_lt (df.parent_lt w hw))
    have legal₀ : Legal { s with waiting := s.waiting.set w [] w.isLt } (flow.links (k + 1)) :=
      legal
    obtain ⟨legal₁, settled⟩ := legal₀.settled w (s.waiting.get w)
    obtain ⟨legal₂, lowered⟩ := legal₁.lowered hroot (flow.preds w)
    have legal₃ := Legal.hang (s := (List.foldl (lower w) _ (flow.preds w)).wait w) legal₂ hparent
      hroot (df.parent_lt w hw).ne
    rw [flow.update_links w] at legal₃
    refine ⟨legal₃, ?_⟩
    have links_eq := flow.update_links w
    change Function.update (flow.links (k + 1)) w (some (flow.parent w)) = flow.links k at links_eq
    rw [← links_eq]
    exact FreeRun.take hw run settled lowered

end Lawful

end Sweep

end FlowGraph
