import FlowGraph.Proofs.LinkEval.Contract
/-!
Runs of a forest as lists of calls. Each call brings the values of its time. A query may change
the forest; that it changes no later answer is shown by relating forests that no call can tell
apart: queries to one side only keep them related, and links and values of nodes not linked yet
keep them so when both sides see them.
-/

set_option autoImplicit false

namespace FlowGraph

/-- A call of a forest, with the values at its time. -/
inductive Call (n : Nat) where
  | link (semi : Fin n → Nat) (parent node : Fin n)
  | eval (semi : Fin n → Nat) (node : Fin n)

namespace Call

variable {n : Nat}

def isEval : Call n → Bool
  | link .. => false
  | eval .. => true

section Perform

variable {F : Nat → Type} [LinkEval F]

/-- The answer of a call, none of a link, and the forest afterwards. -/
def perform (f : F n) : Call n → Option (Fin n) × F n
  | link semi p w => (none, LinkEval.link semi p w f)
  | eval semi v =>
    let answer := LinkEval.eval semi v f
    (some answer.1, answer.2)

def answers (f : F n) : List (Call n) → List (Option (Fin n))
  | [] => []
  | c :: calls => (perform f c).1 :: answers (perform f c).2 calls

end Perform

/-- Whether calls may follow after some links, when the values were last `semi`. Only a root is
linked, below the root of another tree, and values change only where a node is not linked yet. -/
def Legal (links : Links n) (semi : Fin n → Nat) : List (Call n) → Prop
  | [] => True
  | link semi' p w :: calls =>
    (∀ v, links v ≠ none → semi' v = semi v) ∧ links p = none ∧ links w = none ∧ p ≠ w ∧
      Legal (Function.update links w (some p)) semi' calls
  | eval semi' _ :: calls =>
    (∀ v, links v ≠ none → semi' v = semi v) ∧ Legal links semi' calls

instance decidableLegal (links : Links n) (semi : Fin n → Nat) :
    (calls : List (Call n)) → Decidable (Legal links semi calls)
  | [] => inferInstanceAs (Decidable True)
  | link semi' p w :: calls =>
    have := decidableLegal (Function.update links w (some p)) semi' calls
    inferInstanceAs (Decidable (_ ∧ _ ∧ _ ∧ _ ∧ _))
  | eval semi' _ :: calls =>
    have := decidableLegal links semi' calls
    inferInstanceAs (Decidable (_ ∧ _))

def kept {α : Type} (keep : List Bool) (xs : List α) : List α :=
  ((keep.zip xs).filter Prod.fst).map Prod.snd

@[simp] theorem kept_nil {α : Type} (keep : List Bool) : kept keep ([] : List α) = [] := by
  simp [kept]

@[simp] theorem kept_true {α : Type} (keep : List Bool) (x : α) (xs : List α) :
    kept (true :: keep) (x :: xs) = x :: kept keep xs := by
  simp [kept]

@[simp] theorem kept_false {α : Type} (keep : List Bool) (x : α) (xs : List α) :
    kept (false :: keep) (x :: xs) = kept keep xs := by
  simp [kept]

theorem legal_kept {links : Links n} {semi semi₀ : Fin n → Nat} {keep : List Bool}
    {calls : List (Call n)} (legal : Legal links semi calls)
    (same₀ : ∀ v, links v ≠ none → semi v = semi₀ v)
    (evals : ∀ c ∈ keep.zip calls, c.1 = false → c.2.isEval) :
    Legal links semi₀ (kept keep calls) := by
  induction calls generalizing links semi semi₀ keep with
  | nil => simp [Legal]
  | cons c calls ih =>
    cases keep with
    | nil => trivial
    | cons k keep =>
      rw [List.zip_cons_cons] at evals
      obtain ⟨hfirst, hothers⟩ := List.forall_mem_cons.1 evals
      cases c with
      | link semi' p w =>
        obtain ⟨same, hp, hw, hne, legal⟩ := legal
        cases k with
        | false => exact absurd (hfirst rfl) Bool.false_ne_true
        | true =>
          rw [kept_true]
          exact ⟨fun v hv => (same v hv).trans (same₀ v hv), hp, hw, hne,
            ih legal (fun _ _ => rfl) hothers⟩
      | eval semi' v =>
        obtain ⟨same, legal⟩ := legal
        have same' : ∀ v, links v ≠ none → semi' v = semi₀ v :=
          fun v hv => (same v hv).trans (same₀ v hv)
        cases k with
        | false =>
          rw [kept_false]
          exact ih legal same' hothers
        | true =>
          rw [kept_true]
          exact ⟨same', ih legal (fun _ _ => rfl) hothers⟩

end Call

/-- A relation between forests with the same links and values that no call can tell apart, also
when only one of them is queried. -/
structure Indistinct {n : Nat} (F : Nat → Type) [LinkEval F]
    (R : Links n → (Fin n → Nat) → F n → F n → Prop) : Prop where
  start (semi : Fin n → Nat) :
    R (fun _ => none) semi (LinkEval.singletons n) (LinkEval.singletons n)
  symm {links : Links n} {semi : Fin n → Nat} {f g : F n} : R links semi f g → R links semi g f
  link {links : Links n} {semi : Fin n → Nat} {f g : F n} {p w : Fin n} : R links semi f g →
    links p = none → links w = none → p ≠ w →
      R (Function.update links w (some p)) semi (LinkEval.link semi p w f)
        (LinkEval.link semi p w g)
  eval {links : Links n} {semi : Fin n → Nat} {f g : F n} (v : Fin n) : R links semi f g →
    R links semi (LinkEval.eval semi v f).2 g
  revalue {links : Links n} {semi semi' : Fin n → Nat} {f g : F n} : R links semi f g →
    (∀ v, links v ≠ none → semi' v = semi v) → R links semi' f g
  answer {links : Links n} {semi : Fin n → Nat} {f g : F n} (v : Fin n) : R links semi f g →
    (LinkEval.eval semi v f).1 = (LinkEval.eval semi v g).1

namespace Indistinct

open Call

variable {n : Nat} {F : Nat → Type} [LinkEval F] {R : Links n → (Fin n → Nat) → F n → F n → Prop}

/-- When a forest has all of the calls and the other only those kept, the calls kept are answered
alike, if no link is left out. -/
theorem answers_kept (h : Indistinct F R) {links : Links n} {semi : Fin n → Nat} {f g : F n}
    {keep : List Bool} {calls : List (Call n)} (related : R links semi f g)
    (legal : Legal links semi calls) (evals : ∀ c ∈ keep.zip calls, c.1 = false → c.2.isEval) :
    kept keep (answers f calls) = answers g (kept keep calls) := by
  induction calls generalizing links semi f g keep with
  | nil => simp [answers]
  | cons c calls ih =>
    cases keep with
    | nil => rfl
    | cons k keep =>
      rw [List.zip_cons_cons] at evals
      obtain ⟨hfirst, hothers⟩ := List.forall_mem_cons.1 evals
      cases c with
      | link semi' p w =>
        obtain ⟨same, hp, hw, hne, legal⟩ := legal
        cases k with
        | false => exact absurd (hfirst rfl) Bool.false_ne_true
        | true =>
          rw [answers, kept_true, kept_true, answers]
          exact congrArg _ (ih (h.link (h.revalue related same) hp hw hne) legal hothers)
      | eval semi' v =>
        obtain ⟨same, legal⟩ := legal
        have related' := h.revalue related same
        have below := h.eval v related'
        cases k with
        | false =>
          rw [answers, kept_false, kept_false]
          exact ih below legal hothers
        | true =>
          have both := h.symm (h.eval v (h.symm below))
          rw [answers, kept_true, kept_true, answers]
          exact congrArg₂ _ (congrArg some (h.answer v related')) (ih both legal hothers)

end Indistinct

end FlowGraph
