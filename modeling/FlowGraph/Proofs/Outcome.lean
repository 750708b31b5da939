/-!
Outcomes of checks. A computation that checks one thing after the other is settled by a condition,
under which it has a result, and by the error that it gives for each fault. The first of several
items that fails a check is the one that is reported.
-/

set_option autoImplicit false

namespace FlowGraph

universe u v w x

/-- There is a result where a condition is met, and an error where that is the fault. -/
structure Settled {ε : Type u} {α : Type v} (result : Except ε α) (condition : Prop)
    (fault : ε → Prop) : Prop where
  ok_iff : (∃ a, result = .ok a) ↔ condition
  error_iff : ∀ e, result = .error e ↔ fault e

inductive FirstFailing {β : Type w} {ε : Type u} (good : β → Prop) (error : β → ε) :
    List β → ε → Prop
  | here {b : β} {bs : List β} (h : ¬ good b) : FirstFailing good error (b :: bs) (error b)
  | there {b : β} {bs : List β} {e : ε} (h : good b) (rest : FirstFailing good error bs e) :
    FirstFailing good error (b :: bs) e

variable {ε : Type u} {α : Type v} {β : Type w} {good : β → Prop} {error : β → ε} {b : β}
  {bs : List β} {e : ε} {result : Except ε α} {condition : Prop} {fault : ε → Prop}

@[simp] theorem not_firstFailing_nil : ¬ FirstFailing good error [] e := by
  intro h
  cases h

@[simp] theorem firstFailing_cons : FirstFailing good error (b :: bs) e ↔
    (¬ good b ∧ e = error b) ∨ (good b ∧ FirstFailing good error bs e) := by
  constructor
  · intro h
    cases h with
    | here h => exact .inl ⟨h, rfl⟩
    | there h rest => exact .inr ⟨h, rest⟩
  · rintro (⟨h, rfl⟩ | ⟨h, rest⟩)
    · exact .here h
    · exact .there h rest

namespace Settled

theorem of_option {o : Option α} (hsome : ∀ a, o = some a → result = .ok a)
    (hnone : o = none → result = .error e) (absent : o = none ↔ ¬ condition) :
    Settled result condition fun e' => ¬ condition ∧ e' = e := by
  cases o with
  | some a =>
    have met : condition := Classical.not_not.1 fun unmet => Option.some_ne_none a (absent.2 unmet)
    rw [hsome a rfl]
    exact ⟨by simp [met], by simp [met]⟩
  | none =>
    have unmet : ¬ condition := absent.1 rfl
    rw [hnone rfl]
    exact ⟨by simp [unmet], fun e' => by simp [unmet, eq_comm]⟩

theorem congr {condition' : Prop} {fault' : ε → Prop} (h : Settled result condition fault)
    (hc : condition ↔ condition') (hf : ∀ e, fault e ↔ fault' e) :
    Settled result condition' fault' where
  ok_iff := h.ok_iff.trans hc
  error_iff e := (h.error_iff e).trans (hf e)

theorem map {γ : Type x} (h : Settled result condition fault) (f : α → γ) :
    Settled (result.map f) condition fault where
  ok_iff := by
    rw [← h.ok_iff]
    cases result <;> simp [Except.map]
  error_iff e := by
    rw [← h.error_iff]
    cases result <;> simp [Except.map]

theorem mapError {δ : Type w} (h : Settled result condition fault) (f : ε → δ) :
    Settled (result.mapError f) condition fun e => ∃ e', fault e' ∧ f e' = e where
  ok_iff := by
    rw [← h.ok_iff]
    cases result with
    | ok a => exact ⟨fun _ => ⟨a, rfl⟩, fun _ => ⟨a, rfl⟩⟩
    | error e => constructor <;> rintro ⟨a, ha⟩ <;> cases ha
  error_iff e := by
    simp only [← h.error_iff]
    cases result with
    | ok a =>
      constructor
      · intro he
        cases he
      · rintro ⟨e', he', _⟩
        cases he'
    | error e₀ =>
      constructor
      · exact fun he => ⟨e₀, rfl, Except.error.inj he⟩
      · rintro ⟨e', he', rfl⟩
        obtain rfl := Except.error.inj he'
        rfl

theorem bind {γ : Type v} {condition' : Prop} {fault' : ε → Prop} {f : α → Except ε γ}
    (h : Settled result condition fault)
    (next : ∀ a, result = .ok a → Settled (f a) condition' fault') :
    Settled (result >>= f) (condition ∧ condition')
      (fun e => fault e ∨ (condition ∧ fault' e)) := by
  cases result with
  | error e =>
    have failed : ¬ condition := by
      intro met
      obtain ⟨a, ha⟩ := h.ok_iff.2 met
      cases ha
    refine ⟨⟨?_, fun met => absurd met.1 failed⟩, fun e' => ?_⟩
    · rintro ⟨c, hc⟩
      cases hc
    · rw [← h.error_iff e', or_iff_left fun met => failed met.1]
      exact ⟨fun he => congrArg Except.error (Except.error.inj he),
        fun he => congrArg Except.error (Except.error.inj he)⟩
  | ok a =>
    have met : condition := h.ok_iff.1 ⟨a, rfl⟩
    have settled : Settled (f a) condition' fault' := next a rfl
    refine settled.congr (and_iff_right met).symm fun e => ?_
    rw [and_iff_right met, or_iff_right]
    intro he
    cases (h.error_iff e).2 he

end Settled

/-- There is a result if all items of a list pass a check, and else the error of the first that
fails. -/
abbrev Checks {β : Type w} {ε : Type u} {α : Type v} (good : β → Prop) (error : β → ε)
    (bs : List β) (result : Except ε α) : Prop :=
  Settled result (∀ b ∈ bs, good b) (FirstFailing good error bs)

theorem Settled.checks_singleton (h : Settled result (good b) fun e => ¬ good b ∧ e = error b) :
    Checks good error [b] result :=
  h.congr List.forall_mem_singleton.symm (by simp)

theorem Settled.checks_cons {γ : Type v} {f : α → Except ε γ}
    (h : Settled result (good b) fun e => ¬ good b ∧ e = error b)
    (next : ∀ a, result = .ok a → Checks good error bs (f a)) :
    Checks good error (b :: bs) (result >>= f) :=
  (h.bind next).congr List.forall_mem_cons.symm fun _ => firstFailing_cons.symm

end FlowGraph
