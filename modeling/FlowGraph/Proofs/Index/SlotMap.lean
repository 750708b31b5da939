import FlowGraph.Index.SlotMap
import Mathlib.Data.Set.Card
/-!
Maps in use. A caller asks several maps and copies maps, in any order. What a map answers is decided
by what was written to it before, and to the map that it is a copy of until it was copied: the
value at an index is the last one that was written there, and what is done to other maps has no part
in it.
-/

set_option autoImplicit false

namespace FlowGraph.SlotMap

universe u

variable {σ α : Type u}

theorem pairwise_toList (m : SlotMap α) : m.toList.Pairwise fun a b => a.1 < b.1 := by
  have increasing : m.slots.toList.zipIdx.Pairwise fun a b => a.2 < b.2 := by
    rw [← List.pairwise_map (f := Prod.snd) (R := (· < ·)), List.zipIdx_map_snd]
    exact List.pairwise_lt_range'
  refine List.pairwise_filterMap.2 (increasing.imp ?_)
  intro a b hab x hx y hy
  obtain ⟨_, _, rfl⟩ := Option.map_eq_some_iff.1 hx
  obtain ⟨_, _, rfl⟩ := Option.map_eq_some_iff.1 hy
  exact hab

private theorem length_toList (m : SlotMap α) : m.toList.length = m.size := by
  have slots : m.slots.toList.zipIdx.map Prod.fst = m.slots.toList := List.zipIdx_map_fst 0 _
  rw [toList, List.length_filterMap_eq_countP, m.size_eq, ← Array.countP_toList, ← slots,
    List.countP_map, slots]
  refine List.countP_congr fun slot _ => ?_
  simp

private theorem size_eq_ncard (m : SlotMap α) : m.size = {i | (m.get? i).isSome}.ncard := by
  have distinct : (m.toList.map Prod.fst).Nodup :=
    List.pairwise_map.2 (m.pairwise_toList.imp Nat.ne_of_lt)
  have indexes : {i | (m.get? i).isSome} = ((m.toList.map Prod.fst).toFinset : Set Nat) := by
    ext i
    simp [mem_toList, Option.isSome_iff_exists]
  rw [indexes, Set.ncard_coe_finset, List.toFinset_card_of_nodup distinct, List.length_map,
    length_toList]

private theorem isEmpty_iff (m : SlotMap α) : m.isEmpty = true ↔ ∀ i, m.get? i = none := by
  rw [isEmpty, beq_iff_eq, ← length_toList, List.length_eq_zero_iff, List.eq_nil_iff_forall_not_mem]
  constructor
  · intro h i
    refine Option.eq_none_iff_forall_ne_some.2 fun v hv => ?_
    exact h (i, v) (mem_toList.2 hv)
  · rintro h ⟨i, v⟩ hv
    have found := mem_toList.1 hv
    rw [h i] at found
    cases found

inductive Request (σ α : Type u) where
  | size
  | isEmpty
  | entries
  | contains (i : Nat)
  | get (i : Nat)
  /-- As `get`, where there has to be a value. -/
  | read (i : Nat)
  | insert (i : Nat) (v : α)
  | modify (i : Nat) (f : α → α)
  /-- Writes where there has to be a value. -/
  | overwrite (i : Nat) (v : α)
  | getOrInsert (i : Nat) (make : StateM σ α)
  | upsert (i : Nat) (f : Option α → α)

inductive Answer (α : Type u) where
  | count (n : Nat)
  | truth (b : Bool)
  | entries (es : List (Nat × α))
  | value (v : Option α)
  | done
  | refused

def Request.answer (m : SlotMap α) : Request σ α → StateM σ (Answer α × SlotMap α)
  | .size => return (.count m.size, m)
  | .isEmpty => return (.truth m.isEmpty, m)
  | .entries => return (.entries m.toList, m)
  | .contains i => return (.truth (m.contains i), m)
  | .get i => return (.value (m.get? i), m)
  | .read i =>
    match m.get? i with
    | some v => return (.value (some v), m)
    | none => return (.refused, m)
  | .insert i v => return (.value (m.exchange i v).1, (m.exchange i v).2)
  | .modify i f => return (.value (m.get? i), m.modify i f)
  | .overwrite i v =>
    match m.replace? i v with
    | some m => return (.done, m)
    | none => return (.refused, m)
  | .getOrInsert i make => do
    let (v, m) ← m.getOrInsertM i fun _ => make
    return (.value (some v), m)
  | .upsert i f => return (.value (some (f (m.get? i))), m.upsert i f)

/-- What has been written to a map, the newest first. -/
abbrev Journal (α : Type u) : Type u := List (Nat × α)

/-- A map has at each index the last value that was written there. -/
def Holds (m : SlotMap α) (j : Journal α) : Prop := ∀ i, m.get? i = j.lookup i

/-- What a request has to be answered, where the caller is in the first state and then in the other,
and what it writes. -/
inductive Request.Answered (j : Journal α) :
    Request σ α → σ → Answer α → Journal α → σ → Prop
  | size (s : σ) : Answered j .size s (.count {i | (j.lookup i).isSome}.ncard) [] s
  | isEmpty (s : σ) {b : Bool} (h : b = true ↔ ∀ i, j.lookup i = none) :
    Answered j .isEmpty s (.truth b) [] s
  | entries (s : σ) {es : List (Nat × α)} (increasing : es.Pairwise fun a b => a.1 < b.1)
      (mem_iff : ∀ i v, (i, v) ∈ es ↔ j.lookup i = some v) :
    Answered j .entries s (.entries es) [] s
  | contains (s : σ) (i : Nat) :
    Answered j (.contains i) s (.truth (j.lookup i).isSome) [] s
  | get (s : σ) (i : Nat) : Answered j (.get i) s (.value (j.lookup i)) [] s
  | read (s : σ) {i : Nat} {v : α} (h : j.lookup i = some v) :
    Answered j (.read i) s (.value (some v)) [] s
  | readAbsent (s : σ) {i : Nat} (h : j.lookup i = none) : Answered j (.read i) s .refused [] s
  | insert (s : σ) (i : Nat) (v : α) :
    Answered j (.insert i v) s (.value (j.lookup i)) [(i, v)] s
  | modify (s : σ) {i : Nat} {v : α} (f : α → α) (h : j.lookup i = some v) :
    Answered j (.modify i f) s (.value (some v)) [(i, f v)] s
  | modifyAbsent (s : σ) {i : Nat} (f : α → α) (h : j.lookup i = none) :
    Answered j (.modify i f) s (.value none) [] s
  | overwrite (s : σ) {i : Nat} {v : α} (w : α) (h : j.lookup i = some v) :
    Answered j (.overwrite i w) s .done [(i, w)] s
  | overwriteAbsent (s : σ) {i : Nat} (w : α) (h : j.lookup i = none) :
    Answered j (.overwrite i w) s .refused [] s
  | getOrInsert (s : σ) {i : Nat} {v : α} (make : StateM σ α) (h : j.lookup i = some v) :
    Answered j (.getOrInsert i make) s (.value (some v)) [] s
  | getOrInsertAbsent (s : σ) {i : Nat} (make : StateM σ α) (h : j.lookup i = none) :
    Answered j (.getOrInsert i make) s (.value (some (make s).1)) [(i, (make s).1)] (make s).2
  | upsert (s : σ) (i : Nat) (f : Option α → α) :
    Answered j (.upsert i f) s (.value (some (f (j.lookup i)))) [(i, f (j.lookup i))] s

/-- What a caller does with maps, which are numbered in the order in which they come about. -/
inductive Command (σ α : Type u) where
  | ask (k : Nat) (request : Request σ α)
  | copy (k : Nat)

structure Session (σ α : Type u) where
  maps : List (SlotMap α)
  caller : σ

namespace Session

/-- Carries out a command. One for a map that there is not is refused. -/
def step (session : Session σ α) : Command σ α → Answer α × Session σ α
  | .ask k request =>
    match session.maps[k]? with
    | some m =>
      let ((a, m), caller) := request.answer m session.caller
      (a, { maps := session.maps.set k m, caller })
    | none => (.refused, session)
  | .copy k =>
    match session.maps[k]? with
    | some m => (.done, { session with maps := session.maps ++ [m] })
    | none => (.refused, session)

def run (session : Session σ α) : List (Command σ α) → List (Answer α) × Session σ α
  | [] => ([], session)
  | command :: commands =>
    let (a, session) := session.step command
    let (as, session) := session.run commands
    (a :: as, session)

end Session

inductive Command.Answered (js : List (Journal α)) (s : σ) :
    Command σ α → Answer α → List (Journal α) → σ → Prop
  | ask {k : Nat} {j writes : Journal α} {request : Request σ α} {a : Answer α} {s' : σ}
      (hk : js[k]? = some j) (h : request.Answered j s a writes s') :
    Answered js s (.ask k request) a (js.set k (writes ++ j)) s'
  | askAbsent {k : Nat} (request : Request σ α) (hk : js[k]? = none) :
    Answered js s (.ask k request) .refused js s
  | copy {k : Nat} {j : Journal α} (hk : js[k]? = some j) :
    Answered js s (.copy k) .done (js ++ [j]) s
  | copyAbsent {k : Nat} (hk : js[k]? = none) : Answered js s (.copy k) .refused js s

inductive AnsweredAll : List (Journal α) → σ → List (Command σ α) → List (Answer α) →
    List (Journal α) → σ → Prop
  | nil (js : List (Journal α)) (s : σ) : AnsweredAll js s [] [] js s
  | cons {js js' js'' : List (Journal α)} {s s' s'' : σ} {command : Command σ α}
      {commands : List (Command σ α)} {a : Answer α} {as : List (Answer α)}
      (first : command.Answered js s a js' s') (rest : AnsweredAll js' s' commands as js'' s'') :
    AnsweredAll js s (command :: commands) (a :: as) js'' s''

section Step

variable {m : SlotMap α} {j : Journal α} {i : Nat} {v : α}

private theorem holds_empty : Holds (∅ : SlotMap α) [] := fun i => get?_empty i

private theorem Holds.insert (h : m.Holds j) (i : Nat) (v : α) :
    (m.insert i v).Holds ((i, v) :: j) := by
  intro k
  rw [get?_insert, List.lookup_cons, h k]
  by_cases hk : k = i
  · simp [hk]
  · simp [hk, beq_false_of_ne hk]

/-- A map that holds what was written answers as it has to, and holds what was written after
that. -/
private theorem Holds.answered (h : m.Holds j) (request : Request σ α) (s : σ) :
    ∃ writes, request.Answered j s (request.answer m s).1.1 writes (request.answer m s).2 ∧
      (request.answer m s).1.2.Holds (writes ++ j) := by
  cases request with
  | size =>
    refine ⟨[], ?_, h⟩
    have count := m.size_eq_ncard
    simp only [h _] at count
    change Request.Answered j .size s (.count m.size) [] s
    rw [count]
    exact .size s
  | isEmpty =>
    have empty := m.isEmpty_iff
    simp only [h _] at empty
    exact ⟨[], .isEmpty s empty, h⟩
  | entries =>
    refine ⟨[], .entries s m.pairwise_toList fun i v => ?_, h⟩
    rw [mem_toList, h i]
  | contains i =>
    refine ⟨[], ?_, h⟩
    change Request.Answered j (.contains i) s (.truth (m.get? i).isSome) [] s
    rw [h i]
    exact .contains s i
  | get i =>
    refine ⟨[], ?_, h⟩
    change Request.Answered j (.get i) s (.value (m.get? i)) [] s
    rw [h i]
    exact .get s i
  | read i =>
    cases hv : j.lookup i with
    | none =>
      simp only [Request.answer, h i, hv]
      exact ⟨[], .readAbsent s hv, h⟩
    | some v =>
      simp only [Request.answer, h i, hv]
      exact ⟨[], .read s hv, h⟩
  | insert i v =>
    refine ⟨[(i, v)], ?_, h.insert i v⟩
    change Request.Answered j (.insert i v) s (.value (m.get? i)) [(i, v)] s
    rw [h i]
    exact .insert s i v
  | modify i f =>
    cases hv : j.lookup i with
    | none =>
      simp only [Request.answer, modify, h i, hv]
      exact ⟨[], .modifyAbsent s f hv, h⟩
    | some v =>
      simp only [Request.answer, modify, h i, hv]
      exact ⟨[(i, f v)], .modify s f hv, h.insert i (f v)⟩
  | overwrite i w =>
    cases hv : j.lookup i with
    | none =>
      simp only [Request.answer, replace?, SlotMap.contains, h i, hv]
      exact ⟨[], .overwriteAbsent s w hv, h⟩
    | some v =>
      simp only [Request.answer, replace?, SlotMap.contains, h i, hv]
      exact ⟨[(i, w)], .overwrite s w hv, h.insert i w⟩
  | getOrInsert i make =>
    cases hv : j.lookup i with
    | none =>
      simp only [Request.answer, getOrInsertM, h i, hv]
      exact ⟨[(i, (make s).1)], .getOrInsertAbsent s make hv, h.insert i (make s).1⟩
    | some v =>
      simp only [Request.answer, getOrInsertM, h i, hv]
      exact ⟨[], .getOrInsert s make hv, h⟩
  | upsert i f =>
    simp only [Request.answer, upsert, h i]
    exact ⟨[(i, f (j.lookup i))], .upsert s i f, h.insert i _⟩

end Step

section Run

variable {session : Session σ α} {js : List (Journal α)}

private theorem getElem?_cases {A B : Type u} {R : A → B → Prop} {as : List A} {bs : List B}
    (h : List.Forall₂ R as bs) (k : Nat) :
    (as[k]? = none ∧ bs[k]? = none) ∨ ∃ a b, as[k]? = some a ∧ bs[k]? = some b ∧ R a b := by
  induction h generalizing k with
  | nil => exact .inl ⟨rfl, rfl⟩
  | cons first _ ih =>
    cases k with
    | zero => exact .inr ⟨_, _, rfl, rfl, first⟩
    | succ k => exact ih k

private theorem forall₂_set {A B : Type u} {R : A → B → Prop} {as : List A} {bs : List B} {a : A}
    {b : B} (h : List.Forall₂ R as bs) (hab : R a b) (k : Nat) :
    List.Forall₂ R (as.set k a) (bs.set k b) := by
  induction h generalizing k with
  | nil => exact .nil
  | cons first rest ih =>
    cases k with
    | zero => exact .cons hab rest
    | succ k => exact .cons first (ih k)

private theorem Session.answered_step (h : List.Forall₂ Holds session.maps js)
    (command : Command σ α) :
    ∃ js', command.Answered js session.caller (session.step command).1 js'
        (session.step command).2.caller ∧
      List.Forall₂ Holds (session.step command).2.maps js' := by
  cases command with
  | ask k request =>
    obtain ⟨hm, hj⟩ | ⟨m, j, hm, hj, holds⟩ := getElem?_cases h k
    · simp only [Session.step, hm]
      exact ⟨js, .askAbsent request hj, h⟩
    · simp only [Session.step, hm]
      obtain ⟨writes, answered, holds⟩ := holds.answered request session.caller
      exact ⟨js.set k (writes ++ j), .ask hj answered, forall₂_set h holds k⟩
  | copy k =>
    obtain ⟨hm, hj⟩ | ⟨m, j, hm, hj, holds⟩ := getElem?_cases h k
    · simp only [Session.step, hm]
      exact ⟨js, .copyAbsent hj, h⟩
    · simp only [Session.step, hm]
      exact ⟨js ++ [j], .copy hj, List.rel_append h (.cons holds .nil)⟩

private theorem Session.answered_run (h : List.Forall₂ Holds session.maps js)
    (commands : List (Command σ α)) :
    ∃ js', AnsweredAll js session.caller commands (session.run commands).1 js'
        (session.run commands).2.caller ∧
      List.Forall₂ Holds (session.run commands).2.maps js' := by
  induction commands generalizing session js with
  | nil => exact ⟨js, .nil js session.caller, h⟩
  | cons command commands ih =>
    obtain ⟨js', first, holds⟩ := Session.answered_step h command
    obtain ⟨js'', rest, holds⟩ := ih holds
    exact ⟨js'', .cons first rest, holds⟩

end Run

/-- Maps that are used in any way, from one empty map on, answer from what was written to them. -/
theorem answeredAll_run (s : σ) (commands : List (Command σ α)) :
    ∃ js, AnsweredAll [[]] s commands (Session.run ⟨[∅], s⟩ commands).1 js
        (Session.run ⟨[∅], s⟩ commands).2.caller ∧
      List.Forall₂ Holds (Session.run ⟨[∅], s⟩ commands).2.maps js := by
  let start : Session σ α := ⟨[∅], s⟩
  have holds : List.Forall₂ Holds start.maps [[]] := .cons holds_empty .nil
  exact Session.answered_run holds commands

end FlowGraph.SlotMap
