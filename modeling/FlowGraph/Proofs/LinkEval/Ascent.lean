import FlowGraph.LinkEval.PathForest
import Mathlib.Data.Fintype.Card
import Mathlib.Data.List.MinMax
/-!
Ways up a forest that is given by one step up from each node, and least nodes along them. A way
up is determined by where it begins and meets no node twice, so it is shorter than the forest is
large. The least node of a list, the first of several, is the library's `List.argmin`.
-/

set_option autoImplicit false

namespace FlowGraph

/-- The way up from a node: the nodes passed, the lowest first, and the root it ends at, which is
not one of them. -/
inductive Ascent {n : Nat} (up : Fin n → Option (Fin n)) : Fin n → List (Fin n) → Fin n → Prop
  | root {v : Fin n} (h : up v = none) : Ascent up v [] v
  | step {v a r : Fin n} {path : List (Fin n)} (h : up v = some a) (rest : Ascent up a path r) :
      Ascent up v (v :: path) r

namespace Ascent

variable {n : Nat} {up up' : Fin n → Option (Fin n)} {v w p r s : Fin n}
  {path path' rest : List (Fin n)}

theorem top (h : Ascent up v path r) : up r = none := by
  induction h with
  | root h => exact h
  | step _ _ ih => exact ih

theorem linked (h : Ascent up v path r) : ∀ y ∈ path, up y ≠ none := by
  induction h with
  | root _ => simp
  | step h _ ih =>
    intro y hy
    rcases List.mem_cons.1 hy with rfl | hy
    · simp [h]
    · exact ih y hy

theorem unique (h : Ascent up v path r) (h' : Ascent up v path' s) : path = path' ∧ r = s := by
  induction h generalizing path' with
  | root h =>
    cases h' with
    | root _ => exact ⟨rfl, rfl⟩
    | step k _ => simp [h] at k
  | step h _ ih =>
    cases h' with
    | root k => simp [h] at k
    | step k rest' =>
      obtain rfl := Option.some.inj (h.symm.trans k)
      obtain ⟨rfl, rfl⟩ := ih rest'
      exact ⟨rfl, rfl⟩

theorem of_root (hv : up v = none) (h : Ascent up v path r) : path = [] ∧ r = v :=
  h.unique (root hv)

theorem nil_of_self (h : Ascent up v path v) : path = [] :=
  (of_root h.top h).1

theorem start_mem (h : Ascent up v path r) (hne : v ≠ r) : v ∈ path := by
  cases h with
  | root _ => exact absurd rfl hne
  | step _ _ => exact List.mem_cons_self

private theorem suffix (h : Ascent up v path r) {y : Fin n} (hy : y ∈ path) :
    ∃ above below, path = below ++ above ∧ Ascent up y above r := by
  induction h with
  | root _ => simp at hy
  | step h rest ih =>
    rcases List.mem_cons.1 hy with rfl | hy
    · exact ⟨_, [], rfl, step h rest⟩
    · obtain ⟨above, below, rfl, ha⟩ := ih hy
      exact ⟨above, _ :: below, rfl, ha⟩

theorem nodup (h : Ascent up v path r) : (path ++ [r]).Nodup := by
  induction h with
  | root _ => simp
  | @step v a r path h rest ih =>
    rw [List.cons_append]
    refine List.nodup_cons.2 ⟨?_, ih⟩
    intro hmem
    rcases List.mem_append.1 hmem with hv | hv
    · -- a second way up from `v` would be shorter than the first
      obtain ⟨above, below, hpath, ha⟩ := rest.suffix hv
      have heq : v :: path = above := ((step h rest).unique ha).1
      have hlen := congrArg List.length hpath
      rw [← heq] at hlen
      simp only [List.length_append, List.length_cons] at hlen
      omega
    · obtain rfl := List.mem_singleton.1 hv
      simp [rest.top] at h

theorem length_lt (h : Ascent up v path r) : path.length < n := by
  have hle := h.nodup.length_le_card
  simp only [List.length_append, List.length_singleton, Fintype.card_fin] at hle
  omega

theorem append (h : Ascent up v path r) (agree : ∀ y ∈ path, up' y = up y)
    (k : Ascent up' r rest s) : Ascent up' v (path ++ rest) s := by
  induction h with
  | root _ => exact k
  | step h _ ih =>
    refine step ((agree _ List.mem_cons_self).trans h) (ih ?_ k)
    exact fun y hy => agree y (List.mem_cons_of_mem _ hy)

theorem congr (h : Ascent up v path r) (agree : ∀ y ∈ path, up' y = up y) (hr : up' r = none) :
    Ascent up' v path r := by
  simpa using h.append agree (root hr)

theorem update_of_ne (h : Ascent up v path r) (hw : up w = none) (hne : r ≠ w) :
    Ascent (Function.update up w (some p)) v path r := by
  apply h.congr
  · intro y hy
    apply Function.update_of_ne
    rintro rfl
    exact h.linked y hy hw
  · rw [Function.update_of_ne hne, h.top]

theorem update_self (h : Ascent up v path w) (k : Ascent up p rest r) (hne : r ≠ w) :
    Ascent (Function.update up w (some p)) v (path ++ w :: rest) r := by
  apply h.append
  · intro y hy
    apply Function.update_of_ne
    rintro rfl
    exact h.linked y hy h.top
  · exact step (Function.update_self ..) (k.update_of_ne h.top hne)

theorem hang_iff (hw : up w = none) (hp : up p = none) (hne : p ≠ w) :
    Ascent (Function.update up w (some p)) v path r ↔
      (r ≠ w ∧ Ascent up v path r) ∨
        (r = p ∧ ∃ below, path = below ++ [w] ∧ Ascent up v below w) := by
  have htop : Function.update up w (some p) p = none := by rw [Function.update_of_ne hne, hp]
  constructor
  · intro h
    induction h with
    | @root v h =>
      have hv : v ≠ w := by
        rintro rfl
        simp at h
      rw [Function.update_of_ne hv] at h
      exact Or.inl ⟨hv, root h⟩
    | @step v a r path h rest ih =>
      by_cases hv : v = w
      · subst hv
        obtain rfl : p = a := by simpa using h
        obtain ⟨rfl, rfl⟩ := rest.of_root htop
        exact Or.inr ⟨rfl, [], rfl, root hw⟩
      · rw [Function.update_of_ne hv] at h
        rcases ih with ⟨hr, way⟩ | ⟨hr, below, rfl, way⟩
        · exact Or.inl ⟨hr, step h way⟩
        · exact Or.inr ⟨hr, v :: below, rfl, step h way⟩
  · rintro (⟨hr, way⟩ | ⟨rfl, below, rfl, way⟩)
    · exact way.update_of_ne hw hr
    · exact way.update_self (root hp) hne

end Ascent

section Argmin

open PathForest

variable {n : Nat} {semi semi' : Fin n → Nat} {xs ys : List (Fin n)}

private theorem argmin_cons_eq_merge (x : Fin n) (xs : List (Fin n)) :
    (x :: xs).argmin semi =
      Option.merge (fun a b => lesser semi b a) (some x) (xs.argmin semi) := by
  rw [List.argmin_cons]
  cases xs.argmin semi with
  | none => rfl
  | some c =>
    show (if semi c < semi x then some c else some x) = some (if semi c < semi x then c else x)
    split <;> rfl

private theorem lesser_assoc (a b c : Fin n) :
    lesser semi c (lesser semi b a) = lesser semi (lesser semi c b) a := by
  grind [lesser]

theorem argmin_append (xs ys : List (Fin n)) :
    (xs ++ ys).argmin semi =
      Option.merge (fun a b => lesser semi b a) (xs.argmin semi) (ys.argmin semi) := by
  induction xs with
  | nil => cases h : ys.argmin semi <;> simp [h]
  | cons x xs ih =>
    rw [List.cons_append, argmin_cons_eq_merge, ih, argmin_cons_eq_merge]
    cases xs.argmin semi <;> cases ys.argmin semi <;> simp [Option.merge, lesser_assoc]

theorem argmin_cons_congr (x : Fin n) (h : xs.argmin semi = ys.argmin semi) :
    (x :: xs).argmin semi = (x :: ys).argmin semi := by
  rw [argmin_cons_eq_merge, argmin_cons_eq_merge, h]

theorem argmin_lesser_cons (x y : Fin n) (xs : List (Fin n)) :
    (lesser semi y x :: xs).argmin semi = (x :: y :: xs).argmin semi := by
  rw [argmin_cons_eq_merge, argmin_cons_eq_merge, argmin_cons_eq_merge]
  cases xs.argmin semi <;> simp [Option.merge, lesser_assoc]

theorem argmin_congr_values (h : ∀ x ∈ xs, semi' x = semi x) :
    xs.argmin semi' = xs.argmin semi := by
  induction xs with
  | nil => rfl
  | cons x xs ih =>
    have hxs : xs.argmin semi' = xs.argmin semi := ih fun y hy => h y (List.mem_cons_of_mem _ hy)
    rw [List.argmin_cons, List.argmin_cons, hxs]
    cases hmin : xs.argmin semi with
    | none => rfl
    | some c =>
      have hc : c ∈ xs := List.argmin_mem hmin
      simp only [h x List.mem_cons_self, h c (List.mem_cons_of_mem _ hc)]

theorem exists_split_of_argmin {u : Fin n} (h : xs.argmin semi = some u) :
    ∃ before after, xs = before ++ u :: after ∧ (∀ y ∈ before, semi u < semi y) ∧
      ∀ y ∈ after, semi u ≤ semi y := by
  induction xs with
  | nil => simp at h
  | cons x xs ih =>
    rw [List.argmin_cons] at h
    cases hmin : xs.argmin semi with
    | none =>
      obtain rfl := List.argmin_eq_none.1 hmin
      obtain rfl : x = u := by simpa using h
      exact ⟨[], [], rfl, by simp, by simp⟩
    | some c =>
      simp only [hmin] at h
      split at h
      next hlt =>
        obtain rfl := Option.some.inj h
        obtain ⟨before, after, rfl, hbefore, hafter⟩ := ih hmin
        exact ⟨x :: before, after, rfl, List.forall_mem_cons.2 ⟨hlt, hbefore⟩, hafter⟩
      next hle =>
        obtain rfl := Option.some.inj h
        refine ⟨[], xs, rfl, by simp, ?_⟩
        intro y hy
        exact (Nat.le_of_not_lt hle).trans (List.le_of_mem_argmin hy hmin)

end Argmin

end FlowGraph
