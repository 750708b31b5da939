import FlowGraph.Proofs.LinkEval.Chain
import Mathlib.Data.Set.Card
import Mathlib.Tactic.Ring
/-!
The weight of a subtree is the number of its nodes, and a subtree is shallow in a tree if two to
the length of any way up it is at most its own weight times that of the tree. Hanging a root below
another makes ways one step longer. It keeps the upper subtree shallow when it doubles either the
weight of the lower subtree or that of the tree which the lower one belonged to.
-/

set_option autoImplicit false

namespace FlowGraph

section Weight

variable {n : Nat} {up : Fin n → Option (Fin n)} {a c s : Fin n} {heads : List (Fin n)}
  {t t' : Nat}

/-- The nodes whose way up ends at a given node. -/
def subtree (up : Fin n → Option (Fin n)) (a : Fin n) : Set (Fin n) :=
  {y | ∃ path, Ascent up y path a}

noncomputable def weight (up : Fin n → Option (Fin n)) (a : Fin n) : Nat := (subtree up a).ncard

noncomputable def totalWeight (up : Fin n → Option (Fin n)) (heads : List (Fin n)) : Nat :=
  (heads.map (weight up)).sum

@[simp] theorem totalWeight_nil : totalWeight up [] = 0 := rfl

@[simp] theorem totalWeight_cons :
    totalWeight up (a :: heads) = weight up a + totalWeight up heads := rfl

theorem totalWeight_append (heads heads' : List (Fin n)) :
    totalWeight up (heads ++ heads') = totalWeight up heads + totalWeight up heads' := by
  simp [totalWeight]

theorem totalWeight_perm {heads' : List (Fin n)} (h : heads.Perm heads') :
    totalWeight up heads = totalWeight up heads' := (h.map _).sum_eq

theorem self_mem_subtree (ha : up a = none) : a ∈ subtree up a := ⟨[], Ascent.root ha⟩

theorem notMem_subtree {y : Fin n} (h : a ≠ c) (hy : y ∈ subtree up a) : y ∉ subtree up c := by
  rintro ⟨_, way'⟩
  obtain ⟨_, way⟩ := hy
  exact h (way.unique way').2

theorem weight_le (up : Fin n → Option (Fin n)) (a : Fin n) : weight up a ≤ n := by
  have hle := Set.ncard_le_ncard (Set.subset_univ (subtree up a))
  rwa [Set.ncard_univ, Nat.card_fin] at hle

theorem totalWeight_eq_ncard (nodup : heads.Nodup) :
    totalWeight up heads = {y | ∃ a ∈ heads, y ∈ subtree up a}.ncard := by
  induction heads with
  | nil => simp
  | cons a heads ih =>
    obtain ⟨ha, hheads⟩ := List.nodup_cons.1 nodup
    have hunion : {y | ∃ c ∈ a :: heads, y ∈ subtree up c} =
        subtree up a ∪ {y | ∃ c ∈ heads, y ∈ subtree up c} := by
      ext y
      simp
    have hdisjoint : Disjoint (subtree up a) {y | ∃ c ∈ heads, y ∈ subtree up c} := by
      rw [Set.disjoint_left]
      rintro y hy ⟨c, hc, hyc⟩
      have hne : a ≠ c := (ne_of_mem_of_not_mem hc ha).symm
      exact notMem_subtree hne hy hyc
    rw [totalWeight_cons, ih hheads, hunion, Set.ncard_union_eq hdisjoint]
    rfl

theorem totalWeight_le (nodup : heads.Nodup) : totalWeight up heads ≤ n := by
  rw [totalWeight_eq_ncard nodup]
  have hle := Set.ncard_le_ncard (Set.subset_univ {y | ∃ a ∈ heads, y ∈ subtree up a})
  rwa [Set.ncard_univ, Nat.card_fin] at hle

/-- No way up the subtree is longer than its weight and that of a tree allow. -/
def Shallow (up : Fin n → Option (Fin n)) (a : Fin n) (t : Nat) : Prop :=
  ∀ y path, Ascent up y path a → 2 ^ path.length ≤ weight up a * t

theorem Shallow.mono (h : Shallow up a t) (hle : t ≤ t') : Shallow up a t' :=
  fun y path way => (h y path way).trans (Nat.mul_le_mul_left _ hle)

/-- Every way up stays a way to the same root, and gets no longer. -/
def Flattened (up up' : Fin n → Option (Fin n)) : Prop :=
  ∀ y path r, Ascent up y path r → ∃ path', Ascent up' y path' r ∧ path'.length ≤ path.length

theorem Flattened.up_eq_none {up' : Fin n → Option (Fin n)} (h : Flattened up up')
    (ha : up a = none) : up' a = none := by
  obtain ⟨_, way, _⟩ := h a [] a (Ascent.root ha)
  exact way.top

section Flattened

variable {up' : Fin n → Option (Fin n)} (h : Flattened up up')
  (ways : ∀ y, ∃ path r, Ascent up y path r)
include h ways

private theorem Flattened.exists_ascent {y r : Fin n} {path' : List (Fin n)}
    (way' : Ascent up' y path' r) : ∃ path, Ascent up y path r ∧ path'.length ≤ path.length := by
  obtain ⟨path, s, way⟩ := ways y
  obtain ⟨path'', way'', hle⟩ := h y path s way
  obtain ⟨rfl, rfl⟩ := way'.unique way''
  exact ⟨path, way, hle⟩

theorem Flattened.subtree_eq (a : Fin n) : subtree up' a = subtree up a := by
  ext y
  constructor
  · rintro ⟨path', way'⟩
    obtain ⟨path, way, -⟩ := h.exists_ascent ways way'
    exact ⟨path, way⟩
  · rintro ⟨path, way⟩
    obtain ⟨path', way', -⟩ := h y path a way
    exact ⟨path', way'⟩

theorem Flattened.totalWeight_eq (heads : List (Fin n)) :
    totalWeight up' heads = totalWeight up heads :=
  congrArg List.sum (List.map_congr_left fun a _ => congrArg Set.ncard (h.subtree_eq ways a))

theorem Flattened.shallow (hs : Shallow up a t) : Shallow up' a t := by
  intro y path' way'
  obtain ⟨path, way, hle⟩ := h.exists_ascent ways way'
  have hweight : weight up' a = weight up a := congrArg Set.ncard (h.subtree_eq ways a)
  rw [hweight]
  exact (Nat.pow_le_pow_right Nat.two_pos hle).trans (hs y path way)

end Flattened

theorem flattened_compress (semi : Fin n → Nat) {f : PathForest n} {v r : Fin n}
    {path : List (Fin n)} (way : Ascent f.up v path r) :
    Flattened f.up (f.compress semi v).up := by
  refine PathForest.compress_induction (P := fun g => Flattened f.up g.up) semi way ?_ ?_
  · exact fun y path r way => ⟨path, way, le_rfl⟩
  · intro g x a b hx ha hg y path r way
    obtain ⟨path', way', hle⟩ := hg y path r way
    obtain ⟨path'', way'', hle', -⟩ := PathForest.ascent_shortcut semi hx ha way'
    exact ⟨path'', way'', hle'.trans hle⟩

section Hang

variable (hc : up c = none) (hs : up s = none) (hne : s ≠ c)
include hc hs hne

theorem subtree_hang :
    subtree (Function.update up c (some s)) s = subtree up s ∪ subtree up c := by
  ext y
  constructor
  · rintro ⟨path, way⟩
    rcases (Ascent.hang_iff hc hs hne).1 way with ⟨-, way⟩ | ⟨-, below, -, way⟩
    · exact Or.inl ⟨path, way⟩
    · exact Or.inr ⟨below, way⟩
  · rintro (⟨path, way⟩ | ⟨path, way⟩)
    · exact ⟨path, (Ascent.hang_iff hc hs hne).2 (Or.inl ⟨hne, way⟩)⟩
    · exact ⟨path ++ [c], (Ascent.hang_iff hc hs hne).2 (Or.inr ⟨rfl, path, rfl, way⟩)⟩

theorem weight_hang :
    weight (Function.update up c (some s)) s = weight up s + weight up c := by
  have hdisjoint : Disjoint (subtree up s) (subtree up c) :=
    Set.disjoint_left.2 fun _ => notMem_subtree hne
  rw [weight, subtree_hang hc hs hne, Set.ncard_union_eq hdisjoint]
  rfl

/-- If hanging `c` below `s` makes up for one more step on the ways up from `c`, then the subtree
of `s` stays shallow. -/
private theorem Shallow.hang (h : Shallow up s t)
    (double : ∀ y path, Ascent up y path c →
      2 * 2 ^ path.length ≤ (weight up s + weight up c) * t) :
    Shallow (Function.update up c (some s)) s t := by
  intro y path way
  rw [weight_hang hc hs hne]
  rcases (Ascent.hang_iff hc hs hne).1 way with ⟨-, old⟩ | ⟨-, below, rfl, old⟩
  · exact (h y path old).trans (Nat.mul_le_mul_right t (Nat.le_add_right _ _))
  · have hlength : 2 ^ (below ++ [c]).length = 2 * 2 ^ below.length := by
      rw [List.length_append, List.length_singleton, Nat.pow_succ, Nat.mul_comm]
    rw [hlength]
    exact double y below old

theorem Shallow.hang_lighter (h : Shallow up s t) (h' : Shallow up c t)
    (hle : weight up c ≤ weight up s) : Shallow (Function.update up c (some s)) s t := by
  refine h.hang hc hs hne fun y path way => ?_
  have hpow := h' y path way
  calc 2 * 2 ^ path.length ≤ 2 * (weight up c * t) := Nat.mul_le_mul_left 2 hpow
    _ = (weight up c + weight up c) * t := by ring
    _ ≤ (weight up s + weight up c) * t := Nat.mul_le_mul_right t (Nat.add_le_add_right hle _)

theorem Shallow.hang_smaller (h : Shallow up s t) (h' : Shallow up c t') (hle : 2 * t' ≤ t) :
    Shallow (Function.update up c (some s)) s t := by
  refine h.hang hc hs hne fun y path way => ?_
  have hpow := h' y path way
  calc 2 * 2 ^ path.length ≤ 2 * (weight up c * t') := Nat.mul_le_mul_left 2 hpow
    _ = weight up c * (2 * t') := by ring
    _ ≤ weight up c * t := Nat.mul_le_mul_left _ hle
    _ ≤ (weight up s + weight up c) * t := Nat.mul_le_mul_right t (Nat.le_add_left _ _)

end Hang

end Weight

end FlowGraph
