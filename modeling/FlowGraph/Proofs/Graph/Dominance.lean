import FlowGraph.Graph.Path
import Mathlib.Data.List.Basic
import Mathlib.Data.Set.Card
/-!
Dominance in general: a path splits at each vertex it passes, dominance orders the reachable
vertices and can be told by removing a vertex, and it is the same in every graph that a graph is
embedded in.
-/

set_option autoImplicit false

namespace FlowGraph

universe u v

namespace Graph

section Paths

variable {N : Type u} {g : Graph N} {entry a b c : N} {vs : List N}

theorem Path.exists_edge {w : N} (h : g.Path a b (w :: vs)) (hne : vs ≠ []) :
    ∃ c ∈ g.successors a, g.Path c b vs := by
  cases h with
  | single _ => exact absurd rfl hne
  | step edge rest => exact ⟨_, edge, rest⟩

private theorem Path.split {w : N} (h : g.Path a b vs) (hw : w ∈ vs) :
    ∃ pre post, g.Path a w pre ∧ g.Path w b post ∧ pre ⊆ vs ∧ post ⊆ vs := by
  induction h with
  | single v =>
    obtain rfl := List.mem_singleton.1 hw
    exact ⟨_, _, Path.single w, Path.single w, List.Subset.refl _, List.Subset.refl _⟩
  | @step a' x b' vs edge rest ih =>
    by_cases hwa : w = a'
    · subst hwa
      refine ⟨[w], w :: vs, Path.single w, Path.step edge rest, ?_, List.Subset.refl _⟩
      exact List.cons_subset.2 ⟨List.mem_cons_self, List.nil_subset _⟩
    · obtain ⟨pre, post, hpre, hpost, hsub, hsub'⟩ :=
        ih ((List.mem_cons.1 hw).resolve_left hwa)
      exact ⟨a' :: pre, post, Path.step edge hpre, hpost, List.cons_subset_cons a' hsub,
        fun x hx => List.mem_cons_of_mem a' (hsub' hx)⟩

private theorem Path.exists_shorter {w : N} (h : g.Path a b vs) (hw : w ∈ vs) (hne : w ≠ b) :
    ∃ pre, g.Path a w pre ∧ pre.length < vs.length := by
  induction h with
  | single v => exact absurd (List.mem_singleton.1 hw) hne
  | @step a' x b' vs edge rest ih =>
    by_cases hwa : w = a'
    · subst hwa
      have pos : 0 < vs.length := List.length_pos_of_mem rest.start_mem
      exact ⟨[w], Path.single w, Nat.succ_lt_succ pos⟩
    · obtain ⟨pre, path, hlt⟩ := ih ((List.mem_cons.1 hw).resolve_left hwa) hne
      exact ⟨a' :: pre, Path.step edge path, Nat.succ_lt_succ hlt⟩

theorem Reachable.tail (h : g.Reachable a b) (edge : c ∈ g.successors b) : g.Reachable a c :=
  h.trans ⟨_, Path.step edge (Path.single c)⟩

theorem Dominates.trans (h : g.Dominates entry a b) (k : g.Dominates entry b c) :
    g.Dominates entry a c := by
  intro vs hvs
  obtain ⟨pre, _, hpre, _, hsub, _⟩ := hvs.split (k vs hvs)
  exact hsub (h pre hpre)

theorem Dominates.reachable (h : g.Dominates entry a b) (reach : g.Reachable entry b) :
    g.Reachable entry a := by
  obtain ⟨vs, path⟩ := reach
  obtain ⟨pre, _, before, _⟩ := path.split (h vs path)
  exact ⟨pre, before⟩

/-- Two vertices that dominate each other are one: otherwise a path to one of them is cut at the
other, that one at the first again, and so on for ever. -/
theorem Dominates.antisymm (h : g.Dominates entry a b) (k : g.Dominates entry b a)
    (reach : g.Reachable entry b) : a = b := by
  obtain ⟨vs, path⟩ := reach
  induction hn : vs.length using Nat.strongRecOn generalizing vs with
  | ind n ih =>
    by_contra hne
    obtain ⟨us, toA, hlt⟩ := path.exists_shorter (h vs path) hne
    obtain ⟨ws, toB, hlt'⟩ := toA.exists_shorter (k us toA) (Ne.symm hne)
    exact hne (ih ws.length (by omega) ws toB rfl)

theorem ImmediatelyDominates.unique (h : g.ImmediatelyDominates entry a c)
    (k : g.ImmediatelyDominates entry b c) (reach : g.Reachable entry c) : a = b :=
  (k.closest a h.ne h.dominates).antisymm (h.closest b k.ne k.dominates)
    (k.dominates.reachable reach)

/-- How many other vertices every path to a vertex passes. -/
noncomputable def dominanceDepth (g : Graph N) (entry v : N) : Nat :=
  {u | u ≠ v ∧ g.Dominates entry u v}.ncard

theorem Dominates.eq_entry (h : g.Dominates entry a entry) : a = entry :=
  List.mem_singleton.1 (h [entry] (Path.single entry))

end Paths

section Removal

variable {N : Type u} [DecidableEq N] {g : Graph N} {entry d w : N}

/-- The graph without the edges that enter or leave a vertex. -/
def remove (g : Graph N) (d : N) : Graph N where
  successors u := if u = d then [] else (g.successors u).filter (· ≠ d)

private theorem mem_successors_remove {x y : N} :
    y ∈ (g.remove d).successors x ↔ x ≠ d ∧ y ≠ d ∧ y ∈ g.successors x := by
  unfold remove
  by_cases h : x = d
  · simp [h]
  · simp [h, and_comm]

private theorem Path.of_remove {x y : N} {vs : List N} (h : (g.remove d).Path x y vs) (hy : y ≠ d) :
    g.Path x y vs ∧ d ∉ vs := by
  induction h with
  | single v => exact ⟨Path.single v, by simpa using hy.symm⟩
  | step edge _ ih =>
    obtain ⟨hx, _, edge⟩ := mem_successors_remove.1 edge
    obtain ⟨path, hd⟩ := ih hy
    exact ⟨Path.step edge path, List.not_mem_cons_of_ne_of_not_mem hx.symm hd⟩

private theorem Path.remove {x y : N} {vs : List N} (h : g.Path x y vs) (hd : d ∉ vs) :
    (g.remove d).Path x y vs := by
  induction h with
  | single v => exact Path.single v
  | step edge rest ih =>
    have hx := List.ne_of_not_mem_cons hd
    have hd := List.not_mem_of_not_mem_cons hd
    refine Path.step (mem_successors_remove.2 ⟨hx.symm, ?_, edge⟩) (ih hd)
    rintro rfl
    exact hd rest.start_mem

theorem dominates_iff_remove :
    g.Dominates entry d w ↔ d = w ∨ ¬ (g.remove d).Reachable entry w := by
  constructor
  · intro h
    by_cases hd : d = w
    · exact Or.inl hd
    · refine Or.inr ?_
      rintro ⟨vs, hvs⟩
      obtain ⟨path, hmem⟩ := hvs.of_remove (Ne.symm hd)
      exact hmem (h vs path)
  · rintro (rfl | h)
    · exact Dominates.refl g entry d
    · intro vs hvs
      by_contra hd
      exact h ⟨vs, hvs.remove hd⟩

end Removal

section Embedding

variable {A : Type u} {B : Type v} {g : Graph A} {h : Graph B} {f : A → B}

/-- A graph is a part of another, with all edges that leave the part. -/
structure Embeds (g : Graph A) (h : Graph B) (f : A → B) : Prop where
  injective : Function.Injective f
  mem_successors : ∀ u b, b ∈ h.successors (f u) ↔ ∃ w ∈ g.successors u, f w = b

theorem Embeds.path_map (emb : Embeds g h f) {x y : A} {vs : List A} (p : g.Path x y vs) :
    h.Path (f x) (f y) (vs.map f) := by
  induction p with
  | single v => exact Path.single _
  | step edge _ ih => exact Path.step ((emb.mem_successors _ _).2 ⟨_, edge, rfl⟩) ih

private theorem Embeds.exists_path (emb : Embeds g h f) {b b' : B} {ws : List B}
    (p : h.Path b b' ws) :
    ∀ x, f x = b → ∃ y vs, g.Path x y vs ∧ f y = b' ∧ vs.map f = ws := by
  induction p with
  | single v =>
    intro x hx
    exact ⟨x, [x], Path.single x, hx, by simp [hx]⟩
  | step edge _ ih =>
    intro x hx
    rw [← hx] at edge
    obtain ⟨w, hw, hfw⟩ := (emb.mem_successors _ _).1 edge
    obtain ⟨y, vs, hvs, hy, hmap⟩ := ih w hfw
    exact ⟨y, x :: vs, Path.step hw hvs, hy, by simp [hmap, hx]⟩

theorem Embeds.path_iff (emb : Embeds g h f) {x y : A} {ws : List B} :
    h.Path (f x) (f y) ws ↔ ∃ vs, g.Path x y vs ∧ vs.map f = ws := by
  constructor
  · intro path
    obtain ⟨y', vs, path', same, hmap⟩ := emb.exists_path path x rfl
    obtain rfl := emb.injective same
    exact ⟨vs, path', hmap⟩
  · rintro ⟨vs, path, rfl⟩
    exact emb.path_map path

theorem Embeds.reachable_iff (emb : Embeds g h f) {x : A} {b : B} :
    h.Reachable (f x) b ↔ ∃ y, g.Reachable x y ∧ f y = b := by
  constructor
  · rintro ⟨ws, hws⟩
    obtain ⟨y, vs, hvs, hy, _⟩ := emb.exists_path hws x rfl
    exact ⟨y, ⟨vs, hvs⟩, hy⟩
  · rintro ⟨y, ⟨vs, hvs⟩, rfl⟩
    exact ⟨_, emb.path_map hvs⟩

theorem Embeds.encard_reachable_le {n : Nat} {g : Graph (Fin n)} {f : Fin n → B}
    (emb : Embeds g h f) (x : Fin n) : {b | h.Reachable (f x) b}.encard ≤ n := by
  have subset : {b | h.Reachable (f x) b} ⊆ Set.range f := by
    intro b hb
    obtain ⟨y, _, rfl⟩ := emb.reachable_iff.1 hb
    exact ⟨y, rfl⟩
  have range : (Set.range f).encard ≤ n := by
    rw [← Set.image_univ]
    simpa using Set.encard_image_le f Set.univ
  exact (Set.encard_le_encard subset).trans range

theorem Embeds.dominates_iff (emb : Embeds g h f) {entry d x : A} :
    h.Dominates (f entry) (f d) (f x) ↔ g.Dominates entry d x := by
  constructor
  · intro hd vs hvs
    obtain ⟨y, hy, hfy⟩ := List.mem_map.1 (hd _ (emb.path_map hvs))
    rwa [← emb.injective hfy]
  · intro hd ws hws
    obtain ⟨y, vs, hvs, hy, rfl⟩ := emb.exists_path hws entry rfl
    obtain rfl := emb.injective hy
    exact List.mem_map_of_mem (hd vs hvs)

theorem Embeds.immediatelyDominates (emb : Embeds g h f) {entry d x : A}
    (reach : g.Reachable entry x) (hd : g.ImmediatelyDominates entry d x) :
    h.ImmediatelyDominates (f entry) (f d) (f x) where
  ne := fun heq => hd.ne (emb.injective heq)
  dominates := emb.dominates_iff.2 hd.dominates
  closest := by
    intro c hne hc
    obtain ⟨vs, hvs⟩ := reach
    obtain ⟨c, _, rfl⟩ := List.mem_map.1 (hc _ (emb.path_map hvs))
    refine emb.dominates_iff.2 (hd.closest c ?_ (emb.dominates_iff.1 hc))
    rintro rfl
    exact hne rfl

theorem Embeds.of_immediatelyDominates (emb : Embeds g h f) {entry d x : A}
    (hd : h.ImmediatelyDominates (f entry) (f d) (f x)) : g.ImmediatelyDominates entry d x where
  ne := fun heq => hd.ne (congrArg f heq)
  dominates := emb.dominates_iff.1 hd.dominates
  closest := by
    intro c hne hc
    have hne' : f c ≠ f x := fun heq => hne (emb.injective heq)
    exact emb.dominates_iff.1 (hd.closest _ hne' (emb.dominates_iff.2 hc))

end Embedding

end Graph

end FlowGraph
