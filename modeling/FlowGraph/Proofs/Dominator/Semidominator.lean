import FlowGraph.Proofs.Dominator.DepthFirst
/-!
Semidominators. A detour to a number passes larger numbers only, and the least start of a detour
is the semidominator. A number dominates what is below it in the tree if no detour from before it
leads to the tree path between the two. The immediate dominator follows: it is the semidominator,
or that of a number further up which some detour from an earlier start leads to.
-/

set_option autoImplicit false

namespace FlowGraph

namespace Flow

variable {n : Nat}

/-- A path leads from a number to `w` and passes only larger numbers than `w` between. -/
inductive Detour (flow : Flow n) (w : Fin n) : Fin n → Prop
  | edge {x : Fin n} (hx : x ∈ flow.preds w) : Detour flow w x
  | above {x y : Fin n} (h : Detour flow w y) (lt : w < y) (hx : x ∈ flow.preds y) :
      Detour flow w x

/-- The semidominator of a number is the least start of a detour to it. -/
structure IsSemi (flow : Flow n) (w s : Fin n) : Prop where
  detour : flow.Detour w s
  least : ∀ x, flow.Detour w x → s ≤ x

/-- All detours to the part after `b` of the tree path to `v` start at `d` or later. -/
def Guards (flow : Flow n) (d b v : Fin n) : Prop :=
  ∀ y x, Ancestor flow.parent y v → b < y → flow.Detour y x → d ≤ x

theorem IsSemi.unique {flow : Flow n} {w s s' : Fin n} (h : flow.IsSemi w s)
    (h' : flow.IsSemi w s') : s = s' :=
  le_antisymm (h.least s' h'.detour) (h'.least s h.detour)

namespace Detour

variable {flow : Flow n} {a p u v w x : Fin n} {vs : List (Fin n)}

private theorem le_of_mem_concat {between : List (Fin n)} (larger : ∀ u ∈ between, w < u) :
    ∀ u ∈ between ++ [w], w ≤ u := by
  intro u hu
  rcases List.mem_append.1 hu with hu | hu
  · exact (larger u hu).le
  · exact (List.mem_singleton.1 hu).ge

private theorem exists_between (h : flow.Detour w x) :
    ∃ between, flow.graph.Path x w (x :: (between ++ [w])) ∧ ∀ u ∈ between, w < u := by
  induction h with
  | edge hx =>
    exact ⟨[], Graph.Path.step (mem_successors.2 hx) (Graph.Path.single w), by simp⟩
  | @above x y _ lt hx ih =>
    obtain ⟨between, path, larger⟩ := ih
    exact ⟨y :: between, Graph.Path.step (mem_successors.2 hx) path,
      List.forall_mem_cons.2 ⟨lt, larger⟩⟩

private theorem exists_path (h : flow.Detour w x) :
    ∃ vs, flow.graph.Path x w (x :: vs) ∧ ∀ u ∈ vs, w ≤ u := by
  obtain ⟨between, path, larger⟩ := h.exists_between
  exact ⟨between ++ [w], path, le_of_mem_concat larger⟩

private theorem of_path (path : flow.graph.Path a w vs) (hle : ∀ u ∈ vs, w ≤ u)
    (hx : x ∈ flow.preds a) :
    flow.Detour w x := by
  induction path generalizing x with
  | single w => exact edge hx
  | @step a b w vs hab _ ih =>
    have hb : flow.Detour w a :=
      ih (fun u hu => hle u (List.mem_cons_of_mem a hu)) (mem_successors.1 hab)
    rcases (hle a List.mem_cons_self).eq_or_lt with rfl | hwa
    · exact edge hx
    · exact above hb hwa hx

theorem iff_between : flow.Detour w x ↔
    ∃ between, flow.graph.Path x w (x :: (between ++ [w])) ∧ ∀ u ∈ between, w < u := by
  refine ⟨exists_between, ?_⟩
  rintro ⟨between, path, larger⟩
  obtain ⟨y, edge, rest⟩ := path.exists_edge (by simp)
  exact of_path rest (le_of_mem_concat larger) (mem_successors.1 edge)

private theorem trans (h : flow.Detour w u) (lt : w < u) (k : flow.Detour u x) :
    flow.Detour w x := by
  induction k with
  | edge hx => exact above h lt hx
  | above _ lt' hx ih => exact above ih (lt.trans lt') hx

private theorem of_ancestor [HasEntry n] (df : flow.DepthFirst) (h : flow.Detour w p)
    (hu : Ancestor flow.parent u p) (lt : w < u) : flow.Detour w u := by
  induction hu with
  | refl => exact h
  | @up q hup ih =>
    by_cases hq : q = 0
    · subst hq
      rw [df.parent_zero] at ih
      exact ih h
    · have hwq : w < q := lt.trans_le (df.le_of_ancestor (Ancestor.up hup))
      exact ih (above h hwq (df.parent_mem q hq))

/-- The last edge of a detour comes from below a number that a detour leads to, or is all of it.
This is what a sweep computes semidominators by. -/
theorem iff_preds [HasEntry n] (df : flow.DepthFirst) :
    flow.Detour w x ↔ x ∈ flow.preds w ∨
      ∃ p ∈ flow.preds w, ∃ u, Ancestor flow.parent u p ∧ w < u ∧ flow.Detour u x := by
  constructor
  · intro h
    have last : x ∈ flow.preds w ∨ ∃ p ∈ flow.preds w, ∃ y vs, x ∈ flow.preds y ∧
        flow.graph.Path y p vs ∧ ∀ u ∈ vs, w < u := by
      induction h with
      | edge hx => exact Or.inl hx
      | @above x y _ lt hx ih =>
        refine Or.inr ?_
        rcases ih with hy | ⟨p, hp, z, vs, hz, path, hlt⟩
        · exact ⟨y, hy, y, [y], hx, Graph.Path.single y, by simpa using lt⟩
        · refine ⟨p, hp, y, y :: vs, hx, Graph.Path.step (mem_successors.2 hz) path, ?_⟩
          intro u hu
          rcases List.mem_cons.1 hu with rfl | hu
          · exact lt
          · exact hlt u hu
    rcases last with hx | ⟨p, hp, y, vs, hxy, path, hlt⟩
    · exact Or.inl hx
    · obtain ⟨m, ws, hm, path', hsub, hle⟩ := df.exists_least_of_path path
      have detour : flow.Detour m x := of_path path' (fun u hu => hle u (hsub hu)) hxy
      exact Or.inr ⟨p, hp, m, hm, hlt m (hsub path'.end_mem), detour⟩
  · rintro (hx | ⟨p, hp, u, hu, lt, hx⟩)
    · exact edge hx
    · exact ((edge hp).of_ancestor df hu lt).trans lt hx

end Detour

private theorem exists_last_edge_below {flow : Flow n} {d u v : Fin n} {vs : List (Fin n)}
    (path : flow.graph.Path u v vs) (hd : d ∉ vs) (hv : d ≤ v) :
    (∀ y ∈ vs, d < y) ∨
      ∃ x b ws, x < d ∧ x ∈ flow.preds b ∧ flow.graph.Path b v ws ∧ ∀ y ∈ ws, d < y := by
  induction path with
  | single v =>
    have hne : d ≠ v := by simpa using hd
    exact Or.inl (by simpa using lt_of_le_of_ne hv hne)
  | @step a b v vs edge rest ih =>
    rcases ih (List.not_mem_of_not_mem_cons hd) hv with hlt | last
    · rcases lt_or_gt_of_ne (List.ne_of_not_mem_cons hd) with hda | had
      · refine Or.inl ?_
        intro y hy
        rcases List.mem_cons.1 hy with rfl | hy
        · exact hda
        · exact hlt y hy
      · exact Or.inr ⟨a, b, vs, had, mem_successors.1 edge, rest, hlt⟩
    · exact Or.inr last

namespace DepthFirst

variable [HasEntry n] {flow : Flow n} {c d m s u v w z : Fin n} {vs : List (Fin n)}

theorem le_parent_of_isSemi (df : flow.DepthFirst) (h : flow.IsSemi v s) (hv : v ≠ 0) :
    s ≤ flow.parent v :=
  h.least _ (Detour.edge (df.parent_mem v hv))

theorem lt_of_isSemi (df : flow.DepthFirst) (h : flow.IsSemi v s) (hv : v ≠ 0) : s < v :=
  (df.le_parent_of_isSemi h hv).trans_lt (df.parent_lt v hv)

private theorem ancestor_of_isSemi (df : flow.DepthFirst) (h : flow.IsSemi v s) (hv : v ≠ 0) :
    Ancestor flow.parent s v := by
  have hlt := df.lt_of_isSemi h hv
  obtain ⟨vs, path, hle⟩ := h.detour.exists_path
  obtain ⟨m, ws, hm, path', hsub, hmin⟩ := df.exists_least_of_path path
  have hms : m ≤ s := hmin s List.mem_cons_self
  rcases List.mem_cons.1 (hsub path'.end_mem) with rfl | hmem
  · exact hm
  · exact absurd (hle m hmem) (not_le_of_gt (hms.trans_lt hlt))

private theorem dominates_of_guards (df : flow.DepthFirst) (h : Ancestor flow.parent d v)
    (guards : flow.Guards d d v) : flow.graph.Dominates 0 d v := by
  intro vs path
  by_contra hd
  rcases exists_last_edge_below path hd (df.le_of_ancestor h) with
    hlt | ⟨x, b, ws, hx, hb, rest, hlt⟩
  · exact absurd (hlt 0 path.start_mem) (Fin.not_lt_zero d)
  · obtain ⟨m, ws', hm, path', hsub, hle⟩ := df.exists_least_of_path rest
    have detour : flow.Detour m x := Detour.of_path path' (fun y hy => hle y (hsub hy)) hb
    have hdx : d ≤ x := guards m x hm (hlt m (hsub path'.end_mem)) detour
    exact absurd hx (not_lt_of_ge hdx)

private theorem guards_of_dominates (df : flow.DepthFirst) (h : flow.graph.Dominates 0 d v) :
    flow.Guards d d v := by
  intro y x hy hdy detour
  by_contra hdx
  have hx : x < d := lt_of_not_ge hdx
  -- down the tree to `x`, by the detour to `y`, and down the tree to `v`
  obtain ⟨vs₁, path₁, between₁⟩ := df.exists_path_of_ancestor (df.ancestor_zero x)
  obtain ⟨vs₂, path₂, hle₂⟩ := detour.exists_path
  obtain ⟨vs₃, path₃, between₃⟩ := df.exists_path_of_ancestor hy
  have hmem := h _ ((path₁.trans path₂).trans path₃)
  rcases List.mem_append.1 hmem with hmem | hmem
  · rcases List.mem_append.1 (List.dropLast_subset _ hmem) with hmem | hmem
    · have hle := df.le_of_ancestor (between₁ d (List.dropLast_subset vs₁ hmem)).2
      exact absurd hx (not_lt_of_ge hle)
    · rcases List.mem_cons.1 hmem with rfl | hmem
      · exact lt_irrefl _ hx
      · exact absurd (hle₂ d hmem) (not_le_of_gt hdy)
  · exact absurd (df.le_of_ancestor (between₃ d hmem).1) (not_le_of_gt hdy)

/-- What a number dominates can be told by the detours to the tree path below it. -/
private theorem dominates_iff_guards (df : flow.DepthFirst) :
    flow.graph.Dominates 0 d v ↔ Ancestor flow.parent d v ∧ flow.Guards d d v :=
  ⟨fun h => ⟨df.ancestor_of_dominates h, df.guards_of_dominates h⟩,
    fun h => df.dominates_of_guards h.1 h.2⟩

private theorem dominates_ancestor (df : flow.DepthFirst) (h : flow.graph.Dominates 0 c v)
    (hz : Ancestor flow.parent z v) (hle : c ≤ z) : flow.graph.Dominates 0 c z := by
  obtain ⟨hcv, guards⟩ := df.dominates_iff_guards.1 h
  refine df.dominates_iff_guards.2 ⟨df.ancestor_of_le hcv hz hle, ?_⟩
  intro y x hy
  exact guards y x (hy.trans hz)

private theorem le_isSemi_of_dominates (df : flow.DepthFirst) (hs : flow.IsSemi v s)
    (h : flow.graph.Dominates 0 c v) (hne : c ≠ v) : c ≤ s := by
  obtain ⟨hcv, guards⟩ := df.dominates_iff_guards.1 h
  have hlt : c < v := lt_of_le_of_ne (df.le_of_ancestor hcv) hne
  exact guards v s Ancestor.refl hlt hs.detour

theorem immediatelyDominates_of_isSemi (df : flow.DepthFirst) (hv : v ≠ 0) (hs : flow.IsSemi v s)
    (guards : flow.Guards s s v) : flow.graph.ImmediatelyDominates 0 s v where
  ne := (df.lt_of_isSemi hs hv).ne
  dominates := df.dominates_of_guards (df.ancestor_of_isSemi hs hv) guards
  closest := by
    intro c hne hc
    exact df.dominates_ancestor hc (df.ancestor_of_isSemi hs hv)
      (df.le_isSemi_of_dominates hs hc hne)

/-- A number between the semidominator and `v` has the same dominators as `v` above it, if its own
semidominator is the least of all between. -/
private theorem dominates_iff_of_least (df : flow.DepthFirst) (hs : flow.IsSemi v s) (hsu : s < u)
    (hu : Ancestor flow.parent u v) (hm : flow.IsSemi u m) (guards : flow.Guards m s v) :
    (c ≠ u ∧ flow.graph.Dominates 0 c u) ↔ (c ≠ v ∧ flow.graph.Dominates 0 c v) := by
  constructor
  · rintro ⟨hne, hc⟩
    obtain ⟨hcu, above⟩ := df.dominates_iff_guards.1 hc
    have hlt : c < u := lt_of_le_of_ne (df.le_of_ancestor hcu) hne
    have hcm : c ≤ m := df.le_isSemi_of_dominates hm hc hne
    refine ⟨(hlt.trans_le (df.le_of_ancestor hu)).ne, ?_⟩
    refine df.dominates_iff_guards.2 ⟨hcu.trans hu, ?_⟩
    intro y x hy hcy detour
    rcases le_or_gt y u with hyu | huy
    · exact above y x (df.ancestor_of_le hy hu hyu) hcy detour
    · exact hcm.trans (guards y x hy (hsu.trans huy) detour)
  · rintro ⟨hne, hc⟩
    have hlt : c < u := (df.le_isSemi_of_dominates hs hc hne).trans_lt hsu
    exact ⟨hlt.ne, df.dominates_ancestor hc hu hlt.le⟩

theorem immediatelyDominates_of_least (df : flow.DepthFirst) (hs : flow.IsSemi v s) (hsu : s < u)
    (hu : Ancestor flow.parent u v) (hm : flow.IsSemi u m) (guards : flow.Guards m s v)
    (h : flow.graph.ImmediatelyDominates 0 d u) : flow.graph.ImmediatelyDominates 0 d v := by
  obtain ⟨hne, hd⟩ := (df.dominates_iff_of_least hs hsu hu hm guards).1 ⟨h.ne, h.dominates⟩
  refine ⟨hne, hd, ?_⟩
  intro c hcv hc
  obtain ⟨hcu, hc⟩ := (df.dominates_iff_of_least hs hsu hu hm guards).2 ⟨hcv, hc⟩
  exact h.closest c hcu hc

end DepthFirst

end Flow

end FlowGraph
