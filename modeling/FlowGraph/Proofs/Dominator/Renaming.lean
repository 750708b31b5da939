import FlowGraph.Proofs.Dominator.Exactness
import FlowGraph.Proofs.Search.Recursion
import Mathlib.Data.List.Sort
/-!
Renaming of vertices. Two graphs that differ, as far as the entry reaches, in the names of their
vertices and in nothing else have dominators that differ in no more. Indexes may be chosen anew,
and vertices that are not reachable may be anything.
-/

set_option autoImplicit false

namespace FlowGraph

universe u v

variable {M : Type u} {N : Type v}

namespace Graph

variable {g : Graph M} {h : Graph N} {f : M → N} {entry x y : M}

/-- What the entry reaches in one graph has different names in another, and its successors there
are the renamed ones, in their order. -/
structure Renames (g : Graph M) (h : Graph N) (f : M → N) (entry : M) : Prop where
  injective : ∀ u v, g.Reachable entry u → g.Reachable entry v → f u = f v → u = v
  successors : ∀ v, g.Reachable entry v → h.successors (f v) = (g.successors v).map f

namespace Renames

variable (ren : g.Renames h f entry)
include ren

private theorem exists_of_path {b c : N} {ws : List N} (path : h.Path b c ws) :
    ∀ v, g.Reachable entry v → f v = b → ∃ w, g.Reachable entry w ∧ f w = c := by
  induction path with
  | single b => exact fun v hv name => ⟨v, hv, name⟩
  | step edge _ ih =>
    rintro v hv rfl
    rw [ren.successors v hv] at edge
    obtain ⟨w, hw, name⟩ := List.mem_map.1 edge
    exact ih w (hv.tail hw) name

private theorem reachable_of_path {vs : List M} (path : g.Path x y vs) (hx : g.Reachable entry x) :
    h.Reachable (f x) (f y) := by
  induction path with
  | single v => exact Reachable.refl (f v)
  | @step a b c _ edge _ ih =>
    have reach := ih (hx.tail edge)
    have edge' : f b ∈ h.successors (f a) := by
      rw [ren.successors a hx]
      exact List.mem_map_of_mem edge
    exact reachable_iff_successor.2 (Or.inr ⟨f b, edge', reach⟩)

private theorem reachable (hv : g.Reachable entry x) : h.Reachable (f entry) (f x) := by
  obtain ⟨_, path⟩ := hv
  exact ren.reachable_of_path path (Reachable.refl entry)

private theorem encard_le :
    {w | h.Reachable (f entry) w}.encard ≤ {v | g.Reachable entry v}.encard := by
  have subset : {w | h.Reachable (f entry) w} ⊆ f '' {v | g.Reachable entry v} := by
    rintro w ⟨_, path⟩
    exact ren.exists_of_path path entry (Reachable.refl entry) rfl
  exact (Set.encard_le_encard subset).trans (Set.encard_image_le f _)

end Renames

variable [Node M] [Node N]

private theorem Renames.index_iff (ren : g.Renames h f entry)
    (injective : ∀ u v, g.Reachable entry u → g.Reachable entry v →
      Node.index u = Node.index v → u = v)
    (injective' : ∀ u v, h.Reachable (f entry) u → h.Reachable (f entry) v →
      Node.index u = Node.index v → u = v)
    (hx : g.Reachable entry x) (hy : g.Reachable entry y) :
    Node.index (f x) = Node.index (f y) ↔ Node.index x = Node.index y := by
  constructor
  · intro heq
    rw [ren.injective x y hx hy (injective' _ _ (ren.reachable hx) (ren.reachable hy) heq)]
  · intro heq
    rw [injective x y hx hy heq]

private theorem Calls.rename {calls entered entered' : List (Nat × M)} (ren : g.Renames h f entry)
    (same : ∀ u v, g.Reachable entry u → g.Reachable entry v →
      (Node.index (f u) = Node.index (f v) ↔ Node.index u = Node.index v))
    (made : g.Calls calls entered entered') (reach : ∀ c ∈ calls, g.Reachable entry c.2)
    (before : ∀ c ∈ entered, g.Reachable entry c.2) :
    h.Calls (calls.map (Prod.map id f)) (entered.map (Prod.map id f))
      (entered'.map (Prod.map id f)) ∧ ∀ c ∈ entered', g.Reachable entry c.2 := by
  have known_iff : ∀ {v : M} {entered : List (Nat × M)}, g.Reachable entry v →
      (∀ c ∈ entered, g.Reachable entry c.2) →
      (Node.index (f v) ∈ ((entered.map (Prod.map id f)).map Prod.snd).map Node.index ↔
        Node.index v ∈ (entered.map Prod.snd).map Node.index) := by
    intro v entered hv before
    simp only [List.map_map, List.mem_map, Function.comp_apply, Prod.map_snd]
    exact exists_congr fun c => and_congr_right fun hc => same c.2 v (before c hc) hv
  induction made with
  | nil => exact ⟨nil, before⟩
  | skip known _ ih =>
    obtain ⟨hv, hrest⟩ := List.forall_mem_cons.1 reach
    obtain ⟨next, after⟩ := ih hrest before
    exact ⟨skip ((known_iff hv before).2 known) next, after⟩
  | @enter caller v rest entered inside _ fresh _ _ ihDown ihNext =>
    obtain ⟨hv, hrest⟩ := List.forall_mem_cons.1 reach
    have below : ∀ c ∈ (g.successors v).map (entered.length, ·), g.Reachable entry c.2 := by
      intro c hc
      obtain ⟨w, hw, rfl⟩ := List.mem_map.1 hc
      exact hv.tail hw
    have upto : ∀ c ∈ entered ++ [(caller, v)], g.Reachable entry c.2 := by
      intro c hc
      rcases List.mem_append.1 hc with hc | hc
      · exact before c hc
      · obtain rfl := List.mem_singleton.1 hc
        exact hv
    obtain ⟨down, within⟩ := ihDown below upto
    obtain ⟨next, after⟩ := ihNext hrest within
    refine ⟨enter (mt (known_iff hv before).1 fresh) ?_ next, after⟩
    rw [ren.successors v hv, List.length_map]
    simpa [Function.comp_def] using down

end Graph

private theorem Flow.idoms_congr (F : Nat → Type) [LinkEval F] {n n' : Nat} [HasEntry n]
    [HasEntry n'] {flow : Flow n} {flow' : Flow n'} (size : n = n')
    (parent : ∀ i, (flow'.parent (i.cast size)).val = (flow.parent i).val)
    (preds : ∀ i, (flow'.preds (i.cast size)).map Fin.val = (flow.preds i).map Fin.val) :
    ((flow'.idoms F).map Fin.val).toArray = ((flow.idoms F).map Fin.val).toArray := by
  subst size
  have hparent : flow'.parent = flow.parent := funext fun i => Fin.ext (parent i)
  have hpreds : flow'.preds = flow.preds :=
    funext fun i => List.map_injective_iff.2 Fin.val_injective (preds i)
  have hflow : flow' = flow := by
    cases flow
    cases flow'
    cases hparent
    cases hpreds
    rfl
  rw [hflow]

structure Dominators.RenamedTo (d : Dominators M) (f : M → N) (d' : Dominators N) : Prop where
  vertices : d'.vertices = d.vertices.map f
  idoms : d'.idoms = d.idoms
  childLists : d'.tree.toList = d.tree.toList
  preorder : d'.tree.preorder = d.tree.preorder

namespace SpanningTree

variable {t : SpanningTree M} {t' : SpanningTree N} {f : M → N}

private theorem renamedTo_ofSpanningTree (kind : LinkEvalKind)
    (vertices : t'.vertices = t.vertices.map f) (parents : t'.parents = t.parents)
    (preds : ∀ i, t'.toTables.predsAt i = t.toTables.predsAt i) :
    (Dominators.ofSpanningTree kind t).RenamedTo f (Dominators.ofSpanningTree kind t') := by
  have size : t.size = t'.size := by
    change t.vertices.size = t'.vertices.size
    rw [vertices, Array.size_map]
  have sameParent : ∀ i, (t'.flow.parent (i.cast size)).val = (t.flow.parent i).val := by
    intro i
    change (t'.parent (i.cast size)).val = (t.parent i).val
    rw [val_parent, val_parent, Tables.parentAt, parents]
    rfl
  have samePreds : ∀ i, (t'.flow.preds (i.cast size)).map Fin.val =
      (t.flow.preds i).map Fin.val := by
    intro i
    change (t'.preds (i.cast size)).map Fin.val = (t.preds i).map Fin.val
    rw [map_val_preds, map_val_preds]
    exact preds i.val
  have idoms : ((t'.idoms kind).map Fin.val).toArray = ((t.idoms kind).map Fin.val).toArray := by
    cases kind with
    | simple => exact Flow.idoms_congr SimpleLinks size sameParent samePreds
    | balanced => exact Flow.idoms_congr BalancedLinks size sameParent samePreds
  have tree : (Dominators.ofSpanningTree kind t').tree = (Dominators.ofSpanningTree kind t).tree :=
    congrArg IdomTree.ofTable idoms
  exact ⟨vertices, idoms, congrArg IdomTree.toList tree, congrArg IdomTree.preorder tree⟩

end SpanningTree

namespace Graph

variable [Node M] [Node N] {g : Graph M} {h : Graph N} {f : M → N} {entry : M} {bound : Nat}
  {t : SpanningTree M} {t' : SpanningTree N}

namespace Renames

variable (ren : g.Renames h f entry)
  (injective : ∀ u v, g.Reachable entry u → g.Reachable entry v →
    Node.index u = Node.index v → u = v)
  (injective' : ∀ u v, h.Reachable (f entry) u → h.Reachable (f entry) v →
    Node.index u = Node.index v → u = v)
  (ok : (g.explore bound entry).result = .ok t)
  (ok' : (h.explore bound (f entry)).result = .ok t')
include ren injective injective' ok ok'

private theorem entered_eq : t'.entered = t.entered.map (Prod.map id f) := by
  have start : ∀ c ∈ [(0, entry)], g.Reachable entry c.2 := by
    intro c hc
    obtain rfl := List.mem_singleton.1 hc
    exact Reachable.refl entry
  obtain ⟨calls, _⟩ := (calls_of_explore ok).rename ren
    (fun _ _ hu hv => ren.index_iff injective injective' hu hv) start (by simp)
  exact (calls_of_explore ok').unique calls

private theorem mem_predsAt_iff (vertices : t'.vertices = t.vertices.map f) (p i : Nat) :
    p ∈ t'.toTables.predsAt i ↔ p ∈ t.toTables.predsAt i := by
  obtain ⟨_, rec⟩ := sound_of_explore ok
  rw [SpanningTree.mem_predsAt_of_explore ok injective,
    SpanningTree.mem_predsAt_of_explore ok' injective', vertices, Array.getElem?_map,
    Array.getElem?_map]
  constructor
  · rintro ⟨_, _, rowU, rowV, edge⟩
    obtain ⟨u, hu, rfl⟩ := Option.map_eq_some_iff.1 rowU
    obtain ⟨v, hv, rfl⟩ := Option.map_eq_some_iff.1 rowV
    have reach := rec.reachable p u hu
    rw [ren.successors u reach] at edge
    obtain ⟨w, hw, name⟩ := List.mem_map.1 edge
    obtain rfl := ren.injective w v (reach.tail hw) (rec.reachable i v hv) name
    exact ⟨u, w, hu, hv, hw⟩
  · rintro ⟨u, v, hu, hv, edge⟩
    refine ⟨f u, f v, by rw [hu]; rfl, by rw [hv]; rfl, ?_⟩
    rw [ren.successors u (rec.reachable p u hu)]
    exact List.mem_map_of_mem edge

private theorem tables_eq : t'.vertices = t.vertices.map f ∧ t'.parents = t.parents ∧
    ∀ i, t'.toTables.predsAt i = t.toTables.predsAt i := by
  have entered := ren.entered_eq injective injective' ok ok'
  have vertices : t'.vertices = t.vertices.map f := by
    refine Array.toList_inj.1 ?_
    rw [← Tables.map_snd_entered t'.valid, entered, Array.toList_map,
      ← Tables.map_snd_entered t.valid, List.map_map, List.map_map]
    rfl
  have parents : t'.parents = t.parents := by
    refine Array.toList_inj.1 ?_
    rw [← Tables.map_fst_entered t'.valid, entered, ← Tables.map_fst_entered t.valid,
      List.map_map]
    rfl
  refine ⟨vertices, parents, fun i => ?_⟩
  have increasing := SpanningTree.pairwise_predsAt_of_explore ok i
  have increasing' := SpanningTree.pairwise_predsAt_of_explore ok' i
  exact increasing'.eq_of_mem_iff increasing fun p =>
    ren.mem_predsAt_iff injective injective' ok ok' vertices p i

end Renames

/-- Renaming vertices changes nothing but names in the dominators that are computed, with either
kind of forest. -/
theorem renamedTo_dominators (g : Graph M) (h : Graph N) (f : M → N) (entry : M)
    (options : Options) (ren : g.Renames h f entry)
    (injective : ∀ u v, g.Reachable entry u → g.Reachable entry v →
      Node.index u = Node.index v → u = v)
    (injective' : ∀ u v, h.Reachable (f entry) u → h.Reachable (f entry) v →
      Node.index u = Node.index v → u = v)
    (room : {v | g.Reachable entry v}.encard ≤ options.bound) :
    ∃ d d', g.dominators entry options = .ok d ∧ h.dominators (f entry) options = .ok d' ∧
      d.RenamedTo f d' := by
  obtain ⟨t, ok, hd⟩ := exists_dominators room
  obtain ⟨t', ok', hd'⟩ := exists_dominators (ren.encard_le.trans room)
  obtain ⟨vertices, parents, preds⟩ := ren.tables_eq injective injective' ok ok'
  exact ⟨_, _, hd, hd',
    SpanningTree.renamedTo_ofSpanningTree options.linkEval vertices parents preds⟩

theorem renamedTo_dominators_two_entries :
    ∃ d d', (ofRows [[1, 2], [3], [3], [1, 2]]).dominators 0 { bound := 4, linkEval := .balanced } =
        .ok d ∧
      (ofRows [[0], [9], [], [1], [], [2, 2], [8, 7], [6], [6], [8, 7]]).dominators 9
        { bound := 4, linkEval := .balanced } = .ok d' ∧
      d.RenamedTo (fun v => 9 - v) d' := by
  have inside : ∀ v, (ofRows [[1, 2], [3], [3], [1, 2]]).Reachable 0 v → v < 4 :=
    fun v => lt_of_reachable_ofRows (by decide) (by decide)
  refine renamedTo_dominators _ _ (fun v => 9 - v) 0 { bound := 4, linkEval := .balanced } ⟨?_, ?_⟩
    (fun _ _ _ _ h => h) (fun _ _ _ _ h => h)
    (encard_reachable_ofRows [[1, 2], [3], [3], [1, 2]] 0 (by decide) (by decide))
  · intro u v hu hv heq
    have := inside u hu
    have := inside v hv
    omega
  · intro v hv
    match v, inside v hv with
    | 0, _ => rfl
    | 1, _ => rfl
    | 2, _ => rfl
    | 3, _ => rfl

end Graph

end FlowGraph
