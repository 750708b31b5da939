import FlowGraph.Dominator.Basic
import FlowGraph.Proofs.Dominator.DepthFirst
import FlowGraph.Proofs.Search.Records
import Mathlib.Data.Set.Card
/-!
Searches from beginning to end. What one traversed edge keeps, a whole search keeps. It succeeds
if the bound allows for all reachable vertices, and then its tree is a numbering of just these, in
depth-first order, together with all edges between them.
-/

set_option autoImplicit false

namespace FlowGraph

universe u

variable {N : Type u} [Node N] {g : Graph N} {entry : N}

namespace Discovery

variable {d : Discovery N} {tail head : Nat} {v : N} {rest pending : List (Nat × N)}

structure Sound (g : Graph N) (entry : N) (pending : List (Nat × N)) (d : Discovery N) :
    Prop where
  preordered : d.toTables.Preordered (pending.map Prod.fst)
  records : d.toTables.Records g entry pending

omit [Node N] in
private theorem map_fst_leaving (i : Nat) (heads : List N) :
    (heads.map (i, ·)).map Prod.fst = List.replicate heads.length i := by
  simp [Function.comp_def]

theorem sound_start (g : Graph N) (entry : N) :
    Sound g entry (start g entry).1 (start g entry).2 where
  preordered := by
    have h := Tables.Preordered.single entry (g.successors entry).length
    rwa [← map_fst_leaving] at h
  records := Tables.Records.single g entry

theorem Sound.addEdge (h : Sound g entry ((tail, v) :: rest) d) (ht : tail < d.vertices.size)
    (hv : d.indices.get? (Node.index v) = some head) :
    Sound g entry rest (d.addEdge tail head ht) where
  preordered := h.preordered.addEdge d.valid (d.valid.indices_lt _ _ hv)
  records := h.records.addEdge d.valid hv

theorem Sound.visit (h : Sound g entry ((tail, v) :: rest) d) (ht : tail < d.vertices.size)
    (hv : d.indices.get? (Node.index v) = none) :
    Sound g entry ((d.visit g v tail ht).1 ++ rest)
      ((d.visit g v tail ht).2.addEdge tail d.vertices.size (lt_size_visit d g v tail ht)) where
  preordered := by
    have hp := h.preordered.discover (v := v) d.valid ht (g.successors v).length
    rwa [← map_fst_leaving, ← List.map_append] at hp
  records := h.records.discover d.valid hv

/-- A search ends with all edges traversed, or at a vertex that is reachable and has no number
when as many have one as the bound allows. -/
private theorem follow_sound (bound : Nat) (h : Sound g entry pending d) (ht : TailsLt pending d) :
    match follow g bound pending d ht with
    | .ok d' => Sound g entry [] d'
    | .error d' => bound ≤ d'.vertices.size ∧ ∃ v pending', Sound g entry pending' d' ∧
        g.Reachable entry v ∧ d'.indices.get? (Node.index v) = none := by
  fun_induction follow g bound pending d ht with
  | case1 d _ => exact h
  | case2 d tail v rest _ htail hrest head hv _ ih => exact ih (h.addEdge htail hv)
  | case3 d tail v rest _ htail hrest hv hlt number visited _ ih => exact ih (h.visit htail hv)
  | case4 d tail v rest _ htail hrest hv hlt =>
    exact ⟨Nat.le_of_not_lt hlt, v, _, h, h.records.reachable_pending, hv⟩

end Discovery

theorem Tables.Records.size_lt_encard {t : Tables N} {pending : List (Nat × N)} {v : N}
    (h : t.Records g entry pending) (hv : g.Reachable entry v)
    (unnumbered : t.indices.get? (Node.index v) = none) :
    (t.vertices.size : ℕ∞) < {u | g.Reachable entry u}.encard := by
  let vertex : Fin t.vertices.size → N := fun i => t.vertices[i]
  have row : ∀ i : Fin t.vertices.size, t.vertices[i.val]? = some (vertex i) :=
    fun i => Array.getElem?_eq_getElem i.isLt
  have injective : Function.Injective vertex := by
    intro i j hij
    exact Fin.ext (h.index_injective (row i) (row j) (congrArg Node.index hij))
  have fresh : v ∉ Set.range vertex := by
    rintro ⟨i, rfl⟩
    rw [(h.index_iff _ _).2 ⟨_, row i, rfl⟩] at unnumbered
    cases unnumbered
  have subset : insert v (Set.range vertex) ⊆ {u | g.Reachable entry u} := by
    rintro u (rfl | ⟨i, rfl⟩)
    · exact hv
    · exact h.reachable i _ (row i)
  have hle := Set.encard_le_encard subset
  rw [Set.encard_insert_of_notMem fresh] at hle
  have hsize : (t.vertices.size : ℕ∞) ≤ (Set.range vertex).encard := by
    simpa using injective.encard_range
  refine lt_of_lt_of_le ?_ ((add_le_add_left hsize 1).trans hle)
  exact_mod_cast Nat.lt_succ_self t.vertices.size

namespace Graph

variable {bound : Nat} {t : SpanningTree N}

theorem explore_of_ok {d : Discovery N} (pos : 0 < bound)
    (h : Discovery.follow g bound (Discovery.start g entry).1 (Discovery.start g entry).2
      (Discovery.tailsLt_start g entry) = .ok d) :
    g.explore bound entry =
      { asked := d.asked, result := .ok d.toSpanningTree.ascendingPredecessors } := by
  unfold explore
  rw [if_neg pos.ne']
  dsimp only
  rw [h]

theorem explore_of_error {d : Discovery N} (pos : 0 < bound)
    (h : Discovery.follow g bound (Discovery.start g entry).1 (Discovery.start g entry).2
      (Discovery.tailsLt_start g entry) = .error d) :
    g.explore bound entry = { asked := d.asked, result := .error (.boundExceeded bound) } := by
  unfold explore
  rw [if_neg pos.ne']
  dsimp only
  rw [h]

theorem exists_follow_of_explore (h : (g.explore bound entry).result = .ok t) :
    0 < bound ∧ ∃ d, Discovery.follow g bound (Discovery.start g entry).1
        (Discovery.start g entry).2 (Discovery.tailsLt_start g entry) = .ok d ∧
      (g.explore bound entry).asked = d.asked ∧ t = d.toSpanningTree.ascendingPredecessors := by
  rcases Nat.eq_zero_or_pos bound with rfl | pos
  · cases h
  cases found : Discovery.follow g bound (Discovery.start g entry).1 (Discovery.start g entry).2
      (Discovery.tailsLt_start g entry) with
  | error d =>
    rw [explore_of_error pos found] at h
    cases h
  | ok d =>
    rw [explore_of_ok pos found] at h ⊢
    exact ⟨pos, d, rfl, rfl, (Except.ok.inj h).symm⟩

theorem sound_of_explore (h : (g.explore bound entry).result = .ok t) :
    t.toTables.Preordered [] ∧ t.toTables.Records g entry [] := by
  have sound := Discovery.follow_sound bound (Discovery.sound_start g entry)
    (Discovery.tailsLt_start g entry)
  obtain ⟨_, d, found, _, rfl⟩ := exists_follow_of_explore h
  rw [found] at sound
  exact ⟨sound.preordered.mapPredecessors mem_ascending,
    sound.records.mapPredecessors mem_ascending⟩

theorem exists_explore (h : {v | g.Reachable entry v}.encard ≤ bound) :
    ∃ t, (g.explore bound entry).result = .ok t := by
  have pos : bound ≠ 0 := by
    rintro rfl
    have empty := Set.encard_eq_zero.1 (nonpos_iff_eq_zero.1 h)
    exact absurd (Reachable.refl entry) (Set.eq_empty_iff_forall_notMem.1 empty entry)
  have sound := Discovery.follow_sound bound (Discovery.sound_start g entry)
    (Discovery.tailsLt_start g entry)
  cases found : Discovery.follow g bound (Discovery.start g entry).1 (Discovery.start g entry).2
      (Discovery.tailsLt_start g entry) with
  | ok d => exact ⟨_, by rw [explore_of_ok (Nat.pos_of_ne_zero pos) found]⟩
  | error d =>
    rw [found] at sound
    obtain ⟨hle, v, pending, sound, hv, unnumbered⟩ := sound
    have hlt := (sound.records.size_lt_encard hv unnumbered).trans_le h
    exact absurd hlt (not_lt_of_ge (by exact_mod_cast hle))

/-- The graph on numbers that has the successors of each number in a row. -/
def ofRows (rows : List (List Nat)) : Graph Nat where
  successors u := rows.getD u []

theorem lt_of_reachable_ofRows {rows : List (List Nat)} {u v : Nat}
    (closed : ∀ row ∈ rows, ∀ v ∈ row, v < rows.length) (hu : u < rows.length)
    (reach : (ofRows rows).Reachable u v) : v < rows.length := by
  obtain ⟨_, path⟩ := reach
  induction path with
  | single v => exact hu
  | @step u v w vs edge _ ih =>
    have hv : v ∈ rows[u] := by simpa [ofRows, hu] using edge
    exact ih (closed rows[u] (List.getElem_mem hu) v hv)

theorem encard_reachable_ofRows (rows : List (List Nat)) (entry : Nat)
    (closed : ∀ row ∈ rows, ∀ v ∈ row, v < rows.length) (hentry : entry < rows.length) :
    {v | (ofRows rows).Reachable entry v}.encard ≤ rows.length := by
  have subset : {v | (ofRows rows).Reachable entry v} ⊆ {v | v < rows.length} :=
    fun v hv => lt_of_reachable_ofRows closed hentry hv
  exact (Set.encard_le_encard subset).trans_eq (Set.Nat.encard_range rows.length)

end Graph

namespace SpanningTree

variable {bound : Nat} {t : SpanningTree N} {u v : N} {i j p : Fin t.size}

omit [Node N] in
private theorem getElem?_vertices (t : SpanningTree N) (i : Fin t.size) :
    t.vertices[i.val]? = some (t.vertex i) :=
  Array.getElem?_eq_getElem i.isLt

omit [Node N] in
theorem val_parent (t : SpanningTree N) (i : Fin t.size) :
    (t.parent i).val = t.toTables.parentAt i.val := by
  have hi : i.val < t.parents.size := i.isLt.trans_eq t.valid.size_parents.symm
  simp [parent, Tables.parentAt, hi]

omit [Node N] in
private theorem mem_preds : p ∈ t.preds i ↔ p.val ∈ t.toTables.predsAt i.val := by
  have hi : i.val < t.predecessors.size := i.isLt.trans_eq t.valid.size_predecessors.symm
  simp only [preds, Tables.predsAt, Array.getElem?_eq_getElem hi, Option.getD_some]
  refine List.mem_pmap.trans ?_
  constructor
  · rintro ⟨q, hq, rfl⟩
    exact hq
  · intro hp
    exact ⟨p.val, hp, rfl⟩

omit [Node N] in
theorem map_val_preds (t : SpanningTree N) (i : Fin t.size) :
    (t.preds i).map Fin.val = t.toTables.predsAt i.val := by
  have hi : i.val < t.predecessors.size := i.isLt.trans_eq t.valid.size_predecessors.symm
  simp only [preds, Tables.predsAt, Array.getElem?_eq_getElem hi, Option.getD_some]
  exact (List.map_pmap _).trans ((List.pmap_eq_map _).trans (List.map_id _))

omit [Node N] in
theorem ancestor_iff : Ancestor t.flow.parent i j ↔ Ancestor t.toTables.parentAt i.val j.val := by
  constructor
  · intro h
    induction h with
    | refl => exact Ancestor.refl
    | @up j _ ih =>
      refine Ancestor.up ?_
      rw [← t.val_parent j]
      exact ih
  · exact Ancestor.of_map Fin.val_injective t.val_parent

/-- The tree of a search is a numbering in depth-first order. -/
theorem depthFirst_of_explore (h : (g.explore bound entry).result = .ok t) :
    t.flow.DepthFirst := by
  obtain ⟨pre, _⟩ := Graph.sound_of_explore h
  have pos : ∀ v : Fin t.size, v ≠ 0 → 0 < v.val :=
    fun v hv => Nat.pos_of_ne_zero fun h => hv (Fin.ext h)
  refine ⟨?_, ?_, ?_, ?_, ?_⟩
  · refine Fin.ext ?_
    change (t.parent 0).val = 0
    rw [val_parent]
    exact pre.parent_zero
  · intro v hv
    change (t.parent v).val < v.val
    rw [val_parent]
    exact pre.parent_lt v.val (pos v hv) v.isLt
  · intro v hv
    refine mem_preds.2 ?_
    change (t.parent v).val ∈ _
    rw [val_parent]
    exact pre.parent_mem v.val (pos v hv) v.isLt
  · intro p v hp hlt
    exact ancestor_iff.2 (pre.forward p.val v.val v.isLt (mem_preds.1 hp) hlt)
  · intro v w x hvw hvx hxw
    exact ancestor_iff.2 (pre.interval v.val w.val x.val w.isLt (ancestor_iff.1 hvw) hvx hxw)

theorem vertex_zero (h : (g.explore bound entry).result = .ok t) : t.vertex 0 = entry := by
  obtain ⟨_, rec⟩ := Graph.sound_of_explore h
  exact Option.some.inj ((t.getElem?_vertices 0).symm.trans rec.entry_first)

theorem index?_vertex (h : (g.explore bound entry).result = .ok t) (i : Fin t.size) :
    t.index? (t.vertex i) = some i.val := by
  obtain ⟨_, rec⟩ := Graph.sound_of_explore h
  exact (rec.index_iff _ _).2 ⟨_, t.getElem?_vertices i, rfl⟩

theorem reachable_vertex (h : (g.explore bound entry).result = .ok t) (i : Fin t.size) :
    g.Reachable entry (t.vertex i) :=
  (Graph.sound_of_explore h).2.reachable i.val _ (t.getElem?_vertices i)

theorem vertex_injective (h : (g.explore bound entry).result = .ok t) :
    Function.Injective t.vertex := by
  intro i j hij
  have number := index?_vertex h i
  rw [hij, index?_vertex h j] at number
  exact Fin.ext (Option.some.inj number).symm

theorem vertex_of_index? (h : (g.explore bound entry).result = .ok t)
    (injective : ∀ u v, g.Reachable entry u → g.Reachable entry v →
      Node.index u = Node.index v → u = v) (hv : g.Reachable entry v)
    (hi : t.index? v = some i.val) : t.vertex i = v := by
  obtain ⟨u, hu, same⟩ := ((Graph.sound_of_explore h).2.index_iff _ _).1 hi
  obtain rfl := Option.some.inj ((t.getElem?_vertices i).symm.trans hu)
  exact injective _ v (reachable_vertex h i) hv same

theorem mem_predsAt_of_explore (h : (g.explore bound entry).result = .ok t)
    (injective : ∀ u v, g.Reachable entry u → g.Reachable entry v →
      Node.index u = Node.index v → u = v) (q k : Nat) :
    q ∈ t.toTables.predsAt k ↔ ∃ u v, t.vertices[q]? = some u ∧ t.vertices[k]? = some v ∧
      v ∈ g.successors u := by
  obtain ⟨_, rec⟩ := Graph.sound_of_explore h
  constructor
  · intro hq
    obtain ⟨u, v, hu, edge, hget⟩ := rec.noted q k hq
    obtain ⟨v', hv', hindex⟩ := (rec.index_iff _ k).1 hget
    have reach := (rec.reachable q u hu).tail edge
    obtain rfl := injective v' v (rec.reachable k v' hv') reach hindex
    exact ⟨u, v', hu, hv', edge⟩
  · rintro ⟨u, v, hu, hv, edge⟩
    have number := (rec.index_iff (Node.index v) k).2 ⟨v, hv, rfl⟩
    rcases rec.complete q u hu v edge with hmem | ⟨k', hk', hq⟩
    · cases hmem
    · obtain rfl := Option.some.inj (hk'.symm.trans number)
      exact hq

theorem pairwise_predsAt_of_explore (h : (g.explore bound entry).result = .ok t) (k : Nat) :
    (t.toTables.predsAt k).Pairwise (· < ·) := by
  obtain ⟨_, d, _, _, rfl⟩ := Graph.exists_follow_of_explore h
  change ((d.predecessors.map ascending)[k]?.getD []).Pairwise (· < ·)
  rw [Array.getElem?_map]
  cases d.predecessors[k]? with
  | none => exact List.Pairwise.nil
  | some ps => exact pairwise_ascending ps

theorem mem_preds_iff_edge (h : (g.explore bound entry).result = .ok t)
    (injective : ∀ u v, g.Reachable entry u → g.Reachable entry v →
      Node.index u = Node.index v → u = v) :
    p ∈ t.preds i ↔ t.vertex i ∈ g.successors (t.vertex p) := by
  simp [mem_preds, mem_predsAt_of_explore h injective, getElem?_vertices]

theorem embeds_of_explore (h : (g.explore bound entry).result = .ok t)
    (injective : ∀ u v, g.Reachable entry u → g.Reachable entry v →
      Node.index u = Node.index v → u = v) :
    Graph.Embeds t.flow.graph g t.vertex where
  injective := vertex_injective h
  mem_successors := by
    intro i b
    constructor
    · intro edge
      obtain ⟨_, rec⟩ := Graph.sound_of_explore h
      rcases rec.complete i.val _ (t.getElem?_vertices i) b edge with hmem | ⟨k, hk, _⟩
      · cases hmem
      · let w : Fin t.size := ⟨k, t.valid.indices_lt _ _ hk⟩
        have hw : t.vertex w = b :=
          vertex_of_index? h injective ((reachable_vertex h i).tail edge) hk
        rw [← hw] at edge
        exact ⟨w, Flow.mem_successors.2 ((mem_preds_iff_edge h injective).2 edge), hw⟩
    · rintro ⟨w, hw, rfl⟩
      exact (mem_preds_iff_edge h injective).1 (Flow.mem_successors.1 hw)

end SpanningTree

end FlowGraph
