import FlowGraph.Proofs.Dominator.Reached
import FlowGraph.Proofs.Report.Consistency
import FlowGraph.Proofs.Search.Bound
/-!
Why a report is not made, and why a query has no answer. The number of vertices and the bound
decide whether there is a report, and which error there is if not. A report then answers queries
about the names of reached vertices and about no others. Every name that stands in a result is
found.
-/

set_option autoImplicit false

namespace FlowGraph

namespace NamedGraph

/-- The vertices that can be reached from the entry. Without vertices there is no entry, and none is
reached. -/
def reached (G : NamedGraph) : Set Nat :=
  {v | ∃ start, G.entry? = some start ∧ G.graph.Reachable start v}

def unreached (G : NamedGraph) : Set Nat := {v | v < G.size ∧ v ∉ G.reached}

end NamedGraph

namespace Report

/-- Why no report is made of a graph. That there is no vertex comes before a bound of 0. -/
inductive Refusal (G : NamedGraph) : Option Nat → ReportError → Prop
  | noVertices {bound : Option Nat} (empty : G.size = 0) : Refusal G bound .noVertices
  | zeroBound (nonempty : 0 < G.size) : Refusal G (some 0) (.search .zeroBound)
  | boundExceeded {bound : Nat} (pos : 0 < bound) (more : (bound : ℕ∞) < G.reached.encard) :
    Refusal G (some bound) (.search (.boundExceeded bound))

/-- A bound, if there is one, allows for all that is reached, and something is. -/
structure Admits (G : NamedGraph) (bound : Option Nat) : Prop where
  nonempty : 0 < G.size
  room : ∀ b, bound = some b → 0 < b ∧ G.reached.encard ≤ b

def IsReached (G : NamedGraph) (a : String) : Prop := ∃ v ∈ G.reached, G.number? a = some v

/-- Why a query about names has no answer. A name of no vertex comes before one that is not
reached. -/
inductive QueryFault (G : NamedGraph) (names : List String) : ReportError → Prop
  | unknown {e : ReportError}
      (first : FirstFailing (· ∈ G.names) ReportError.unknownVertex names e) : QueryFault G names e
  | notReached {vs : List Nat} {e : NotReached} (numbers : names.map G.number? = vs.map some)
      (first : FirstFailing (· ∈ G.reached) NotReached.mk vs e) : QueryFault G names (.notReached e)

/-- A query about names is answered if all of them are of vertices that are reached. -/
abbrev AnswersNames {α : Type} (G : NamedGraph) (names : List String)
    (result : Except ReportError α) : Prop :=
  Settled result (∀ a ∈ names, IsReached G a) (QueryFault G names)

/-- The numbers that results are made of. Vertices have names, and a result leads from vertices to
vertices and from numbers to numbers. -/
structure FindsNames (r : Report) : Prop where
  lt_size : ∀ v ∈ r.dominators.vertices, v < r.graph.size
  idoms : ∀ v ∈ r.dominators.vertices, ∃ u ∈ r.dominators.vertices, r.dominators.idom v = .ok u
  tree : ∀ i ∈ r.dominators.tree.preorder, i < r.dominators.vertices.size ∧
    ∀ c ∈ r.dominators.tree.children i, c < r.dominators.vertices.size
  chain : ∀ v doms, r.dominators.properDominators v = .ok doms →
    ∀ u ∈ doms, u ∈ r.dominators.vertices

/-- A report counts the vertices that are not reached, answers queries about the names of the others
alone, and finds all names that stand in its results. -/
structure AnswersReached (r : Report) (G : NamedGraph) : Prop where
  graph_eq : r.graph = G
  size_le : r.dominators.vertices.size ≤ G.size
  unreachable_eq : r.unreachable = G.unreached.ncard
  dominates : ∀ a b, AnswersNames G [a, b] (r.dominates a b)
  chain : ∀ a, AnswersNames G [a] (r.chain a)
  idoms : ∃ rows, r.idoms = .ok rows
  names : r.FindsNames

variable {r : Report} {G : NamedGraph} {g : Graph String} {bound : Option Nat}
  {kind : LinkEvalKind} {names : List String} {vs : List Nat} {start v : Nat}

theorem mem_reached_iff (hentry : G.entry? = some start) :
    v ∈ G.reached ↔ G.graph.Reachable start v := by
  simp [NamedGraph.reached, hentry]

private theorem reached_eq (hentry : G.entry? = some start) :
    G.reached = {v | G.graph.Reachable start v} := Set.ext fun _ => mem_reached_iff hentry

private theorem reached_eq_empty (hentry : G.entry? = none) : G.reached = ∅ := by
  simp [NamedGraph.reached, hentry]

private theorem lt_size_of_reached (h : G.WellFormed) (depicts : G.Depicts g) (hv : v ∈ G.reached) :
    v < G.size := by
  obtain ⟨start, hentry, reach⟩ := hv
  obtain ⟨entry, name⟩ := h.exists_name_of_entry? hentry
  obtain ⟨a, ha⟩ := depicts.exists_name_of_reachable name reach
  exact NamedGraph.lt_size_of_name? ha

section Making

private theorem entry?_eq_none_iff (h : G.WellFormed) : G.entry? = none ↔ G.size = 0 := by
  constructor
  · intro hnone
    unfold NamedGraph.entry? at hnone
    split at hnone
    next => cases hnone
    next =>
      split_ifs at hnone with hempty
      exact Array.isEmpty_iff_size_eq_zero.1 hempty
  · intro hsize
    refine Option.eq_none_iff_forall_ne_some.2 fun start hstart => ?_
    obtain ⟨entry, name⟩ := h.exists_name_of_entry? hstart
    have hlt := NamedGraph.lt_size_of_name? name
    omega

private theorem ofGraph_eq (hentry : G.entry? = some start) (bound : Option Nat)
    (kind : LinkEvalKind) :
    ofGraph G bound kind = ((G.graph.dominators start
      { bound := bound.getD G.size, linkEval := kind }).map (Report.mk G)).mapError .search := by
  unfold ofGraph
  rw [hentry]
  dsimp only
  cases G.graph.dominators start { bound := bound.getD G.size, linkEval := kind } <;> rfl

private theorem settled_dominators (hentry : G.entry? = some start) (b : Nat)
    (kind : LinkEvalKind) :
    Settled (G.graph.dominators start { bound := b, linkEval := kind })
      (0 < b ∧ G.reached.encard ≤ b) fun e => (e = .zeroBound ∧ b = 0) ∨
        (e = .boundExceeded b ∧ 0 < b ∧ (b : ℕ∞) < G.reached.encard) := by
  have ends : Graph.EndsByBound G.graph start fun b =>
      G.graph.dominators start { bound := b, linkEval := kind } :=
    (Graph.endsByBound_explore fun _ _ _ _ same => same).map (Dominators.ofSpanningTree kind)
  rw [reached_eq hentry]
  refine ⟨ends.succeeds_iff b, fun e => ?_⟩
  cases e with
  | zeroBound => simpa using ends.zero_iff b
  | boundExceeded b' => simpa using ends.exceeded_iff b b'

private theorem settled_ofGraph_of_empty (h : G.WellFormed) (hentry : G.entry? = none)
    (bound : Option Nat) (kind : LinkEvalKind) :
    Settled (ofGraph G bound kind) (Admits G bound) (Refusal G bound) := by
  have empty := (entry?_eq_none_iff h).1 hentry
  have failed : ofGraph G bound kind = .error .noVertices := by
    unfold ofGraph
    rw [hentry]
  have only : ∀ e, Refusal G bound e → e = .noVertices := by
    intro e refusal
    cases refusal with
    | noVertices _ => rfl
    | zeroBound nonempty => exact absurd empty nonempty.ne'
    | boundExceeded _ more =>
      rw [reached_eq_empty hentry, Set.encard_empty] at more
      exact absurd more not_lt_zero
  rw [failed]
  refine ⟨⟨?_, fun admits => absurd empty admits.nonempty.ne'⟩, fun e => ⟨?_, fun refusal => ?_⟩⟩
  · rintro ⟨r, hr⟩
    cases hr
  · intro he
    rw [← Except.error.inj he]
    exact .noVertices empty
  · rw [only e refusal]

private theorem settled_ofGraph_of_entry (nonempty : 0 < G.size) (room : G.reached.encard ≤ G.size)
    (hentry : G.entry? = some start) (bound : Option Nat) (kind : LinkEvalKind) :
    Settled (ofGraph G bound kind) (Admits G bound) (Refusal G bound) := by
  have settled := (settled_dominators hentry (bound.getD G.size) kind).map (Report.mk G)
  rw [ofGraph_eq hentry]
  refine (settled.mapError ReportError.search).congr ?_ fun e => ?_
  · cases bound with
    | none => exact ⟨fun _ => ⟨nonempty, fun _ h => nomatch h⟩, fun _ => ⟨nonempty, room⟩⟩
    | some b =>
      refine ⟨fun fits => ⟨nonempty, fun b' hb' => ?_⟩, fun admits => admits.room b rfl⟩
      rwa [← Option.some.inj hb']
  · constructor
    · rintro ⟨_, ⟨rfl, hb⟩ | ⟨rfl, pos, more⟩, rfl⟩
      · cases bound with
        | none => exact absurd hb nonempty.ne'
        | some b =>
          obtain rfl : b = 0 := hb
          exact .zeroBound nonempty
      · cases bound with
        | none => exact absurd room (not_le_of_gt more)
        | some b => exact .boundExceeded pos more
    · intro refusal
      cases refusal with
      | noVertices empty => exact absurd empty nonempty.ne'
      | zeroBound _ => exact ⟨_, .inl ⟨rfl, rfl⟩, rfl⟩
      | boundExceeded pos more => exact ⟨_, .inr ⟨rfl, pos, more⟩, rfl⟩

theorem settled_ofGraph (h : G.WellFormed) (depicts : G.Depicts g) (bound : Option Nat)
    (kind : LinkEvalKind) : Settled (ofGraph G bound kind) (Admits G bound) (Refusal G bound) := by
  cases hentry : G.entry? with
  | none => exact settled_ofGraph_of_empty h hentry bound kind
  | some start =>
    obtain ⟨entry, name⟩ := h.exists_name_of_entry? hentry
    have nonempty : 0 < G.size := Nat.zero_lt_of_lt (NamedGraph.lt_size_of_name? name)
    have room : G.reached.encard ≤ G.size := by
      rw [reached_eq hentry]
      exact depicts.encard_reachable_le name
    exact settled_ofGraph_of_entry nonempty room hentry bound kind

end Making

section Queries

private theorem settled_vertex (r : Report) (a : String) : Settled (r.vertex a) (a ∈ r.graph.names)
    fun e => a ∉ r.graph.names ∧ e = .unknownVertex a := by
  refine Settled.of_option (o := r.graph.number? a) (fun v hv => ?_) (fun hnone => ?_) ?_
  · rw [vertex, hv]
  · rw [vertex, hnone]
  · rw [NamedGraph.number?_eq_none_iff, Array.mem_toList_iff]

private theorem forall_isReached_iff (numbers : names.map G.number? = vs.map some) :
    (∀ v ∈ vs, v ∈ G.reached) ↔ ∀ a ∈ names, IsReached G a := by
  have sides : (∀ o ∈ vs.map some, ∃ v ∈ G.reached, o = some v) ↔
      ∀ o ∈ names.map G.number?, ∃ v ∈ G.reached, o = some v := by
    rw [numbers]
  rw [List.forall_mem_map, List.forall_mem_map] at sides
  simpa [IsReached] using sides

private theorem mem_names_of_isReached {a : String} (h : IsReached G a) : a ∈ G.names := by
  obtain ⟨v, _, hv⟩ := h
  exact Array.mem_of_getElem? (NamedGraph.name?_of_number? hv)

private theorem answer_eq {α : Type} (result : Except NotReached α) :
    answer result = result.mapError .notReached := by
  cases result <;> rfl

private theorem answersNames_bind {α β : Type} {lookup : Except ReportError α}
    {query : α → Except ReportError β} (numbers : α → List Nat)
    (known : Checks (· ∈ G.names) ReportError.unknownVertex names lookup)
    (found : ∀ a, lookup = .ok a → names.map G.number? = (numbers a).map some)
    (asked : ∀ a, Settled (query a) (∀ v ∈ numbers a, v ∈ G.reached) fun e =>
      ∃ e', FirstFailing (· ∈ G.reached) NotReached.mk (numbers a) e' ∧ .notReached e' = e) :
    AnswersNames G names (lookup >>= query) := by
  have next : ∀ a, lookup = .ok a → Settled (query a) (∀ a ∈ names, IsReached G a) fun e =>
      ∃ vs e', names.map G.number? = vs.map some ∧
        FirstFailing (· ∈ G.reached) NotReached.mk vs e' ∧ .notReached e' = e := by
    intro a ha
    have numbers_eq := found a ha
    refine (asked a).congr (forall_isReached_iff numbers_eq) fun e => ?_
    constructor
    · rintro ⟨e', first, he⟩
      exact ⟨numbers a, e', numbers_eq, first, he⟩
    · rintro ⟨vs, e', hvs, first, he⟩
      have same := List.map_injective_iff.2 (Option.some_injective Nat) (numbers_eq.symm.trans hvs)
      exact ⟨e', same ▸ first, he⟩
  refine (known.bind next).congr ?_ fun e => ?_
  · refine and_iff_right_of_imp fun reached a ha => ?_
    exact mem_names_of_isReached (reached a ha)
  · constructor
    · rintro (first | ⟨_, vs, e', hvs, first, rfl⟩)
      · exact .unknown first
      · exact .notReached hvs first
    · intro fault
      cases fault with
      | unknown first => exact .inl first
      | @notReached vs e' hvs first =>
        refine .inr ⟨fun a ha => ?_, vs, e', hvs, first, rfl⟩
        have hmem : G.number? a ∈ vs.map some := hvs ▸ List.mem_map_of_mem ha
        obtain ⟨v, _, hv⟩ := List.mem_map.1 hmem
        exact Array.mem_of_getElem? (NamedGraph.name?_of_number? hv.symm)

private theorem settled_answer {α : Type} {result : Except NotReached α}
    (hentry : G.entry? = some start) (h : G.graph.AnswersFor start vs result) :
    Settled (answer result) (∀ v ∈ vs, v ∈ G.reached) fun e =>
      ∃ e', FirstFailing (· ∈ G.reached) NotReached.mk vs e' ∧ .notReached e' = e := by
  rw [answer_eq]
  simp only [reached_eq hentry]
  exact h.mapError _

private theorem number?_of_vertex_eq {a : String} (h : r.vertex a = .ok v) :
    r.graph.number? a = some v := by
  unfold vertex at h
  split at h
  next u hu => rw [hu, Except.ok.inj h]
  next => cases h

section Reached

variable (hentry : r.graph.entry? = some start) (exact : r.dominators.Exact r.graph.graph start)
  (knows : r.dominators.KnowsReached r.graph.graph start)
include hentry exact knows

private theorem answersNames_chain (a : String) : AnswersNames r.graph [a] (r.chain a) := by
  refine answersNames_bind (fun v => [v]) (r.settled_vertex a).checks_singleton ?_ ?_
  · intro v hv
    rw [List.map_singleton, number?_of_vertex_eq hv, List.map_singleton]
  · intro v
    exact (settled_answer hentry (exact.answersFor_properDominators knows v)).map (List.map r.name)

private theorem answersNames_dominates (a b : String) :
    AnswersNames r.graph [a, b] (r.dominates a b) := by
  let lookup : Except ReportError (Nat × Nat) := do
    let u ← r.vertex a
    (r.vertex b).map fun v => (u, v)
  have known : Checks (· ∈ r.graph.names) ReportError.unknownVertex [a, b] lookup :=
    (r.settled_vertex a).checks_cons fun u _ =>
      (r.settled_vertex b).checks_singleton.map fun v => (u, v)
  have found : ∀ uv, lookup = .ok uv → r.vertex a = .ok uv.1 ∧ r.vertex b = .ok uv.2 := by
    intro uv huv
    simp only [lookup, bind, Except.bind] at huv
    cases ha : r.vertex a with
    | error e =>
      rw [ha] at huv
      cases huv
    | ok u =>
      cases hb : r.vertex b with
      | error e =>
        rw [ha, hb] at huv
        cases huv
      | ok v =>
        rw [ha, hb] at huv
        obtain rfl := Except.ok.inj huv
        exact ⟨rfl, rfl⟩
  have steps : r.dominates a b =
      lookup >>= fun uv => answer (r.dominators.dominates uv.1 uv.2) := by
    simp only [lookup, dominates]
    cases ha : r.vertex a <;> cases hb : r.vertex b <;> rfl
  rw [steps]
  refine answersNames_bind (fun uv => [uv.1, uv.2]) known (fun uv huv => ?_) ?_
  · obtain ⟨ha, hb⟩ := found uv huv
    simp [number?_of_vertex_eq ha, number?_of_vertex_eq hb]
  · intro uv
    exact settled_answer hentry (exact.answersFor_dominates knows uv.1 uv.2)

end Reached

end Queries

section Found

variable (hentry : r.graph.entry? = some start) (exact : r.dominators.Exact r.graph.graph start)
include hentry exact

private theorem mem_vertices_iff : v ∈ r.dominators.vertices ↔ v ∈ r.graph.reached := by
  rw [mem_reached_iff hentry, exact.reachable_iff, ← Array.mem_toList_iff,
    Dominators.toList_vertices]
  simp

private theorem size_eq_ncard : r.dominators.vertices.size = r.graph.reached.ncard := by
  have range : r.graph.reached = Set.range r.dominators.vertex := by
    ext v
    rw [mem_reached_iff hentry, exact.reachable_iff, Set.mem_range]
  rw [range, ← Set.image_univ, Set.ncard_image_of_injective _ exact.vertex_injective,
    Set.ncard_univ, Nat.card_fin]
  rfl

private theorem unreachable_eq_ncard (inside : ∀ v ∈ r.graph.reached, v < r.graph.size) :
    r.dominators.vertices.size ≤ r.graph.size ∧ r.unreachable = r.graph.unreached.ncard := by
  have count : {v | v < r.graph.size}.encard = r.graph.size := Set.Nat.encard_range _
  have all : {v | v < r.graph.size}.ncard = r.graph.size := congrArg ENat.toNat count
  have finite : {v | v < r.graph.size}.Finite := Set.finite_of_encard_eq_coe count
  have subset : r.graph.reached ⊆ {v | v < r.graph.size} := inside
  have size := size_eq_ncard hentry exact
  have rest : r.graph.unreached = {v | v < r.graph.size} \ r.graph.reached := rfl
  refine ⟨?_, ?_⟩
  · rw [size, ← all]
    exact Set.ncard_le_ncard subset finite
  · rw [rest, Set.ncard_sdiff subset (finite.subset subset), all, ← size]
    rfl

private theorem findsNames (knows : r.dominators.KnowsReached r.graph.graph start)
    (htree : r.dominators.tree = IdomTree.ofTable r.dominators.idoms)
    (inside : ∀ v ∈ r.graph.reached, v < r.graph.size) : r.FindsNames := by
  have member : ∀ i, r.dominators.vertex i ∈ r.dominators.vertices :=
    fun i => Array.getElem_mem i.isLt
  refine ⟨fun v hv => inside v ((mem_vertices_iff hentry exact).1 hv), ?_, ?_, ?_⟩
  · intro v hv
    rw [mem_vertices_iff hentry exact, mem_reached_iff hentry, exact.reachable_iff] at hv
    obtain ⟨i, rfl⟩ := hv
    exact ⟨_, member _, exact.idom_vertex i⟩
  · intro i hi
    have hi := (exact.mem_preorder htree).1 (Array.mem_toList_iff.2 hi)
    refine ⟨hi, fun c hc => ?_⟩
    obtain ⟨j, rfl, _⟩ := (Dominators.mem_children_tree (i := ⟨i, hi⟩) htree).1 hc
    exact j.isLt
  · intro v doms hdoms u hu
    have reach := (exact.answersFor_properDominators knows v).ok_iff.1 ⟨doms, hdoms⟩
    obtain ⟨i, rfl⟩ := (exact.reachable_iff v).1 (List.forall_mem_singleton.1 reach)
    obtain ⟨way, climbs⟩ := Dominators.exists_climbs exact.idomAt_lt i
    obtain rfl := Except.ok.inj ((exact.properDominators_vertex climbs).symm.trans hdoms)
    obtain ⟨j, _, rfl⟩ := List.mem_map.1 (List.mem_reverse.1 hu)
    exact member j

end Found

private theorem exists_exact_of_ofGraph (ok : ofGraph G bound kind = .ok r) :
    ∃ start, r.graph = G ∧ r.graph.entry? = some start ∧
      r.dominators.Exact r.graph.graph start ∧ r.dominators.KnowsReached r.graph.graph start ∧
      r.dominators.tree = IdomTree.ofTable r.dominators.idoms := by
  obtain ⟨start, t, hstart, found, rfl⟩ := exists_explore_of_ofGraph ok
  exact ⟨start, rfl, hstart, SpanningTree.exact_of_explore found (fun _ _ _ _ same => same) kind,
    SpanningTree.knowsReached_of_explore found (fun _ _ same => same) kind, rfl⟩

theorem answersReached_of_ofGraph (h : G.WellFormed) (depicts : G.Depicts g)
    (ok : ofGraph G bound kind = .ok r) : r.AnswersReached G := by
  obtain ⟨start, rfl, hentry, exact, knows, htree⟩ := exists_exact_of_ofGraph ok
  have inside : ∀ v ∈ r.graph.reached, v < r.graph.size :=
    fun _ hv => lt_size_of_reached h depicts hv
  obtain ⟨size_le, unreachable⟩ := unreachable_eq_ncard hentry exact inside
  obtain ⟨entry, name⟩ := h.exists_name_of_entry? hentry
  have idoms := (exact_of_ofGraph depicts hentry name ok).idoms_eq
  exact ⟨rfl, size_le, unreachable, answersNames_dominates hentry exact knows,
    answersNames_chain hentry exact knows, ⟨_, idoms⟩,
    findsNames hentry exact knows htree inside⟩

/-- Whether a report is made of a source is decided by the number of vertices and the bound, and a
report that is made answers for the names of reached vertices alone. -/
theorem answersReached_of_source (source : String) (G : NamedGraph) (bound : Option Nat)
    (kind : LinkEvalKind) (parsed : NamedGraph.parse source = .ok G) :
    Settled (ofGraph G bound kind) (Admits G bound) (Refusal G bound) ∧
      ∀ r, ofGraph G bound kind = .ok r → r.AnswersReached G := by
  have wellFormed := NamedGraph.wellFormed_of_parse parsed
  have depicts := (NamedGraph.denotes_of_parse parsed).depicts
  exact ⟨settled_ofGraph wellFormed depicts bound kind,
    fun r ok => answersReached_of_ofGraph wellFormed depicts ok⟩

theorem answersReached_of_source_unreached :
    ∃ G r, NamedGraph.parse "x -> a\na -> b\nentry a" = .ok G ∧
      ofGraph G none .balanced = .ok r ∧
      Settled (ofGraph G none .balanced) (Admits G none) (Refusal G none) ∧
      r.AnswersReached G := by
  have parsed : NamedGraph.parse "x -> a\na -> b\nentry a" = .ok
      { names := #["x", "a", "b"], successors := #[[1], [2], []], declared := some 1 } := by
    decide +kernel
  obtain ⟨settled, answers⟩ := answersReached_of_source _ _ none .balanced parsed
  obtain ⟨r, ok⟩ := settled.ok_iff.2 ⟨by decide, fun _ h => nomatch h⟩
  exact ⟨_, r, parsed, ok, settled, answers r ok⟩

end Report

end FlowGraph
