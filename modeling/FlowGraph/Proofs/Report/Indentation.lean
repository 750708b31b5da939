import FlowGraph.Proofs.Report.Layout
import FlowGraph.Proofs.Source.Chain
/-!
The tree of a report as text. A vertex stands behind two spaces for every vertex that properly
dominates it, and each vertex that is reached has one line. There is no text if one of them would
stand behind more spaces than an indentation can have, as on a chain that is long enough.
-/

set_option autoImplicit false

namespace FlowGraph

namespace Layout

/-- The text of the tree of a graph, if there is one. It is missing where an indentation would be
too wide, and else has one line for each reachable vertex, which shows its depth and its name. -/
structure LaysOut (g : Graph String) (entry : String) (text? : Option String) : Prop where
  eq_none_iff : text? = none ↔
    ∃ a, g.Reachable entry a ∧ maxIndent < 2 * g.dominanceDepth entry a
  lines : ∀ text, text? = some text → ∃ order : List String, order.Nodup ∧
    (∀ a, a ∈ order ↔ g.Reachable entry a) ∧
    text.toList.splitOn '\n' = order.map (fun a =>
      List.replicate (2 * g.dominanceDepth entry a) ' ' ++ a.toList) ++ [[]]

variable {tree : List TreeRow}

private theorem tree?_eq_none_iff :
    tree? tree = none ↔ ∃ row ∈ tree, maxIndent < 2 * row.depth := by
  unfold tree?
  split
  next h =>
    have fits : ∀ row ∈ tree, row.depth * 2 ≤ maxIndent := by simpa using h
    refine ⟨fun hnone => (Option.some_ne_none _ hnone).elim, ?_⟩
    rintro ⟨row, hrow, wide⟩
    have hle := fits row hrow
    omega
  next h =>
    have wide : ∃ row ∈ tree, maxIndent < row.depth * 2 := by simpa using h
    obtain ⟨row, hrow, hlt⟩ := wide
    exact ⟨fun _ => ⟨row, hrow, Nat.mul_comm 2 _ ▸ hlt⟩, fun _ => rfl⟩

theorem eq_join_of_tree?_eq_some {text : String} (h : tree? tree = some text) :
    text = String.join (tree.map treeLine) := by
  unfold tree? at h
  split at h
  next => exact (Option.some.inj h).symm
  next => cases h

end Layout

namespace Report.Exact

variable {r : Report} {g : Graph String} {entry : String} {row : TreeRow} {a : String}

variable (h : r.Exact g entry) (htree : r.dominators.tree = IdomTree.ofTable r.dominators.idoms)
include h htree

theorem depth_eq_dominanceDepth (hrow : row ∈ r.tree) :
    row.depth = g.dominanceDepth entry row.vertex := by
  obtain ⟨i, isRow⟩ := h.exists_isRow htree hrow
  obtain ⟨above, habove, depth⟩ := h.length_chain_label htree isRow
  obtain ⟨doms, hdoms, list⟩ := h.listsChain i
  obtain rfl : above = doms := Except.ok.inj (habove.symm.trans hdoms)
  have vertex : row.vertex = r.label i := isRow.vertex_eq.trans (nameAt_val i)
  have members : {u | u ≠ r.label i ∧ g.Dominates entry u (r.label i)} = {u | u ∈ above} :=
    Set.ext fun u => (list.mem_iff u).symm
  rw [depth, vertex, Graph.dominanceDepth, members, ← List.coe_toFinset, Set.ncard_coe_finset,
    List.toFinset_card_of_nodup list.nodup]

theorem nodup_vertex_tree : (r.tree.map TreeRow.vertex).Nodup := by
  rw [(h.map_vertex_tree_perm htree).nodup_iff]
  exact (List.nodup_finRange _).map h.label_injective

theorem mem_vertex_tree : a ∈ r.tree.map TreeRow.vertex ↔ g.Reachable entry a := by
  rw [(h.map_vertex_tree_perm htree).mem_iff, h.reachable_iff]
  simp [label]

theorem laysOut (wellFormed : r.graph.WellFormed) :
    Layout.LaysOut g entry (Layout.tree? r.tree) where
  eq_none_iff := by
    rw [Layout.tree?_eq_none_iff]
    constructor
    · rintro ⟨row, hrow, wide⟩
      rw [h.depth_eq_dominanceDepth htree hrow] at wide
      exact ⟨row.vertex, (h.mem_vertex_tree htree).1 (List.mem_map_of_mem hrow), wide⟩
    · rintro ⟨a, reach, wide⟩
      obtain ⟨row, hrow, rfl⟩ := List.mem_map.1 ((h.mem_vertex_tree htree).2 reach)
      rw [← h.depth_eq_dominanceDepth htree hrow] at wide
      exact ⟨row, hrow, wide⟩
  lines := by
    intro text htext
    obtain rfl := Layout.eq_join_of_tree?_eq_some htext
    refine ⟨r.tree.map TreeRow.vertex, h.nodup_vertex_tree htree,
      fun a => h.mem_vertex_tree htree, ?_⟩
    rw [Layout.splitOn_join_treeLine (h.isWord_vertex_tree htree wellFormed), List.map_map]
    congr 1
    refine List.map_congr_left fun row hrow => ?_
    rw [Function.comp_apply, ← h.depth_eq_dominanceDepth htree hrow, Nat.mul_comm]

end Report.Exact

namespace Report

/-- The tree of a report is laid out by dominance, whatever source it is made of, and with whichever
bound and kind of forest it is made. -/
theorem laysOut_of_source (source : String) (G : NamedGraph) (bound : Option Nat)
    (kind : LinkEvalKind) (r : Report) (parsed : NamedGraph.parse source = .ok G)
    (ok : ofGraph G bound kind = .ok r) :
    ∃ start entry, G.entry? = some start ∧ G.name? start = some entry ∧
      Layout.LaysOut (Statement.graph (Statement.ofSource source)) entry
        (Layout.tree? r.tree) := by
  obtain ⟨start, entry, made⟩ := exists_madeOf parsed ok
  obtain rfl := made.graph_eq
  have depicts := (NamedGraph.denotes_of_parse parsed).depicts
  have exact := exact_of_ofGraph depicts made.entry?_eq made.name?_eq ok
  exact ⟨start, entry, made.entry?_eq, made.name?_eq, exact.laysOut made.tree_eq made.wellFormed⟩

theorem laysOut_of_source_diamond :
    ∃ G r start entry, NamedGraph.parse "x -> a\na -> b c\nb -> d\nc -> d\nentry a" = .ok G ∧
      ofGraph G none .balanced = .ok r ∧ G.entry? = some start ∧ G.name? start = some entry ∧
      Layout.LaysOut (Statement.graph
        (Statement.ofSource "x -> a\na -> b c\nb -> d\nc -> d\nentry a")) entry
        (Layout.tree? r.tree) := by
  have parsed : NamedGraph.parse "x -> a\na -> b c\nb -> d\nc -> d\nentry a" = .ok
      { names := #["x", "a", "b", "c", "d"], successors := #[[1], [2, 3], [4], [4], []],
        declared := some 1 } := by
    decide +kernel
  obtain ⟨r, ok⟩ := exists_ofGraph (NamedGraph.denotes_of_parse parsed).depicts (v := 1) rfl rfl
    .balanced
  obtain ⟨start, entry, hstart, name, laysOut⟩ := laysOut_of_source _ _ _ _ r parsed ok
  exact ⟨_, r, start, entry, parsed, ok, hstart, name, laysOut⟩

private theorem tree?_eq_none_of_chain {n : Nat} (long : Layout.maxIndent < 2 * n)
    (kind : LinkEvalKind) :
    ∃ G r, NamedGraph.parse (Statement.chainText n) = .ok G ∧ ofGraph G none kind = .ok r ∧
      Layout.tree? r.tree = none := by
  obtain ⟨G, parsed⟩ := Statement.exists_parse_chainText n
  have denotes := NamedGraph.denotes_of_parse parsed
  rw [Statement.ofSource_chainText] at denotes
  obtain ⟨v, hentry, name⟩ := denotes.exists_entry (Statement.entry?_chain (by omega))
  obtain ⟨r, ok⟩ := exists_ofGraph denotes.depicts hentry name kind
  have exact := exact_of_ofGraph denotes.depicts hentry name ok
  obtain ⟨_, _, made⟩ := exists_madeOf parsed ok
  have path := Statement.path_chain_zero (le_refl n)
  have laysOut := exact.laysOut made.tree_eq (made.graph_eq ▸ made.wellFormed)
  refine ⟨G, r, parsed, ok, laysOut.eq_none_iff.2 ⟨n.repr, ⟨_, path⟩, ?_⟩⟩
  rwa [Statement.dominanceDepth_chain le_rfl]

/-- The shortest chain without a text. -/
theorem tree?_chainText_eq_none : ∃ G r,
    NamedGraph.parse (Statement.chainText 32768) = .ok G ∧ ofGraph G none .simple = .ok r ∧
      Layout.tree? r.tree = none :=
  tree?_eq_none_of_chain (by decide) .simple

end Report

end FlowGraph
