import FlowGraph.Proofs.Report.Consistency
import FlowGraph.Report.Layout
/-!
Tables of a report read back from their text. Names are words, so the lines of the table of
immediate dominators have three words each, and a line of the tree shows a name behind two spaces
for each level of depth. The lines of the tree stand in preorder, where only what is deeper than a
vertex stands between it and a child of it. So the nearest line above a child that is one level less
deep is that of its parent.
-/

set_option autoImplicit false

namespace FlowGraph

universe u

private theorem finRange_eq_cons (n : Nat) [NeZero n] :
    List.finRange n = 0 :: (List.finRange n).tail := by
  cases n with
  | zero => exact absurd rfl (NeZero.ne 0)
  | succ n =>
    rw [List.finRange_succ]
    rfl

namespace Layout

structure TreeLine where
  vertex : String
  depth : Nat
  deriving DecidableEq, Repr

def TreeLine.ofRow (row : TreeRow) : TreeLine where
  vertex := row.vertex
  depth := row.depth

/-- Reads a line of a tree: half the spaces in front are the depth, and the name follows. -/
def readTreeLine (line : List Char) : TreeLine where
  vertex := String.ofList (line.dropWhile (· == ' '))
  depth := (line.takeWhile (· == ' ')).length / 2

/-- The lines of a tree, if its text is made of lines that all are ended. -/
def readTree? (text : String) : Option (List TreeLine) :=
  (Text.endedLines? text).map (List.map readTreeLine)

/-- Reads the parents of lines: each has the nearest of the lines before whose depth is one less.
The nearest of the lines `before` stands first. -/
def parentsBelow (before : List TreeLine) : List TreeLine → List (String × Option String)
  | [] => []
  | line :: rest =>
    (line.vertex, (before.find? fun above => above.depth + 1 = line.depth).map TreeLine.vertex) ::
      parentsBelow (line :: before) rest

/-- The parents of all lines of a tree but the first. -/
def readParents? (text : String) : Option (List (String × Option String)) :=
  (readTree? text).map fun lines => parentsBelow (lines.take 1) (lines.drop 1)

section Lines

variable {rows : List IdomRow} {tree : List TreeRow} {name : String}

private theorem words_idoms (h : ∀ row ∈ rows, Text.IsWord row.vertex ∧ Text.IsWord row.idom) :
    (Text.endedLines? (idoms rows)).map (List.map Text.words) =
      some (rows.map fun row => [row.vertex, "<-", row.idom]) := by
  have isWord : ∀ row ∈ rows, ∀ w ∈ [row.vertex, "<-", row.idom], Text.IsWord w := by
    intro row hrow w hw
    simp only [List.mem_cons, List.not_mem_nil, or_false] at hw
    rcases hw with rfl | rfl | rfl
    · exact (h row hrow).1
    · decide
    · exact (h row hrow).2
  have lines : idoms rows = String.join ((rows.map fun row =>
      String.intercalate " " [row.vertex, "<-", row.idom]).map fun s => s ++ "\n") := by
    rw [idoms, List.map_map]
    refine congrArg String.join (List.map_congr_left fun row _ => ?_)
    rw [← String.toList_inj]
    simp [String.intercalate_cons_of_ne_nil]
  rw [lines, Text.endedLines?_join, Option.map_some, List.map_map, List.map_map]
  · refine congrArg some (List.map_congr_left fun row hrow => ?_)
    exact Text.words_intercalate (isWord row hrow)
  · refine List.forall_mem_map.2 fun row hrow => ?_
    exact Text.newline_notMem_intercalate (isWord row hrow)

private theorem readTreeLine_indented (h : Text.IsWord name) (depth : Nat) :
    readTreeLine (List.replicate (depth * 2) ' ' ++ name.toList) =
      { vertex := name, depth := depth } := by
  have spaces : ∀ c ∈ List.replicate (depth * 2) ' ', (c == ' ') = true := by
    intro c hc
    exact beq_iff_eq.2 (List.eq_of_mem_replicate hc)
  obtain ⟨c, cs, hname⟩ := List.exists_cons_of_ne_nil h.toList_ne_nil
  have solid : ¬ (c == ' ') = true := by
    rw [beq_iff_eq]
    rintro rfl
    exact h.notMem (by decide) (hname ▸ List.mem_cons_self)
  have rest : (name.toList).dropWhile (· == ' ') = name.toList := by
    rw [hname, List.dropWhile_cons_of_neg (p := (· == ' ')) solid]
  have front : (name.toList).takeWhile (· == ' ') = [] := by
    rw [hname, List.takeWhile_cons_of_neg (p := (· == ' ')) solid]
  rw [readTreeLine, List.dropWhile_append_of_pos spaces, List.takeWhile_append_of_pos spaces, rest,
    front, List.append_nil, List.length_replicate, Nat.mul_div_cancel _ Nat.two_pos,
    String.ofList_toList]

theorem splitOn_join_treeLine (h : ∀ row ∈ tree, Text.IsWord row.vertex) :
    (String.join (tree.map treeLine)).toList.splitOn '\n' =
      tree.map (fun row => List.replicate (row.depth * 2) ' ' ++ row.vertex.toList) ++ [[]] := by
  have lines : tree.map treeLine = (tree.map fun row =>
      String.ofList (List.replicate (row.depth * 2) ' ') ++ row.vertex).map fun s => s ++ "\n" := by
    rw [List.map_map]
    rfl
  rw [lines, Text.toList_join_lines, List.map_map, Text.splitOn_join]
  · simp [Function.comp_def]
  · refine List.forall_mem_map.2 fun row hrow hmem => ?_
    rw [Function.comp_apply, String.toList_append, String.toList_ofList, List.mem_append] at hmem
    rcases hmem with hmem | hmem
    · cases List.eq_of_mem_replicate hmem
    · exact (h row hrow).notMem (by decide) hmem

private theorem readTree?_join (h : ∀ row ∈ tree, Text.IsWord row.vertex) :
    readTree? (String.join (tree.map treeLine)) = some (tree.map TreeLine.ofRow) := by
  rw [readTree?, Text.endedLines?_eq_some_iff.2 (splitOn_join_treeLine h), Option.map_some,
    List.map_map]
  refine congrArg some (List.map_congr_left fun row hrow => ?_)
  exact readTreeLine_indented (h row hrow) row.depth

private theorem tree?_of_depth_le (h : ∀ row ∈ tree, row.depth ≤ maxIndent / 2) :
    tree? tree = some (String.join (tree.map treeLine)) := by
  refine if_pos (List.all_eq_true.2 fun row hrow => decide_eq_true ?_)
  have hle := h row hrow
  omega

end Lines

section Parents

variable {N : Type u} {g : Graph N} {root p v : N} {k : Nat} {name : N → String}
  {pending order : List N} {before lines : List TreeLine}

private theorem parentsBelow_append (before xs ys : List TreeLine) :
    parentsBelow before (xs ++ ys) =
      parentsBelow before xs ++ parentsBelow (xs.reverse ++ before) ys := by
  induction xs generalizing before with
  | nil => rfl
  | cons x xs ih =>
    rw [List.cons_append, parentsBelow, parentsBelow, ih, List.reverse_cons, List.append_assoc,
      List.singleton_append, List.cons_append]

structure Shows (g : Graph N) (root : N) (name : N → String) (v : N) (line : TreeLine) :
    Prop where
  vertex_eq : line.vertex = name v
  descent : g.Descent root v line.depth

/-- The lines of what going down from children of one vertex writes out are read with the parents
of the vertices that they show, if the nearest line before of that vertex's depth is its own. -/
private theorem forall₂_parentsBelow (tree : g.Arborescence root) (h : g.Unfolds pending order)
    (hp : g.Descent root p k) (edges : ∀ v ∈ pending, v ∈ g.successors p)
    (shown : List.Forall₂ (Shows g root name) order lines)
    (nearest : (before.find? fun above => above.depth + 1 = k + 1).map TreeLine.vertex =
      some (name p)) :
    List.Forall₂ (fun v row => ∃ u, v ∈ g.successors u ∧ row = (name v, some (name u))) order
      (parentsBelow before lines) := by
  induction h generalizing p k before lines with
  | nil =>
    cases shown
    exact List.Forall₂.nil
  | @cons v rest below after down next ihDown ihNext =>
    obtain ⟨line, others, shows, shownOthers, rfl⟩ := List.forall₂_cons_left_iff.1 shown
    obtain ⟨edge, edges⟩ := List.forall_mem_cons.1 edges
    have hv := hp.down edge
    have depth : line.depth = k + 1 := tree.depth_unique shows.descent hv
    -- the other lines are those of the vertices below this one, and those that come after them
    have shownBelow := List.forall₂_take below.length shownOthers
    have shownAfter := List.forall₂_drop below.length shownOthers
    rw [List.take_left] at shownBelow
    rw [List.drop_left] at shownAfter
    -- the former are deeper than the pending vertices, so the latter still find their parent
    have deeper : ∀ l ∈ others.take below.length, k + 1 < l.depth := by
      intro l hl
      obtain ⟨w, hw, showsBelow⟩ := exists_left_of_forall₂ shownBelow hl
      obtain ⟨c, hc, reach⟩ := down.mem_iff.1 hw
      obtain ⟨m, descent⟩ := reach.exists_descent
      have same := tree.depth_unique showsBelow.descent ((hv.down hc).trans descent)
      omega
    rw [parentsBelow, ← List.take_append_drop below.length others, parentsBelow_append]
    refine List.Forall₂.cons ⟨p, edge, ?_⟩ (List.rel_append ?_ ?_)
    · rw [shows.vertex_eq, depth, nearest]
    · refine ihDown hv (fun c hc => hc) shownBelow ?_
      rw [List.find?_cons_of_pos (by simpa using depth), Option.map_some, shows.vertex_eq]
    · refine ihNext hp edges shownAfter ?_
      have skipped : (others.take below.length).reverse.find?
          (fun above => above.depth + 1 = k + 1) = none := by
        rw [List.find?_eq_none]
        intro l hl
        have hlt := deeper l (List.mem_reverse.1 hl)
        have hne : l.depth ≠ k := by omega
        simpa using hne
      rw [List.find?_append, skipped, Option.none_or, List.find?_cons_of_neg, nearest]
      simp [depth]

end Parents

end Layout

namespace Report

/-- What is read from the two texts of a report, the table of immediate dominators and the tree,
where the report is entered at the vertex of the name `entry`. -/
structure ReadsBack (r : Report) (entry : String) (rows : List IdomRow) (text : String) :
    Prop where
  idoms_eq : r.idoms = .ok rows
  nodup : (rows.map IdomRow.vertex).Nodup
  words_eq : (Text.endedLines? (Layout.idoms rows)).map (List.map Text.words) =
    some (rows.map fun row => [row.vertex, "<-", row.idom])
  tree?_eq : Layout.tree? r.tree = some text
  readTree?_eq : Layout.readTree? text = some (r.tree.map Layout.TreeLine.ofRow)
  head?_rows : rows.head? = some { vertex := entry, idom := entry }
  head?_lines : (r.tree.map Layout.TreeLine.ofRow).head? = some { vertex := entry, depth := 0 }
  parents_perm : ∃ parents, Layout.readParents? text = some parents ∧
    parents.Perm (rows.tail.map fun row => (row.vertex, some row.idom))

variable {r : Report} {g : Graph String} {G : NamedGraph} {entry : String} {row : TreeRow}

private theorem nameAt_of_mem_children
    (htree : r.dominators.tree = IdomTree.ofTable r.dominators.idoms) {u : Nat}
    {i : Fin r.dominators.size} (edge : i.val ∈ r.dominators.tree.children u) :
    r.nameAt u = r.label (r.dominators.idomAt i) := by
  rw [htree, IdomTree.mem_children, Dominators.getElem?_idoms] at edge
  rw [← Option.some.inj edge.2, nameAt_val]

namespace Exact

variable (h : r.Exact g entry)
include h

theorem isWord_label (wellFormed : r.graph.WellFormed) (i : Fin r.dominators.size) :
    Text.IsWord (r.label i) := by
  have name := h.name?_vertex i
  exact (wellFormed.isName _ (Array.mem_of_getElem? name)).toIsWord

theorem size_le : r.dominators.size ≤ r.graph.size := by
  have inside : ∀ i, r.dominators.vertex i < r.graph.size :=
    fun i => NamedGraph.lt_size_of_name? (h.name?_vertex i)
  have injective : Function.Injective fun i => (⟨_, inside i⟩ : Fin r.graph.size) := by
    intro i j hij
    exact h.dominators.vertex_injective (Fin.mk.inj hij)
  simpa using Fintype.card_le_of_injective _ injective

section Tree

variable (htree : r.dominators.tree = IdomTree.ofTable r.dominators.idoms)
include htree

theorem isWord_vertex_tree (wellFormed : r.graph.WellFormed) :
    ∀ row ∈ r.tree, Text.IsWord row.vertex := by
  intro row hrow
  obtain ⟨i, isRow⟩ := h.exists_isRow htree hrow
  rw [isRow.vertex_eq, nameAt_val]
  exact h.isWord_label wellFormed i

theorem depth_lt (hrow : row ∈ r.tree) : row.depth < r.dominators.size := by
  obtain ⟨i, isRow⟩ := h.exists_isRow htree hrow
  obtain ⟨way, climbs⟩ := Dominators.exists_climbs h.dominators.idomAt_lt i
  have distinct := climbs.nodup h.dominators.idomAt_lt
  have hle := distinct.length_le_card
  obtain ⟨above, rfl⟩ := climbs.exists_eq_cons
  rw [isRow.depth_eq htree climbs, List.tail_cons]
  rw [Fintype.card_fin, List.length_cons] at hle
  omega

private theorem exists_preorder_eq_cons : ∃ below, r.dominators.tree.preorder.toList = 0 :: below ∧
    r.dominators.tree.graph.Unfolds (r.dominators.tree.children 0) below ∧
    ((List.finRange r.dominators.size).tail.map Fin.val).Perm below := by
  have unfolds := (IdomTree.unfolds_preorder r.dominators.idoms).1
  have perm := h.dominators.preorder_perm htree
  rw [← List.map_coe_finRange_eq_range, finRange_eq_cons, List.map_cons, Fin.val_zero] at perm
  rw [← htree] at unfolds
  cases horder : r.dominators.tree.preorder.toList with
  | nil =>
    rw [horder] at unfolds
    cases unfolds
  | cons first below =>
    rw [horder] at unfolds perm
    cases unfolds with
    | @cons _ _ below _ down next =>
      cases next
      rw [List.append_nil] at perm ⊢
      exact ⟨below, rfl, down, perm.symm.cons_inv⟩

private theorem exists_tree_eq_cons : ∃ first others, r.tree = first :: others ∧
    Layout.TreeLine.ofRow first = { vertex := entry, depth := 0 } ∧
    (Layout.parentsBelow [Layout.TreeLine.ofRow first]
      (others.map Layout.TreeLine.ofRow)).Perm
        ((List.finRange r.dominators.size).tail.map fun i =>
          (r.label i, some (r.label (r.dominators.idomAt i)))) := by
  have tree := IdomTree.arborescence r.dominators.idoms
  rw [← htree] at tree
  obtain ⟨below, horder, down, perm⟩ := h.exists_preorder_eq_cons htree
  have rows := forall₂_tree htree
  rw [horder] at rows
  obtain ⟨first, others, hfirst, hothers, hrows⟩ := List.forall₂_cons_left_iff.1 rows
  have zero : r.nameAt 0 = entry := by
    rw [← h.label_zero, ← nameAt_val, Fin.val_zero]
  have line : Layout.TreeLine.ofRow first = { vertex := entry, depth := 0 } := by
    have depth := tree.depth_unique hfirst.descent Graph.Descent.here
    rw [Layout.TreeLine.ofRow, hfirst.vertex_eq, zero, depth]
  have shown : List.Forall₂ (Layout.Shows r.dominators.tree.graph 0 r.nameAt) below
      (others.map Layout.TreeLine.ofRow) :=
    List.forall₂_map_right_iff.2 (hothers.imp fun _ _ isRow => ⟨isRow.vertex_eq, isRow.descent⟩)
  have nearest : ([Layout.TreeLine.ofRow first].find? fun above => above.depth + 1 = 0 + 1).map
      Layout.TreeLine.vertex = some (r.nameAt 0) := by
    simp [line, zero]
  have read := Layout.forall₂_parentsBelow tree down Graph.Descent.here (fun _ edge => edge) shown
    nearest
  obtain ⟨shownRows, related, permuted⟩ := List.perm_comp_forall₂ perm read
  have same : List.Forall₂ (· = ·) ((List.finRange r.dominators.size).tail.map fun i =>
      (r.label i, some (r.label (r.dominators.idomAt i)))) shownRows := by
    rw [List.forall₂_map_left_iff] at related ⊢
    refine related.imp ?_
    rintro i _ ⟨u, edge, rfl⟩
    rw [nameAt_val, nameAt_of_mem_children htree edge]
  rw [List.forall₂_eq_eq_eq] at same
  exact ⟨first, others, hrows, line, same ▸ permuted.symm⟩

private theorem exists_readsBack (wellFormed : r.graph.WellFormed)
    (shallow : ∀ row ∈ r.tree, row.depth ≤ Layout.maxIndent / 2) :
    ∃ rows text, r.ReadsBack entry rows text := by
  have isWord := h.isWord_label wellFormed
  have tail : ((List.finRange r.dominators.size).map r.idomRow).tail =
      (List.finRange r.dominators.size).tail.map r.idomRow := List.map_tail.symm
  obtain ⟨first, others, hrows, line, perm⟩ := h.exists_tree_eq_cons htree
  have read := Layout.readTree?_join (h.isWord_vertex_tree htree wellFormed)
  refine ⟨_, _, h.idoms_eq, h.nodup_idomRow, ?_, Layout.tree?_of_depth_le shallow, read,
    ?_, ?_, ?_⟩
  · refine Layout.words_idoms (List.forall_mem_map.2 fun i _ => ?_)
    exact ⟨isWord i, isWord (r.dominators.idomAt i)⟩
  · rw [finRange_eq_cons, List.map_cons, List.head?_cons, idomRow, h.dominators.idomAt_zero,
      h.label_zero]
  · rw [hrows, List.map_cons, List.head?_cons, line]
  · rw [Layout.readParents?, read, tail, List.map_map, hrows]
    exact ⟨_, rfl, perm⟩

end Tree

end Exact

/-- The texts of a report can be read, whatever source it is made of, and with whichever bound and
kind of forest it is made, if none of its vertices stands deeper than an indentation can show. -/
theorem readsBack_of_source (source : String) (G : NamedGraph) (bound : Option Nat)
    (kind : LinkEvalKind) (r : Report) (parsed : NamedGraph.parse source = .ok G)
    (ok : ofGraph G bound kind = .ok r) (shallow : ∀ row ∈ r.tree, row.depth ≤ 32767) :
    ∃ start entry rows text, G.entry? = some start ∧ G.name? start = some entry ∧
      r.graph = G ∧ r.ReadsBack entry rows text := by
  obtain ⟨start, entry, made⟩ := exists_madeOf parsed ok
  obtain rfl := made.graph_eq
  obtain ⟨g, exact⟩ := made.exact
  obtain ⟨rows, text, readsBack⟩ := exact.exists_readsBack made.tree_eq made.wellFormed shallow
  exact ⟨start, entry, rows, text, made.entry?_eq, made.name?_eq, rfl, readsBack⟩

theorem readsBack_of_source_arrows :
    ∃ G r start entry rows text, NamedGraph.parse "<- -> a b\na -> <-- b\n<-- -> entry" = .ok G ∧
      ofGraph G none .simple = .ok r ∧ (∀ row ∈ r.tree, row.depth ≤ 32767) ∧
      G.entry? = some start ∧ G.name? start = some entry ∧
      r.graph = G ∧ r.ReadsBack entry rows text := by
  have parsed : NamedGraph.parse "<- -> a b\na -> <-- b\n<-- -> entry" = .ok
      { names := #["<-", "a", "b", "<--", "entry"],
        successors := #[[1, 2], [3, 2], [], [4], []] } := by
    decide +kernel
  have depicts := (NamedGraph.denotes_of_parse parsed).depicts
  obtain ⟨r, ok⟩ := exists_ofGraph depicts (v := 0) rfl rfl .simple
  have shallow : ∀ row ∈ r.tree, row.depth ≤ 32767 := by
    intro row hrow
    obtain ⟨_, _, made⟩ := exists_madeOf parsed ok
    obtain ⟨_, exact⟩ := made.exact
    have hlt := (exact.depth_lt made.tree_eq hrow).trans_le exact.size_le
    have hsize : r.graph.size = 5 := by rw [made.graph_eq]; rfl
    omega
  obtain ⟨start, entry, rows, text, readsBack⟩ :=
    readsBack_of_source _ _ _ _ r parsed ok shallow
  exact ⟨_, r, start, entry, rows, text, parsed, ok, shallow, readsBack⟩

end Report

end FlowGraph
