import FlowGraph.Proofs.Source.WellFormed
import FlowGraph.Source.Printer
/-!
Round trip. A well-formed graph is written as a text of the grammar, and the statements of this
text denote the graph, so that reading the text gives the graph back.
-/

set_option autoImplicit false

namespace FlowGraph

namespace Statement

variable {s : Statement} {ss quiet : List Statement}

def tokens : Statement → List String
  | blank => []
  | edges tail heads => tail :: "->" :: heads
  | entry name => ["entry", name]
  | vertex name => [name]

/-- No name of a statement is the arrow. -/
def Writable (s : Statement) : Prop := ∀ a ∈ s.names, a ≠ "->"

private theorem ofTokens_tokens (h : s.Writable) : ofTokens s.tokens = .ok s := by
  cases s with
  | blank => rfl
  | vertex name => exact if_neg (h name List.mem_cons_self)
  | entry name =>
    have hname := h name List.mem_cons_self
    simp [tokens, ofTokens, arrow, entryWord, hname]
  | edges tail heads =>
    obtain ⟨htail, hheads⟩ := List.forall_mem_cons.1 h
    have notMem : "->" ∉ heads := fun hmem => hheads _ hmem rfl
    simp [tokens, ofTokens, arrow, htail, notMem]

private theorem good_tokens (h : s.Writable) : Good s.tokens := by
  cases s with
  | blank => exact Good.blank
  | vertex name => exact Good.vertex (h name List.mem_cons_self)
  | entry name => exact Good.entry name
  | edges tail heads =>
    obtain ⟨htail, hheads⟩ := List.forall_mem_cons.1 h
    exact Good.edges htail fun hmem => hheads _ hmem rfl

private theorem declared_of_declares (h : Declares s.tokens) : s.declared? ≠ none := by
  cases s with
  | blank => cases h
  | vertex name => cases h
  | entry name => exact Option.some_ne_none name
  | edges tail heads =>
    generalize htokens : (edges tail heads).tokens = row at h
    cases h with
    | entry hname =>
      obtain ⟨_, rest⟩ := List.cons.inj htokens
      exact absurd (List.cons.inj rest).1.symm hname

theorem ofRows_map_tokens (h : ∀ s ∈ ss, s.Writable) : ofRows (ss.map tokens) = ss := by
  have read : ∀ s ∈ ss, (ofTokens s.tokens).toOption = some s := by
    intro s hs
    rw [ofTokens_tokens (h s hs)]
    rfl
  rw [ofRows, List.filterMap_map]
  exact (List.filterMap_congr read).trans List.filterMap_some

theorem accepted_map_tokens (h : ∀ s ∈ ss, s.Writable)
    (once : ss.Pairwise fun s s' => s.declared? = none ∨ s'.declared? = none) :
    Accepted (ss.map tokens) where
  good := List.forall_mem_map.2 fun s hs => good_tokens (h s hs)
  once := by
    refine List.pairwise_map.2 (once.imp ?_)
    rintro s s' quiet ⟨first, second⟩
    exact quiet.elim (declared_of_declares first) (declared_of_declares second)

private theorem tokens_cases {w : String} (hw : w ∈ s.tokens) :
    w ∈ s.names ∨ w = "->" ∨ w = "entry" := by
  cases s with
  | blank => cases hw
  | vertex name => exact .inl hw
  | entry name =>
    rcases List.mem_cons.1 hw with heq | hw
    · exact .inr (.inr heq)
    · exact .inl hw
  | edges tail heads =>
    rcases List.mem_cons.1 hw with rfl | hw
    · exact .inl List.mem_cons_self
    rcases List.mem_cons.1 hw with heq | hw
    · exact .inr (.inl heq)
    · exact .inl (List.mem_cons_of_mem tail hw)

theorem plain_of_mem_tokens {w : String} (h : ∀ a ∈ s.names, IsName a) (hw : w ∈ s.tokens) :
    Text.IsWord w ∧ '#' ∉ w.toList := by
  rcases tokens_cases hw with ha | rfl | rfl
  · exact ⟨(h w ha).toIsWord, (h w ha).unmarked⟩
  · decide
  · decide

end Statement

private theorem flatMap_zip_of_getElem? {α β γ : Type} [DecidableEq α] (f : β → List γ) {a : α}
    {b : β} {keys : List α} {rows : List β} {v : Nat} (nodup : keys.Nodup)
    (hkey : keys[v]? = some a) (hrow : rows[v]? = some b) :
    ((keys.zip rows).flatMap fun row => if row.1 = a then f row.2 else []) = f b := by
  induction keys generalizing rows v with
  | nil => simp at hkey
  | cons key keys ih =>
    obtain ⟨notMem, nodup⟩ := List.nodup_cons.1 nodup
    cases rows with
    | nil => simp at hrow
    | cons row rows =>
      rw [List.zip_cons_cons, List.flatMap_cons]
      cases v with
      | zero =>
        obtain rfl : key = a := by simpa using hkey
        obtain rfl : row = b := by simpa using hrow
        have others :
            ((keys.zip rows).flatMap fun row => if row.1 = key then f row.2 else []) = [] := by
          refine List.flatMap_eq_nil_iff.2 fun row hrow => if_neg ?_
          rintro rfl
          exact notMem (List.of_mem_zip hrow).1
        rw [if_pos rfl, others, List.append_nil]
      | succ v =>
        rw [List.getElem?_cons_succ] at hkey hrow
        have hne : key ≠ a := by
          rintro rfl
          exact notMem (List.mem_of_getElem? hkey)
        rw [if_neg hne, List.nil_append, ih nodup hkey hrow]

private theorem eraseDups_of_nodup {α : Type} [BEq α] [LawfulBEq α] {l : List α} (nodup : l.Nodup) :
    l.eraseDups = l := by
  induction l with
  | nil => rfl
  | cons a l ih =>
    obtain ⟨notMem, nodup⟩ := List.nodup_cons.1 nodup
    have others : l.filter (fun b => !b == a) = l :=
      List.filter_eq_self.2 fun b hb => by simpa using ne_of_mem_of_not_mem hb notMem
    rw [List.eraseDups_cons, others, ih nodup]

private theorem eraseDups_append_of_subset {α : Type} [BEq α] [LawfulBEq α] {l l' : List α}
    (nodup : l.Nodup) (subset : l' ⊆ l) : (l ++ l').eraseDups = l := by
  have nothing : l'.removeAll l = [] :=
    List.filter_eq_nil_iff.2 fun a ha => by simpa using subset ha
  rw [List.eraseDups_append, eraseDups_of_nodup nodup, nothing, List.eraseDups_nil, List.append_nil]

namespace NamedGraph

variable {g : NamedGraph} {a : String} {v : Nat} {s : Statement}

/-- The name of a vertex, or nothing for a number that is of no vertex. -/
def nameAt (g : NamedGraph) (v : Nat) : String := (g.name? v).getD ""

/-- What the text of a graph says before it declares the entry. -/
def undeclared (g : NamedGraph) : List Statement :=
  g.names.toList.map Statement.vertex ++
    (g.names.toList.zip g.successors.toList).map
      fun row => Statement.edges row.1 (row.2.map g.nameAt)

/-- What the lines of the text of a graph say. The last line, which no line feed ends, is empty. -/
def statements (g : NamedGraph) : List Statement :=
  g.undeclared ++ (g.declared.toList.map (fun v => Statement.entry (g.nameAt v)) ++ [.blank])

private theorem map_tokens_statements (g : NamedGraph) :
    g.statements.map Statement.tokens = g.tokenLines ++ [[]] := by
  simp only [tokenLines, statements, undeclared, List.map_append, List.map_map, List.append_assoc]
  rfl

private theorem name?_of_lt (hv : v < g.size) : g.name? v = some (g.nameAt v) := by
  have found : g.name? v = some g.names[v] := Array.getElem?_eq_getElem hv
  rw [nameAt, found, Option.getD_some]

private theorem nameAt_mem (hv : v < g.size) : g.nameAt v ∈ g.names.toList :=
  mem_names_of_name? (name?_of_lt hv)

private theorem declared?_of_mem_undeclared (hs : s ∈ g.undeclared) : s.declared? = none := by
  rcases List.mem_append.1 hs with hs | hs
  · obtain ⟨n, _, rfl⟩ := List.mem_map.1 hs
    rfl
  · obtain ⟨row, _, rfl⟩ := List.mem_map.1 hs
    rfl

private theorem once_statements (g : NamedGraph) :
    g.statements.Pairwise fun s s' => s.declared? = none ∨ s'.declared? = none := by
  refine List.pairwise_append.2 ⟨?_, ?_, fun s hs _ _ => .inl (declared?_of_mem_undeclared hs)⟩
  · refine List.pairwise_of_forall_mem_list fun s hs _ _ => ?_
    exact .inl (declared?_of_mem_undeclared hs)
  · cases g.declared <;> simp [Statement.declared?]

private theorem findSome?_statements (g : NamedGraph) :
    g.statements.findSome? Statement.declared? = g.declared.map g.nameAt := by
  have quiet : g.undeclared.findSome? Statement.declared? = none :=
    List.findSome?_eq_none_iff.2 fun s hs => declared?_of_mem_undeclared hs
  rw [statements, List.findSome?_append, quiet, Option.none_or]
  cases g.declared <;> rfl

namespace WellFormed

variable (h : g.WellFormed)
include h

private theorem mem_names_of_mem_undeclared (hs : s ∈ g.undeclared) (ha : a ∈ s.names) :
    a ∈ g.names.toList := by
  rcases List.mem_append.1 hs with hs | hs
  · obtain ⟨n, hn, rfl⟩ := List.mem_map.1 hs
    rwa [List.mem_singleton.1 ha]
  · obtain ⟨row, hrow, rfl⟩ := List.mem_map.1 hs
    obtain ⟨hname, hheads⟩ := List.of_mem_zip (a := row.1) (b := row.2) hrow
    rcases List.mem_cons.1 ha with rfl | ha
    · exact hname
    · obtain ⟨w, hw, rfl⟩ := List.mem_map.1 ha
      exact nameAt_mem (h.successors_lt row.2 (Array.mem_toList_iff.1 hheads) w hw)

private theorem mem_names_of_mem_statements (hs : s ∈ g.statements) (ha : a ∈ s.names) :
    a ∈ g.names.toList := by
  rcases List.mem_append.1 hs with hs | hs
  · exact h.mem_names_of_mem_undeclared hs ha
  rcases List.mem_append.1 hs with hs | hs
  · obtain ⟨v, hv, rfl⟩ := List.mem_map.1 hs
    rw [List.mem_singleton.1 ha]
    exact nameAt_mem (h.declared_lt v (Option.mem_toList.1 hv))
  · obtain rfl := List.mem_singleton.1 hs
    cases ha

private theorem isName_of_mem_statements (hs : s ∈ g.statements) (ha : a ∈ s.names) : IsName a :=
  h.isName a (Array.mem_toList_iff.1 (h.mem_names_of_mem_statements hs ha))

private theorem writable (s : Statement) (hs : s ∈ g.statements) : s.Writable :=
  fun _ ha => (h.isName_of_mem_statements hs ha).ne_arrow

private theorem eraseDups_names_statements :
    (g.statements.flatMap Statement.names).eraseDups = g.names.toList := by
  have first : (g.names.toList.map Statement.vertex).flatMap Statement.names = g.names.toList := by
    rw [List.flatMap_map]
    exact List.flatMap_singleton' _
  have known : g.statements.flatMap Statement.names ⊆ g.names.toList := by
    intro a ha
    obtain ⟨s, hs, ha⟩ := List.mem_flatMap.1 ha
    exact h.mem_names_of_mem_statements hs ha
  rw [statements, undeclared, List.append_assoc, List.flatMap_append, first] at known ⊢
  exact eraseDups_append_of_subset h.nodup (List.append_subset.1 known).2

private theorem getElem?_successors (hv : v < g.size) :
    g.successors[v]? = some (g.graph.successors v) := by
  have hv' : v < g.successors.size := hv.trans_eq h.size_successors.symm
  simp [graph, hv']

private theorem successors_statements (hv : g.name? v = some a) :
    (Statement.graph g.statements).successors a = (g.graph.successors v).map g.nameAt := by
  have edges : ((g.names.toList.zip g.successors.toList).flatMap fun row =>
      if row.1 = a then row.2.map g.nameAt else []) = (g.graph.successors v).map g.nameAt := by
    refine flatMap_zip_of_getElem? (List.map g.nameAt) h.nodup (v := v) ?_ ?_
    · rwa [Array.getElem?_toList]
    · rw [Array.getElem?_toList, h.getElem?_successors (lt_size_of_name? hv)]
  have quiet : ∀ {α : Type} (l : List α) (f : α → Statement), (∀ x, (f x).headsFrom a = []) →
      (l.map f).flatMap (Statement.headsFrom a) = [] := by
    intro α l f hf
    rw [List.flatMap_map]
    exact List.flatMap_eq_nil_iff.2 fun x _ => hf x
  change g.statements.flatMap (Statement.headsFrom a) = _
  rw [statements, undeclared, List.flatMap_append, List.flatMap_append, List.flatMap_append,
    quiet g.names.toList Statement.vertex fun _ => rfl, quiet g.declared.toList _ fun _ => rfl,
    List.flatMap_map, List.nil_append]
  exact (List.append_nil _).trans edges

private theorem denotes_statements : g.Denotes g.statements where
  names_eq := h.eraseDups_names_statements.symm
  size_successors := h.size_successors
  successors v a hv := by
    have row := h.getElem?_successors (lt_size_of_name? hv)
    rw [h.successors_statements hv, List.map_map]
    refine List.map_congr_left fun w hw => name?_of_lt ?_
    exact h.successors_lt _ (Array.mem_of_getElem? row) w hw
  declared := by
    rw [findSome?_statements, Option.map_map]
    cases hdeclared : g.declared with
    | none => rfl
    | some v => exact congrArg some (name?_of_lt (h.declared_lt v hdeclared))

private theorem rows_text : Text.rows g.text = g.statements.map Statement.tokens := by
  have plain : ∀ row ∈ g.tokenLines ++ [[]], ∀ w ∈ row, Text.IsWord w ∧ '#' ∉ w.toList := by
    intro row hrow w hw
    rw [← map_tokens_statements] at hrow
    obtain ⟨s, hs, rfl⟩ := List.mem_map.1 hrow
    exact Statement.plain_of_mem_tokens (fun _ ha => h.isName_of_mem_statements hs ha) hw
  rw [text, Text.rows_join (List.forall_mem_append.1 plain).1, map_tokens_statements]

end WellFormed

/-- A well-formed graph is read back from its text. -/
theorem parse_text (g : NamedGraph) (h : g.WellFormed) :
    parse g.text = .ok g ∧ g.entry? = g.declared.or (if g.isEmpty then none else some 0) := by
  refine ⟨?_, ?_⟩
  · obtain ⟨g', ok, _⟩ | ⟨e, _, offends, _⟩ := parse_spec g.text
    · have denotes := denotes_of_parse ok
      rw [Statement.ofSource_eq, h.rows_text, Statement.ofRows_map_tokens h.writable] at denotes
      rw [ok, denotes.unique h.denotes_statements]
    · have accepted := Statement.accepted_map_tokens h.writable g.once_statements
      rw [h.rows_text] at offends
      exact absurd offends.1 (accepted.not_offends e.line)
  · unfold entry?
    cases g.declared <;> rfl

theorem parse_text_lookalikes : ∃ g : NamedGraph, g =
      { names := #["entry", "->b", "<-", "é"], successors := #[[1, 1, 0], [], [3, 2], [0]],
        declared := some 0 } ∧
    g.WellFormed ∧
    g.text =
      "entry\n->b\n<-\né\nentry -> ->b ->b entry\n->b ->\n<- -> é <-\né -> entry\nentry entry\n" ∧
    parse g.text = .ok g ∧ g.entry? = some 0 := by
  have h : NamedGraph.WellFormed
      { names := #["entry", "->b", "<-", "é"], successors := #[[1, 1, 0], [], [3, 2], [0]],
        declared := some 0 } :=
    ⟨by decide +kernel, by decide +kernel, rfl, by decide, by decide⟩
  exact ⟨_, rfl, h, by decide +kernel, (parse_text _ h).1, (parse_text _ h).2⟩

end NamedGraph

end FlowGraph
