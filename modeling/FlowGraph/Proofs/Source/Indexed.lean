import FlowGraph.Proofs.Source.WellFormed
import Std.Data.HashMap.Lemmas
/-!
Reading with an index. A reader that keeps a hash map from names to numbers beside the table of
names extends both, and the table of successors, where a name first stands; it refuses the arrow
when it comes to it, perhaps in the middle of a line. It reads the same graphs and finds the same
faults as the reader that looks names up in their table, and after an accepted text its index is
the inverse of the table.
-/

set_option autoImplicit false

namespace FlowGraph

private theorem idxOf?_push {names : Array String} {a : String} (ha : a ∉ names) (b : String) :
    (names.push a).idxOf? b = if a = b then some names.size else names.idxOf? b := by
  have pushed := List.idxOf?_toArray b (names.push a).toList
  have old := List.idxOf?_toArray b names.toList
  rw [Array.toArray_toList] at pushed old
  rw [pushed, old, Array.toList_push, List.idxOf?, List.findIdx?_append, ← List.idxOf?]
  by_cases h : a = b
  · subst h
    have fresh : List.idxOf? a names.toList = none := List.idxOf?_eq_none_iff.2 (by simpa using ha)
    simp [fresh]
  · simp [h]

structure IndexedGraph where
  names : Array String := #[]
  indices : Std.HashMap String Nat := {}
  successors : Array (List Nat) := #[]
  declared : Option Nat := none

namespace IndexedGraph

/-- The number of a name, which is given the next one if it has none. The arrow is no name. -/
def intern (t : IndexedGraph) (name : String) : Except Fault (Nat × IndexedGraph) :=
  if name = Statement.arrow then .error (.invalidName name)
  else
    match t.indices[name]? with
    | some v => .ok (v, t)
    | none =>
      let v := t.names.size
      .ok (v, { t with
        names := t.names.push name
        indices := t.indices.insert name v
        successors := t.successors.push [] })

def addEdge (t : IndexedGraph) (tail head : Nat) : IndexedGraph :=
  { t with successors := t.successors.modify tail (· ++ [head]) }

def addEdges (tail : Nat) : IndexedGraph → List String → Except Fault IndexedGraph
  | t, [] => .ok t
  | t, name :: names => do
    let (head, t) ← t.intern name
    addEdges tail (t.addEdge tail head) names

def readRow (t : IndexedGraph) : List String → Except Fault IndexedGraph
  | [] => .ok t
  | [name] => do
    let (_, t) ← t.intern name
    return t
  | first :: second :: rest =>
    if second = Statement.arrow then do
      let (tail, t) ← t.intern first
      addEdges tail t rest
    else if first = Statement.entryWord then
      if rest = [] then
        if t.declared.isSome then .error .duplicateEntry
        else do
          let (v, t) ← t.intern second
          return { t with declared := some v }
      else .error .malformedEntry
    else .error (.expectedArrow first second)

def readLines (t : IndexedGraph) (line : Nat) :
    List (List Char) → Except SourceError IndexedGraph
  | [] => .ok t
  | text :: texts =>
    match t.readRow (Text.row text) with
    | .ok t => t.readLines (line + 1) texts
    | .error fault => .error { fault, line }

def parse (source : String) : Except SourceError IndexedGraph :=
  ({} : IndexedGraph).readLines 0 (Text.lines source.toList)

def graph (t : IndexedGraph) : NamedGraph :=
  { names := t.names, successors := t.successors, declared := t.declared }

/-- The index agrees with the table of names, and each name has a row of successors. -/
structure Consistent (t : IndexedGraph) : Prop where
  indices_eq : ∀ name, t.indices[name]? = t.graph.number? name
  size_successors : t.successors.size = t.names.size

private theorem consistent_empty : ({} : IndexedGraph).Consistent where
  indices_eq name := by simp [graph, NamedGraph.number?]
  size_successors := rfl

variable {t : IndexedGraph} {g : NamedGraph} {name : String} {tail : Nat} {heads : List Nat}

private theorem Consistent.intern (h : t.Consistent) (hname : name ≠ Statement.arrow) :
    ∃ t', t.intern name = .ok ((t.graph.ensure name).1, t') ∧ t'.Consistent ∧
      t'.graph = (t.graph.ensure name).2 := by
  rw [IndexedGraph.intern, if_neg hname, h.indices_eq, NamedGraph.ensure]
  cases hnumber : t.graph.number? name with
  | some v => exact ⟨t, rfl, h, rfl⟩
  | none =>
    refine ⟨_, rfl, ⟨fun b => ?_, ?_⟩, rfl⟩
    · have fresh : name ∉ t.names := by
        rw [← Array.mem_toList_iff]
        exact NamedGraph.number?_eq_none_iff.1 hnumber
      have old : t.graph.number? b = t.names.idxOf? b := rfl
      rw [Std.HashMap.getElem?_insert, h.indices_eq, old]
      simp only [graph, NamedGraph.number?, idxOf?_push fresh, beq_iff_eq]
    · simp [h.size_successors]

private theorem ensure_addEdges (htail : tail < g.successors.size) (name : String) :
    (g.addEdges tail heads).ensure name =
      ((g.ensure name).1, (g.ensure name).2.addEdges tail heads) := by
  have number : (g.addEdges tail heads).number? name = g.number? name := rfl
  rw [NamedGraph.ensure, NamedGraph.ensure, number]
  cases g.number? name with
  | some v => rfl
  | none =>
    have push : (g.successors.modify tail (· ++ heads)).push [] =
        (g.successors.push []).modify tail (· ++ heads) := by
      refine Array.ext_getElem? fun i => ?_
      simp only [Array.getElem?_push, Array.getElem?_modify, Array.size_modify]
      by_cases hi : i = g.successors.size
      · simp [hi, Nat.ne_of_lt htail]
      · simp [hi]
    simp only [NamedGraph.addEdges, push]

private theorem size_successors_ensure (g : NamedGraph) (name : String) :
    g.successors.size ≤ (g.ensure name).2.successors.size := by
  unfold NamedGraph.ensure
  split
  · exact le_rfl
  · simp

private theorem addEdges_nil (g : NamedGraph) (tail : Nat) : g.addEdges tail [] = g := by
  have rows : g.successors.modify tail (· ++ []) = g.successors := by
    refine Array.ext_getElem? fun i => ?_
    simp [Array.getElem?_modify]
  rw [NamedGraph.addEdges, rows]

private theorem addEdges_addEdges (g : NamedGraph) (tail : Nat) (heads heads' : List Nat) :
    (g.addEdges tail heads).addEdges tail heads' = g.addEdges tail (heads ++ heads') := by
  have rows : (g.successors.modify tail (· ++ heads)).modify tail (· ++ heads') =
      g.successors.modify tail (· ++ (heads ++ heads')) := by
    refine Array.ext_getElem? fun i => ?_
    simp only [Array.getElem?_modify]
    split
    · rw [Option.map_map]
      congr 1
      funext row
      exact List.append_assoc row heads heads'
    · rfl
  simp only [NamedGraph.addEdges, rows]

private theorem Consistent.addEdge (h : t.Consistent) (tail head : Nat) :
    (t.addEdge tail head).Consistent where
  indices_eq := h.indices_eq
  size_successors := by simp [IndexedGraph.addEdge, h.size_successors]

private theorem Consistent.addEdges (h : t.Consistent) (hg : t.graph = g.addEdges tail heads)
    (htail : tail < g.successors.size) (names : List String) :
    (Statement.arrow ∈ names ∧
      IndexedGraph.addEdges tail t names = .error (.invalidName Statement.arrow)) ∨
    (Statement.arrow ∉ names ∧ ∃ t', IndexedGraph.addEdges tail t names = .ok t' ∧ t'.Consistent ∧
      t'.graph = (g.ensureAll names).2.addEdges tail (heads ++ (g.ensureAll names).1)) := by
  induction names generalizing t g heads with
  | nil =>
    refine Or.inr ⟨List.not_mem_nil, t, rfl, h, ?_⟩
    rw [NamedGraph.ensureAll, List.append_nil, hg]
  | cons name names ih =>
    by_cases hname : name = Statement.arrow
    · subst hname
      exact Or.inl ⟨List.mem_cons_self, rfl⟩
    · obtain ⟨t₁, hintern, h₁, hgraph⟩ := h.intern hname
      rw [hg, ensure_addEdges htail] at hintern hgraph
      dsimp only at hintern hgraph
      have step : IndexedGraph.addEdges tail t (name :: names) =
          IndexedGraph.addEdges tail (t₁.addEdge tail (g.ensure name).1) names := by
        rw [IndexedGraph.addEdges, hintern]
        rfl
      have hgraph' : (t₁.addEdge tail (g.ensure name).1).graph =
          (g.ensure name).2.addEdges tail (heads ++ [(g.ensure name).1]) := by
        rw [← addEdges_addEdges, ← hgraph]
        rfl
      have rest := ih (h₁.addEdge tail (g.ensure name).1) hgraph'
        (htail.trans_le (size_successors_ensure g name))
      rw [step, List.mem_cons, NamedGraph.ensureAll]
      have hne : Statement.arrow ≠ name := Ne.symm hname
      simpa only [hne, false_or, List.append_assoc, List.singleton_append] using rest

private theorem Consistent.ensure_lt (h : t.Consistent) (hgraph : t.graph = (g.ensure name).2) :
    (g.ensure name).1 < (g.ensure name).2.successors.size := by
  have named := NamedGraph.lt_size_of_name? (NamedGraph.name?_ensure g name)
  rw [← hgraph] at named ⊢
  exact named.trans_eq h.size_successors.symm

/-- Two readers come to one end: the same fault, or the same graph, with a consistent index. -/
inductive Agree {ε : Type} : Except ε IndexedGraph → Except ε NamedGraph → Prop
  | ok {t : IndexedGraph} (h : t.Consistent) : Agree (.ok t) (.ok t.graph)
  | error (e : ε) : Agree (.error e) (.error e)

private theorem Consistent.agree_edges (h : t.Consistent) (first : String) (rest : List String) :
    Agree (t.readRow (first :: Statement.arrow :: rest))
      (Statement.ofTokens (first :: Statement.arrow :: rest) >>= t.graph.apply) := by
  rw [IndexedGraph.readRow, if_pos rfl, Statement.ofTokens, if_pos rfl]
  by_cases hfirst : first = Statement.arrow
  · subst hfirst
    rw [if_pos (.inl rfl)]
    exact Agree.error _
  · obtain ⟨t₁, hintern, h₁, hgraph⟩ := h.intern hfirst
    have start : t₁.graph = (t.graph.ensure first).2.addEdges (t.graph.ensure first).1 [] := by
      rw [addEdges_nil, hgraph]
    have read : (t.intern first >>= fun (tail, t) => IndexedGraph.addEdges tail t rest) =
        IndexedGraph.addEdges (t.graph.ensure first).1 t₁ rest := by
      rw [hintern]
      rfl
    rw [read]
    obtain ⟨hmem, hadd⟩ | ⟨hnotMem, t₂, hadd, h₂, hgraph₂⟩ :=
      h₁.addEdges start (h₁.ensure_lt hgraph) rest
    · rw [hadd, if_pos (.inr hmem)]
      exact Agree.error _
    · have applied : (.ok (.edges first rest) >>= t.graph.apply) = .ok t₂.graph := by
        rw [hgraph₂, List.nil_append]
        rfl
      rw [hadd, if_neg (not_or.2 ⟨hfirst, hnotMem⟩), applied]
      exact Agree.ok h₂

private theorem Consistent.agree_entry (h : t.Consistent) {second : String}
    (hsecond : second ≠ Statement.arrow) (rest : List String) :
    Agree (t.readRow (Statement.entryWord :: second :: rest))
      (Statement.ofTokens (Statement.entryWord :: second :: rest) >>= t.graph.apply) := by
  rw [IndexedGraph.readRow, if_neg hsecond, if_pos rfl, Statement.ofTokens, if_neg hsecond,
    if_pos rfl]
  by_cases hrest : rest = []
  · rw [if_pos hrest, if_pos hrest]
    by_cases hdeclared : t.declared.isSome = true
    · have applied : (.ok (.entry second) >>= t.graph.apply) = .error .duplicateEntry :=
        if_pos hdeclared
      rw [if_pos hdeclared, applied]
      exact Agree.error _
    · obtain ⟨t₁, hintern, h₁, hgraph⟩ := h.intern hsecond
      have applied : (.ok (.entry second) >>= t.graph.apply) =
          .ok { t₁.graph with declared := some (t.graph.ensure second).1 } := by
        rw [hgraph]
        exact if_neg hdeclared
      have declared : Consistent { t₁ with declared := some (t.graph.ensure second).1 } :=
        ⟨h₁.indices_eq, h₁.size_successors⟩
      rw [if_neg hdeclared, hintern, applied]
      exact Agree.ok declared
  · rw [if_neg hrest, if_neg hrest]
    exact Agree.error _

private theorem Consistent.agree_readRow (h : t.Consistent) (row : List String) :
    Agree (t.readRow row) (Statement.ofTokens row >>= t.graph.apply) := by
  match row with
  | [] => exact Agree.ok h
  | [name] =>
    by_cases hname : name = Statement.arrow
    · subst hname
      exact Agree.error _
    · obtain ⟨t₁, hintern, h₁, hgraph⟩ := h.intern hname
      have applied : (.ok (.vertex name) >>= t.graph.apply) = .ok t₁.graph :=
        congrArg Except.ok hgraph.symm
      rw [IndexedGraph.readRow, hintern, Statement.ofTokens, if_neg hname, applied]
      exact Agree.ok h₁
  | first :: second :: rest =>
    by_cases hsecond : second = Statement.arrow
    · subst hsecond
      exact h.agree_edges first rest
    · by_cases hfirst : first = Statement.entryWord
      · subst hfirst
        exact h.agree_entry hsecond rest
      · rw [IndexedGraph.readRow, Statement.ofTokens, if_neg hsecond, if_neg hsecond,
          if_neg hfirst, if_neg hfirst]
        exact Agree.error _

private theorem Consistent.agree_readLines (h : t.Consistent) (line : Nat)
    (texts : List (List Char)) :
    Agree (t.readLines line texts) (t.graph.applyLines line texts) := by
  induction texts generalizing t line with
  | nil => exact Agree.ok h
  | cons text texts ih =>
    have row := h.agree_readRow (Text.row text)
    rw [IndexedGraph.readLines, NamedGraph.applyLines, Statement.ofLine_eq]
    generalize t.readRow (Text.row text) = read,
      (Statement.ofTokens (Text.row text) >>= t.graph.apply) = applied at row
    cases row with
    | ok h₁ => exact ih h₁ (line + 1)
    | error fault => exact Agree.error _

/-- The two readers agree on every text. -/
private theorem agree_parse (source : String) : Agree (parse source) (NamedGraph.parse source) :=
  consistent_empty.agree_readLines 0 (Text.lines source.toList)

/-- What the stages after the reader count on when they use its numbers as positions: the names
are different and could stand in a text, the index is the inverse of their table, all vertices
have their rows, and no number leads out of the tables. -/
structure WellKept (t : IndexedGraph) : Prop where
  nodup : t.names.toList.Nodup
  isName : ∀ a ∈ t.names, IsName a
  index_of_name : ∀ v (hv : v < t.names.size), t.indices[t.names[v]]? = some v
  name_of_index : ∀ a v, t.indices[a]? = some v → ∃ hv : v < t.names.size, t.names[v] = a
  index_of_other : ∀ a, a ∉ t.names → t.indices[a]? = none
  size_successors : t.successors.size = t.names.size
  successors_lt : ∀ heads ∈ t.successors, ∀ w ∈ heads, w < t.names.size
  entry_lt : ∀ v, t.graph.entry? = some v → v < t.names.size
  reachable_lt : ∀ u v, u < t.names.size → t.graph.graph.Reachable u v →
    v < t.names.size ∧ v < t.successors.size

private theorem Consistent.wellKept {names : Graph String} (h : t.Consistent)
    (well : t.graph.WellFormed) (depicts : t.graph.Depicts names) : t.WellKept where
  nodup := well.nodup
  isName := well.isName
  index_of_name v hv := by
    have named : t.graph.name? v = some t.names[v] := Array.getElem?_eq_getElem hv
    rw [h.indices_eq, depicts.number?_of_name? named]
  name_of_index a v hv := by
    rw [h.indices_eq] at hv
    exact Array.getElem?_eq_some_iff.1 (NamedGraph.name?_of_number? hv)
  index_of_other a ha := by
    rw [h.indices_eq]
    exact NamedGraph.number?_eq_none_iff.2 fun hmem => ha (Array.mem_toList_iff.1 hmem)
  size_successors := h.size_successors
  successors_lt := well.successors_lt
  entry_lt v hv := by
    obtain ⟨a, named⟩ := well.exists_name_of_entry? hv
    exact NamedGraph.lt_size_of_name? named
  reachable_lt u v hu reach := by
    have start : t.graph.name? u = some t.names[u] := Array.getElem?_eq_getElem hu
    obtain ⟨b, named⟩ := depicts.exists_name_of_reachable start reach
    have hv := NamedGraph.lt_size_of_name? named
    exact ⟨hv, hv.trans_eq h.size_successors.symm⟩

/-- Every text that is accepted is read with an index as well, into the same graph, and the tables
are well kept. -/
theorem wellKept_of_parse {source : String} {g : NamedGraph}
    (ok : NamedGraph.parse source = .ok g) :
    ∃ t, parse source = .ok t ∧ t.graph = g ∧ t.WellKept := by
  have agree := agree_parse source
  rw [ok] at agree
  generalize parse source = read at agree
  cases agree with
  | @ok t h =>
    exact ⟨t, rfl, rfl, h.wellKept (NamedGraph.wellFormed_of_parse ok)
      (NamedGraph.denotes_of_parse ok).depicts⟩

theorem wellKept_of_parse_repeated :
    NamedGraph.parse "a -> b b a # c\nentry c\n\nb ->" = .ok
        { names := #["a", "b", "c"], successors := #[[1, 1, 0], [], []], declared := some 2 } ∧
      ∃ t, parse "a -> b b a # c\nentry c\n\nb ->" = .ok t ∧
        t.graph =
          { names := #["a", "b", "c"], successors := #[[1, 1, 0], [], []],
            declared := some 2 } ∧
        t.WellKept := by
  have ok : NamedGraph.parse "a -> b b a # c\nentry c\n\nb ->" = .ok
      { names := #["a", "b", "c"], successors := #[[1, 1, 0], [], []], declared := some 2 } := by
    decide +kernel
  exact ⟨ok, wellKept_of_parse ok⟩

end IndexedGraph

end FlowGraph
