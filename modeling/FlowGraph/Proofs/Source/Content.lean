import FlowGraph.Proofs.Source.Grammar
import FlowGraph.Proofs.Source.Naming
import Mathlib.Algebra.BigOperators.Group.List.Basic
import Mathlib.Data.List.Pairwise
/-!
The content of a source text. Some tokens of a text name vertices, some of these are the heads of
edges, and a line may declare the entry; which ones they are is said of the rows of tokens alone.
A graph read from a text has the names, the edges and the entry that its rows give it.
-/

set_option autoImplicit false

namespace FlowGraph

namespace Row

/-- The tokens of a row that name vertices: those beside an arrow, the one that is declared the
entry, and one that stands alone. -/
def vertices : List String → List String
  | tail :: "->" :: heads => tail :: heads
  | ["entry", name] => [name]
  | [name] => [name]
  | _ => []

def heads : List String → List String
  | _ :: "->" :: heads => heads
  | _ => []

def headsFrom (a : String) (row : List String) : List String :=
  if row.head? = some a then heads row else []

end Row

namespace Statement

/-- A statement has the vertices, the edges and the declaration of a row. -/
structure Conveys (row : List String) (s : Statement) : Prop where
  names_eq : s.names = Row.vertices row
  headsFrom_eq : ∀ a, s.headsFrom a = Row.headsFrom a row
  declared_iff : ∀ a, s.declared? = some a ↔ a ≠ "->" ∧ row = ["entry", a]

variable {row : List String} {rows : List (List String)} {s : Statement} {ss : List Statement}
  {a b : String}

private theorem exists_conveys_edges {tail : String} {heads : List String} (htail : tail ≠ "->")
    (hheads : "->" ∉ heads) : ∃ s, ofTokens (tail :: "->" :: heads) = .ok s ∧
      Conveys (tail :: "->" :: heads) s := by
  refine ⟨.edges tail heads, ?_, rfl, fun a => ?_, fun a => ?_⟩
  · simp [ofTokens, arrow, htail, hheads]
  · simp [headsFrom, Row.headsFrom, Row.heads]
  · simp only [declared?, reduceCtorEq, List.cons.injEq, false_iff, not_and]
    exact fun hne _ heq => absurd heq.symm hne

private theorem Good.exists_conveys (h : Good row) : ∃ s, ofTokens row = .ok s ∧ Conveys row s := by
  cases h with
  | blank => exact ⟨.blank, rfl, rfl, fun a => rfl, fun a => by simp [declared?]⟩
  | edges htail hheads => exact exists_conveys_edges htail hheads
  | entry name =>
    by_cases hname : name = "->"
    · -- an arrow comes before all else, so this line names a vertex and declares nothing
      subst hname
      exact exists_conveys_edges (by decide) (by simp)
    · have read : ofTokens ["entry", name] = .ok (.entry name) := by
        simp [ofTokens, arrow, entryWord, hname]
      refine ⟨.entry name, read, ?_, fun a => ?_, fun a => ?_⟩
      · simp [names, Row.vertices]
      · simp [headsFrom, Row.headsFrom, Row.heads, hname]
      · simp only [declared?, Option.some.injEq, List.cons.injEq, and_true, true_and]
        exact ⟨fun heq => ⟨heq ▸ hname, heq⟩, fun h => h.2⟩
  | @vertex name hname =>
    refine ⟨.vertex name, if_neg hname, rfl, fun a => ?_, fun a => by simp [declared?]⟩
    simp [headsFrom, Row.headsFrom, Row.heads]

def ofRows (rows : List (List String)) : List Statement :=
  rows.filterMap fun row => (ofTokens row).toOption

theorem ofSource_eq (source : String) : ofSource source = ofRows (Text.rows source) := by
  rw [ofSource, ofRows, ← Text.map_row_lines, List.filterMap_map]
  simp only [ofLine_eq, Function.comp_def]

theorem forall₂_conveys (good : ∀ row ∈ rows, Good row) :
    List.Forall₂ Conveys rows (ofRows rows) := by
  induction rows with
  | nil => exact List.Forall₂.nil
  | cons row rows ih =>
    obtain ⟨hrow, hrows⟩ := List.forall_mem_cons.1 good
    obtain ⟨s, hs, said⟩ := hrow.exists_conveys
    have first : ofRows (row :: rows) = s :: ofRows rows :=
      List.filterMap_cons_some (by rw [hs]; rfl)
    rw [first]
    exact List.Forall₂.cons said (ih hrows)

section Rows

variable (h : List.Forall₂ Conveys rows ss)
include h

theorem flatMap_names : ss.flatMap names = rows.flatMap Row.vertices := by
  induction h with
  | nil => rfl
  | cons said _ ih => rw [List.flatMap_cons, List.flatMap_cons, said.names_eq, ih]

private theorem successors_graph (a : String) :
    (graph ss).successors a = rows.flatMap (Row.headsFrom a) := by
  induction h with
  | nil => rfl
  | cons said _ ih => exact congrArg₂ (· ++ ·) (said.headsFrom_eq a) ih

private theorem exists_declared_iff (a : String) :
    (∃ s ∈ ss, s.declared? = some a) ↔ a ≠ "->" ∧ ["entry", a] ∈ rows := by
  induction h with
  | nil => simp
  | @cons row s rows ss said _ ih =>
    rw [List.exists_mem_cons_iff, said.declared_iff, ih, List.mem_cons, and_or_left,
      eq_comm (a := row)]

end Rows

private theorem Accepted.declared_unique (h : Accepted rows) (ha : a ≠ "->") (hb : b ≠ "->")
    (hrow : ["entry", a] ∈ rows) (hrow' : ["entry", b] ∈ rows) : a = b := by
  by_contra hne
  have symmetric : Std.Symm fun row row' => ¬ (Declares row ∧ Declares row') :=
    ⟨fun _ _ apart both => apart both.symm⟩
  have apart := h.once.forall hrow hrow' (by simpa using hne)
  exact apart ⟨Declares.entry ha, Declares.entry hb⟩

end Statement

namespace Row

variable {names : List String} {row : List String} {rows : List (List String)}

private theorem heads_eq_nil_or (row : List String) :
    heads row = [] ∨ ∃ tail ∈ vertices row, row.head? = some tail := by
  unfold heads
  split
  next tail heads => exact .inr ⟨tail, List.mem_cons_self, rfl⟩
  next => exact .inl rfl

private theorem sum_length_headsFrom (nodup : names.Nodup)
    (known : heads row = [] ∨ ∃ tail ∈ names, row.head? = some tail) :
    (names.map fun a => (headsFrom a row).length).sum = (heads row).length := by
  rcases known with hnil | ⟨tail, hmem, hhead⟩
  · simp [headsFrom, hnil]
  · have others : ∀ a, a ≠ tail → a ∈ names → (headsFrom a row).length = 0 := by
      intro a hne _
      have : row.head? ≠ some a := by
        rw [hhead]
        exact fun heq => hne (Option.some.inj heq).symm
      rw [headsFrom, if_neg this, List.length_nil]
    rw [List.sum_map_eq_nsmul_single tail _ others, List.count_eq_one_of_mem nodup hmem, one_nsmul,
      headsFrom, if_pos hhead]

private theorem sum_length_flatMap_headsFrom (nodup : names.Nodup)
    (known : ∀ row ∈ rows, heads row = [] ∨ ∃ tail ∈ names, row.head? = some tail) :
    (names.map fun a => (rows.flatMap (headsFrom a)).length).sum = (rows.flatMap heads).length := by
  induction rows with
  | nil => simp
  | cons row rows ih =>
    obtain ⟨hrow, hrows⟩ := List.forall_mem_cons.1 known
    simp only [List.flatMap_cons, List.length_append]
    rw [List.sum_map_add, sum_length_headsFrom nodup hrow, ih hrows]

end Row

namespace NamedGraph

variable {g : NamedGraph} {ss : List Statement}

/-- What rows of tokens make of a graph. The names by number are the tokens that name vertices,
each where it first stands; the successors of a vertex are the heads of its edges, in their order
and as often as they stand; and the entry is the declared vertex, or else the first. -/
structure DrawnFrom (g : NamedGraph) (rows : List (List String)) : Prop where
  names_eq : g.names.toList = (rows.flatMap Row.vertices).eraseDups
  successors_eq : ∀ v a, g.name? v = some a →
    (g.graph.successors v).map g.name? = (rows.flatMap (Row.headsFrom a)).map some
  edgeCount_eq : g.edgeCount = (rows.flatMap Row.heads).length
  entry_of_declared : ∀ a, a ≠ "->" → ["entry", a] ∈ rows →
    ∃ v, g.entry? = some v ∧ g.name? v = some a
  entry_of_undeclared : (∀ a, a ≠ "->" → ["entry", a] ∉ rows) →
    g.entry? = if rows.flatMap Row.vertices = [] then none else some 0

namespace Denotes

private theorem edgeCount_eq (h : g.Denotes ss) : g.edgeCount =
    (g.names.toList.map fun a => ((Statement.graph ss).successors a).length).sum := by
  have lengths : g.successors.toList.map List.length =
      g.names.toList.map fun a => ((Statement.graph ss).successors a).length := by
    refine List.ext_getElem (by simp [h.size_successors]) fun v hv hv' => ?_
    rw [List.length_map, Array.length_toList] at hv hv'
    have same := congrArg List.length (h.successors v _ (Array.getElem?_eq_getElem hv'))
    simpa [graph, hv] using same
  rw [edgeCount, lengths]
  rfl

private theorem isEmpty_iff (h : g.Denotes ss) :
    g.isEmpty = true ↔ ss.flatMap Statement.names = [] := by
  rw [isEmpty, Array.isEmpty_iff, ← Array.toList_eq_nil_iff, h.names_eq]
  cases ss.flatMap Statement.names with
  | nil => simp
  | cons a names => simp [List.eraseDups_cons]

private theorem entry?_of_undeclared (h : g.Denotes ss)
    (undeclared : ss.findSome? Statement.declared? = none) :
    g.entry? = if ss.flatMap Statement.names = [] then none else some 0 := by
  have declared := h.declared
  rw [undeclared, Option.map_none, Option.map_eq_none_iff] at declared
  unfold entry?
  rw [declared]
  exact if_congr h.isEmpty_iff rfl rfl

private theorem drawnFrom {rows : List (List String)} (h : g.Denotes (Statement.ofRows rows))
    (accepted : Statement.Accepted rows) : g.DrawnFrom rows := by
  have said := Statement.forall₂_conveys accepted.good
  have names := Statement.flatMap_names said
  have declared := Statement.exists_declared_iff said
  refine ⟨by rw [h.names_eq, names], ?_, ?_, ?_, ?_⟩
  · intro v a hv
    rw [h.successors v a hv, Statement.successors_graph said]
  · rw [h.edgeCount_eq]
    simp only [Statement.successors_graph said]
    refine Row.sum_length_flatMap_headsFrom h.nodup_names fun row hrow => ?_
    refine (Row.heads_eq_nil_or row).imp_right ?_
    rintro ⟨tail, htail, first⟩
    refine ⟨tail, ?_, first⟩
    rw [h.names_eq, names, List.mem_eraseDups]
    exact List.mem_flatMap.2 ⟨row, hrow, htail⟩
  · intro a hne hrow
    -- some vertex is declared, and it is this one since no two are
    obtain ⟨s, hs, hdeclared⟩ := (declared a).2 ⟨hne, hrow⟩
    have found := List.findSome?_isSome_iff.2 ⟨s, hs, Option.isSome_of_eq_some hdeclared⟩
    obtain ⟨b, hb⟩ := Option.isSome_iff_exists.1 found
    obtain ⟨hneb, hrowb⟩ := (declared b).1 (List.exists_of_findSome?_eq_some hb)
    obtain rfl := accepted.declared_unique hne hneb hrow hrowb
    exact h.exists_entry (by rw [Statement.entry?, hb, Option.some_or])
  · intro undeclared
    have silent : (Statement.ofRows rows).findSome? Statement.declared? = none := by
      refine List.findSome?_eq_none_iff.2 fun s hs => Option.eq_none_iff_forall_ne_some.2 ?_
      intro a ha
      obtain ⟨hne, hrow⟩ := (declared a).1 ⟨s, hs, ha⟩
      exact undeclared a hne hrow
    rw [h.entry?_of_undeclared silent, names]

end Denotes

/-- A graph read from a text is the one that the rows of the text describe. -/
theorem drawnFrom_of_parse (source : String) (g : NamedGraph) (ok : parse source = .ok g) :
    g.DrawnFrom (Text.rows source) := by
  have denotes := denotes_of_parse ok
  rw [Statement.ofSource_eq] at denotes
  obtain ⟨_, _, accepted⟩ | ⟨_, failed, _⟩ := parse_spec source
  · exact denotes.drawnFrom accepted
  · cases ok.symm.trans failed

theorem drawnFrom_of_parse_scattered :
    parse "x\nb -> c b c # again\nentry a\n\nb -> a\nentry ->" = .ok
        { names := #["x", "b", "c", "a", "entry"], successors := #[[], [2, 1, 2, 3], [], [], []],
          declared := some 3 } ∧
      NamedGraph.DrawnFrom
        { names := #["x", "b", "c", "a", "entry"], successors := #[[], [2, 1, 2, 3], [], [], []],
          declared := some 3 }
        [["x"], ["b", "->", "c", "b", "c"], ["entry", "a"], [], ["b", "->", "a"],
          ["entry", "->"]] := by
  have ok : parse "x\nb -> c b c # again\nentry a\n\nb -> a\nentry ->" = .ok
      { names := #["x", "b", "c", "a", "entry"], successors := #[[], [2, 1, 2, 3], [], [], []],
        declared := some 3 } := by
    decide +kernel
  have rows : Text.rows "x\nb -> c b c # again\nentry a\n\nb -> a\nentry ->" =
      [["x"], ["b", "->", "c", "b", "c"], ["entry", "a"], [], ["b", "->", "a"],
        ["entry", "->"]] := by
    decide +kernel
  exact ⟨ok, rows ▸ drawnFrom_of_parse _ _ ok⟩

end NamedGraph

end FlowGraph
