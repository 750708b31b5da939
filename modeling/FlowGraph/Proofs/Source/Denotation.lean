import FlowGraph.Source.NamedGraph
import Mathlib.Data.List.Induction
import Mathlib.Data.List.Nodup
/-!
What a source text denotes. Its statements mention names, draw edges between them and may declare
an entry; all that is said in terms of names. A graph read from the text numbers the names in the
order in which they first stand, and its edges and its entry are those of the statements.
-/

set_option autoImplicit false

namespace FlowGraph

namespace Statement

/-- The names that a statement mentions, in order. -/
def names : Statement → List String
  | blank => []
  | edges tail heads => tail :: heads
  | entry name => [name]
  | vertex name => [name]

def headsFrom (a : String) : Statement → List String
  | edges tail heads => if tail = a then heads else []
  | _ => []

/-- The vertex that a statement declares the entry. -/
def declared? : Statement → Option String
  | entry name => some name
  | _ => none

/-- The statements of the lines of a source text. A faulty line has none. -/
def ofSource (source : String) : List Statement :=
  (Text.lines source.toList).filterMap fun line => (ofLine line).toOption

/-- The graph on names that statements draw, each edge as often as it stands there. -/
def graph (ss : List Statement) : Graph String where
  successors a := ss.flatMap (headsFrom a)

/-- The vertex where the graph of statements is entered: the first that is declared the entry, or
else the first that is mentioned. -/
def entry? (ss : List Statement) : Option String :=
  (ss.findSome? declared?).or (ss.flatMap names).head?

private theorem headsFrom_of_notMem {s : Statement} {a : String} (h : a ∉ s.names) :
    s.headsFrom a = [] := by
  cases s with
  | edges tail heads =>
    have hne : tail ≠ a := fun heq => h (heq ▸ List.mem_cons_self)
    exact if_neg hne
  | _ => rfl

private theorem successors_graph_concat (ss : List Statement) (s : Statement) (a : String) :
    (graph (ss ++ [s])).successors a = (graph ss).successors a ++ s.headsFrom a := by
  simp [graph]

end Statement

section EraseDups

variable {α : Type} [BEq α] [LawfulBEq α]

private theorem eraseDups_concat_of_mem {l : List α} {a : α} (h : a ∈ l) :
    (l ++ [a]).eraseDups = l.eraseDups := by
  rw [List.eraseDups_append]
  simp [List.removeAll, h]

private theorem eraseDups_concat_of_notMem {l : List α} {a : α} (h : a ∉ l) :
    (l ++ [a]).eraseDups = l.eraseDups ++ [a] := by
  rw [List.eraseDups_append]
  simp [List.removeAll, h, List.eraseDups_cons]

private theorem nodup_eraseDups (l : List α) : l.eraseDups.Nodup := by
  induction l using List.reverseRecOn with
  | nil => simp
  | append_singleton l a ih =>
    by_cases h : a ∈ l
    · rwa [eraseDups_concat_of_mem h]
    · rw [eraseDups_concat_of_notMem h]
      refine List.nodup_append.2 ⟨ih, List.nodup_singleton a, ?_⟩
      rintro x hx y hy rfl
      obtain rfl := List.mem_singleton.1 hy
      exact h (List.mem_eraseDups.1 hx)

end EraseDups

namespace NamedGraph

variable {g g' g'' : NamedGraph} {a b : String} {v w : Nat} {ms ms' : List String}
  {ss : List Statement} {s : Statement}

theorem number?_eq_none_iff : g.number? a = none ↔ a ∉ g.names.toList := by
  rw [number?, Array.idxOf?_eq_none_iff, Array.mem_toList_iff]

theorem name?_of_number? (h : g.number? a = some v) : g.name? v = some a := by
  have same := List.idxOf?_toArray a g.names.toList
  rw [Array.toArray_toList] at same
  rw [number?, same, List.idxOf?_eq_some_iff] at h
  obtain ⟨hv, heq, _⟩ := h
  rw [name?, ← Array.getElem?_toList, List.getElem?_eq_getElem hv, heq]

theorem mem_names_of_name? (h : g.name? v = some a) : a ∈ g.names.toList :=
  Array.mem_toList_iff.2 (Array.mem_of_getElem? h)

theorem name?_injective (nodup : g.names.toList.Nodup) (hv : g.name? v = some a)
    (hw : g.name? w = some a) : v = w := by
  rw [name?, ← Array.getElem?_toList] at hv hw
  have hlt := (List.getElem?_eq_some_iff.1 hv).1
  exact (List.getElem?_inj hlt nodup).1 (hv.trans hw.symm)

/-- A graph goes over into another while further names are mentioned. Those that are new get
numbers, and nothing else changes. -/
structure Grows (g : NamedGraph) (mentioned : List String) (g' : NamedGraph) : Prop where
  names_eq : ∀ ms, g.names.toList = ms.eraseDups → g'.names.toList = (ms ++ mentioned).eraseDups
  name?_of_some : ∀ v a, g.name? v = some a → g'.name? v = some a
  successors_eq : ∀ v, g'.graph.successors v = g.graph.successors v
  size_successors : g.successors.size = g.names.size → g'.successors.size = g'.names.size
  declared_eq : g'.declared = g.declared

private theorem Grows.refl (g : NamedGraph) : g.Grows [] g where
  names_eq ms h := by rwa [List.append_nil]
  name?_of_some _ _ h := h
  successors_eq _ := rfl
  size_successors h := h
  declared_eq := rfl

theorem Grows.trans (h : g.Grows ms g') (h' : g'.Grows ms' g'') : g.Grows (ms ++ ms') g'' where
  names_eq before hb := by
    rw [h'.names_eq _ (h.names_eq before hb), List.append_assoc]
  name?_of_some v a hv := h'.name?_of_some v a (h.name?_of_some v a hv)
  successors_eq v := (h'.successors_eq v).trans (h.successors_eq v)
  size_successors hs := h'.size_successors (h.size_successors hs)
  declared_eq := h'.declared_eq.trans h.declared_eq

theorem grows_ensure (g : NamedGraph) (a : String) : g.Grows [a] (g.ensure a).2 := by
  unfold ensure
  cases hnumber : g.number? a with
  | some v =>
    refine { Grows.refl g with names_eq := fun ms hms => ?_ }
    have hmem : a ∈ ms := by
      rw [← List.mem_eraseDups, ← hms]
      exact mem_names_of_name? (name?_of_number? hnumber)
    rw [hms, eraseDups_concat_of_mem hmem]
  | none =>
    refine ⟨fun ms hms => ?_, fun v b hv => ?_, fun v => ?_, fun hs => ?_, rfl⟩
    · have hmem : a ∉ ms := by
        rw [← List.mem_eraseDups, ← hms]
        exact number?_eq_none_iff.1 hnumber
      rw [eraseDups_concat_of_notMem hmem, ← hms, Array.toList_push]
    · have hlt : v < g.names.size := (Array.getElem?_eq_some_iff.1 hv).1
      rw [name?, Array.getElem?_push, if_neg (Nat.ne_of_lt hlt)]
      exact hv
    · simp only [graph, Array.getD_eq_getD_getElem?, Array.getElem?_push]
      split
      next h => simp [h]
      next => rfl
    · simp only [Array.size_push, hs]

theorem name?_ensure (g : NamedGraph) (a : String) :
    (g.ensure a).2.name? (g.ensure a).1 = some a := by
  unfold ensure
  cases hnumber : g.number? a with
  | some v => exact name?_of_number? hnumber
  | none => exact Array.getElem?_push_size

theorem grows_ensureAll (g : NamedGraph) (names : List String) :
    g.Grows names (g.ensureAll names).2 := by
  induction names generalizing g with
  | nil => exact Grows.refl g
  | cons a names ih => exact (grows_ensure g a).trans (ih (g.ensure a).2)

private theorem map_name?_ensureAll (g : NamedGraph) (names : List String) :
    (g.ensureAll names).1.map (g.ensureAll names).2.name? = names.map some := by
  induction names generalizing g with
  | nil => rfl
  | cons a names ih =>
    have later := grows_ensureAll (g.ensure a).2 names
    exact List.cons_eq_cons.2 ⟨later.name?_of_some _ _ (name?_ensure g a), ih (g.ensure a).2⟩

private theorem map_eq_map_some_of_extends {f f' : Nat → Option String} {vs : List Nat}
    {names : List String} (h : vs.map f = names.map some)
    (extends' : ∀ v a, f v = some a → f' v = some a) : vs.map f' = names.map some := by
  rw [← h]
  refine List.map_congr_left fun v hv => ?_
  have hmem : f v ∈ names.map some := h ▸ List.mem_map_of_mem hv
  obtain ⟨a, _, ha⟩ := List.mem_map.1 hmem
  rw [extends' v a ha.symm, ha]

/-- A graph that was read from statements: its names are those mentioned, in the order in which
they first stand; the names of the successors of a vertex are the heads of its edges; and a number
is declared if a name is. -/
structure Denotes (g : NamedGraph) (ss : List Statement) : Prop where
  names_eq : g.names.toList = (ss.flatMap Statement.names).eraseDups
  size_successors : g.successors.size = g.names.size
  successors : ∀ v a, g.name? v = some a →
    (g.graph.successors v).map g.name? = ((Statement.graph ss).successors a).map some
  declared : g.declared.map g.name? = (ss.findSome? Statement.declared?).map some

namespace Denotes

theorem nodup_names (h : g.Denotes ss) : g.names.toList.Nodup := by
  rw [h.names_eq]
  exact nodup_eraseDups _

private theorem nodup_of_grows (h : g.Denotes ss) (grows : g.Grows ms g') :
    g'.names.toList.Nodup := by
  rw [grows.names_eq _ h.names_eq]
  exact nodup_eraseDups _

private theorem names_of_grows (h : g.Denotes ss) (grows : g.Grows s.names g') :
    g'.names.toList = ((ss ++ [s]).flatMap Statement.names).eraseDups := by
  rw [List.flatMap_append, List.flatMap_singleton]
  exact grows.names_eq _ h.names_eq

private theorem successors_of_grows (h : g.Denotes ss) (grows : g.Grows ms g')
    (hv : g'.name? v = some a) :
    (g'.graph.successors v).map g'.name? = ((Statement.graph ss).successors a).map some := by
  rw [grows.successors_eq]
  by_cases hlt : v < g.names.size
  · have old : g.name? v = some g.names[v] := Array.getElem?_eq_getElem hlt
    obtain rfl := Option.some.inj (hv.symm.trans (grows.name?_of_some _ _ old))
    exact map_eq_map_some_of_extends (h.successors v _ old) grows.name?_of_some
  · -- a vertex that is new has no edges, nor has its name, which was not mentioned before
    have size := h.size_successors
    have fresh : a ∉ ss.flatMap Statement.names := by
      intro hmem
      rw [← List.mem_eraseDups, ← h.names_eq] at hmem
      obtain ⟨u, hu⟩ := List.mem_iff_getElem?.1 hmem
      rw [Array.getElem?_toList] at hu
      obtain rfl := name?_injective (h.nodup_of_grows grows) (grows.name?_of_some u a hu) hv
      exact hlt (Array.getElem?_eq_some_iff.1 hu).1
    have none : g.graph.successors v = [] := by
      change g.successors.getD v [] = []
      rw [Array.getD_eq_getD_getElem?, Array.getElem?_eq_none (by omega), Option.getD_none]
    have silent : (Statement.graph ss).successors a = [] := by
      refine List.flatMap_eq_nil_iff.2 fun s hs => Statement.headsFrom_of_notMem fun ha => ?_
      exact fresh (List.mem_flatMap.2 ⟨s, hs, ha⟩)
    rw [none, silent, List.map_nil, List.map_nil]

private theorem declared_of_grows (h : g.Denotes ss) (grows : g.Grows ms g') :
    g'.declared.map g'.name? = (ss.findSome? Statement.declared?).map some := by
  rw [grows.declared_eq, ← h.declared]
  cases hdeclared : g.declared with
  | none => rfl
  | some v =>
    have named := h.declared
    rw [hdeclared, Option.map_some] at named
    obtain ⟨a, _, ha⟩ := Option.map_eq_some_iff.1 named.symm
    rw [Option.map_some, Option.map_some, ← ha, grows.name?_of_some v a ha.symm]

private theorem mention (h : g.Denotes ss) (grows : g.Grows s.names g')
    (quiet : ∀ a, s.headsFrom a = []) (undeclared : s.declared? = none) :
    g'.Denotes (ss ++ [s]) where
  names_eq := h.names_of_grows grows
  size_successors := grows.size_successors h.size_successors
  successors v a hv := by
    rw [Statement.successors_graph_concat, quiet, List.append_nil]
    exact h.successors_of_grows grows hv
  declared := by
    rw [h.declared_of_grows grows, List.findSome?_append]
    simp [undeclared]

private theorem addEdges {heads : List String} {vs : List Nat} (h : g.Denotes ss)
    (grows : g.Grows (a :: heads) g') (hv : g'.name? v = some a)
    (hvs : vs.map g'.name? = heads.map some) :
    (g'.addEdges v vs).Denotes (ss ++ [.edges a heads]) where
  names_eq := by
    change g'.names.toList = _
    exact h.names_of_grows (s := .edges a heads) grows
  size_successors := by
    simpa [NamedGraph.addEdges] using grows.size_successors h.size_successors
  successors w b hw := by
    have hw : g'.name? w = some b := hw
    have old := h.successors_of_grows grows hw
    have hlt : v < g'.successors.size := by
      rw [grows.size_successors h.size_successors]
      exact (Array.getElem?_eq_some_iff.1 hv).1
    rw [Statement.successors_graph_concat, List.map_append, ← old]
    change (((g'.successors.modify v (· ++ vs)).getD w []).map g'.name?) = _
    rw [Array.getD_eq_getD_getElem?, Array.getElem?_modify]
    by_cases hvw : v = w
    · subst hvw
      obtain rfl := Option.some.inj (hv.symm.trans hw)
      simp [Statement.headsFrom, graph, hlt, hvs]
    · have hne : a ≠ b := by
        rintro rfl
        exact hvw (name?_injective (h.nodup_of_grows grows) hv hw)
      simp [Statement.headsFrom, graph, hvw, hne]
  declared := by
    change g'.declared.map g'.name? = _
    rw [h.declared_of_grows grows, List.findSome?_append]
    simp [Statement.declared?]

private theorem declare (h : g.Denotes ss) (grows : g.Grows [a] g') (hv : g'.name? v = some a)
    (undeclared : g.declared = none) :
    ({ g' with declared := some v } : NamedGraph).Denotes (ss ++ [.entry a]) where
  names_eq := by
    change g'.names.toList = _
    exact h.names_of_grows (s := .entry a) grows
  size_successors := grows.size_successors h.size_successors
  successors w b hw := by
    have hw : g'.name? w = some b := hw
    have old := h.successors_of_grows grows hw
    have silent : (Statement.entry a).headsFrom b = [] := rfl
    rw [Statement.successors_graph_concat, silent, List.append_nil]
    exact old
  declared := by
    have before := h.declared
    rw [undeclared, Option.map_none, eq_comm, Option.map_eq_none_iff] at before
    rw [List.findSome?_append, before]
    exact congrArg some hv

private theorem apply (h : g.Denotes ss) (ok : g.apply s = .ok g') : g'.Denotes (ss ++ [s]) := by
  cases s with
  | blank =>
    obtain rfl := Except.ok.inj ok
    exact h.mention (Grows.refl g) (fun _ => rfl) rfl
  | vertex name =>
    obtain rfl := Except.ok.inj ok
    exact h.mention (grows_ensure g name) (fun _ => rfl) rfl
  | edges tail heads =>
    obtain rfl := Except.ok.inj ok
    have later := grows_ensureAll (g.ensure tail).2 heads
    exact h.addEdges ((grows_ensure g tail).trans later)
      (later.name?_of_some _ _ (name?_ensure g tail)) (map_name?_ensureAll _ heads)
  | entry name =>
    cases hdeclared : g.declared with
    | some v => simp [NamedGraph.apply, hdeclared] at ok
    | none =>
      simp only [NamedGraph.apply, hdeclared] at ok
      obtain rfl := Except.ok.inj ok
      exact h.declare (grows_ensure g name) (name?_ensure g name) hdeclared

private theorem applyLines (h : g.Denotes ss) {line : Nat} {texts : List (List Char)}
    (ok : g.applyLines line texts = .ok g') :
    g'.Denotes (ss ++ texts.filterMap fun text => (Statement.ofLine text).toOption) := by
  induction texts generalizing g ss line with
  | nil =>
    obtain rfl := Except.ok.inj ok
    rwa [List.filterMap_nil, List.append_nil]
  | cons text texts ih =>
    rw [NamedGraph.applyLines] at ok
    cases hline : Statement.ofLine text with
    | error fault => simp [hline, bind, Except.bind] at ok
    | ok s =>
      simp only [hline, bind, Except.bind] at ok
      split at ok
      next g₁ happly =>
        have next := ih (h.apply happly) ok
        rw [List.append_assoc] at next
        rwa [List.filterMap_cons_some (by rw [hline]; rfl)]
      next => cases ok

end Denotes

/-- A graph that was read from a source text is the one that its statements describe. -/
theorem denotes_of_parse {source : String} (ok : parse source = .ok g) :
    g.Denotes (Statement.ofSource source) := by
  have empty : ({} : NamedGraph).Denotes [] := by
    refine ⟨rfl, rfl, ?_, rfl⟩
    intro v a hv
    simp [name?] at hv
  have := empty.applyLines ok
  rwa [List.nil_append] at this

end NamedGraph

end FlowGraph
