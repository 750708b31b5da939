import FlowGraph.Proofs.Source.Content
import FlowGraph.Proofs.Text.Words
/-!
Well-formed graphs. The names are different and each can stand in a source text, and the tables
hold numbers of names only. Every graph that is read from a text is well formed, and it is the only
graph that the statements of the text denote.
-/

set_option autoImplicit false

namespace FlowGraph

/-- A name of a vertex is a word other than the arrow, and holds no number sign. -/
structure IsName (s : String) : Prop extends Text.IsWord s where
  unmarked : '#' ∉ s.toList
  ne_arrow : s ≠ "->"

instance (s : String) : Decidable (IsName s) :=
  decidable_of_iff (Text.IsWord s ∧ '#' ∉ s.toList ∧ s ≠ "->")
    ⟨fun h => ⟨h.1, h.2.1, h.2.2⟩, fun h => ⟨h.toIsWord, h.unmarked, h.ne_arrow⟩⟩

private theorem Row.mem_of_mem_vertices {row : List String} {a : String} (h : a ∈ vertices row) :
    a ∈ row := by
  unfold vertices at h
  split at h
  next =>
    rcases List.mem_cons.1 h with rfl | h
    · exact List.mem_cons_self
    · exact List.mem_cons_of_mem _ (List.mem_cons_of_mem _ h)
  next => exact List.mem_cons_of_mem _ h
  next => exact h
  next => cases h

private theorem Statement.Good.ne_arrow {row : List String} {a : String} (h : Good row)
    (ha : a ∈ Row.vertices row) : a ≠ "->" := by
  rintro rfl
  cases h with
  | blank => cases ha
  | edges htail hheads =>
    rcases List.mem_cons.1 ha with heq | hmem
    · exact htail heq.symm
    · exact hheads hmem
  | entry name =>
    by_cases hname : name = "->"
    · subst hname
      simp [Row.vertices] at ha
    · simp [Row.vertices, Ne.symm hname] at ha
  | vertex hname => exact hname (List.mem_singleton.1 ha).symm

namespace Text

variable {source s : String} {row : List String}

private theorem isWord_of_mem_rows (hrow : row ∈ rows source) (hs : s ∈ row) : IsWord s := by
  obtain ⟨line, _, rfl⟩ := List.mem_map.1 hrow
  exact isWord_of_mem_words hs

private theorem unmarked_of_mem_rows (hrow : row ∈ rows source) (hs : s ∈ row) :
    '#' ∉ s.toList := by
  obtain ⟨line, _, rfl⟩ := List.mem_map.1 hrow
  intro hmem
  simpa using List.mem_takeWhile_imp (mem_of_mem_words hs hmem)

end Text

namespace NamedGraph

variable {g g' : NamedGraph} {names : Graph String} {ss : List Statement} {as : List String}
  {vs : List Nat}

/-- The names of a graph are different, and its tables have a row for each name and hold numbers
of names. -/
structure WellFormed (g : NamedGraph) : Prop where
  nodup : g.names.toList.Nodup
  isName : ∀ a ∈ g.names, IsName a
  size_successors : g.successors.size = g.names.size
  successors_lt : ∀ heads ∈ g.successors, ∀ w ∈ heads, w < g.size
  declared_lt : ∀ v ∈ g.declared, v < g.size

theorem lt_size_of_name? {v : Nat} {a : String} (h : g.name? v = some a) : v < g.size :=
  (Array.getElem?_eq_some_iff.1 h).1

theorem WellFormed.exists_name_of_entry? {v : Nat} (h : g.WellFormed) (hentry : g.entry? = some v) :
    ∃ a, g.name? v = some a := by
  have hlt : v < g.names.size := by
    unfold entry? at hentry
    split at hentry
    next declared hdeclared =>
      obtain rfl := Option.some.inj hentry
      exact h.declared_lt declared hdeclared
    next =>
      split_ifs at hentry with hempty
      obtain rfl := Option.some.inj hentry
      exact Array.size_pos_iff.2 fun hnil => hempty (Array.isEmpty_iff.2 hnil)
  exact ⟨_, Array.getElem?_eq_getElem hlt⟩

private theorem Depicts.map_number? (h : g.Depicts names) (hvs : vs.map g.name? = as.map some) :
    as.map g.number? = vs.map some := by
  have back : ∀ v ∈ vs, (g.name? v).bind g.number? = some v := by
    intro v hv
    have hmem : g.name? v ∈ as.map some := hvs ▸ List.mem_map_of_mem hv
    obtain ⟨a, _, ha⟩ := List.mem_map.1 hmem
    rw [← ha, Option.bind_some, h.number?_of_name? ha.symm]
  calc as.map g.number? = (as.map some).map fun a => a.bind g.number? := by simp
    _ = vs.map fun v => (g.name? v).bind g.number? := by rw [← hvs, List.map_map]; rfl
    _ = vs.map some := List.map_congr_left back

namespace Denotes

private theorem successors_lt (h : g.Denotes ss) :
    ∀ heads ∈ g.successors, ∀ w ∈ heads, w < g.size := by
  intro heads hheads w hw
  obtain ⟨v, hv, rfl⟩ := Array.mem_iff_getElem.1 hheads
  have hv' : v < g.names.size := hv.trans_eq h.size_successors
  have same := h.successors v _ (Array.getElem?_eq_getElem hv')
  have row : g.graph.successors v = g.successors[v] := by simp [graph, hv]
  have hmem : g.name? w ∈ (g.graph.successors v).map g.name? := by
    rw [row]
    exact List.mem_map_of_mem hw
  rw [same] at hmem
  obtain ⟨a, _, ha⟩ := List.mem_map.1 hmem
  exact lt_size_of_name? ha.symm

private theorem declared_lt (h : g.Denotes ss) : ∀ v ∈ g.declared, v < g.size := by
  intro v hv
  have declared := h.declared
  rw [Option.mem_def.1 hv, Option.map_some] at declared
  obtain ⟨a, _, ha⟩ := Option.map_eq_some_iff.1 declared.symm
  exact lt_size_of_name? ha.symm

theorem unique (h : g.Denotes ss) (h' : g'.Denotes ss) : g = g' := by
  have names : g.names = g'.names := Array.toList_inj.1 (h.names_eq.trans h'.names_eq.symm)
  have name? : g.name? = g'.name? :=
    funext fun v => by rw [NamedGraph.name?, names, NamedGraph.name?]
  have number? : g.number? = g'.number? :=
    funext fun a => by rw [NamedGraph.number?, names, NamedGraph.number?]
  have same : ∀ {vs vs' : List Nat} {as : List String}, vs.map g.name? = as.map some →
      vs'.map g'.name? = as.map some → vs = vs' := by
    intro vs vs' as hvs hvs'
    have heq := (h.depicts.map_number? hvs).symm.trans
      (number? ▸ h'.depicts.map_number? hvs')
    exact List.map_injective_iff.2 (Option.some_injective _) heq
  have successors : g.successors = g'.successors := by
    have size := h.size_successors
    have size' := h'.size_successors
    rw [← names] at size'
    refine Array.ext (size.trans size'.symm) fun v hv hv' => ?_
    have hname : g.name? v = some g.names[v] := Array.getElem?_eq_getElem (hv.trans_eq size)
    have rows := same (h.successors v _ hname) (h'.successors v _ (name? ▸ hname))
    simpa [graph, hv, hv'] using rows
  have declared : g.declared = g'.declared := by
    have lists : g.declared.toList = g'.declared.toList := by
      have named : g.declared.toList.map g.name? =
          (ss.findSome? Statement.declared?).toList.map some := by
        rw [← Option.toList_map, h.declared, Option.toList_map]
      have named' : g'.declared.toList.map g'.name? =
          (ss.findSome? Statement.declared?).toList.map some := by
        rw [← Option.toList_map, h'.declared, Option.toList_map]
      exact same named named'
    simpa using congrArg List.head? lists
  cases g
  cases g'
  rw [NamedGraph.mk.injEq]
  exact ⟨names, successors, declared⟩

end Denotes

theorem wellFormed_of_parse {source : String} (ok : parse source = .ok g) : g.WellFormed := by
  have denotes := denotes_of_parse ok
  refine ⟨denotes.nodup_names, fun a ha => ?_, denotes.size_successors, denotes.successors_lt,
    denotes.declared_lt⟩
  obtain ⟨_, _, accepted⟩ | ⟨_, failed, _⟩ := parse_spec source
  · rw [Statement.ofSource_eq] at denotes
    have said := Statement.forall₂_conveys accepted.good
    rw [← Array.mem_toList_iff, denotes.names_eq, Statement.flatMap_names said, List.mem_eraseDups,
      List.mem_flatMap] at ha
    obtain ⟨row, hrow, ha⟩ := ha
    have token := Row.mem_of_mem_vertices ha
    exact ⟨Text.isWord_of_mem_rows hrow token, Text.unmarked_of_mem_rows hrow token,
      (accepted.good row hrow).ne_arrow ha⟩
  · cases ok.symm.trans failed

end NamedGraph

end FlowGraph
