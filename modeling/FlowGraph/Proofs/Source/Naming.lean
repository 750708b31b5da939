import FlowGraph.Proofs.Graph.Dominance
import FlowGraph.Proofs.Source.Denotation
import Mathlib.Data.List.FinRange
/-!
The graph on numbers and the graph on names. The numbers that names have are a part of both, so
that paths, and all that paths decide, are the same by number and by name.
-/

set_option autoImplicit false

namespace FlowGraph

namespace NamedGraph

variable {g : NamedGraph} {names names' : Graph String} {ss : List Statement} {u v w : Nat}
  {a b c : String}

def inner (g : NamedGraph) : Graph (Fin g.names.size) where
  successors v := (List.finRange g.names.size).filter fun w => w.val ∈ g.graph.successors v.val

def nameOf (g : NamedGraph) (i : Fin g.names.size) : String := g.names[i]

private theorem name?_val (g : NamedGraph) (i : Fin g.names.size) :
    g.name? i.val = some (g.nameOf i) :=
  Array.getElem?_eq_getElem i.isLt

private theorem exists_fin (h : g.name? v = some a) :
    ∃ i : Fin g.names.size, i.val = v ∧ g.nameOf i = a := by
  obtain ⟨hlt, heq⟩ := Array.getElem?_eq_some_iff.1 h
  exact ⟨⟨v, hlt⟩, rfl, heq⟩

private theorem mem_successors_inner {i j : Fin g.names.size} :
    j ∈ g.inner.successors i ↔ j.val ∈ g.graph.successors i.val := by
  simp [inner]

/-- A graph on numbers has the edges of a graph on names: each name has one number, and the edges
out of these numbers lead to the numbers of the successors. -/
structure Depicts (g : NamedGraph) (names : Graph String) : Prop where
  embeds_numbers : Graph.Embeds g.inner g.graph Fin.val
  embeds_names : Graph.Embeds g.inner names g.nameOf

theorem Depicts.congr (h : g.Depicts names)
    (same : ∀ a b, b ∈ names.successors a ↔ b ∈ names'.successors a) : g.Depicts names' where
  embeds_numbers := h.embeds_numbers
  embeds_names :=
    { injective := h.embeds_names.injective
      mem_successors := fun i b => (same _ b).symm.trans (h.embeds_names.mem_successors i b) }

theorem Denotes.depicts (h : g.Denotes ss) : g.Depicts (Statement.graph ss) where
  embeds_numbers := by
    refine ⟨Fin.val_injective, fun i w => ⟨fun hw => ?_, ?_⟩⟩
    · have hmem : g.name? w ∈ (g.graph.successors i.val).map g.name? := List.mem_map_of_mem hw
      rw [h.successors _ _ (g.name?_val i)] at hmem
      obtain ⟨b, _, hb⟩ := List.mem_map.1 hmem
      obtain ⟨j, rfl, _⟩ := exists_fin hb.symm
      exact ⟨j, mem_successors_inner.2 hw, rfl⟩
    · rintro ⟨j, hj, rfl⟩
      exact mem_successors_inner.1 hj
  embeds_names := by
    refine ⟨fun i j hij => ?_, fun i b => ?_⟩
    · have hi := g.name?_val i
      rw [hij] at hi
      exact Fin.ext (name?_injective h.nodup_names hi (g.name?_val j))
    rw [← List.mem_map_of_injective (Option.some_injective _), ← h.successors _ _ (g.name?_val i),
      List.mem_map]
    constructor
    · rintro ⟨w, hw, hb⟩
      obtain ⟨j, rfl, hj⟩ := exists_fin hb
      exact ⟨j, mem_successors_inner.2 hw, hj⟩
    · rintro ⟨j, hj, rfl⟩
      exact ⟨j.val, mem_successors_inner.1 hj, g.name?_val j⟩

namespace Depicts

theorem name?_injective (h : g.Depicts names) (hv : g.name? v = some a)
    (hw : g.name? w = some a) : v = w := by
  obtain ⟨i, rfl, rfl⟩ := exists_fin hv
  obtain ⟨j, rfl, hj⟩ := exists_fin hw
  exact congrArg Fin.val (h.embeds_names.injective hj.symm)

theorem number?_of_name? (h : g.Depicts names) (hv : g.name? v = some a) :
    g.number? a = some v := by
  cases hnumber : g.number? a with
  | none => exact absurd (mem_names_of_name? hv) (number?_eq_none_iff.1 hnumber)
  | some w => rw [h.name?_injective (name?_of_number? hnumber) hv]

theorem reachable_iff (h : g.Depicts names) (hu : g.name? u = some a) :
    names.Reachable a b ↔ ∃ v, g.graph.Reachable u v ∧ g.name? v = some b := by
  obtain ⟨i, rfl, rfl⟩ := exists_fin hu
  rw [h.embeds_names.reachable_iff]
  constructor
  · rintro ⟨j, hj, rfl⟩
    exact ⟨j.val, h.embeds_numbers.reachable_iff.2 ⟨j, hj, rfl⟩, g.name?_val j⟩
  · rintro ⟨v, hv, hb⟩
    obtain ⟨j, hj, rfl⟩ := h.embeds_numbers.reachable_iff.1 hv
    exact ⟨j, hj, Option.some.inj ((g.name?_val j).symm.trans hb)⟩

theorem exists_name_of_reachable (h : g.Depicts names) (hu : g.name? u = some a)
    (hv : g.graph.Reachable u v) : ∃ b, g.name? v = some b := by
  obtain ⟨i, rfl, rfl⟩ := exists_fin hu
  obtain ⟨j, _, rfl⟩ := h.embeds_numbers.reachable_iff.1 hv
  exact ⟨_, g.name?_val j⟩

theorem encard_reachable_le (h : g.Depicts names) (hu : g.name? u = some a) :
    {v | g.graph.Reachable u v}.encard ≤ g.size := by
  obtain ⟨i, rfl, _⟩ := exists_fin hu
  exact h.embeds_numbers.encard_reachable_le i

theorem dominates_iff (h : g.Depicts names) (hu : g.name? u = some a) (hv : g.name? v = some b)
    (hw : g.name? w = some c) : names.Dominates a b c ↔ g.graph.Dominates u v w := by
  obtain ⟨i, rfl, rfl⟩ := exists_fin hu
  obtain ⟨j, rfl, rfl⟩ := exists_fin hv
  obtain ⟨k, rfl, rfl⟩ := exists_fin hw
  rw [h.embeds_names.dominates_iff, h.embeds_numbers.dominates_iff]

theorem immediatelyDominates (h : g.Depicts names) (hu : g.name? u = some a)
    (hv : g.name? v = some b) (hw : g.name? w = some c) (reach : g.graph.Reachable u w)
    (idom : g.graph.ImmediatelyDominates u v w) : names.ImmediatelyDominates a b c := by
  obtain ⟨i, rfl, rfl⟩ := exists_fin hu
  obtain ⟨j, rfl, rfl⟩ := exists_fin hv
  obtain ⟨k, rfl, rfl⟩ := exists_fin hw
  obtain ⟨k', inside, hk⟩ := h.embeds_numbers.reachable_iff.1 reach
  obtain rfl := Fin.ext hk
  exact h.embeds_names.immediatelyDominates inside (h.embeds_numbers.of_immediatelyDominates idom)

end Depicts

theorem Denotes.exists_entry (h : g.Denotes ss) (hentry : Statement.entry? ss = some a) :
    ∃ v, g.entry? = some v ∧ g.name? v = some a := by
  have declared := h.declared
  unfold NamedGraph.entry?
  cases hdeclared : g.declared with
  | some v =>
    rw [hdeclared, Option.map_some, eq_comm, Option.map_eq_some_iff] at declared
    obtain ⟨b, hb, name⟩ := declared
    rw [Statement.entry?, hb, Option.some_or] at hentry
    obtain rfl := Option.some.inj hentry
    exact ⟨v, rfl, name.symm⟩
  | none =>
    rw [hdeclared, Option.map_none, eq_comm, Option.map_eq_none_iff] at declared
    rw [Statement.entry?, declared, Option.none_or] at hentry
    obtain ⟨rest, hrest⟩ := List.head?_eq_some_iff.1 hentry
    have names := h.names_eq
    rw [hrest, List.eraseDups_cons] at names
    have first : g.name? 0 = some a := by
      rw [name?, ← Array.getElem?_toList, names]
      rfl
    have nonempty : g.isEmpty = false := by
      have pos := (Array.getElem?_eq_some_iff.1 first).1
      exact Array.isEmpty_eq_false_iff.2 (Array.ne_empty_of_size_pos pos)
    exact ⟨0, by simp [nonempty], first⟩

theorem Denotes.entry?_eq (h : g.Denotes ss) (hv : g.entry? = some v) (ha : g.name? v = some a) :
    Statement.entry? ss = some a := by
  cases hentry : Statement.entry? ss with
  | some b =>
    obtain ⟨w, hw, hb⟩ := h.exists_entry hentry
    obtain rfl := Option.some.inj (hv.symm.trans hw)
    exact hb.symm.trans ha
  | none =>
    obtain ⟨_, nameless⟩ := Option.or_eq_none_iff.1 hentry
    have names := h.names_eq
    rw [List.head?_eq_none_iff.1 nameless] at names
    have mem := mem_names_of_name? ha
    rw [names] at mem
    exact absurd mem List.not_mem_nil

end NamedGraph

end FlowGraph
