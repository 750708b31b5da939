import FlowGraph.Proofs.Graph.Dominance
import FlowGraph.Proofs.Source.RoundTrip
/-!
Chains. The vertices of a chain are the numbers up to its length, and an edge leads from each to the
next. The text of a chain can be read, and each of its vertices is dominated by all that come before
it, so that a vertex has as many proper dominators as there are edges before it.
-/

set_option autoImplicit false

namespace FlowGraph

section Numerals

variable {n : Nat} {c : Char}

private theorem repr_injective : Function.Injective Nat.repr := by
  intro i j same
  have digits : Nat.toDigits 10 i = Nat.toDigits 10 j := by
    rw [← Nat.toList_repr, ← Nat.toList_repr, same]
  calc i = Nat.ofDigitChars 10 (Nat.toDigits 10 i) 0 := Nat.ofDigitChars_ten_toDigits.symm
    _ = Nat.ofDigitChars 10 (Nat.toDigits 10 j) 0 := by rw [digits]
    _ = j := Nat.ofDigitChars_ten_toDigits

private theorem isDigit_of_mem_repr (h : c ∈ n.repr.toList) : c.isDigit = true := by
  rw [Nat.toList_repr] at h
  exact Nat.isDigit_of_mem_toDigits (by decide) (by decide) h

private theorem isBlank_of_isDigit (h : c.isDigit = true) : Text.isBlank c = false := by
  have bounds : 48 ≤ c.toNat ∧ c.toNat ≤ 57 := by
    simpa [Char.isDigit, UInt32.le_iff_toNat_le] using h
  simp only [Text.isBlank, Bool.or_eq_false_iff, Bool.and_eq_false_iff, decide_eq_false_iff_not,
    beq_eq_false_iff_ne]
  omega

private theorem isName_repr (n : Nat) : IsName n.repr where
  ne_empty := Nat.repr_ne_empty
  solid _ hc := isBlank_of_isDigit (isDigit_of_mem_repr hc)
  unmarked h := by
    cases isDigit_of_mem_repr h
  ne_arrow h := by
    have dash : '-' ∈ n.repr.toList := by
      rw [h]
      decide
    cases isDigit_of_mem_repr dash

end Numerals

namespace Statement

def chainEdges (n : Nat) : List Statement :=
  (List.range n).map fun i => .edges i.repr [(i + 1).repr]

/-- The source text of a chain, a line for each edge. -/
def chainText (n : Nat) : String :=
  String.join ((chainEdges n).map fun s => String.intercalate " " s.tokens ++ "\n")

/-- What the lines of the text say. The last line, which no line feed ends, is empty. -/
def chain (n : Nat) : List Statement := chainEdges n ++ [blank]

variable {n i j k : Nat} {a b : String} {s : Statement}

private theorem mem_chain :
    s ∈ chain n ↔ (∃ i < n, s = .edges i.repr [(i + 1).repr]) ∨ s = .blank := by
  simp [chain, chainEdges, eq_comm]

private theorem isName_of_mem_chain (hs : s ∈ chain n) (ha : a ∈ s.names) : IsName a := by
  obtain ⟨i, _, rfl⟩ | rfl := mem_chain.1 hs
  · simp only [names, List.mem_cons, List.not_mem_nil, or_false] at ha
    rcases ha with rfl | rfl
    · exact isName_repr i
    · exact isName_repr (i + 1)
  · cases ha

private theorem writable_of_mem_chain (hs : s ∈ chain n) : s.Writable :=
  fun _ ha => (isName_of_mem_chain hs ha).ne_arrow

private theorem declared?_of_mem_chain (hs : s ∈ chain n) : s.declared? = none := by
  obtain ⟨i, _, rfl⟩ | rfl := mem_chain.1 hs <;> rfl

private theorem rows_chainText (n : Nat) : Text.rows (chainText n) = (chain n).map tokens := by
  have plain : ∀ row ∈ (chainEdges n).map tokens, ∀ w ∈ row, Text.IsWord w ∧ '#' ∉ w.toList := by
    intro row hrow w hw
    obtain ⟨s, hs, rfl⟩ := List.mem_map.1 hrow
    have hs : s ∈ chain n := List.mem_append_left [blank] hs
    exact plain_of_mem_tokens (fun _ ha => isName_of_mem_chain hs ha) hw
  have lines := Text.rows_join plain
  rw [List.map_map] at lines
  rw [chain, List.map_append]
  exact lines

theorem ofSource_chainText (n : Nat) : ofSource (chainText n) = chain n := by
  rw [ofSource_eq, rows_chainText, ofRows_map_tokens fun _ hs => writable_of_mem_chain hs]

theorem exists_parse_chainText (n : Nat) : ∃ G, NamedGraph.parse (chainText n) = .ok G := by
  have accepted : Accepted (Text.rows (chainText n)) := by
    rw [rows_chainText]
    refine accepted_map_tokens (fun _ hs => writable_of_mem_chain hs) ?_
    exact List.pairwise_of_forall_mem_list fun s hs _ _ => .inl (declared?_of_mem_chain hs)
  obtain ⟨G, parsed, _⟩ | ⟨e, _, first, _⟩ := NamedGraph.parse_spec (chainText n)
  · exact ⟨G, parsed⟩
  · exact absurd first.1 (accepted.not_offends e.line)

theorem entry?_chain (pos : 0 < n) : entry? (chain n) = some (0).repr := by
  have silent : (chain n).findSome? declared? = none :=
    List.findSome?_eq_none_iff.2 fun _ hs => declared?_of_mem_chain hs
  obtain ⟨m, rfl⟩ := Nat.exists_eq_succ_of_ne_zero pos.ne'
  rw [Statement.entry?, silent, Option.none_or, chain, chainEdges, List.range_succ_eq_map]
  rfl

private theorem mem_successors_chain :
    b ∈ (graph (chain n)).successors a ↔ ∃ i < n, a = i.repr ∧ b = (i + 1).repr := by
  simp only [graph, List.mem_flatMap, mem_chain]
  constructor
  · rintro ⟨s, ⟨i, hi, rfl⟩ | rfl, hb⟩
    · unfold headsFrom at hb
      dsimp only at hb
      split at hb
      next htail => exact ⟨i, hi, htail.symm, List.mem_singleton.1 hb⟩
      next => cases hb
    · cases hb
  · rintro ⟨i, hi, rfl, rfl⟩
    exact ⟨_, .inl ⟨i, hi, rfl⟩, by simp [headsFrom]⟩

private theorem path_chain (h : i + k ≤ n) :
    (graph (chain n)).Path i.repr (i + k).repr ((List.range' i (k + 1)).map Nat.repr) := by
  induction k generalizing i with
  | zero => exact Graph.Path.single i.repr
  | succ k ih =>
    have edge : (i + 1).repr ∈ (graph (chain n)).successors i.repr :=
      mem_successors_chain.2 ⟨i, by omega, rfl, rfl⟩
    have hle : i + 1 + k ≤ n := by omega
    have rest := ih hle
    rw [Nat.add_right_comm] at rest
    exact Graph.Path.step edge rest

theorem path_chain_zero (h : k ≤ n) :
    (graph (chain n)).Path (0).repr k.repr ((List.range (k + 1)).map Nat.repr) := by
  have hle : 0 + k ≤ n := by omega
  have path := path_chain hle
  rwa [Nat.zero_add, ← List.range_eq_range'] at path

private theorem mem_of_path_chain {vs : List String}
    (path : (graph (chain n)).Path i.repr k.repr vs) (hij : i ≤ j) (hjk : j ≤ k) : j.repr ∈ vs := by
  generalize hstart : i.repr = a at path
  generalize hend : k.repr = b at path
  induction path generalizing i with
  | single v =>
    have hik : i = k := repr_injective (hstart.trans hend.symm)
    have hji : j = i := by omega
    rw [hji, hstart]
    exact List.mem_cons_self
  | step edge _ ih =>
    obtain ⟨i', _, htail, hhead⟩ := mem_successors_chain.1 edge
    obtain rfl : i = i' := repr_injective (hstart.trans htail)
    by_cases hji : j = i
    · rw [hji, hstart]
      exact List.mem_cons_self
    · have hlt : i + 1 ≤ j := by omega
      exact List.mem_cons_of_mem _ (ih hlt hhead.symm hend)

theorem dominanceDepth_chain (h : k ≤ n) :
    (graph (chain n)).dominanceDepth (0).repr k.repr = k := by
  have members : {a | a ≠ k.repr ∧ (graph (chain n)).Dominates (0).repr a k.repr} =
      Nat.repr '' {j | j < k} := by
    ext a
    constructor
    · rintro ⟨hne, dom⟩
      obtain ⟨j, hj, rfl⟩ := List.mem_map.1 (dom _ (path_chain_zero h))
      have hle : j ≤ k := Nat.lt_succ_iff.1 (List.mem_range.1 hj)
      have hjk : j ≠ k := fun heq => hne (congrArg Nat.repr heq)
      exact ⟨j, lt_of_le_of_ne hle hjk, rfl⟩
    · rintro ⟨j, hj, rfl⟩
      have hlt : j < k := hj
      refine ⟨fun same => hlt.ne (repr_injective same), fun vs path => ?_⟩
      exact mem_of_path_chain path (Nat.zero_le j) hlt.le
  have count : {j | j < k}.encard = k := Set.Nat.encard_range k
  rw [Graph.dominanceDepth, members, Set.ncard_image_of_injective _ repr_injective]
  exact congrArg ENat.toNat count

end Statement

end FlowGraph
