/-!
Lists of indexes in increasing order without repetition. `ascending` has the members of its
argument, and increases strictly.
-/

set_option autoImplicit false

namespace FlowGraph

/-- A list with an index in front, unless it starts with that index already. -/
def consNew (i : Nat) (is : List Nat) : List Nat :=
  if is.head? = some i then is else i :: is

/-- The members of a list in increasing order, each once. -/
def ascending (is : List Nat) : List Nat := is.mergeSort.foldr consNew []

private theorem mem_consNew (i j : Nat) (is : List Nat) : j ∈ consNew i is ↔ j = i ∨ j ∈ is := by
  unfold consNew
  split
  · rename_i h
    constructor
    · exact Or.inr
    · rintro (rfl | hj)
      · exact List.mem_of_head? h
      · exact hj
  · exact List.mem_cons

private theorem mem_foldr_consNew (j : Nat) (is : List Nat) : j ∈ is.foldr consNew [] ↔ j ∈ is := by
  induction is with
  | nil => rfl
  | cons i is ih => rw [List.foldr_cons, mem_consNew, ih, List.mem_cons]

private theorem pairwise_foldr_consNew (is : List Nat) (h : is.Pairwise (· ≤ ·)) :
    (is.foldr consNew []).Pairwise (· < ·) := by
  induction is with
  | nil => exact List.Pairwise.nil
  | cons i is ih =>
    obtain ⟨hi, his⟩ := List.pairwise_cons.1 h
    rw [List.foldr_cons, consNew]
    split
    · exact ih his
    · rename_i hhead
      refine List.pairwise_cons.2 ⟨?_, ih his⟩
      intro j hj
      have hle : i ≤ j := hi j ((mem_foldr_consNew j is).1 hj)
      refine Nat.lt_of_le_of_ne hle ?_
      rintro rfl
      cases htail : is.foldr consNew [] with
      | nil => simp [htail] at hj
      | cons k ks =>
        rw [htail] at hj hhead
        have hk : i ≤ k := hi k ((mem_foldr_consNew k is).1 (htail ▸ List.mem_cons_self))
        have hks := List.pairwise_cons.1 (htail ▸ ih his)
        rcases List.mem_cons.1 hj with rfl | hmem
        · simp at hhead
        · exact absurd (hks.1 i hmem) (Nat.not_lt.2 hk)

theorem mem_ascending (j : Nat) (is : List Nat) : j ∈ ascending is ↔ j ∈ is := by
  rw [ascending, mem_foldr_consNew, List.mem_mergeSort]

theorem pairwise_ascending (is : List Nat) : (ascending is).Pairwise (· < ·) := by
  apply pairwise_foldr_consNew
  have h := @List.pairwise_mergeSort Nat (fun i j => decide (i ≤ j))
    (fun i j k => by simpa using Nat.le_trans) (fun i j => by simpa using Nat.le_total i j) is
  simpa using h

end FlowGraph
