import FlowGraph.Index.BitSet
import Mathlib.Data.List.OfFn
import Mathlib.Order.Basic
/-!
Sets of indexes in use. What a set contains is what was inserted, and as it has no more words than
its largest member needs, its words are determined by its members: the order of the insertions and
repeated ones leave no trace.
-/

set_option autoImplicit false

namespace FlowGraph.BitSet

variable {s t : BitSet}

section Words

def wordAt (s : BitSet) (k : Nat) : UInt64 := s.words[k]?.getD 0

private theorem toBitVec_bit (i : Nat) : (bit i).toBitVec = BitVec.twoPow 64 (i % 64) := by
  have small : ∀ k : Fin 64,
      ((1 : UInt64) <<< k.val.toUInt64).toBitVec = BitVec.twoPow 64 k.val := by decide
  exact small ⟨i % 64, Nat.mod_lt i (by decide)⟩

private theorem and_bit (w : UInt64) (i : Nat) :
    w &&& bit i = if w.toBitVec.getLsbD (i % 64) then bit i else 0 := by
  rw [← UInt64.toBitVec_inj, UInt64.toBitVec_and, toBitVec_bit, BitVec.and_twoPow]
  split
  · exact (toBitVec_bit i).symm
  · rfl

private theorem contains_eq_getLsbD (s : BitSet) (i : Nat) :
    s.contains i = (s.wordAt (i / 64)).toBitVec.getLsbD (i % 64) := by
  unfold contains wordAt
  cases s.words[i / 64]? with
  | none => simp
  | some w =>
    simp only [and_bit, Option.getD_some]
    cases w.toBitVec.getLsbD (i % 64) with
    | false => rfl
    | true => simpa using bit_ne_zero i

private theorem getLsbD_wordAt (s : BitSet) (k : Nat) {b : Nat} (hb : b < 64) :
    (s.wordAt k).toBitVec.getLsbD b = s.contains (64 * k + b) := by
  have word : (64 * k + b) / 64 = k := by omega
  have place : (64 * k + b) % 64 = b := by omega
  rw [contains_eq_getLsbD, word, place]

private theorem exists_contains_of_wordAt_ne_zero {k : Nat} (h : s.wordAt k ≠ 0) :
    ∃ i, s.contains i = true ∧ i / 64 = k := by
  by_contra absent
  refine h (UInt64.toBitVec_inj.1 (BitVec.eq_of_getLsbD_eq fun b hb => ?_))
  rw [getLsbD_wordAt s k hb, UInt64.toBitVec_zero, BitVec.getLsbD_zero, Bool.eq_false_iff]
  intro member
  exact absent ⟨64 * k + b, member, by omega⟩

private theorem lt_size_of_contains {i : Nat} (h : s.contains i = true) :
    i / 64 < s.words.size := by
  by_contra beyond
  rw [contains_eq_getLsbD, wordAt, Array.getElem?_eq_none (Nat.le_of_not_lt beyond)] at h
  simp at h

private theorem lt_size_words_iff (s : BitSet) (k : Nat) :
    k < s.words.size ↔ ∃ i, s.contains i = true ∧ k ≤ i / 64 := by
  constructor
  · intro hk
    have last : s.wordAt (s.words.size - 1) ≠ 0 := by
      have back := s.back_ne_zero
      rw [Array.back?_eq_getElem?, Array.getElem?_eq_getElem (by omega)] at back
      rw [wordAt, Array.getElem?_eq_getElem (by omega)]
      simpa using back
    obtain ⟨i, member, word⟩ := exists_contains_of_wordAt_ne_zero last
    exact ⟨i, member, by omega⟩
  · rintro ⟨i, member, hle⟩
    exact hle.trans_lt (lt_size_of_contains member)

private theorem canonical_words (s : BitSet) :
    s.words = #[] ∨ ∃ w, s.words.back? = some w ∧ w ≠ 0 := by
  cases back : s.words.back? with
  | none => exact .inl (Array.back?_eq_none_iff.1 back)
  | some w =>
    refine .inr ⟨w, rfl, ?_⟩
    rintro rfl
    exact s.back_ne_zero back

private theorem words_eq_of_contains_eq (h : ∀ i, s.contains i = t.contains i) :
    s.words = t.words := by
  have size : s.words.size = t.words.size := by
    refine eq_of_forall_lt_iff fun k => ?_
    simp only [lt_size_words_iff, h]
  refine Array.ext size fun k hs ht => ?_
  have word : s.wordAt k = t.wordAt k := by
    rw [← UInt64.toBitVec_inj]
    refine BitVec.eq_of_getLsbD_eq fun b hb => ?_
    rw [getLsbD_wordAt s k hb, getLsbD_wordAt t k hb, h]
  rwa [wordAt, wordAt, Array.getElem?_eq_getElem hs, Array.getElem?_eq_getElem ht] at word

private theorem words_eq_iff_contains_eq :
    s.words = t.words ↔ ∀ i, s.contains i = t.contains i := by
  refine ⟨?_, words_eq_of_contains_eq⟩
  intro words i
  rw [contains, contains, words]

private theorem eq_iff_words_eq : s = t ↔ s.words = t.words := by
  cases s
  cases t
  simp

end Words

section Insertions

/-- Inserts indexes one after the other, and tells of each whether it was not yet a member. -/
def insertAll (s : BitSet) : List Nat → List Bool × BitSet
  | [] => ([], s)
  | i :: is =>
    let (fresh, s) := s.insertNew i
    let (answers, s) := s.insertAll is
    (fresh :: answers, s)

variable {is js : List Nat}

private theorem insertNew_fst_iff (s : BitSet) (i : Nat) :
    (s.insertNew i).1 = true ↔ s.contains i = false := by
  simp [insertNew]

private theorem contains_insertNew_iff (s : BitSet) (i j : Nat) :
    (s.insertNew i).2.contains j = true ↔ j = i ∨ s.contains j = true := by
  rw [insertNew, contains_insert, Bool.or_eq_true, beq_iff_eq, eq_comm]

private theorem contains_insertAll_iff (s : BitSet) (is : List Nat) (j : Nat) :
    (s.insertAll is).2.contains j = true ↔ j ∈ is ∨ s.contains j = true := by
  induction is generalizing s with
  | nil => simp [insertAll]
  | cons i is ih =>
    change ((s.insertNew i).2.insertAll is).2.contains j = true ↔ _
    rw [ih, contains_insertNew_iff, List.mem_cons, or_left_comm, or_assoc]

private theorem insertAll_fst (s : BitSet) (is : List Nat) :
    (s.insertAll is).1 =
      List.ofFn fun k : Fin is.length => decide (is[k] ∉ is.take k ∧ s.contains is[k] = false) := by
  induction is generalizing s with
  | nil => rfl
  | cons i is ih =>
    change (s.insertNew i).1 :: ((s.insertNew i).2.insertAll is).1 = _
    rw [ih, List.ofFn_succ]
    congr 1
    · simp [insertNew]
    · refine List.ofFn_inj.2 (funext fun k => decide_eq_decide.2 ?_)
      simp only [Fin.getElem_fin, Fin.val_succ, List.getElem_cons_succ, List.take_succ_cons,
        List.mem_cons, ← Bool.not_eq_true, contains_insertNew_iff, not_or]
      exact and_left_comm.trans and_assoc.symm

/-- What is known of a set into which the indexes of a list were inserted, together with the
answers that were given meanwhile. -/
structure Collects (is : List Nat) (run : List Bool × BitSet) : Prop where
  answers : run.1 = List.ofFn fun k : Fin is.length => decide (is[k] ∉ is.take k)
  contains_iff : ∀ i, run.2.contains i = true ↔ i ∈ is
  fresh_iff : ∀ i, (run.2.insertNew i).1 = true ↔ i ∉ is
  contains_insertNew_iff : ∀ i j,
    (run.2.insertNew i).2.contains j = true ↔ j = i ∨ run.2.contains j = true
  canonical : run.2.words = #[] ∨ ∃ w, run.2.words.back? = some w ∧ w ≠ 0
  lt_size_iff : ∀ k, k < run.2.words.size ↔ ∃ i ∈ is, k ≤ i / 64

private theorem collects_insertAll (is : List Nat) : Collects is ((∅ : BitSet).insertAll is) := by
  have members : ∀ i, ((∅ : BitSet).insertAll is).2.contains i = true ↔ i ∈ is := by
    intro i
    simp [contains_insertAll_iff]
  refine ⟨?_, members, ?_, contains_insertNew_iff _, canonical_words _, ?_⟩
  · simp [insertAll_fst]
  · intro i
    rw [insertNew_fst_iff, ← members, Bool.not_eq_true]
  · intro k
    simp only [lt_size_words_iff, members]

/-- Sets that insertions made from the empty set are compared by their words, and are found equal
if and only if the same indexes were inserted, in whatever order and however often. -/
theorem equal_insertAll_iff (is js : List Nat) :
    Collects is ((∅ : BitSet).insertAll is) ∧ Collects js ((∅ : BitSet).insertAll js) ∧
      (((∅ : BitSet).insertAll is).2.words = ((∅ : BitSet).insertAll js).2.words ↔
        ∀ i, i ∈ is ↔ i ∈ js) ∧
      ((((∅ : BitSet).insertAll is).2 == ((∅ : BitSet).insertAll js).2) = true ↔
        ∀ i, i ∈ is ↔ i ∈ js) := by
  have left := collects_insertAll is
  have right := collects_insertAll js
  have words : ((∅ : BitSet).insertAll is).2.words = ((∅ : BitSet).insertAll js).2.words ↔
      ∀ i, i ∈ is ↔ i ∈ js := by
    simp only [words_eq_iff_contains_eq, Bool.eq_iff_iff, left.contains_iff, right.contains_iff]
  refine ⟨left, right, words, ?_⟩
  rw [beq_iff_eq, eq_iff_words_eq, words]

example : ((∅ : BitSet).insertAll [0, 64, 130, 64]).1 = [true, true, true, false] := by decide

end Insertions

end FlowGraph.BitSet
