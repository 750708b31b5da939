/-!
Sets of small indexes, one bit each in 64-bit words. Membership is characterised by `contains`
after an insertion, and a set has no zero word at its end, so equal words are equal sets.
-/

set_option autoImplicit false

namespace FlowGraph

/-- A finite set of indexes. Index `i` is bit `i % 64` of word `i / 64`, the lowest bit first,
and there are as many words as the largest member needs. -/
structure BitSet where
  words : Array UInt64 := #[]
  back_ne_zero : words.back? ≠ some 0 := by simp
  deriving DecidableEq

namespace BitSet

def empty : BitSet := {}

instance : EmptyCollection BitSet := ⟨empty⟩

instance : Inhabited BitSet := ⟨empty⟩

/-- The word in which only the bit of an index is set. -/
def bit (i : Nat) : UInt64 := 1 <<< (i % 64).toUInt64

def contains (s : BitSet) (i : Nat) : Bool :=
  match s.words[i / 64]? with
  | some word => word &&& bit i != 0
  | none => false

theorem bit_ne_zero (i : Nat) : bit i ≠ 0 := by
  have h : ∀ k : Fin 64, (1 : UInt64) <<< k.val.toUInt64 ≠ 0 := by decide
  exact h ⟨i % 64, Nat.mod_lt i (by decide)⟩

/-- The words after setting the bit of an index, with zero words up to it where it lies beyond
the last. -/
def setBit (words : Array UInt64) (i : Nat) : Array UInt64 :=
  (words.rightpad (i / 64 + 1) 0).modify (i / 64) (· ||| bit i)

private theorem size_setBit (words : Array UInt64) (i : Nat) :
    (setBit words i).size = max words.size (i / 64 + 1) := by
  simp [setBit]
  omega

private theorem getElem?_setBit (words : Array UInt64) (i k : Nat) :
    (setBit words i)[k]? =
      if k = i / 64 then some (words[k]?.getD 0 ||| bit i)
      else if k < i / 64 then some (words[k]?.getD 0)
      else words[k]? := by
  simp only [setBit, Array.getElem?_modify, Array.rightpad, Array.getElem?_append,
    Array.getElem?_replicate]
  by_cases hk : k < words.size
  · by_cases h : i / 64 = k
    · simp [hk, h]
    · simp [hk, h, Ne.symm h]
  · by_cases h : i / 64 = k
    · subst h
      rw [if_neg hk, if_pos rfl, if_pos rfl, Array.getElem?_eq_none (by omega), if_pos (by omega)]
      rfl
    · rw [if_neg hk, if_neg h, if_neg (Ne.symm h), Array.getElem?_eq_none (by omega)]
      by_cases hlt : k < i / 64
      · rw [if_pos (by omega), if_pos hlt]
        rfl
      · rw [if_neg (by omega), if_neg hlt]

private theorem back_setBit (words : Array UInt64) (i : Nat) (h : words.back? ≠ some 0) :
    (setBit words i).back? ≠ some 0 := by
  rw [Array.back?_eq_getElem?, size_setBit, getElem?_setBit]
  by_cases hs : words.size ≤ i / 64 + 1
  · have hmax : max words.size (i / 64 + 1) - 1 = i / 64 := by omega
    rw [hmax, if_pos rfl]
    simp [bit_ne_zero]
  · have hmax : max words.size (i / 64 + 1) - 1 = words.size - 1 := by omega
    rw [hmax, if_neg (by omega), if_neg (by omega), ← Array.back?_eq_getElem?]
    exact h

def insert (s : BitSet) (i : Nat) : BitSet :=
  { words := setBit s.words i, back_ne_zero := back_setBit s.words i s.back_ne_zero }

/-- Inserts an index, and tells whether it was not yet a member. -/
def insertNew (s : BitSet) (i : Nat) : Bool × BitSet :=
  let present := s.contains i
  (!present, s.insert i)

@[simp] theorem contains_empty (i : Nat) : (∅ : BitSet).contains i = false := by
  simp [EmptyCollection.emptyCollection, empty, contains]

private theorem bit_and_bit (i j : Nat) :
    (bit i &&& bit j != 0) = decide (i % 64 = j % 64) := by
  have h : ∀ k l : Fin 64, ((1 : UInt64) <<< k.val.toUInt64 &&& 1 <<< l.val.toUInt64 != 0) =
      decide (k.val = l.val) := by decide +kernel
  exact h ⟨i % 64, Nat.mod_lt i (by decide)⟩ ⟨j % 64, Nat.mod_lt j (by decide)⟩

private theorem or_bit_and (w b c : UInt64) :
    ((w ||| b) &&& c != 0) = ((w &&& c != 0) || (b &&& c != 0)) := by
  have h : (w ||| b) &&& c = (w &&& c) ||| (b &&& c) := by
    rw [← UInt64.toBitVec_inj]
    ext n
    simp only [UInt64.toBitVec_and, UInt64.toBitVec_or, BitVec.getElem_and, BitVec.getElem_or]
    cases w.toBitVec[n] <;> cases b.toBitVec[n] <;> cases c.toBitVec[n] <;> rfl
  rw [h, Bool.eq_iff_iff]
  simp only [bne_iff_ne, ne_eq, UInt64.or_eq_zero_iff, Bool.or_eq_true]
  by_cases hw : w &&& c = 0 <;> simp [hw]

theorem contains_insert (s : BitSet) (i j : Nat) :
    (s.insert i).contains j = (i == j || s.contains j) := by
  simp only [contains, insert, getElem?_setBit]
  by_cases hword : j / 64 = i / 64
  · rw [if_pos hword]
    have hij : decide (i % 64 = j % 64) = (i == j) := by
      rw [Bool.eq_iff_iff]
      simp only [decide_eq_true_eq, beq_iff_eq]
      omega
    simp only [or_bit_and, bit_and_bit, hij]
    cases s.words[j / 64]? <;> simp [Bool.or_comm]
  · have hij : (i == j) = false := by
      rw [beq_eq_false_iff_ne]
      intro h
      exact hword (by rw [h])
    rw [if_neg hword, hij, Bool.false_or]
    split
    · rename_i w h
      split at h
      · rename_i hlt
        simp only [Option.some.injEq] at h
        subst h
        cases s.words[j / 64]? <;> simp
      · simp [h]
    · rename_i h
      split at h
      · simp at h
      · simp [h]

end BitSet

end FlowGraph
