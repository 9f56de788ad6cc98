/-
# `MettEagle.Lib.BitSet` — words as sets of bit positions

A bitmap is a machine word used as a set: `bits x` are the positions at which
`x` has a one.  Each operation programs use on bitmaps becomes the operation on
sets it stands for, and equality of words is equality of sets:

    x ||| y          union
    x &&& ~~~y       difference
    1 <<< i          singleton
    0                the empty set
    ffs x            one more than the least element, 0 if there is none
-/
import Mathlib.Data.Finset.Card
import Mathlib.Data.Finset.Range

namespace MettEagle

variable {w : ℕ}

/-- The positions of the ones. -/
def bits (x : BitVec w) : Finset ℕ := (Finset.range w).filter fun i => x.getLsbD i = true

theorem mem_bits {x : BitVec w} {i : ℕ} : i ∈ bits x ↔ x.getLsbD i = true := by
  simp only [bits, Finset.mem_filter, Finset.mem_range, and_iff_right_iff_imp]
  exact BitVec.lt_of_getLsbD

theorem lt_of_mem_bits {x : BitVec w} {i : ℕ} (h : i ∈ bits x) : i < w :=
  BitVec.lt_of_getLsbD (mem_bits.mp h)

theorem bits_injective {x y : BitVec w} (h : bits x = bits y) : x = y := by
  refine BitVec.eq_of_getLsbD_eq fun i _ => ?_
  have hi : i ∈ bits x ↔ i ∈ bits y := by rw [h]
  rw [mem_bits, mem_bits] at hi
  exact Bool.eq_iff_iff.mpr hi

@[simp] theorem bits_zero : bits (0 : BitVec w) = ∅ := by
  ext i
  simp [mem_bits]

theorem bits_eq_empty {x : BitVec w} : bits x = ∅ ↔ x = 0 :=
  ⟨fun h => bits_injective (h.trans bits_zero.symm), fun h => h ▸ bits_zero⟩

theorem bits_nonempty {x : BitVec w} : (bits x).Nonempty ↔ x ≠ 0 := by
  rw [Finset.nonempty_iff_ne_empty, Ne, bits_eq_empty]

@[simp] theorem bits_or (x y : BitVec w) : bits (x ||| y) = bits x ∪ bits y := by
  ext i
  simp [mem_bits]

@[simp] theorem bits_and_not (x y : BitVec w) : bits (x &&& ~~~y) = bits x \ bits y := by
  ext i
  simp only [mem_bits, Finset.mem_sdiff, BitVec.getLsbD_and, BitVec.getLsbD_not, Bool.and_eq_true,
    Bool.not_eq_true', decide_eq_true_eq]
  constructor
  · rintro ⟨hx, _, hy⟩
    exact ⟨hx, by simp [hy]⟩
  · rintro ⟨hx, hy⟩
    exact ⟨hx, BitVec.lt_of_getLsbD hx, by simpa using hy⟩

/-- The word with a single one. -/
def oneAt (w i : ℕ) : BitVec w := 1#w <<< i

theorem bits_oneAt {i : ℕ} (h : i < w) : bits (oneAt w i) = {i} := by
  ext j
  simp only [mem_bits, Finset.mem_singleton, oneAt, BitVec.getLsbD_shiftLeft, BitVec.getLsbD_one,
    Bool.and_eq_true, Bool.not_eq_true', decide_eq_true_eq, decide_eq_false_iff_not]
  omega

/-- `ffs`: one more than the position of the lowest one, 0 if there is none. -/
def ffs (x : BitVec w) : ℕ :=
  match (List.range w).find? fun i => x.getLsbD i with
  | some i => i + 1
  | none => 0

/-- The lowest one of a word that has one. -/
theorem ffs_spec {x : BitVec w} (h : x ≠ 0) :
    ∃ i, ffs x = i + 1 ∧ i ∈ bits x ∧ ∀ j ∈ bits x, i ≤ j := by
  cases hf : (List.range w).find? fun i => x.getLsbD i with
  | none =>
      obtain ⟨i, hi⟩ := bits_nonempty.mpr h
      have hnone := List.find?_eq_none.mp hf i (List.mem_range.mpr (lt_of_mem_bits hi))
      exact absurd (mem_bits.mp hi) hnone
  | some i =>
      obtain ⟨hi, _, hmin⟩ := List.find?_range_eq_some.mp hf
      refine ⟨i, by simp only [ffs, hf], mem_bits.mpr hi, fun j hj => ?_⟩
      by_contra hlt
      have hj' := hmin j (by omega)
      rw [mem_bits.mp hj] at hj'
      cases hj'

end MettEagle
