/-
# `MettEagle.Lib.FlagCount` — a flag and a count in one word

The top bit of a word is a flag, the bits below it are a count.  `flagged w k` is
the word with the flag set and the count `k`; as long as the count stays below the
flag, the operations on the word are those on the count:

    flagged w k &&& ~~~flag w       k
    flagged w k ||| flag w          flagged w k
    flagged w k + 1                 flagged w (k + 1)
    flagged w (k + 1) - 1           flagged w k

There is room for the counts up to `2 ^ (w - 1) - 1`; one more and the word is 0.
-/
import Mathlib.Data.Nat.Basic
import Mathlib.Tactic.Ring

namespace MettEagle

/-- The word with the top bit alone. -/
def flag (w : ℕ) : BitVec w := 1#w <<< (w - 1)

/-- The flag with a count below it. -/
def flagged (w k : ℕ) : BitVec w := flag w + BitVec.ofNat w k

variable {w k : ℕ}

theorem flagged_zero : flagged w 0 = flag w := BitVec.add_zero _

theorem flagged_succ : flagged w k + 1 = flagged w (k + 1) := by
  have hsucc : BitVec.ofNat w (k + 1) = BitVec.ofNat w k + 1 := BitVec.ofNat_add k 1
  rw [flagged, flagged, hsucc, BitVec.add_assoc]

theorem flagged_sub_one : flagged w (k + 1) - 1 = flagged w k := by
  rw [← flagged_succ, BitVec.add_sub_cancel]

theorem getLsbD_flag (hw : 0 < w) (i : ℕ) : (flag w).getLsbD i = decide (i = w - 1) := by
  simp only [flag, BitVec.getLsbD_shiftLeft, BitVec.getLsbD_one]
  by_cases hi : i = w - 1
  · simp [hi, hw]
  · have hne : ¬(¬i < w - 1 ∧ i - (w - 1) = 0 ∧ i < w) := by omega
    simp only [hi, decide_false]
    grind

theorem getLsbD_ofNat_of_lt (hk : k < 2 ^ (w - 1)) {i : ℕ} (hi : w - 1 ≤ i) :
    (BitVec.ofNat w k).getLsbD i = false := by
  have hpow : 2 ^ (w - 1) ≤ 2 ^ i := Nat.pow_le_pow_right (by decide) hi
  rw [BitVec.getLsbD_ofNat, Nat.testBit_lt_two_pow (by omega), Bool.and_false]

/-- A count below the flag does not touch it. -/
theorem flagged_eq_or (hw : 0 < w) (hk : k < 2 ^ (w - 1)) :
    flagged w k = flag w ||| BitVec.ofNat w k := by
  refine BitVec.add_eq_or_of_and_eq_zero _ _ (BitVec.eq_of_getLsbD_eq fun i _ => ?_)
  rw [BitVec.getLsbD_and, getLsbD_flag hw, BitVec.getLsbD_zero]
  by_cases hi : i = w - 1
  · rw [getLsbD_ofNat_of_lt hk hi.ge, Bool.and_false]
  · simp only [hi, decide_false, Bool.false_and]

theorem flagged_or_flag (hw : 0 < w) (hk : k < 2 ^ (w - 1)) :
    flagged w k ||| flag w = flagged w k := by
  rw [flagged_eq_or hw hk, BitVec.or_comm, ← BitVec.or_assoc, BitVec.or_self]

theorem flagged_and_not_flag (hw : 0 < w) (hk : k < 2 ^ (w - 1)) :
    flagged w k &&& ~~~flag w = BitVec.ofNat w k := by
  rw [flagged_eq_or hw hk]
  refine BitVec.eq_of_getLsbD_eq fun i hi => ?_
  simp only [BitVec.getLsbD_and, BitVec.getLsbD_or, BitVec.getLsbD_not, getLsbD_flag hw, hi]
  by_cases htop : i = w - 1
  · rw [getLsbD_ofNat_of_lt hk htop.ge]
    simp [htop]
  · simp [htop]

theorem flagged_ne_zero (hw : 0 < w) (hk : k < 2 ^ (w - 1)) : flagged w k ≠ 0 := by
  intro h
  have htop := congrArg (fun x => x.getLsbD (w - 1)) h
  simp [flagged_eq_or hw hk, getLsbD_flag hw] at htop

/-- The count of a word with the flag is one exactly if the word says so. -/
theorem flagged_count_eq_one (hw : 0 < w) (hk : k < 2 ^ (w - 1)) :
    flagged w k &&& ~~~flag w = 1 ↔ k = 1 := by
  have hpow : 2 ^ (w - 1) < 2 ^ w := Nat.pow_lt_pow_right (by decide) (by omega)
  rw [flagged_and_not_flag hw hk]
  constructor
  · intro h
    have hnat := congrArg BitVec.toNat h
    rw [BitVec.toNat_ofNat, Nat.mod_eq_of_lt (by omega)] at hnat
    simpa [hw] using hnat
  · rintro rfl
    rfl

/-- A word splits into flag and count. -/
theorem or_flag_eq (x : BitVec w) :
    x ||| flag w = flagged w (x &&& ~~~flag w).toNat := by
  have hand : flag w &&& (x &&& ~~~flag w) = 0 := by
    refine BitVec.eq_of_getLsbD_eq fun i hi => ?_
    simp only [BitVec.getLsbD_and, BitVec.getLsbD_not]
    cases (flag w).getLsbD i <;> simp
  rw [flagged, BitVec.ofNat_toNat, BitVec.setWidth_eq, BitVec.add_eq_or_of_and_eq_zero _ _ hand]
  refine BitVec.eq_of_getLsbD_eq fun i hi => ?_
  simp only [BitVec.getLsbD_and, BitVec.getLsbD_or, BitVec.getLsbD_not, hi, decide_true,
    Bool.true_and]
  cases (flag w).getLsbD i <;> simp

/-- A word with the flag is the flag and its count. -/
theorem eq_flagged (x : BitVec w) (h : x &&& flag w ≠ 0) :
    x = flagged w (x &&& ~~~flag w).toNat := by
  have hw : 0 < w := Nat.pos_of_ne_zero fun h0 => by
    subst h0
    exact h BitVec.of_length_zero
  have htop : x.getLsbD (w - 1) = true := by
    refine Bool.not_eq_false _ ▸ fun hfalse => h (BitVec.eq_of_getLsbD_eq fun i _ => ?_)
    have hand : (x &&& flag w).getLsbD i = false := by
      rw [BitVec.getLsbD_and, getLsbD_flag hw]
      by_cases hi : i = w - 1
      · rw [hi, hfalse, Bool.false_and]
      · rw [decide_eq_false hi, Bool.and_false]
    exact hand.trans BitVec.getLsbD_zero.symm
  rw [← or_flag_eq]
  refine BitVec.eq_of_getLsbD_eq fun i _ => ?_
  rw [BitVec.getLsbD_or, getLsbD_flag hw]
  by_cases hi : i = w - 1
  · rw [hi, htop, Bool.true_or]
  · rw [decide_eq_false hi, Bool.or_false]

theorem flag_ne_zero (hw : 0 < w) : flag w ≠ 0 := by
  rw [← flagged_zero]
  exact flagged_ne_zero hw (Nat.two_pow_pos _)

theorem flagged_and_flag (hw : 0 < w) (hk : k < 2 ^ (w - 1)) : flagged w k &&& flag w = flag w := by
  rw [flagged_eq_or hw hk]
  refine BitVec.eq_of_getLsbD_eq fun i _ => ?_
  simp only [BitVec.getLsbD_and, BitVec.getLsbD_or]
  cases (flag w).getLsbD i <;> simp

/-- A count is below the flag. -/
theorem toNat_count_lt (hw : 0 < w) (x : BitVec w) : (x &&& ~~~flag w).toNat < 2 ^ (w - 1) := by
  refine Nat.lt_pow_two_of_testBit _ fun i hi => ?_
  rw [BitVec.testBit_toNat]
  simp only [BitVec.getLsbD_and, BitVec.getLsbD_not, getLsbD_flag hw]
  by_cases hlt : i < w
  · have htop : i = w - 1 := by omega
    simp [htop]
  · simp [hlt]

theorem toNat_count (hw : 0 < w) (hk : k < 2 ^ (w - 1)) :
    (flagged w k &&& ~~~flag w).toNat = k := by
  have hpow : 2 ^ (w - 1) < 2 ^ w := Nat.pow_lt_pow_right (by decide) (by omega)
  rw [flagged_and_not_flag hw hk, BitVec.toNat_ofNat, Nat.mod_eq_of_lt (by omega)]

/-- A reference fits. -/
theorem lt_of_room (h : k + 1 ≤ 2 ^ (w - 1) - 1) : 0 < w ∧ k + 1 < 2 ^ (w - 1) := by
  refine ⟨Nat.pos_of_ne_zero fun hw => ?_, by omega⟩
  subst hw
  simp at h

end MettEagle
