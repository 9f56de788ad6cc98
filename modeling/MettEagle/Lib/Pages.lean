/-
# `MettEagle.Lib.Pages` — page arithmetic on machine words

A page is `2 ^ s` bytes; an address is a word of `w` bits, and the sums of
addresses a program computes are taken modulo `2 ^ w`.

    truncPage s x      the beginning of the page `x` lies on
    roundPage s x      the first page boundary at or above `x`

Truncation never wraps.  Rounding does, above the last page boundary, and what is
said about it has the bound as a hypothesis.
-/
import Mathlib.Data.Nat.Bitwise

namespace MettEagle

variable {w : ℕ} {s : ℕ}

/-- The bits of the in-page offset cleared. -/
def truncPage (s : ℕ) (x : BitVec w) : BitVec w := x &&& (BitVec.allOnes w <<< s)

/-- The same for the last word that is less than a page above. -/
def roundPage (s : ℕ) (x : BitVec w) : BitVec w := truncPage s (x + BitVec.ofNat w (2 ^ s - 1))

/-- A multiple of the page size. -/
def PageAligned (s : ℕ) (x : BitVec w) : Prop := 2 ^ s ∣ x.toNat

instance (s : ℕ) (x : BitVec w) : Decidable (PageAligned s x) :=
  inferInstanceAs (Decidable (2 ^ s ∣ x.toNat))

/-! ## Truncation -/

theorem truncPage_eq_shift (x : BitVec w) : truncPage s x = (x >>> s) <<< s := by
  refine BitVec.eq_of_getLsbD_eq fun i hi => ?_
  simp only [truncPage, BitVec.getLsbD_and, BitVec.getLsbD_shiftLeft, BitVec.getLsbD_allOnes,
    BitVec.getLsbD_ushiftRight]
  by_cases h : i < s
  · simp [h]
  · have hsub : i - s < w := by omega
    have hadd : s + (i - s) = i := by omega
    simp [h, hi, hsub, hadd]

/-- The beginning of the page, as a number. -/
theorem toNat_truncPage (x : BitVec w) : (truncPage s x).toNat = x.toNat / 2 ^ s * 2 ^ s := by
  have hle : x.toNat / 2 ^ s * 2 ^ s < 2 ^ w := (Nat.div_mul_le_self _ _).trans_lt x.isLt
  rw [truncPage_eq_shift, BitVec.toNat_shiftLeft, BitVec.toNat_ushiftRight, Nat.shiftLeft_eq,
    Nat.shiftRight_eq_div_pow, Nat.mod_eq_of_lt hle]

theorem truncPage_aligned (x : BitVec w) : PageAligned s (truncPage s x) :=
  ⟨x.toNat / 2 ^ s, by rw [toNat_truncPage, Nat.mul_comm]⟩

theorem truncPage_le (x : BitVec w) : (truncPage s x).toNat ≤ x.toNat := by
  rw [toNat_truncPage]
  exact Nat.div_mul_le_self _ _

theorem lt_truncPage_add (x : BitVec w) : x.toNat < (truncPage s x).toNat + 2 ^ s := by
  rw [toNat_truncPage]
  exact Nat.lt_div_mul_add (Nat.two_pow_pos s)

/-- Truncation does not go below a page boundary. -/
theorem PageAligned.le_truncPage {x y : BitVec w} (hx : PageAligned s x) (h : x.toNat ≤ y.toNat) :
    x.toNat ≤ (truncPage s y).toNat := by
  obtain ⟨q, hq⟩ := hx
  rw [hq, Nat.mul_comm] at h ⊢
  rw [toNat_truncPage]
  exact Nat.mul_le_mul_right _ ((Nat.le_div_iff_mul_le (Nat.two_pow_pos s)).mpr h)

/-- Only the words of the first page are truncated to zero. -/
theorem truncPage_ne_zero {x : BitVec w} (h : 2 ^ s ≤ x.toNat) : truncPage s x ≠ 0 := by
  intro h0
  have hlt := lt_truncPage_add (s := s) x
  have hzero : (0 : BitVec w).toNat = 0 := BitVec.toNat_zero
  rw [h0, hzero] at hlt
  omega

/-- The in-page offset. -/
theorem toNat_sub_truncPage (x : BitVec w) : (x - truncPage s x).toNat = x.toNat % 2 ^ s := by
  have hle : truncPage s x ≤ x := BitVec.le_def.mpr (truncPage_le x)
  have hdiv := Nat.div_add_mod x.toNat (2 ^ s)
  rw [BitVec.toNat_sub_of_le hle, toNat_truncPage, Nat.mul_comm]
  omega

/-- A page boundary is recovered from any word on its page. -/
theorem truncPage_of_aligned {x y : BitVec w} {r : ℕ} (hx : PageAligned s x) (hr : r < 2 ^ s)
    (hy : y.toNat = x.toNat + r) : truncPage s y = x := by
  obtain ⟨q, hq⟩ := hx
  refine BitVec.eq_of_toNat_eq ?_
  rw [toNat_truncPage, hy, hq, Nat.mul_add_div (Nat.two_pow_pos s), Nat.div_eq_of_lt hr,
    Nat.add_zero, Nat.mul_comm]

/-! ## Rounding -/

/-- Up to the last page boundary the sum that rounding computes does not wrap. -/
theorem toNat_add_page {x : BitVec w} (h : x.toNat + 2 ^ s ≤ 2 ^ w) :
    (x + BitVec.ofNat w (2 ^ s - 1)).toNat = x.toNat + (2 ^ s - 1) := by
  have hpos := Nat.two_pow_pos s
  have hlast : (BitVec.ofNat w (2 ^ s - 1)).toNat = 2 ^ s - 1 := by
    rw [BitVec.toNat_ofNat, Nat.mod_eq_of_lt (by omega)]
  rw [BitVec.toNat_add_of_lt (by omega), hlast]

theorem toNat_roundPage {x : BitVec w} (h : x.toNat + 2 ^ s ≤ 2 ^ w) :
    (roundPage s x).toNat = (x.toNat + (2 ^ s - 1)) / 2 ^ s * 2 ^ s := by
  rw [roundPage, toNat_truncPage, toNat_add_page h]

theorem roundPage_aligned (x : BitVec w) : PageAligned s (roundPage s x) :=
  truncPage_aligned _

/-- Rounding up leaves nothing out. -/
theorem le_roundPage {x : BitVec w} (h : x.toNat + 2 ^ s ≤ 2 ^ w) :
    x.toNat ≤ (roundPage s x).toNat := by
  have hpos := Nat.two_pow_pos s
  have hmod := Nat.mod_lt (x.toNat + (2 ^ s - 1)) hpos
  have hdiv := Nat.div_add_mod (x.toNat + (2 ^ s - 1)) (2 ^ s)
  rw [toNat_roundPage h, Nat.mul_comm]
  omega

end MettEagle
