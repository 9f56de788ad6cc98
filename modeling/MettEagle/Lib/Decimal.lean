/-
# `MettEagle.Lib.Decimal` — decimal numbers as bytes

The digits of a number are written from the front, and read back until the first byte that
is none:

    digits n          the digits of `n`
    padded k n        the same with zeros in front, up to `k` digits
    readDigits s      the digits in front of `s`, and what they stand for

Whatever stands behind the digits, as long as it does not begin with another one, reading
takes exactly the digits (`readDigits_digits_append`).
-/
import Mathlib.Data.List.TakeWhile

namespace MettEagle.Decimal

/-- The byte of an ASCII character. -/
def byte (c : Char) : UInt8 := UInt8.ofNat c.toNat

def digits (n : ℕ) : List UInt8 := (Nat.toDigits 10 n).map byte

def isDigit (c : UInt8) : Bool := 48 ≤ c && c ≤ 57

def value (s : List UInt8) : ℕ := s.foldl (fun n c => 10 * n + (c.toNat - 48)) 0

/-- The number in front of `s`, and the rest. -/
def readDigits (s : List UInt8) : ℕ × List UInt8 :=
  (value (s.takeWhile isDigit), s.dropWhile isDigit)

theorem toNat_byte {c : Char} (h : c.isDigit = true) : (byte c).toNat = c.toNat := by
  have hle : c.toNat ≤ 57 := (Char.isDigit_iff_toNat.mp h).2
  rw [byte, UInt8.toNat_ofNat']
  omega

theorem isDigit_byte {c : Char} (h : c.isDigit = true) : isDigit (byte c) = true := by
  obtain ⟨hge, hle⟩ := Char.isDigit_iff_toNat.mp h
  have hbyte := toNat_byte h
  simp only [isDigit, Bool.and_eq_true, decide_eq_true_eq, UInt8.le_iff_toNat_le, hbyte]
  exact ⟨hge, hle⟩

theorem ne_of_isDigit {c d : UInt8} (hc : isDigit c = true) (hd : isDigit d = false) : c ≠ d := by
  rintro rfl
  rw [hc] at hd
  cases hd

theorem isDigit_of_mem_digits {n : ℕ} {c : UInt8} (h : c ∈ digits n) : isDigit c = true := by
  obtain ⟨d, hd, rfl⟩ := List.mem_map.mp h
  exact isDigit_byte (Nat.isDigit_of_mem_toDigits (by decide) (by decide) hd)

theorem digits_ne_nil (n : ℕ) : digits n ≠ [] := by
  intro h
  exact Nat.toDigits_ne_nil (List.map_eq_nil_iff.mp h)

/-- A number begins with a digit. -/
theorem digits_cons (n : ℕ) : ∃ c s, digits n = c :: s ∧ isDigit c = true := by
  cases h : digits n with
  | nil => exact absurd h (digits_ne_nil n)
  | cons c s => exact ⟨c, s, rfl, isDigit_of_mem_digits (h ▸ List.mem_cons_self ..)⟩

theorem value_map_byte {l : List Char} (hl : ∀ c ∈ l, c.isDigit = true) :
    value (l.map byte) = Nat.ofDigitChars 10 l 0 := by
  rw [value, List.foldl_map, Nat.ofDigitChars_eq_foldl]
  generalize 0 = n
  induction l generalizing n with
  | nil => rfl
  | cons c l ih =>
      rw [List.foldl_cons, List.foldl_cons, toNat_byte (hl c (List.mem_cons_self ..))]
      exact ih (fun d hd => hl d (List.mem_cons_of_mem _ hd)) _

theorem value_digits (n : ℕ) : value (digits n) = n := by
  have hall : ∀ c ∈ Nat.toDigits 10 n, c.isDigit = true := fun c hc =>
    Nat.isDigit_of_mem_toDigits (by decide) (by decide) hc
  rw [digits, value_map_byte hall, Nat.ofDigitChars_ten_toDigits]

/-- Reading takes the digits and leaves the rest. -/
theorem readDigits_digits_append (n : ℕ) {s : List UInt8} (hs : ∀ c ∈ s.head?, isDigit c = false) :
    readDigits (digits n ++ s) = (n, s) := by
  have hall : ∀ c ∈ digits n, isDigit c = true := fun c hc => isDigit_of_mem_digits hc
  have htake : s.takeWhile isDigit = [] := by
    cases s with
    | nil => rfl
    | cons c s => rw [List.takeWhile_cons, hs c rfl]; rfl
  have hdrop : s.dropWhile isDigit = s := by
    cases s with
    | nil => rfl
    | cons c s => rw [List.dropWhile_cons, hs c rfl]; rfl
  rw [readDigits, List.takeWhile_append_of_pos hall, List.dropWhile_append_of_pos hall, htake, hdrop,
    List.append_nil, value_digits]

/-- With leading zeros. -/
def padded (k n : ℕ) : List UInt8 := List.replicate (k - (digits n).length) 48 ++ digits n

theorem value_padded (k n : ℕ) : value (padded k n) = n := by
  have hzeros : ∀ j, (List.replicate j (48 : UInt8)).foldl (fun m c => 10 * m + (c.toNat - 48)) 0 = 0 := by
    intro j
    induction j with
    | zero => rfl
    | succ j ih => rw [List.replicate_succ, List.foldl_cons]; exact ih
  rw [value, padded, List.foldl_append, hzeros]
  exact value_digits n

theorem isDigit_of_mem_padded {k n : ℕ} {c : UInt8} (h : c ∈ padded k n) : isDigit c = true := by
  rcases List.mem_append.mp h with hz | hd
  · rw [List.eq_of_mem_replicate hz]
    rfl
  · exact isDigit_of_mem_digits hd

end MettEagle.Decimal
