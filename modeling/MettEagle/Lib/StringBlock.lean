/-
# `MettEagle.Lib.StringBlock` — NUL-terminated strings side by side in memory

A memory is a function from addresses to bytes.  A string block is a part of it
that holds strings one after the other, each ended by its NUL:

    StrAt m a s          the string at `a` is `s`
    StrBlock m a l b     the strings from `a` up to `b` are `l`
    Walk m a₀ a l        reading strings from `a` upwards, each one step of
                         `strlen + 1` above the one before, until the one at
                         `a₀` was read, gives `l`

A block grows downwards: a string stored directly below one becomes its first
(`StrBlock.push`), and nothing stored below a block changes it.  A walk from the
first string of a block to its last reads exactly the block (`StrBlock.walk_iff`).
-/
import Mathlib.Algebra.GroupWithZero.Nat
import Mathlib.Data.List.Basic
import Mathlib.Logic.Function.Basic

namespace MettEagle

/-- A byte-addressed memory. -/
abbrev ByteMem := ℕ → UInt8

/-- The memory with bytes stored from an address upwards. -/
def ByteMem.store (m : ByteMem) : ℕ → List UInt8 → ByteMem
  | _, [] => m
  | a, c :: s => Function.update (m.store (a + 1) s) a c

/-- Two memories agree from `a` up to `b`. -/
def ByteMem.Agree (m m' : ByteMem) (a b : ℕ) : Prop := ∀ i, a ≤ i → i < b → m i = m' i

/-- The string at `a`. -/
def StrAt (m : ByteMem) : ℕ → List UInt8 → Prop
  | a, [] => m a = 0
  | a, c :: s => c ≠ 0 ∧ m a = c ∧ StrAt m (a + 1) s

/-- The strings from `a` up to `b`. -/
def StrBlock (m : ByteMem) : ℕ → List (List UInt8) → ℕ → Prop
  | a, [], b => a = b
  | a, s :: l, b => StrAt m a s ∧ StrBlock m (a + (s.length + 1)) l b

/-- How many bytes the block of the strings has. -/
def blockSize (l : List (List UInt8)) : ℕ := (l.map fun s => s.length + 1).sum

/-- Reading upwards from `a`, up to and with the string at `a₀`. -/
inductive Walk (m : ByteMem) (a₀ : ℕ) : ℕ → List (List UInt8) → Prop
  | last {s : List UInt8} : StrAt m a₀ s → Walk m a₀ a₀ [s]
  | next {a : ℕ} {s : List UInt8} {l : List (List UInt8)} :
      a ≠ a₀ → StrAt m a s → Walk m a₀ (a + (s.length + 1)) l → Walk m a₀ a (s :: l)

variable {m m' : ByteMem}

/-! ## Storing -/

theorem ByteMem.store_of_le {s : List UInt8} :
    ∀ {a i : ℕ}, a + s.length ≤ i → m.store a s i = m i := by
  induction s with
  | nil => intro a i _; rfl
  | cons c s ih =>
      intro a i hi
      rw [List.length_cons] at hi
      rw [ByteMem.store, Function.update_of_ne (by omega), ih (by omega)]

/-- Storing changes only the bytes it stores to. -/
theorem ByteMem.mem_of_store_ne {s : List UInt8} :
    ∀ {a i : ℕ}, m.store a s i ≠ m i → a ≤ i ∧ i < a + s.length := by
  intro a i h
  refine ⟨?_, Nat.lt_of_not_le fun hle => h (store_of_le hle)⟩
  induction s generalizing a with
  | nil => exact absurd rfl h
  | cons c s ih =>
      by_cases hi : i = a
      · exact Nat.le_of_eq hi.symm
      · rw [ByteMem.store, Function.update_of_ne hi] at h
        exact Nat.le_of_succ_le (ih h)

/-! ## Strings -/

/-- Memory holds at most one string at an address. -/
theorem StrAt.unique {s : List UInt8} :
    ∀ {a : ℕ} {s' : List UInt8}, StrAt m a s → StrAt m a s' → s = s' := by
  induction s with
  | nil =>
      intro a s' h h'
      cases s' with
      | nil => rfl
      | cons c s' => exact absurd (h'.2.1.symm.trans h) h'.1
  | cons c s ih =>
      intro a s' h h'
      cases s' with
      | nil => exact absurd (h.2.1.symm.trans h') h.1
      | cons c' s' => rw [← h.2.1, ← h'.2.1, ih h.2.2 h'.2.2]

theorem StrAt.congr {s : List UInt8} :
    ∀ {a : ℕ}, m.Agree m' a (a + (s.length + 1)) → StrAt m a s → StrAt m' a s := by
  induction s with
  | nil =>
      intro a hag h
      exact (hag a (Nat.le_refl _) (Nat.lt_succ_self a)).symm.trans h
  | cons c s ih =>
      intro a hag h
      rw [List.length_cons] at hag
      refine ⟨h.1, (hag a (Nat.le_refl a) (by omega)).symm.trans h.2.1, ih ?_ h.2.2⟩
      exact fun i hi hi' => hag i (by omega) (by omega)

/-- A string that was stored with its NUL is there. -/
theorem strAt_store {s : List UInt8} :
    ∀ {a : ℕ}, (0 : UInt8) ∉ s → StrAt (m.store a (s ++ [0])) a s := by
  induction s with
  | nil => intro a _; exact Function.update_self ..
  | cons c s ih =>
      intro a hs
      obtain ⟨hc, hs⟩ := not_or.mp (List.mem_cons.not.mp hs)
      refine ⟨fun h => hc h.symm, Function.update_self .., (ih hs).congr fun i hi _ => ?_⟩
      exact (Function.update_of_ne (by omega) ..).symm

/-! ## Blocks -/

theorem StrBlock.add_size {l : List (List UInt8)} :
    ∀ {a b : ℕ}, StrBlock m a l b → a + blockSize l = b := by
  induction l with
  | nil => intro a b h; exact h
  | cons s l ih =>
      intro a b h
      rw [← ih h.2, blockSize, List.map_cons, List.sum_cons, ← Nat.add_assoc]
      rfl

/-- Nothing that happens outside a block changes it. -/
theorem StrBlock.congr {l : List (List UInt8)} :
    ∀ {a b : ℕ}, m.Agree m' a b → StrBlock m a l b → StrBlock m' a l b := by
  induction l with
  | nil => intro a b _ h; exact h
  | cons s l ih =>
      intro a b hag h
      have hlen := h.2.add_size
      refine ⟨h.1.congr fun i hi hi' => hag i hi (by omega), ih ?_ h.2⟩
      exact fun i hi hi' => hag i (by omega) hi'

/-- A string stored directly below a block becomes its first. -/
theorem StrBlock.push {l : List (List UInt8)} {a b c : ℕ} {s : List UInt8}
    (h : StrBlock m b l c) (hs : (0 : UInt8) ∉ s) (hab : a + (s.length + 1) = b) :
    StrBlock (m.store a (s ++ [0])) a (s :: l) c := by
  refine ⟨strAt_store hs, ?_⟩
  rw [hab]
  refine h.congr fun i hi _ => (ByteMem.store_of_le ?_).symm
  rw [List.length_append, List.length_singleton]
  omega

theorem strBlock_append_singleton {l : List (List UInt8)} {s : List UInt8} :
    ∀ {a e : ℕ}, StrBlock m a (l ++ [s]) e ↔
      ∃ b, StrBlock m a l b ∧ StrAt m b s ∧ b + (s.length + 1) = e := by
  induction l with
  | nil =>
      intro a e
      constructor
      · rintro ⟨hs, he⟩
        exact ⟨a, rfl, hs, he⟩
      · rintro ⟨b, rfl, hs, he⟩
        exact ⟨hs, he⟩
  | cons t l ih =>
      intro a e
      rw [List.cons_append, StrBlock, ih]
      constructor
      · rintro ⟨ht, b, hl, hs⟩
        exact ⟨b, ⟨ht, hl⟩, hs⟩
      · rintro ⟨b, ⟨ht, hl⟩, hs⟩
        exact ⟨ht, b, hl, hs⟩

theorem blockSize_reverse (l : List (List UInt8)) : blockSize l.reverse = blockSize l := by
  rw [blockSize, blockSize, List.map_reverse, List.sum_reverse]

/-! ## Walking -/

/-- A walk up to the string behind a block reads the block and the string. -/
theorem walk_iff {l : List (List UInt8)} {a₀ : ℕ} {s : List UInt8} (hs : StrAt m a₀ s) :
    ∀ {a : ℕ} {l' : List (List UInt8)}, StrBlock m a l a₀ → (Walk m a₀ a l' ↔ l' = l ++ [s]) := by
  induction l with
  | nil =>
      intro a l' h
      obtain rfl : a = a₀ := h
      constructor
      · intro hw
        cases hw with
        | last hs' => rw [hs'.unique hs]; rfl
        | next hne => exact absurd rfl hne
      · rintro rfl
        exact .last hs
  | cons t l ih =>
      intro a l' h
      have hne : a ≠ a₀ := by
        have hlen := h.2.add_size
        omega
      constructor
      · intro hw
        cases hw with
        | last => exact absurd rfl hne
        | next _ ht hw =>
            obtain rfl := ht.unique h.1
            rw [(ih h.2).mp hw, List.cons_append]
      · rintro rfl
        exact .next hne h.1 ((ih h.2).mpr rfl)

/-- A walk from the first string of a block to its last reads the block. -/
theorem StrBlock.walk_iff {l l' : List (List UInt8)} {s : List UInt8} {a a₀ e : ℕ}
    (h : StrBlock m a (l ++ [s]) e) (ha₀ : a₀ + (s.length + 1) = e) :
    Walk m a₀ a l' ↔ l' = l ++ [s] := by
  obtain ⟨b, hl, hs, hb⟩ := strBlock_append_singleton.mp h
  obtain rfl : b = a₀ := by omega
  exact MettEagle.walk_iff hs hl

end MettEagle
