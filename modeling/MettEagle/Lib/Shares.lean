/-
# `MettEagle.Lib.Shares` — who holds how many

Finitely many holders, each with a number of references on each of some things:
`held t i` is the number `t` has on `i`.  A holder gains or loses one at a time.

    total held i       the references on `i`, over all holders
    Sole held t i      `t` has the only one
-/
import Mathlib.Algebra.BigOperators.Fin
import Mathlib.Algebra.Order.BigOperators.Group.Finset

namespace MettEagle

namespace Shares

variable {T ι : Type*} {held : T → ι → ℕ} {t u : T} {i j : ι}

/-- The references on a thing. -/
def total [Fintype T] (held : T → ι → ℕ) (i : ι) : ℕ := ∑ t, held t i

/-- `t` holds the only reference on `i`. -/
def Sole (held : T → ι → ℕ) (t : T) (i : ι) : Prop := held t i = 1 ∧ ∀ u, u ≠ t → held u i = 0

theorem Sole.eq (ht : Sole held t i) (hu : 0 < held u i) : u = t := by
  by_contra hne
  have hzero := ht.2 u hne
  omega

section total
variable [Fintype T]

theorem le_total (held : T → ι → ℕ) (t : T) (i : ι) : held t i ≤ total held i :=
  Finset.single_le_sum (f := fun u => held u i) (fun _ _ => Nat.zero_le _) (Finset.mem_univ t)

theorem eq_zero_of_total (h : total held i = 0) (t : T) : held t i = 0 :=
  Nat.le_zero.mp (h ▸ le_total held t i)

theorem Sole.total (h : Sole held t i) : Shares.total held i = 1 := by
  rw [Shares.total, Finset.sum_eq_single t (fun u _ hu => h.2 u hu)
    fun hnot => absurd (Finset.mem_univ t) hnot]
  exact h.1

theorem pos_total (h : 0 < held t i) : 0 < total held i := h.trans_le (le_total held t i)

end total

section update
variable [DecidableEq T] [DecidableEq ι]

/-- `t` gets one more reference on `i`. -/
def gain (held : T → ι → ℕ) (t : T) (i : ι) : T → ι → ℕ :=
  fun u j => if u = t ∧ j = i then held u j + 1 else held u j

/-- `t` gives one up. -/
def lose (held : T → ι → ℕ) (t : T) (i : ι) : T → ι → ℕ :=
  fun u j => if u = t ∧ j = i then held u j - 1 else held u j

theorem gain_lose (h : 0 < held t i) : gain (lose held t i) t i = held := by
  funext u j
  simp only [gain, lose]
  split
  · rename_i heq
    rw [heq.1, heq.2]
    omega
  · rfl

theorem gain_same : gain held t i t i = held t i + 1 := if_pos ⟨rfl, rfl⟩

theorem gain_of_ne (h : u ≠ t ∨ j ≠ i) : gain held t i u j = held u j :=
  if_neg fun hboth => h.elim (· hboth.1) (· hboth.2)

theorem lose_of_ne (h : u ≠ t ∨ j ≠ i) : lose held t i u j = held u j :=
  if_neg fun hboth => h.elim (· hboth.1) (· hboth.2)

theorem lose_le (u : T) (j : ι) : lose held t i u j ≤ held u j := by
  simp only [lose]
  split
  · exact Nat.sub_le _ _
  · exact le_refl _

theorem le_gain (u : T) (j : ι) : held u j ≤ gain held t i u j := by
  simp only [gain]
  split
  · exact Nat.le_succ _
  · exact le_refl _

theorem Sole.gain (h : Sole held u j) (hne : j ≠ i) : Sole (gain held t i) u j :=
  ⟨(gain_of_ne (Or.inr hne)).trans h.1, fun v hv => (gain_of_ne (Or.inr hne)).trans (h.2 v hv)⟩

theorem Sole.lose (h : Sole held u j) (hne : u ≠ t ∨ j ≠ i) : Sole (lose held t i) u j :=
  ⟨(lose_of_ne hne).trans h.1, fun v hv => Nat.le_zero.mp (h.2 v hv ▸ lose_le v j)⟩

variable [Fintype T]

theorem sole_gain (h : total held i = 0) : Sole (Shares.gain held t i) t i := by
  refine ⟨by rw [gain_same, eq_zero_of_total h], fun u hu => ?_⟩
  rw [gain_of_ne (Or.inl hu), eq_zero_of_total h]

theorem total_gain : total (Shares.gain held t i) i = total held i + 1 := by
  have hsum : ∀ u, gain held t i u i = held u i + if u = t then 1 else 0 := by
    intro u
    simp only [gain, and_true]
    split <;> rfl
  simp only [total, hsum, Finset.sum_add_distrib, Finset.sum_ite_eq', Finset.mem_univ, if_true]

theorem total_gain_of_ne (h : j ≠ i) : total (gain held t i) j = total held j :=
  Finset.sum_congr rfl fun _ _ => gain_of_ne (Or.inr h)

theorem total_lose {k : ℕ} (h : 0 < held t i) (hk : total held i = k + 1) :
    total (Shares.lose held t i) i = k := by
  rw [← gain_lose h, total_gain] at hk
  exact Nat.succ.inj hk

theorem total_lose_of_ne (h : j ≠ i) : total (lose held t i) j = total held j :=
  Finset.sum_congr rfl fun _ _ => lose_of_ne (Or.inr h)

end update

end Shares

end MettEagle
