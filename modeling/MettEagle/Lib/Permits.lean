/-
# `MettEagle.Lib.Permits` — who holds a permit

Finitely many actors, each of which holds a permit or does not.  A permit is taken or
given back by one actor at a time, so their number moves by one; at most one permit means
at most one holder.
-/
import Mathlib.Data.Fintype.Card

namespace MettEagle

variable {T : Type*} [Fintype T] {p p' : T → Bool} {t u : T}

/-- The number of those who hold a permit. -/
def holders (p : T → Bool) : ℕ := (Finset.univ.filter fun t => p t = true).card

theorem holders_congr (h : ∀ t, p' t = p t) : holders p' = holders p := by
  rw [funext h]

/-- One more holder. -/
theorem holders_gain (ht : p t = false) (ht' : p' t = true) (h : ∀ u, u ≠ t → p' u = p u) :
    holders p' = holders p + 1 := by
  classical
  have hinsert : (Finset.univ.filter fun u => p' u = true) =
      insert t (Finset.univ.filter fun u => p u = true) := by
    ext u
    simp only [Finset.mem_filter, Finset.mem_univ, true_and, Finset.mem_insert]
    by_cases hu : u = t
    · subst hu
      simp only [ht', true_or]
    · rw [h u hu]
      simp only [hu, false_or]
  have hnot : t ∉ Finset.univ.filter fun u => p u = true := by
    intro hmem
    rw [Finset.mem_filter, ht] at hmem
    cases hmem.2
  rw [holders, hinsert, Finset.card_insert_of_notMem hnot]
  rfl

/-- One of them moves, the others keep what they have. -/
theorem holders_move (h : ∀ u, u ≠ t → p' u = p u) :
    holders p' + (p t).toNat = holders p + (p' t).toNat := by
  cases ht : p t with
  | false =>
      cases ht' : p' t with
      | false =>
          refine congrArg (· + 0) (holders_congr fun u => ?_)
          by_cases hu : u = t
          · rw [hu, ht, ht']
          · exact h u hu
      | true => exact holders_gain ht ht' h
  | true =>
      cases ht' : p' t with
      | false => exact (holders_gain ht' ht fun u hu => (h u hu).symm).symm
      | true =>
          refine congrArg (· + 1) (holders_congr fun u => ?_)
          by_cases hu : u = t
          · rw [hu, ht, ht']
          · exact h u hu

theorem holders_eq_zero : holders p = 0 ↔ ∀ t, p t = false := by
  rw [holders, Finset.card_eq_zero, Finset.filter_eq_empty_iff]
  constructor
  · intro h t
    exact Bool.eq_false_iff.mpr (h (Finset.mem_univ t))
  · intro h t _
    exact Bool.eq_false_iff.mp (h t)

/-- With one permit, the holders are the same. -/
theorem eq_of_holders_le_one (h : holders p ≤ 1) (ht : p t = true) (hu : p u = true) : t = u := by
  refine Finset.card_le_one.mp h t ?_ u ?_
  · exact Finset.mem_filter.mpr ⟨Finset.mem_univ t, ht⟩
  · exact Finset.mem_filter.mpr ⟨Finset.mem_univ u, hu⟩

end MettEagle
