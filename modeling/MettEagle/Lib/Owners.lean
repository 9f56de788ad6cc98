/-
# `MettEagle.Lib.Owners` — things that are free or have one owner

Some things, each of them free or held by one holder, and never both:

    take        a free thing goes to a holder
    giveBack    a thing that is held becomes free
    none_free   nothing is free exactly if everything is held
-/
import Mathlib.Data.Finset.Basic

namespace MettEagle

variable {ι K : Type*} {all free free' : Finset ι} {holds holds' : K → ι → Prop} {k : K} {i : ι}

structure Owners (all free : Finset ι) (holds : K → ι → Prop) : Prop where
  within : free ⊆ all
  held : ∀ {k i}, holds k i → i ∈ all
  apart : ∀ {k i}, holds k i → i ∉ free
  unique : ∀ {k k' i}, holds k i → holds k' i → k = k'
  cover : ∀ {i}, i ∈ all → i ∈ free ∨ ∃ k, holds k i

namespace Owners

/-- Everything is free. -/
theorem start (h : ∀ k i, ¬holds k i) : Owners all all holds where
  within := Finset.Subset.refl _
  held := fun hk => absurd hk (h _ _)
  apart := fun hk => absurd hk (h _ _)
  unique := fun hk => absurd hk (h _ _)
  cover := Or.inl

theorem congr (h : Owners all free holds) (hholds : ∀ k i, holds' k i ↔ holds k i) :
    Owners all free holds' where
  within := h.within
  held := fun hk => h.held ((hholds _ _).mp hk)
  apart := fun hk => h.apart ((hholds _ _).mp hk)
  unique := fun hk hk' => h.unique ((hholds _ _).mp hk) ((hholds _ _).mp hk')
  cover := fun hi => (h.cover hi).imp_right fun ⟨k, hk⟩ => ⟨k, (hholds _ _).mpr hk⟩

/-- A free thing goes to a holder. -/
theorem take (h : Owners all free holds) (hi : i ∈ free)
    (hfree : ∀ j, j ∈ free' ↔ j ∈ free ∧ j ≠ i)
    (hholds : ∀ k' j, holds' k' j ↔ holds k' j ∨ k' = k ∧ j = i) : Owners all free' holds' where
  within := fun j hj => h.within ((hfree j).mp hj).1
  held := by
    intro k' j hk
    rcases (hholds k' j).mp hk with hold | ⟨-, rfl⟩
    · exact h.held hold
    · exact h.within hi
  apart := by
    intro k' j hk hj
    obtain ⟨hfree, hne⟩ := (hfree j).mp hj
    rcases (hholds k' j).mp hk with hold | ⟨-, heq⟩
    · exact h.apart hold hfree
    · exact hne heq
  unique := by
    intro k₁ k₂ j hk₁ hk₂
    -- what is new was free, so nobody had it
    rcases (hholds k₁ j).mp hk₁ with hold₁ | ⟨rfl, rfl⟩
    · rcases (hholds k₂ j).mp hk₂ with hold₂ | ⟨-, rfl⟩
      · exact h.unique hold₁ hold₂
      · exact absurd hi (h.apart hold₁)
    · rcases (hholds k₂ j).mp hk₂ with hold₂ | ⟨rfl, -⟩
      · exact absurd hi (h.apart hold₂)
      · rfl
  cover := by
    intro j hj
    by_cases hji : j = i
    · exact Or.inr ⟨k, (hholds k j).mpr (Or.inr ⟨rfl, hji⟩)⟩
    · rcases h.cover hj with hold | ⟨k', hk'⟩
      · exact Or.inl ((hfree j).mpr ⟨hold, hji⟩)
      · exact Or.inr ⟨k', (hholds k' j).mpr (Or.inl hk')⟩

/-- A thing that is held becomes free. -/
theorem giveBack (h : Owners all free holds) (hi : holds k i)
    (hfree : ∀ j, j ∈ free' ↔ j ∈ free ∨ j = i)
    (hholds : ∀ k' j, holds' k' j ↔ holds k' j ∧ j ≠ i) : Owners all free' holds' where
  within := by
    intro j hj
    rcases (hfree j).mp hj with hold | rfl
    · exact h.within hold
    · exact h.held hi
  held := fun hk => h.held ((hholds _ _).mp hk).1
  apart := by
    intro k' j hk hj
    obtain ⟨hold, hne⟩ := (hholds k' j).mp hk
    rcases (hfree j).mp hj with hfree | heq
    · exact h.apart hold hfree
    · exact hne heq
  unique := fun hk hk' => h.unique ((hholds _ _).mp hk).1 ((hholds _ _).mp hk').1
  cover := by
    intro j hj
    by_cases hji : j = i
    · exact Or.inl ((hfree j).mpr (Or.inr hji))
    · rcases h.cover hj with hold | ⟨k', hk'⟩
      · exact Or.inl ((hfree j).mpr (Or.inl hold))
      · exact Or.inr ⟨k', (hholds k' j).mpr ⟨hk', hji⟩⟩

theorem mem_free_iff (h : Owners all free holds) : i ∈ free ↔ i ∈ all ∧ ∀ k, ¬holds k i := by
  constructor
  · intro hi
    exact ⟨h.within hi, fun k hk => h.apart hk hi⟩
  · rintro ⟨hi, hnot⟩
    exact (h.cover hi).resolve_right fun ⟨k, hk⟩ => hnot k hk

theorem none_free (h : Owners all free holds) : free = ∅ ↔ ∀ i ∈ all, ∃ k, holds k i := by
  constructor
  · rintro rfl i hi
    exact (h.cover hi).resolve_left (Finset.notMem_empty i)
  · intro hall
    refine Finset.eq_empty_of_forall_notMem fun i hi => ?_
    obtain ⟨k, hk⟩ := hall i (h.within hi)
    exact h.apart hk hi

end Owners

end MettEagle
