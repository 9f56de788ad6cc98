/-
# `MettEagle.Lib.Run` — labelled runs

A system is a step relation with labels: requests with their answers, or the
atomic actions of threads.  A run is a sequence of steps, newest last.  What is
proved about runs is proved once here, from a fact about one step:

    Run.inv         an invariant, which may mention the labels so far
    Run.simulate    a forward simulation into another system
    Run.charge      a potential that pays for some steps and is raised by others
-/
import Mathlib.Data.List.Basic

namespace MettEagle

/-- The runs from `s`: the labels of the steps taken and the state they lead to. -/
inductive Run {σ ℓ : Type*} (step : σ → ℓ → σ → Prop) (s : σ) : List ℓ → σ → Prop
  | nil : Run step s [] s
  | snoc {ls : List ℓ} {s' s'' : σ} {l : ℓ} :
      Run step s ls s' → step s' l s'' → Run step s (ls ++ [l]) s''

namespace Run

variable {σ τ ℓ : Type*} {step : σ → ℓ → σ → Prop} {s s' : σ} {ls : List ℓ}

/-- What holds at the start and is preserved by every step holds in every state reached. -/
theorem inv {I : List ℓ → σ → Prop} (h : Run step s ls s') (h0 : I [] s)
    (hstep : ∀ {ls s' l s''}, I ls s' → step s' l s'' → I (ls ++ [l]) s'') : I ls s' := by
  induction h with
  | nil => exact h0
  | snoc _ hl ih => exact hstep ih hl

theorem append {ls' : List ℓ} {s'' : σ} (h : Run step s ls s') (h' : Run step s' ls' s'') :
    Run step s (ls ++ ls') s'' := by
  induction h' with
  | nil => rwa [List.append_nil]
  | snoc _ hl ih =>
      rw [← List.append_assoc]
      exact ih.snoc hl

theorem imp {step' : σ → ℓ → σ → Prop} (h : Run step s ls s')
    (hstep : ∀ {s l s'}, step s l s' → step' s l s') : Run step' s ls s' := by
  induction h with
  | nil => exact .nil
  | snoc _ hl ih => exact ih.snoc (hstep hl)

/-- If every step can be matched under `R`, so can every run, with the same labels. -/
theorem simulate {step' : τ → ℓ → τ → Prop} {R : σ → τ → Prop} {t : τ}
    (h : Run step s ls s') (h0 : R s t)
    (hstep : ∀ {s s' l t}, R s t → step s l s' → ∃ t', step' t l t' ∧ R s' t') :
    ∃ t', Run step' t ls t' ∧ R s' t' := by
  induction h with
  | nil => exact ⟨t, .nil, h0⟩
  | snoc _ hl ih =>
      obtain ⟨t', hrun, hR⟩ := ih
      obtain ⟨t'', hl', hR'⟩ := hstep hR hl
      exact ⟨t'', hrun.snoc hl', hR'⟩

/-- A potential `Φ` pays for the steps that count as `p`, and only steps that count as `q` raise
it: there are no more of the former than what there was and was added. -/
theorem charge {p q : ℓ → Bool} {ok : ℓ → Prop} {I : σ → Prop} {Φ : σ → ℕ} (h : Run step s ls s')
    (hok : ∀ l ∈ ls, ok l) (h0 : I s)
    (hstep : ∀ {s l s'}, ok l → I s → step s l s' →
      I s' ∧ (p l).toNat + Φ s' ≤ Φ s + (q l).toNat) :
    I s' ∧ ls.countP p + Φ s' ≤ Φ s + ls.countP q := by
  induction h with
  | nil => exact ⟨h0, Nat.le_of_eq (Nat.zero_add _)⟩
  | @snoc ls s₁ s₂ l _ hl ih =>
      obtain ⟨hI, hle⟩ := ih fun l hl => hok l (List.mem_append_left _ hl)
      obtain ⟨hI', hpay⟩ := hstep
        (hok l (List.mem_append_right _ (List.mem_singleton_self l))) hI hl
      have hp : [l].countP p = (p l).toNat := by
        rw [List.countP_singleton]
        cases p l <;> rfl
      have hq : [l].countP q = (q l).toNat := by
        rw [List.countP_singleton]
        cases q l <;> rfl
      rw [List.countP_append, List.countP_append, hp, hq]
      exact ⟨hI', by omega⟩

end Run

end MettEagle
