/-
# `MettEagle.Lib.Latch` — looking behind a coalescing mark

Something happens that must be acted on.  What is told about it is one mark, which many
other things set as well, and setting it twice is setting it once.  The one who has to
act clears the mark first and then looks at the present state:

    raised     when it happens, the mark is set
    pending    the mark goes away only when a look begins
    looking    a look that ends after it happened acts
    acted      what was done stays done

No look misses it then, whatever the order (`Latch.run`).
-/
import MettEagle.Lib.Run

namespace MettEagle

variable {σ ℓ : Type*} {step : σ → ℓ → σ → Prop} {happened pending looking acted : σ → Prop}

/-- `looking` is about a look that has not seen anything yet. -/
structure Latch (step : σ → ℓ → σ → Prop) (happened pending looking acted : σ → Prop) : Prop where
  raised : ∀ {s l s'}, step s l s' → happened s' → ¬happened s → pending s'
  pending : ∀ {s l s'}, step s l s' → pending s → pending s' ∨ looking s'
  looking : ∀ {s l s'}, step s l s' → looking s → happened s → looking s' ∨ acted s'
  acted : ∀ {s l s'}, step s l s' → acted s → acted s'

namespace Latch

/-- If it has happened, somebody will look or has acted. -/
def Noticed (happened pending looking acted : σ → Prop) (s : σ) : Prop :=
  happened s → pending s ∨ looking s ∨ acted s

/-- **Step.** -/
theorem noticed_step (h : Latch step happened pending looking acted) {s s' : σ} {l : ℓ}
    (hs : Noticed happened pending looking acted s) (hstep : step s l s') :
    Noticed happened pending looking acted s' := by
  intro hs'
  by_cases hold : happened s
  · rcases hs hold with hp | hl | ha
    · exact (h.pending hstep hp).imp_right Or.inl
    · exact Or.inr (h.looking hstep hl hold)
    · exact Or.inr (Or.inr (h.acted hstep ha))
  · exact Or.inl (h.raised hstep hs' hold)

/-- **Runs.** -/
theorem run (h : Latch step happened pending looking acted) {s₀ s : σ} {ls : List ℓ}
    (h₀ : ¬happened s₀) (hrun : Run step s₀ ls s) :
    Noticed happened pending looking acted s :=
  hrun.inv (I := fun _ s => Noticed happened pending looking acted s)
    (fun hs => absurd hs h₀) fun hs hstep => h.noticed_step hs hstep

end Latch

end MettEagle
