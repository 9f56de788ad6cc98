/-
# `MettEagle.Lib.Noninterference` — an actor that sees nothing of the others

The labels of a system say who acted, what he asked and what he was answered.  An actor
is separated if a machine of his own, which hears of nobody else, would have given him
the same answers:

    own       a step of the actor is a step of his machine
    others    a step of anybody else is no step of it

Then his answers are a function of his questions (`Separates.run`), and two runs in
which he asks the same answer him the same (`Separates.outputs_eq`), whatever the others
do and whenever they do it.
-/
import MettEagle.Lib.Run

namespace MettEagle.Noninterference

variable {σ K I O S : Type*}

/-! ## What one actor sees -/

section seen
variable [DecidableEq K]

/-- The questions of an actor with their answers, oldest first. -/
def seen (k : K) (ls : List (K × I × O)) : List (I × O) :=
  (ls.filter fun l => l.1 = k).map Prod.snd

def inputs (k : K) (ls : List (K × I × O)) : List I := (seen k ls).map Prod.fst

def outputs (k : K) (ls : List (K × I × O)) : List O := (seen k ls).map Prod.snd

section snoc
variable {k k' : K} (ls : List (K × I × O)) (i : I) (o : O)

theorem inputs_snoc_self : inputs k (ls ++ [(k, i, o)]) = inputs k ls ++ [i] := by
  simp [inputs, seen, List.filter_append]

theorem outputs_snoc_self : outputs k (ls ++ [(k, i, o)]) = outputs k ls ++ [o] := by
  simp [outputs, seen, List.filter_append]

theorem inputs_snoc_of_ne (h : k' ≠ k) : inputs k (ls ++ [(k', i, o)]) = inputs k ls := by
  simp [inputs, seen, List.filter_append, h]

theorem outputs_snoc_of_ne (h : k' ≠ k) : outputs k (ls ++ [(k', i, o)]) = outputs k ls := by
  simp [outputs, seen, List.filter_append, h]

end snoc

end seen

/-! ## The machine of one actor -/

/-- A machine that answers. -/
structure Mealy (S I O : Type*) where
  next : S → I → S
  out : S → I → O

namespace Mealy
variable (A : Mealy S I O)

/-- The state after the questions. -/
def after (v : S) (is : List I) : S := is.foldl A.next v

def answers : S → List I → List O
  | _, [] => []
  | v, i :: is => A.out v i :: answers (A.next v i) is

theorem after_snoc (v : S) (is : List I) (i : I) :
    A.after v (is ++ [i]) = A.next (A.after v is) i := by
  rw [after, List.foldl_append]
  rfl

theorem answers_snoc (is : List I) :
    ∀ (v : S) (i : I), A.answers v (is ++ [i]) = A.answers v is ++ [A.out (A.after v is) i] := by
  induction is with
  | nil =>
      intro v i
      rfl
  | cons j is ih =>
      intro v i
      show A.out v j :: A.answers (A.next v j) (is ++ [i]) = _
      rw [ih]
      rfl

end Mealy

/-! ## Separation -/

/-- The machine `A`, related to the system by `rel`, is all that actor `k` sees of it. -/
structure Separates (step : σ → K × I × O → σ → Prop) (A : Mealy S I O) (k : K)
    (rel : σ → S → Prop) : Prop where
  own : ∀ {s v i o s'}, rel s v → step s (k, i, o) s' → o = A.out v i ∧ rel s' (A.next v i)
  others : ∀ {s v k' i o s'}, rel s v → k' ≠ k → step s (k', i, o) s' → rel s' v

namespace Separates
variable [DecidableEq K] {step : σ → K × I × O → σ → Prop} {A : Mealy S I O} {k : K}
  {rel : σ → S → Prop}

/-- **Runs.** -/
theorem run (h : Separates step A k rel) {s₀ s : σ} {v₀ : S} {ls : List (K × I × O)}
    (h₀ : rel s₀ v₀) (hrun : Run step s₀ ls s) :
    outputs k ls = A.answers v₀ (inputs k ls) ∧ rel s (A.after v₀ (inputs k ls)) := by
  induction hrun with
  | nil => exact ⟨rfl, h₀⟩
  | @snoc ls s' s'' l _ hl ih =>
      obtain ⟨k', i, o⟩ := l
      obtain ⟨hout, hrel⟩ := ih
      by_cases hk : k' = k
      · subst hk
        obtain ⟨rfl, hrel'⟩ := h.own hrel hl
        rw [outputs_snoc_self, inputs_snoc_self, A.answers_snoc, A.after_snoc, hout]
        exact ⟨rfl, hrel'⟩
      · rw [outputs_snoc_of_ne _ _ _ hk, inputs_snoc_of_ne _ _ _ hk]
        exact ⟨hout, h.others hrel hk hl⟩

/-- **Noninterference.**  Two runs in which the actor asks the same. -/
theorem outputs_eq (h : Separates step A k rel) {s₀ s s' : σ} {v₀ : S} {ls ls' : List (K × I × O)}
    (h₀ : rel s₀ v₀) (hrun : Run step s₀ ls s) (hrun' : Run step s₀ ls' s')
    (hsame : inputs k ls = inputs k ls') : outputs k ls = outputs k ls' := by
  rw [(h.run h₀ hrun).1, (h.run h₀ hrun').1, hsame]

end Separates

end MettEagle.Noninterference
