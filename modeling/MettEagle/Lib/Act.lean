/-
# `MettEagle.Lib.Act` — programs with state, exceptions and an observation log

A server written in C++ is a sequence of statements that read and write a
state, may throw, and do things the outside can see.  `Act σ ω ε α` is the
denotation of such a sequence: from a state of type `σ` it produces a result
(`α`, or an exception of type `ε`), a final state and the list of observations
(`ω`) made on the way.  The state SURVIVES an exception: what was written
before a `throw` stays written, which is exactly the point of every atomicity
question one can ask about such code.

Three groups of facts:

    equations       what `bind` does at a state, by the result of its first half
    `Report`        properties of what was observed and how it ended
    `Triple`        pre/postconditions with an exceptional postcondition and a
                    report

Nothing here knows what the state or the observations are.
-/
import Mathlib.Data.List.Basic

namespace MettEagle

/-- What running a program leaves behind. -/
structure Out (σ ω ε α : Type) where
  res : Except ε α
  st : σ
  obs : List ω

/-- A program: from a state to what it leaves behind. -/
def Act (σ ω ε α : Type) : Type := σ → Out σ ω ε α

namespace Out
variable {σ ω ε α : Type}

/-- The exception a program ended in. -/
def stop (out : Out σ ω ε α) : Option ε :=
  match out.res with
  | .ok _ => none
  | .error e => some e

/-- The same outcome, with observations made earlier put in front. -/
def after (o : List ω) (out : Out σ ω ε α) : Out σ ω ε α := { out with obs := o ++ out.obs }

@[simp] theorem after_res (o : List ω) (out : Out σ ω ε α) : (out.after o).res = out.res := rfl
@[simp] theorem after_st (o : List ω) (out : Out σ ω ε α) : (out.after o).st = out.st := rfl
@[simp] theorem after_obs (o : List ω) (out : Out σ ω ε α) : (out.after o).obs = o ++ out.obs := rfl
@[simp] theorem after_nil (out : Out σ ω ε α) : out.after [] = out := rfl

theorem after_after (o₁ o₂ : List ω) (out : Out σ ω ε α) :
    (out.after o₂).after o₁ = out.after (o₁ ++ o₂) := by
  simp [after, List.append_assoc]

end Out

namespace Act

variable {σ ω ε α β : Type}

/-- Sequencing: the second half runs only if the first returned; observations accumulate. -/
protected def bind (m : Act σ ω ε α) (f : α → Act σ ω ε β) : Act σ ω ε β := fun s =>
  match m s with
  | ⟨.ok a, s', o⟩ => (f a s').after o
  | ⟨.error e, s', o⟩ => ⟨.error e, s', o⟩

instance : Monad (Act σ ω ε) where
  pure a := fun s => ⟨.ok a, s, []⟩
  bind := Act.bind

/-- Raise an exception. -/
def throw (e : ε) : Act σ ω ε α := fun s => ⟨.error e, s, []⟩

/-- Make one observation. -/
def emit (o : ω) : Act σ ω ε Unit := fun s => ⟨.ok (), s, [o]⟩

/-- Read the state. -/
def get : Act σ ω ε σ := fun s => ⟨.ok s, s, []⟩

/-- Change the state. -/
def modify (f : σ → σ) : Act σ ω ε Unit := fun s => ⟨.ok (), f s, []⟩

/-- Run `m`; if it throws, run the handler in the state the exception left. -/
def tryCatch (m : Act σ ω ε α) (h : ε → Act σ ω ε α) : Act σ ω ε α := fun s =>
  match m s with
  | ⟨.ok a, s', o⟩ => ⟨.ok a, s', o⟩
  | ⟨.error e, s', o⟩ => (h e s').after o

/-! ## Equations -/

@[simp] theorem pure_apply (a : α) (s : σ) :
    (pure a : Act σ ω ε α) s = ⟨.ok a, s, []⟩ := rfl
@[simp] theorem throw_apply (e : ε) (s : σ) :
    (throw e : Act σ ω ε α) s = ⟨.error e, s, []⟩ := rfl
@[simp] theorem emit_apply (o : ω) (s : σ) :
    (emit o : Act σ ω ε Unit) s = ⟨.ok (), s, [o]⟩ := rfl

theorem bind_of_ok {m : Act σ ω ε α} {f : α → Act σ ω ε β} {s s' : σ} {a : α} {o : List ω}
    (h : m s = ⟨.ok a, s', o⟩) : (m >>= f) s = (f a s').after o := by
  show Act.bind m f s = _
  simp only [Act.bind, h]

theorem bind_of_error {m : Act σ ω ε α} {f : α → Act σ ω ε β} {s s' : σ} {e : ε} {o : List ω}
    (h : m s = ⟨.error e, s', o⟩) : (m >>= f) s = ⟨.error e, s', o⟩ := by
  show Act.bind m f s = _
  simp only [Act.bind, h]

/-- A sequence that returned: so did both halves. -/
theorem ok_of_bind {m : Act σ ω ε α} {f : α → Act σ ω ε β} {s s' : σ} {b : β} {o : List ω}
    (h : (m >>= f) s = ⟨.ok b, s', o⟩) : ∃ a s₁ o₁ o₂,
      m s = ⟨.ok a, s₁, o₁⟩ ∧ f a s₁ = ⟨.ok b, s', o₂⟩ ∧ o = o₁ ++ o₂ := by
  match hm : m s with
  | ⟨.ok a, s₁, o₁⟩ =>
      rw [bind_of_ok hm] at h
      match hf : f a s₁ with
      | ⟨r, s₂, o₂⟩ =>
          rw [hf] at h
          cases h
          exact ⟨a, s₁, o₁, o₂, rfl, hf, rfl⟩
  | ⟨.error e, s₁, o₁⟩ =>
      rw [bind_of_error hm] at h
      cases h

/-- A first half that does something and goes on as `m'`. -/
theorem bind_of_after {m m' : Act σ ω ε α} (f : α → Act σ ω ε β) {s s' : σ} {o : List ω}
    (h : m s = (m' s').after o) : (m >>= f) s = ((m' >>= f) s').after o := by
  match hm : m' s' with
  | ⟨.ok a, t, o'⟩ =>
      rw [hm] at h
      rw [bind_of_ok h, bind_of_ok hm, Out.after_after]
  | ⟨.error e, t, o'⟩ =>
      rw [hm] at h
      rw [bind_of_error h, bind_of_error hm]
      rfl

/-- A second half that only converts the result. -/
theorem map_apply (m : Act σ ω ε α) (f : α → β) (s : σ) :
    (m >>= fun a => (pure (f a) : Act σ ω ε β)) s = ⟨(m s).res.map f, (m s).st, (m s).obs⟩ := by
  match hm : m s with
  | ⟨.ok a, s', o⟩ =>
      rw [bind_of_ok hm]
      simp [Out.after, Except.map]
  | ⟨.error e, s', o⟩ =>
      rw [bind_of_error hm]
      rfl

theorem tryCatch_of_ok {m : Act σ ω ε α} (h : ε → Act σ ω ε α) {s s' : σ} {a : α} {o : List ω}
    (hm : m s = ⟨.ok a, s', o⟩) : tryCatch m h s = ⟨.ok a, s', o⟩ := by
  simp only [tryCatch, hm]

theorem tryCatch_of_error {m : Act σ ω ε α} (h : ε → Act σ ω ε α) {s s' : σ} {e : ε}
    {o : List ω} (hm : m s = ⟨.error e, s', o⟩) : tryCatch m h s = (h e s').after o := by
  simp only [tryCatch, hm]

/-- A second half that shows nothing. -/
theorem bind_obs_of_silent (m : Act σ ω ε α) {f : α → Act σ ω ε β}
    (hf : ∀ a s, (f a s).obs = []) (s : σ) : ((m >>= f) s).obs = (m s).obs := by
  match hm : m s with
  | ⟨.ok a, s', o⟩ =>
      rw [bind_of_ok hm, Out.after_obs, hf, List.append_nil]
  | ⟨.error e, s', o⟩ => rw [bind_of_error hm]

@[simp] theorem pure_bind_apply (a : α) (f : α → Act σ ω ε β) (s : σ) :
    ((pure a : Act σ ω ε α) >>= f) s = f a s := rfl
@[simp] theorem throw_bind_apply (e : ε) (f : α → Act σ ω ε β) (s : σ) :
    ((throw e : Act σ ω ε α) >>= f) s = ⟨.error e, s, []⟩ := rfl
@[simp] theorem emit_bind_apply (o : ω) (f : Unit → Act σ ω ε β) (s : σ) :
    (emit o >>= f) s = (f () s).after [o] := rfl
@[simp] theorem get_bind_apply (f : σ → Act σ ω ε β) (s : σ) :
    ((get : Act σ ω ε σ) >>= f) s = f s s := rfl
@[simp] theorem modify_bind_apply (g : σ → σ) (f : Unit → Act σ ω ε β) (s : σ) :
    (modify g >>= f) s = f () (g s) := rfl

theorem bind_assoc {γ : Type} (m : Act σ ω ε α) (f : α → Act σ ω ε β) (g : β → Act σ ω ε γ) :
    (m >>= f) >>= g = m >>= fun a => f a >>= g := by
  funext s
  match hm : m s with
  | ⟨.error e, s', o⟩ => rw [bind_of_error hm, bind_of_error (bind_of_error hm)]
  | ⟨.ok a, s', o⟩ =>
      rw [bind_of_ok hm]
      match hf : f a s' with
      | ⟨.error e, s'', o'⟩ =>
          have hmf : (m >>= f) s = ⟨.error e, s'', o ++ o'⟩ := by rw [bind_of_ok hm, hf]; rfl
          rw [bind_of_error hmf, bind_of_error hf]
          rfl
      | ⟨.ok b, s'', o'⟩ =>
          have hmf : (m >>= f) s = ⟨.ok b, s'', o ++ o'⟩ := by rw [bind_of_ok hm, hf]; rfl
          rw [bind_of_ok hmf, bind_of_ok hf, Out.after_after]

/-! ## Reports

What a whole program shows the outside is its observations together with the
exception it ended in, if any.  A `Report` is a property of these that a
sequence has as soon as its two halves have it; the first half of a sequence
that goes on ended in no exception. -/

/-- A property of observations and ending that sequencing preserves. -/
structure Report (ω ε : Type) where
  holds : List ω → Option ε → Prop
  nil : holds [] none
  append : ∀ {o₁ o₂ : List ω} {r : Option ε}, holds o₁ none → holds o₂ r → holds (o₁ ++ o₂) r

/-- Every single observation satisfies `O`. -/
def Report.all (O : ω → Prop) : Report ω ε where
  holds o _ := ∀ x ∈ o, O x
  nil := fun _ hx => absurd hx List.not_mem_nil
  append := by
    intro o₁ o₂ r h₁ h₂ x hx
    rcases List.mem_append.mp hx with hx | hx
    · exact h₁ x hx
    · exact h₂ x hx

/-! ## Pre- and postconditions

`Triple P m Q E Φ`: from a state satisfying `P`, what `m` shows satisfies the
report `Φ`; if `m` returns `a` the final state satisfies `Q a`, and if it throws
`e` the final state satisfies `E e`. -/

/-- `{P} m {Q | E}`, reporting `Φ`. -/
def Triple (P : σ → Prop) (m : Act σ ω ε α) (Q : α → σ → Prop) (E : ε → σ → Prop)
    (Φ : Report ω ε) : Prop :=
  ∀ s, P s → Φ.holds (m s).obs (m s).stop ∧
    (∀ a, (m s).res = .ok a → Q a (m s).st) ∧ (∀ e, (m s).res = .error e → E e (m s).st)

section Triple
variable {P P' : σ → Prop} {Q Q' : α → σ → Prop} {R : β → σ → Prop} {E : ε → σ → Prop}
  {Φ : Report ω ε} {m : Act σ ω ε α} {f : α → Act σ ω ε β}

/-- A triple from what the program does at each state of the precondition. -/
theorem Triple.of_out
    (h : ∀ s, P s → ∃ r s' o, m s = ⟨r, s', o⟩ ∧ match r with
      | .ok a => Φ.holds o none ∧ Q a s'
      | .error e => Φ.holds o (some e) ∧ E e s') :
    Triple P m Q E Φ := by
  intro s hs
  obtain ⟨r, s', o, hm, hr⟩ := h s hs
  rw [hm]
  cases r with
  | ok a =>
      refine ⟨hr.1, ?_, ?_⟩
      · intro b hb
        cases hb
        exact hr.2
      · intro e he
        cases he
  | error e =>
      refine ⟨hr.1, ?_, ?_⟩
      · intro b hb
        cases hb
      · intro e' he
        cases he
        exact hr.2

theorem Triple.bind (hm : Triple P m Q E Φ) (hf : ∀ a, Triple (Q a) (f a) R E Φ) :
    Triple P (m >>= f) R E Φ := by
  intro s hs
  obtain ⟨hobs, hok, herr⟩ := hm s hs
  match h : m s with
  | ⟨.ok a, s', o⟩ =>
      rw [h] at hobs hok
      obtain ⟨hobs', hok', herr'⟩ := hf a s' (hok a rfl)
      rw [bind_of_ok h]
      exact ⟨Φ.append hobs hobs', hok', herr'⟩
  | ⟨.error e, s', o⟩ =>
      rw [h] at hobs herr
      rw [bind_of_error h]
      refine ⟨hobs, ?_, ?_⟩
      · intro b hb
        cases hb
      · intro e' he
        cases he
        exact herr e rfl

theorem Triple.pure (a : α) (h : ∀ s, P s → Q a s) :
    Triple P (Pure.pure a : Act σ ω ε α) Q E Φ := by
  intro s hs
  refine ⟨Φ.nil, ?_, ?_⟩
  · intro b hb
    cases hb
    exact h s hs
  · intro e he
    cases he

/-- A conditional, arm by arm. -/
theorem Triple.ite {c : Prop} [Decidable c] {m' : Act σ ω ε α}
    (ht : c → Triple P m Q E Φ) (hf : ¬c → Triple P m' Q E Φ) :
    Triple P (if c then m else m') Q E Φ := by
  by_cases h : c
  · rw [if_pos h]; exact ht h
  · rw [if_neg h]; exact hf h

/-- The rule of consequence, on states. -/
theorem Triple.conseq (h : Triple P m Q E Φ) (hP : ∀ s, P' s → P s)
    (hQ : ∀ a s, Q a s → Q' a s) : Triple P' m Q' E Φ := by
  intro s hs
  obtain ⟨hobs, hok, herr⟩ := h s (hP s hs)
  exact ⟨hobs, fun a ha => hQ a _ (hok a ha), herr⟩

end Triple

end Act

end MettEagle
