/-
# `MettEagle.Lib.Procedures` — programs that call each other by name

A program ends, or it calls a procedure by its name and goes on with the answer.  What the
names stand for is given from outside, by a table, and so is what becomes of the end of a
callee: a caller is told about it, or it is an error.  An error is told to nobody.  It ends
all the programs around the call, and what they would have done does not matter any more.

    Returns, Answers     the meaning, as relations: a recursion may go on forever
    eval, answer         the same with fuel for the steps, to compute with
    Simulation           one table behind another: where a call of the first is answered, so is
                         the matching call of the second, and the answers match

Nothing here knows what the programs do between two calls.
-/
import Mathlib.Data.List.Basic

namespace MettEagle

/-- A program with calls `name arg`, answers of type `β` and ends of type `ρ`. -/
inductive Prog (ν α β ρ : Type) where
  | done (r : ρ)
  | call (name : ν) (arg : α) (k : β → Prog ν α β ρ)

/-- What calls mean: the program behind a name, and what the caller of a program is told. -/
structure Procedures (ν α β ρ ε : Type) where
  body : ν → α → Except ε (Prog ν α β ρ)
  deliver : ρ → Except ε β

namespace Procedures

variable {ν α β ρ ε : Type} (T : Procedures ν α β ρ ε)

/-! ## The meaning -/

mutual

/-- The program comes to this end, or to this error of a call in it. -/
inductive Returns : Prog ν α β ρ → Except ε ρ → Prop
  | done (r : ρ) : Returns (.done r) (.ok r)
  | told {name : ν} {arg : α} {k : β → Prog ν α β ρ} {b : β} {x : Except ε ρ} :
      Answers name arg (.ok b) → Returns (k b) x → Returns (.call name arg k) x
  | unwound {name : ν} {arg : α} {k : β → Prog ν α β ρ} {e : ε} :
      Answers name arg (.error e) → Returns (.call name arg k) (.error e)

/-- The call is answered with this, or ends in this error. -/
inductive Answers : ν → α → Except ε β → Prop
  | refused {name : ν} {arg : α} {e : ε} :
      T.body name arg = .error e → Answers name arg (.error e)
  | ran {name : ν} {arg : α} {p : Prog ν α β ρ} {x : Except ε ρ} :
      T.body name arg = .ok p → Returns p x → Answers name arg (x.bind T.deliver)

end

variable {T}

mutual

theorem Returns.unique {p : Prog ν α β ρ} {x y : Except ε ρ} :
    T.Returns p x → T.Returns p y → x = y
  | .done r, .done _ => rfl
  | .told hb hk, .told hb' hk' => by
      have h := Except.ok.inj (hb.unique hb')
      subst h
      exact hk.unique hk'
  | .told hb _, .unwound he => by cases hb.unique he
  | .unwound he, .told hb _ => by cases he.unique hb
  | .unwound he, .unwound he' => by
      have h := Except.error.inj (he.unique he')
      rw [h]

theorem Answers.unique {name : ν} {arg : α} {x y : Except ε β} :
    T.Answers name arg x → T.Answers name arg y → x = y
  | .refused h, .refused h' => by
      rw [h] at h'
      rw [Except.error.inj h']
  | .refused h, .ran h' _ => by
      rw [h] at h'
      cases h'
  | .ran h _, .refused h' => by
      rw [h] at h'
      cases h'
  | .ran h hp, .ran h' hp' => by
      rw [h] at h'
      have hq := Except.ok.inj h'
      subst hq
      rw [hp.unique hp']

end

/-! ## Evaluation -/

variable (T)

mutual

def eval : ℕ → Prog ν α β ρ → Option (Except ε ρ)
  | 0, _ => none
  | _ + 1, .done r => some (.ok r)
  | n + 1, .call name arg k =>
      match answer n name arg with
      | none => none
      | some (.error e) => some (.error e)
      | some (.ok b) => eval n (k b)

def answer : ℕ → ν → α → Option (Except ε β)
  | 0, _, _ => none
  | n + 1, name, arg =>
      match T.body name arg with
      | .error e => some (.error e)
      | .ok p => (eval n p).map fun x => x.bind T.deliver

end

variable {T}

theorem eval_and_answer_sound (n : ℕ) :
    (∀ p x, T.eval n p = some x → T.Returns p x) ∧
      ∀ name arg x, T.answer n name arg = some x → T.Answers name arg x := by
  induction n with
  | zero =>
      refine ⟨?_, ?_⟩
      · intro p x h
        cases h
      · intro name arg x h
        cases h
  | succ n ih =>
      obtain ⟨iheval, ihanswer⟩ := ih
      refine ⟨?_, ?_⟩
      · intro p x h
        cases p with
        | done r =>
            cases h
            exact .done r
        | call name arg k =>
            simp only [eval] at h
            cases hcall : T.answer n name arg with
            | none =>
                rw [hcall] at h
                cases h
            | some y =>
                rw [hcall] at h
                cases y with
                | error e =>
                    cases h
                    exact .unwound (ihanswer _ _ _ hcall)
                | ok b => exact .told (ihanswer _ _ _ hcall) (iheval _ _ h)
      · intro name arg x h
        simp only [answer] at h
        cases hbody : T.body name arg with
        | error e =>
            rw [hbody] at h
            cases h
            exact .refused hbody
        | ok p =>
            rw [hbody] at h
            obtain ⟨y, hy, rfl⟩ := Option.map_eq_some_iff.mp h
            exact .ran hbody (iheval _ _ hy)

/-- More fuel does not change a result. -/
theorem eval_and_answer_mono (n : ℕ) :
    (∀ p x, T.eval n p = some x → T.eval (n + 1) p = some x) ∧
      ∀ name arg x, T.answer n name arg = some x → T.answer (n + 1) name arg = some x := by
  induction n with
  | zero =>
      refine ⟨?_, ?_⟩
      · intro p x h
        cases h
      · intro name arg x h
        cases h
  | succ n ih =>
      obtain ⟨iheval, ihanswer⟩ := ih
      refine ⟨?_, ?_⟩
      · intro p x h
        cases p with
        | done r => exact h
        | call name arg k =>
            rw [eval] at h ⊢
            cases hcall : T.answer n name arg with
            | none =>
                rw [hcall] at h
                cases h
            | some y =>
                rw [hcall] at h
                rw [ihanswer _ _ _ hcall]
                cases y with
                | error e => exact h
                | ok b => exact iheval _ _ h
      · intro name arg x h
        rw [answer] at h ⊢
        cases hbody : T.body name arg with
        | error e =>
            rw [hbody] at h
            exact h
        | ok p =>
            rw [hbody] at h
            obtain ⟨y, hy, rfl⟩ := Option.map_eq_some_iff.mp h
            exact Option.map_eq_some_iff.mpr ⟨y, iheval _ _ hy, rfl⟩

theorem eval_le {n m : ℕ} (h : n ≤ m) {p : Prog ν α β ρ} {x : Except ε ρ}
    (hx : T.eval n p = some x) : T.eval m p = some x := by
  induction h with
  | refl => exact hx
  | step _ ih => exact (eval_and_answer_mono _).1 _ _ ih

theorem answer_le {n m : ℕ} (h : n ≤ m) {name : ν} {arg : α} {x : Except ε β}
    (hx : T.answer n name arg = some x) : T.answer m name arg = some x := by
  induction h with
  | refl => exact hx
  | step _ ih => exact (eval_and_answer_mono _).2 _ _ _ ih

mutual

theorem Returns.eval {p : Prog ν α β ρ} {x : Except ε ρ} :
    T.Returns p x → ∃ n, T.eval n p = some x
  | .done r => ⟨1, rfl⟩
  | .told hb hk => by
      obtain ⟨n, hn⟩ := hb.answer
      obtain ⟨m, hm⟩ := hk.eval
      refine ⟨max n m + 1, ?_⟩
      rw [Procedures.eval, answer_le (Nat.le_max_left n m) hn]
      exact eval_le (Nat.le_max_right n m) hm
  | .unwound he => by
      obtain ⟨n, hn⟩ := he.answer
      refine ⟨n + 1, ?_⟩
      rw [Procedures.eval, hn]

theorem Answers.answer {name : ν} {arg : α} {x : Except ε β} :
    T.Answers name arg x → ∃ n, T.answer n name arg = some x
  | .refused h => ⟨1, by rw [Procedures.answer, h]⟩
  | .ran h hp => by
      obtain ⟨n, hn⟩ := hp.eval
      refine ⟨n + 1, ?_⟩
      rw [Procedures.answer, h]
      exact Option.map_eq_some_iff.mpr ⟨_, hn, rfl⟩

end

/-- The relation and the evaluator agree. -/
theorem answers_iff_answer {name : ν} {arg : α} {x : Except ε β} :
    T.Answers name arg x ↔ ∃ n, T.answer n name arg = some x := by
  constructor
  · intro h
    exact h.answer
  · rintro ⟨n, hn⟩
    exact (eval_and_answer_sound n).2 _ _ _ hn

/-! ## One table behind another -/

section Simulation
variable {ν' α' β' ρ' ε' : Type}

/-- How calls, answers and programs of two tables match.  Nothing is asked where the first
table ends in an error. -/
structure Simulation (T : Procedures ν α β ρ ε) (T' : Procedures ν' α' β' ρ' ε')
    (C : ν → α → ν' → α' → Prop) (B : β → β' → Prop)
    (R : Prog ν α β ρ → Prog ν' α' β' ρ' → Prop) : Prop where
  body : ∀ {n a n' a' p}, C n a n' a' → T.body n a = .ok p → ∃ p', T'.body n' a' = .ok p' ∧ R p p'
  done : ∀ {r p' b}, R (.done r) p' → T.deliver r = .ok b →
    ∃ r' b', p' = .done r' ∧ T'.deliver r' = .ok b' ∧ B b b'
  call : ∀ {n a k p' q}, R (.call n a k) p' → T.body n a = .ok q →
    ∃ n' a' k', p' = .call n' a' k' ∧ C n a n' a' ∧ ∀ {b b'}, B b b' → R (k b) (k' b')

variable {T' : Procedures ν' α' β' ρ' ε'} {C : ν → α → ν' → α' → Prop} {B : β → β' → Prop}
  {R : Prog ν α β ρ → Prog ν' α' β' ρ' → Prop}

theorem Answers.body_ok {name : ν} {arg : α} {x : Except ε β} (h : T.Answers name arg x) {b : β}
    (hx : x = .ok b) : ∃ p, T.body name arg = .ok p := by
  cases h with
  | refused _ => cases hx
  | ran h _ => exact ⟨_, h⟩

mutual

theorem Simulation.returns (S : Simulation T T' C B R) {p : Prog ν α β ρ} {x : Except ε ρ} :
    T.Returns p x → ∀ {r b p'}, x = .ok r → T.deliver r = .ok b → R p p' →
      ∃ r' b', T'.Returns p' (.ok r') ∧ T'.deliver r' = .ok b' ∧ B b b'
  | .done r, r₀, b, p', hx, hb, hR => by
      obtain rfl := Except.ok.inj hx
      obtain ⟨r', b', rfl, hb', hB⟩ := S.done hR hb
      exact ⟨r', b', .done r', hb', hB⟩
  | .told hcall hk, r₀, b, p', hx, hb, hR => by
      obtain ⟨q, hq⟩ := hcall.body_ok rfl
      obtain ⟨n', a', k', rfl, hC, hk'⟩ := S.call hR hq
      obtain ⟨b₁', hcall', hB₁⟩ := S.answers hcall rfl hC
      obtain ⟨r', b', hret, hb', hB⟩ := S.returns hk hx hb (hk' hB₁)
      exact ⟨r', b', .told hcall' hret, hb', hB⟩
  | .unwound _, r₀, b, p', hx, hb, hR => by cases hx

theorem Simulation.answers (S : Simulation T T' C B R) {n : ν} {a : α} {x : Except ε β} :
    T.Answers n a x → ∀ {b n' a'}, x = .ok b → C n a n' a' →
      ∃ b', T'.Answers n' a' (.ok b') ∧ B b b'
  | .refused _, b, n', a', hx, hC => by cases hx
  | .ran (x := .error e) _ _, b, n', a', hx, hC => by cases hx
  | .ran (x := .ok r) hbody hp, b, n', a', hx, hC => by
      obtain ⟨p', hbody', hR⟩ := S.body hC hbody
      obtain ⟨r', b', hret, hb', hB⟩ := S.returns hp rfl hx hR
      exact ⟨b', hb' ▸ .ran hbody' hret, hB⟩

end

end Simulation

end Procedures

end MettEagle
