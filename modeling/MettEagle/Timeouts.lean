/-
# `MettEagle.Timeouts` — how long an invocation waits for its worker

`timeout_us` is the budget of one invocation, counted from the start of its
worker.  A wait is `Bounded` by a budget if its receive timeout is finite and no
longer than what is left of the budget when the wait begins.

    first receive       bounded by the invocation's own budget, unless that is
                        0xFFFFFFFF and untouched, which the kernel takes for never
    reply-and-wait      never bounded: the compound call is given L4_IPC_NEVER
    inside a nested     bounded by an enclosing budget only if it is bounded by its
    invocation          own one and that has no more left: nothing is handed down

Where all waits of and inside an invocation are bounded by its budget, they all
end within it, and as they follow one another it is what they last in all.
-/
import MettEagle.ServerLoop
import Mathlib.Order.Monotone.Basic

namespace MettEagle

open Act

/-! ## Budgets -/

/-- What is documented of `l4_timeout_from_us`: it never rounds up, and only `0xFFFFFFFF` means
never. -/
structure TimeoutSpec (fromUs : UInt32 → Timeout) : Prop where
  atMost : ∀ u, u ≠ 0xFFFFFFFF → ∃ n, fromUs u = .us n ∧ n ≤ u.toNat
  never : fromUs 0xFFFFFFFF = .never

/-- What is left at `t` of a budget of `T` microseconds opened at `start`. -/
def remaining (T : UInt32) (start t : ℕ) : Int := T.toNat - passedUs start t

/-- The receive timeout is finite and fits into the budget. -/
def Bounded (T : UInt32) (start : ℕ) (rcv : Timeout) (t : ℕ) : Prop :=
  ∃ n : ℕ, rcv = .us n ∧ (n : Int) ≤ remaining T start t

/-- The kernel would take the budget for no budget at all. -/
def LooksUnlimited (T : UInt32) (start t : ℕ) : Prop := remaining T start t = 0xFFFFFFFF

instance (T : UInt32) (start t : ℕ) : Decidable (LooksUnlimited T start t) :=
  inferInstanceAs (Decidable (_ = _))

/-- A budget looks unlimited only if it is the largest one and nothing of it is used up. -/
theorem looksUnlimited_iff {T : UInt32} {start t : ℕ} (h : start ≤ t) :
    LooksUnlimited T start t ↔ T = 0xFFFFFFFF ∧ passedUs start t = 0 := by
  have hpos := passedUs_nonneg h
  have hmax := T.toNat_lt
  simp only [LooksUnlimited, remaining]
  constructor
  · intro heq
    have hT : T.toNat = 0xFFFFFFFF := by omega
    exact ⟨UInt32.toNat_inj.mp hT, by omega⟩
  · rintro ⟨rfl, hp⟩
    rw [hp]
    rfl

theorem not_bounded_never (T : UInt32) (start t : ℕ) : ¬Bounded T start .never t := by
  rintro ⟨n, hn, _⟩
  cases hn

section
variable {P : Platform} (hspec : TimeoutSpec P.timeoutFromUs)
include hspec

/-- **`check_timeout`.**  What it returns is bounded by the budget, unless the budget looks
unlimited. -/
theorem budget_bounded_iff {T : UInt32} {start t : ℕ} (hle : start ≤ t)
    (hlive : ¬Expired start T t) :
    Bounded T start (budget P start T t) t ↔ ¬LooksUnlimited T start t := by
  have hpos := passedUs_nonneg hle
  have hmax := T.toNat_lt
  have hrem : 0 ≤ remaining T start t := by
    simp only [Expired] at hlive
    simp only [remaining]
    omega
  have hlt : (remaining T start t).toNat < 2 ^ 32 := by
    simp only [remaining] at hrem ⊢
    omega
  -- the conversion to 32 bits loses nothing
  have hnat : (UInt32.ofNat (remaining T start t).toNat).toNat = (remaining T start t).toNat :=
    UInt32.toNat_ofNat_of_lt' hlt
  show Bounded T start (P.timeoutFromUs (UInt32.ofNat (remaining T start t).toNat)) t ↔ _
  constructor
  · intro hb hun
    have harg : UInt32.ofNat (remaining T start t).toNat = 0xFFFFFFFF := by
      rw [hun]
      rfl
    rw [harg, hspec.never] at hb
    exact not_bounded_never _ _ _ hb
  · intro hun
    have harg : UInt32.ofNat (remaining T start t).toNat ≠ 0xFFFFFFFF := by
      intro heq
      have h := congrArg UInt32.toNat heq
      rw [hnat] at h
      refine hun ?_
      show remaining T start t = 0xFFFFFFFF
      have hc : (0xFFFFFFFF : UInt32).toNat = 0xFFFFFFFF := rfl
      omega
    obtain ⟨n, hn, hle'⟩ := hspec.atMost _ harg
    refine ⟨n, hn, ?_⟩
    rw [hnat] at hle'
    omega

end

/-! ## The waits of one server loop -/

section Loop
variable {P : Platform} {base : ManagerBase} {own : List Frame} {cfg : Config} {start : ℕ}
  {ending : Ending} {w : World}

theorem serverLoop_timesOut (h : TimesOut P cfg start w) (script : List Rpc)
    (reply : Option Reply) (epi : WorkerEpiface) :
    serverLoop P own cfg start ending script reply epi w =
      ⟨.error (.thrown workerTimeout), w.tick, []⟩ := by
  have hw : wait P own cfg start reply w = ⟨.error (.thrown workerTimeout), w.tick, []⟩ := by
    rw [wait_apply, if_pos h]
  cases script with
  | nil =>
      rw [serverLoop]
      exact bind_of_error hw
  | cons m rest =>
      rw [serverLoop]
      exact bind_of_error hw

/-- **Step.**  In time, the loop waits once; it waits again only behind a message that was
answered, and then as the loop that begins with that reply. -/
theorem serverLoop_waits (ending : Ending) (h : ¬TimesOut P cfg start w) (epi : WorkerEpiface)
    (hb : epi.toManagerBase = base) (ha : epi.worker.alive = true) (script : List Rpc)
    (reply : Option Reply) :
    ∃ o, (serverLoop P own cfg start ending script reply epi w).obs =
        .wait own reply (rcvTimeout P cfg start reply (P.clock w.ticks)) (checkedAt P cfg w) :: o ∧
      ∀ reply' rcv t, .wait own reply' rcv t ∈ o ↔
        ∃ m rest r w', script = m :: rest ∧ Answered P base own m (afterCheck cfg w) r w' ∧
          .wait own reply' rcv t ∈
            (serverLoop P own cfg start ending rest (some r) epi w').obs := by
  have hw := wait_apply P own cfg start reply w
  rw [if_neg h] at hw
  cases script with
  | nil =>
      rw [serverLoop, bind_of_ok hw]
      rcases noMessage_cases ending (rcvTimeout P cfg start reply (P.clock w.ticks))
        (afterCheck cfg w) with ⟨code, hno⟩ | hno
      · exact ⟨[], by rw [hno]; rfl, by simp⟩
      · exact ⟨[], by rw [hno]; rfl, by simp⟩
  | cons m rest =>
      rw [serverLoop, bind_of_ok hw]
      have hnone : ∀ {o : List Obs}, (∀ x ∈ o, Obs.Below own x) → ∀ {reply' rcv t},
          ¬Obs.wait own reply' rcv t ∈ o :=
        fun hbelow _ _ _ hmem => not_below_self own _ _ _ (hbelow _ hmem)
      obtain ⟨o, hbelow, ⟨s, w', hd⟩ | ⟨r, epi', hdead, hd⟩ | ⟨r, w', hans, hd⟩⟩ :=
        dispatch_cases (P := P) own m hb (afterCheck cfg w)
      · refine ⟨o, by rw [bind_of_error hd]; rfl, fun reply' rcv t => ⟨fun hmem => ?_, ?_⟩⟩
        · exact absurd hmem (hnone hbelow)
        · rintro ⟨_, _, r, w₂, ⟨rfl, rfl⟩, hans, _⟩
          have hout := (hans.out hb).1
          rw [hd] at hout
          cases hout
      · refine ⟨o, ?_, fun reply' rcv t => ⟨fun hmem => ?_, ?_⟩⟩
        · rw [bind_of_ok hd, if_neg (by rw [hdead]; exact Bool.false_ne_true)]
          simp [Out.after]
        · exact absurd hmem (hnone hbelow)
        · rintro ⟨_, _, r, w₂, ⟨rfl, rfl⟩, hans, _⟩
          have hout := (hans.out hb).1
          rw [hd] at hout
          cases hout
          rw [ha] at hdead
          cases hdead
      · refine ⟨o ++ (serverLoop P own cfg start ending rest (some r) epi w').obs, ?_,
          fun reply' rcv t => ⟨fun hmem => ?_, ?_⟩⟩
        · rw [bind_of_ok hd, if_pos ha]
          rfl
        · rcases List.mem_append.mp hmem with hmem | hmem
          · exact absurd hmem (hnone hbelow)
          · exact ⟨m, rest, r, w', rfl, hans, hmem⟩
        · rintro ⟨_, _, r₂, w₂, ⟨rfl, rfl⟩, hans₂, hmem⟩
          have hout := hans₂.out hb
          rw [hd] at hout
          obtain ⟨hres, rfl⟩ := hout
          cases hres
          exact List.mem_append_right _ hmem

end Loop

/-! ## One invocation -/

theorem finish_obs (P : Platform) (req : InvokeReq) (start : ℕ) (epi : WorkerEpiface) (w : World) :
    (finish P req start epi w).obs = [] := by
  rcases finish_cases P req start epi w with ⟨e, _, h⟩ | ⟨reply, h⟩
  · rw [h]
  · rw [h]

section Invocation
variable {P : Platform} {base : ManagerBase} {fs : List Frame} {req : InvokeReq} {env : Env}
  {script : List Rpc} {w : World}

/-- The invocation's own waits are those of its loop, which runs if the launch succeeds. -/
theorem own_wait_mem_iff {reply : Option Reply} {rcv : Timeout} {t : ℕ} :
    .wait (req.stack (P.clock w.ticks) fs) reply rcv t ∈
        (opActionInvoke P base fs req env script w).obs ↔
      (prepare P base fs req env w).res = .ok (P.clock w.ticks) ∧
        .wait (req.stack (P.clock w.ticks) fs) reply rcv t ∈
          (serverLoop P (req.stack (P.clock w.ticks) fs) req.cfg (P.clock w.ticks) env.ending script
            none { toManagerBase := base } w.tick).obs := by
  obtain ⟨o, hquiet, ⟨e, w', hp⟩ | hp⟩ := prepare_cases P base fs req env w
  · rw [opActionInvoke_eq, bind_of_error hp, hp]
    constructor
    · intro hmem
      exact absurd (hquiet _ hmem) Bool.noConfusion
    · rintro ⟨hok, _⟩
      cases hok
  · rw [opActionInvoke_eq, bind_of_ok hp, Out.after_obs, bind_obs_of_silent _ (finish_obs P req _),
      hp, List.mem_append]
    constructor
    · rintro (hmem | hmem)
      · exact absurd (hquiet _ hmem) Bool.noConfusion
      · exact ⟨rfl, hmem⟩
    · rintro ⟨_, hmem⟩
      exact Or.inr hmem

/-- Every wait the invocation's own server loop performs is bounded by what is left of
`timeout_us` at that moment. -/
def OwnWaitsBounded (P : Platform) (base : ManagerBase) (fs : List Frame) (req : InvokeReq)
    (env : Env) (script : List Rpc) (w : World) : Prop :=
  ∀ reply rcv t, .wait (req.stack (P.clock w.ticks) fs) reply rcv t ∈
      (opActionInvoke P base fs req env script w).obs →
    Bounded req.cfg.timeoutUs (P.clock w.ticks) rcv t

/-- If the worker is launched and there is time for the first receive, then the budget does
not look unlimited there, and no reply to the worker's first message is due in time: it
ends the worker, or it is a nested invocation that fails, or the time is used up. -/
def OnlyFirstReceive (P : Platform) (base : ManagerBase) (fs : List Frame) (req : InvokeReq)
    (env : Env) (script : List Rpc) (w : World) : Prop :=
  (prepare P base fs req env w).res = .ok (P.clock w.ticks) →
  ¬TimesOut P req.cfg (P.clock w.ticks) w.tick →
    ¬LooksUnlimited req.cfg.timeoutUs (P.clock w.ticks) (P.clock w.tick.ticks) ∧
    ∀ m rest r w', script = m :: rest →
      Answered P base (req.stack (P.clock w.ticks) fs) m w.tick.tick r w' →
      TimesOut P req.cfg (P.clock w.ticks) w'

/-- **Own budget.**  The loop's own waits are bounded exactly when there is no more than the
first one, and that one's budget does not look unlimited. -/
theorem ownWaitsBounded_iff (hclock : Monotone P.clock) (hspec : TimeoutSpec P.timeoutFromUs)
    (hT : req.cfg.timeoutUs ≠ 0) :
    OwnWaitsBounded P base fs req env script w ↔ OnlyFirstReceive P base fs req env script w := by
  have hle : P.clock w.ticks ≤ P.clock w.tick.ticks := hclock (Nat.le_succ _)
  have hcheck : afterCheck req.cfg w.tick = w.tick.tick := if_neg hT
  have hnow : checkedAt P req.cfg w.tick = P.clock w.tick.ticks := if_neg hT
  have hfirst : rcvTimeout P req.cfg (P.clock w.ticks) none (P.clock w.tick.ticks) =
      budget P (P.clock w.ticks) req.cfg.timeoutUs (P.clock w.tick.ticks) := if_neg hT
  simp only [OwnWaitsBounded, own_wait_mem_iff]
  constructor
  · intro hall hprep htime
    obtain ⟨o, hobs, hnext⟩ := serverLoop_waits env.ending htime { toManagerBase := base } rfl
      rfl script none
    rw [hobs, hfirst, hnow] at hall
    rw [hcheck] at hnext
    refine ⟨(budget_bounded_iff hspec hle fun hx => htime ⟨hT, hx⟩).mp
      (hall none _ _ ⟨hprep, List.mem_cons_self⟩), fun m rest r w' hscript hans => ?_⟩
    -- a reply in time would go with a wait that is not bounded
    by_contra hlate
    obtain ⟨o', hobs', _⟩ := serverLoop_waits env.ending hlate { toManagerBase := base } rfl
      rfl rest (some r)
    have hmem := (hnext (some r) .never _).mpr
      ⟨m, rest, r, w', hscript, hans, by rw [hobs']; exact List.mem_cons_self⟩
    exact not_bounded_never _ _ _ (hall _ _ _ ⟨hprep, List.mem_cons_of_mem _ hmem⟩)
  · rintro hcond reply rcv t ⟨hprep, hmem⟩
    by_cases htime : TimesOut P req.cfg (P.clock w.ticks) w.tick
    · rw [serverLoop_timesOut htime] at hmem
      cases hmem
    · obtain ⟨hun, hlate⟩ := hcond hprep htime
      obtain ⟨o, hobs, hnext⟩ := serverLoop_waits env.ending htime { toManagerBase := base }
        rfl rfl script none
      rw [hobs, hfirst, hnow] at hmem
      rw [hcheck] at hnext
      rcases List.mem_cons.mp hmem with heq | hmem
      · cases heq
        exact (budget_bounded_iff hspec hle fun hx => htime ⟨hT, hx⟩).mpr hun
      · obtain ⟨m, rest, r, w', hscript, hans, hmem'⟩ := (hnext _ _ _).mp hmem
        rw [serverLoop_timesOut (hlate m rest r w' hscript hans)] at hmem'
        cases hmem'

end Invocation

theorem platform₀_clock : Monotone platform₀.clock := fun _ _ h => Nat.mul_le_mul_left 1000 h

theorem platform₀_spec : TimeoutSpec platform₀.timeoutFromUs where
  atMost := fun u hu => ⟨u.toNat, if_neg hu, le_refl _⟩
  never := rfl

/-- The worker of `f` has five microseconds, sends a signal after three and then nothing. -/
def limited : InvokeReq := { name := nameF, retLength := 2, cfg := { timeoutUs := 5 } }

theorem ownWaitsBounded_fails :
    ¬∀ (P : Platform) (base : ManagerBase) (fs : List Frame) (req : InvokeReq) (env : Env)
      (script : List Rpc) (w : World), Monotone P.clock → TimeoutSpec P.timeoutFromUs →
      req.cfg.timeoutUs ≠ 0 → OwnWaitsBounded P base fs req env script w := by
  intro h
  have hb := h platform₀ base₀ [] limited {} [.signal 1 0] world₀ platform₀_clock platform₀_spec
    (by decide)
  exact not_bounded_never _ _ _ (hb (some { label := l4EOk }) .never 2000 (by decide))

/-- A worker that only exits is waited for once. -/
theorem ownWaitsBounded_iff_exit :
    OwnWaitsBounded platform₀ base₀ [] limited {} [.exit nameG {}] world₀ :=
  (ownWaitsBounded_iff platform₀_clock platform₀_spec (by decide)).mpr fun _ _ => by
    refine ⟨by decide, fun m rest r w' hscript hans => ?_⟩
    cases hscript
    cases hans

/-! ## Nested invocations

Every wait of a run happens on a stack: the invocation it belongs to, and the ones that
enclose it. -/

/-- If the observation is a wait, it ends within the budget of every limited invocation of its
stack: of the one it belongs to, and of every enclosing one. -/
def Obs.InBudget : Obs → Prop
  | .wait fs _ rcv t => ∀ f ∈ fs, f.timeoutUs ≠ 0 → f.start ≤ t ∧ Bounded f.timeoutUs f.start rcv t
  | _ => True

/-- The step keeps away from the two defects: a wait of or inside a limited invocation replies
to nothing, and the invocation it belongs to has a budget of its own, which does not look
unlimited and has no more left than any limited enclosing one. -/
def Obs.Within : Obs → Prop
  | .wait (g :: fs) reply _ t => ∀ f ∈ g :: fs, f.timeoutUs ≠ 0 →
      reply = none ∧ g.timeoutUs ≠ 0 ∧ ¬LooksUnlimited g.timeoutUs g.start t ∧
        remaining g.timeoutUs g.start t ≤ remaining f.timeoutUs f.start t
  | _ => True

instance : DecidablePred Obs.Within
  | .wait (g :: fs) _ _ _ => inferInstanceAs (Decidable (∀ f ∈ g :: fs, _ → _))
  | .wait [] _ _ _ => isTrue trivial
  | .refused _ => isTrue trivial
  | .gone _ => isTrue trivial
  | .resolved _ _ _ _ _ => isTrue trivial
  | .launch _ _ _ _ => isTrue trivial
  | .log _ _ => isTrue trivial

theorem Bounded.mono {T T' : UInt32} {start start' t : ℕ} {rcv : Timeout}
    (h : Bounded T' start' rcv t) (hle : remaining T' start' t ≤ remaining T start t) :
    Bounded T start rcv t := by
  obtain ⟨n, hn, hrem⟩ := h
  exact ⟨n, hn, le_trans hrem hle⟩

/-- The rules of a run whose clock does not go back: every invocation on the stack was started
in the past, and a wait within the limits ends within the budgets. -/
theorem nestingRules {P : Platform} (hclock : Monotone P.clock)
    (hspec : TimeoutSpec P.timeoutFromUs) (base : ManagerBase) (fs₀ : List Frame) :
    LoopRules P base fs₀ (fun fs w => ∀ f ∈ fs, f.start ≤ P.clock w.ticks) (fun _ => True)
      (Report.all fun x => x.Within → x.InBudget) := by
  refine .ofWaits (fun x hx _ => ?_) (fun _ h f hf => h f (List.mem_cons_of_mem _ hf))
    (fun _ => trivial) (fun h f hf => le_trans (h f hf) (hclock (Nat.le_succ _)))
    (fun T h f hf => ?_) fun {g fs w cfg} reply _ hI hT htime => ?_
  · cases x with
    | wait fs reply rcv t => cases hx
    | refused name => trivial
    | gone name => trivial
    | resolved base fs name obj lang => trivial
    | launch base fs ds arg => trivial
    | log sev msg => trivial
  · rcases List.mem_cons.mp hf with rfl | hf
    · exact hclock (Nat.le_succ _)
    · exact le_trans (h f hf) (hclock (Nat.le_succ _))
  · intro hwithin f hf hlim
    obtain ⟨rfl, hg, hun, hle⟩ := hwithin f hf hlim
    have hcfg : cfg.timeoutUs ≠ 0 := hT ▸ hg
    have hnow : checkedAt P cfg w = P.clock w.ticks := if_neg hcfg
    have hrcv : rcvTimeout P cfg g.start none (P.clock w.ticks) =
        budget P g.start g.timeoutUs (P.clock w.ticks) := by
      rw [← hT]
      exact if_neg hcfg
    rw [hnow] at hun hle ⊢
    rw [hrcv]
    have hown := (budget_bounded_iff hspec (hI g List.mem_cons_self) fun hx =>
      htime ⟨hcfg, hT ▸ hx⟩).mpr hun
    exact ⟨hI f hf, hown.mono hle⟩

/-! ## What the waits of an invocation last in all -/

/-- The waits with `f` on their stack: when each begins, and its receive timeout. -/
def waitsOn (f : Frame) (obs : List Obs) : List (ℕ × Timeout) :=
  obs.filterMap fun
    | .wait fs _ rcv t => if f ∈ fs then some (t, rcv) else none
    | _ => none

theorem mem_waitsOn {f : Frame} {obs : List Obs} {t : ℕ} {rcv : Timeout} :
    (t, rcv) ∈ waitsOn f obs ↔ ∃ fs reply, f ∈ fs ∧ .wait fs reply rcv t ∈ obs := by
  simp only [waitsOn, List.mem_filterMap]
  constructor
  · rintro ⟨x, hx, heq⟩
    cases x with
    | wait fs reply rcv' t' =>
        obtain ⟨hf, heq⟩ := Option.ite_none_right_eq_some.mp heq
        cases heq
        exact ⟨fs, reply, hf, hx⟩
    | _ => cases heq
  · rintro ⟨fs, reply, hf, hx⟩
    exact ⟨_, hx, if_pos hf⟩

/-- How long waits can last, in nanoseconds: none longer than its receive timeout, and each is
over when the next one begins. -/
inductive Lasting : List (ℕ × Timeout) → List ℕ → Prop
  | nil : Lasting [] []
  | cons {t d : ℕ} {rcv : Timeout} {ws : List (ℕ × Timeout)} {ds : List ℕ} :
      (∀ n, rcv = .us n → d ≤ 1000 * n) → (∀ x ∈ ws.head?, t + d ≤ x.1) → Lasting ws ds →
      Lasting ((t, rcv) :: ws) (d :: ds)

/-- Waits that begin after `lo` and must end before `hi` last no longer than from `lo` to `hi`. -/
theorem Lasting.sum_le {ws : List (ℕ × Timeout)} {ds : List ℕ} (h : Lasting ws ds) {hi : ℕ}
    (hends : ∀ x ∈ ws, ∃ n, x.2 = .us n ∧ x.1 + 1000 * n ≤ hi) :
    ∀ {lo : ℕ}, lo ≤ hi → (∀ x ∈ ws.head?, lo ≤ x.1) → lo + ds.sum ≤ hi := by
  induction h with
  | nil => exact fun hle _ => hle
  | @cons t d rcv ws ds hd hnext _ ih =>
      intro lo _ hlo
      obtain ⟨n, hn, hend⟩ := hends _ List.mem_cons_self
      have hstart : lo ≤ t := hlo _ rfl
      have hover : t + d ≤ hi := (Nat.add_le_add_left (hd n hn) t).trans hend
      -- the next wait begins no earlier than this one is over
      have hrest := ih (fun x hx => hends x (List.mem_cons_of_mem _ hx)) hover hnext
      rw [List.sum_cons]
      omega

/-- A wait that fits into a budget is over before the microsecond behind it is. -/
theorem Bounded.ends {T : UInt32} {start t : ℕ} {rcv : Timeout} (hle : start ≤ t)
    (h : Bounded T start rcv t) :
    ∃ n, rcv = .us n ∧ t + 1000 * n ≤ start + (1000 * T.toNat + 999) := by
  obtain ⟨n, hn, hrem⟩ := h
  refine ⟨n, hn, ?_⟩
  rw [remaining, passedUs_of_le hle] at hrem
  omega

/-- Timeouts compose over nesting. -/
structure Budgeted (obs : List Obs) : Prop where
  inBudget : ∀ x ∈ obs, x.InBudget
  /-- The waits of a limited invocation and of the ones nested in it last, in whole
  microseconds, no longer than its `timeout_us` in all. -/
  total : ∀ (f : Frame) (ds : List ℕ), f.timeoutUs ≠ 0 → Lasting (waitsOn f obs) ds →
    ds.sum / 1000 ≤ f.timeoutUs.toNat

/-- If every wait ends within the budgets, the budgets are kept in all. -/
theorem Budgeted.of_inBudget {obs : List Obs} (h : ∀ x ∈ obs, x.InBudget) : Budgeted obs where
  inBudget := h
  total := by
    intro f ds hlim hlast
    have hwait : ∀ x ∈ waitsOn f obs, f.start ≤ x.1 ∧ Bounded f.timeoutUs f.start x.2 x.1 := by
      rintro ⟨t, rcv⟩ hx
      obtain ⟨fs, reply, hf, hmem⟩ := mem_waitsOn.mp hx
      exact h _ hmem f hf hlim
    have hsum := hlast.sum_le (fun x hx => (hwait x hx).2.ends (hwait x hx).1)
      (Nat.le_add_right f.start _) fun x hx => (hwait x (List.mem_of_mem_head? hx)).1
    omega

/-- **Nested budgets.**  In every run of a client's invocation whose waits keep within the
limits, every wait ends within its own budget and all enclosing ones, and no limited invocation
waits longer than its `timeout_us` in all. -/
theorem nested_waits_bounded {P : Platform} (hclock : Monotone P.clock)
    (hspec : TimeoutSpec P.timeoutFromUs) (base : ManagerBase) (req : InvokeReq) (env : Env)
    (script : List Rpc) (w : World)
    (hwithin : ∀ x ∈ (opActionInvoke P base [] req env script w).obs, x.Within) :
    Budgeted (opActionInvoke P base [] req env script w).obs := by
  refine .of_inBudget fun x hx => ?_
  have hrun := (nestingRules hclock hspec base []).run req env script w
    (fun f hf => absurd hf List.not_mem_nil)
  exact hrun.1 x hx (hwithin x hx)

/-- `f` has five microseconds and invokes itself with the default `Config`; the inner worker
is silent, and is waited for without bound. -/
theorem nested_waits_bounded_fails :
    ¬∀ (P : Platform) (base : ManagerBase) (req : InvokeReq) (env : Env) (script : List Rpc)
      (w : World), Monotone P.clock → TimeoutSpec P.timeoutFromUs →
      Budgeted (opActionInvoke P base [] req env script w).obs := by
  intro h
  have hb := h platform₀ base₀ limited {} [.invoke { name := nameF } {} []] world₀ platform₀_clock
    platform₀_spec
  have hwait := hb.inBudget (.wait [⟨2000, 0⟩, ⟨0, 5⟩] none .never 2000) (by decide) ⟨0, 5⟩
    (by decide) (by decide)
  exact not_bounded_never _ _ _ hwait.2

/-- The inner invocation asks for less than what is left, and its worker only exits; the reply
to the outer worker is due too late. -/
theorem nested_waits_bounded_within :
    Budgeted (opActionInvoke platform₀ base₀ [] { limited with cfg := { timeoutUs := 4 } } {}
      [.invoke { name := nameF, retLength := 2, cfg := { timeoutUs := 2 } } {} [.exit nameG {}]]
      world₀).obs :=
  nested_waits_bounded platform₀_clock platform₀_spec base₀ _ {} _ world₀ (by decide)

end MettEagle
