/-
# `MettEagle.ServerLoop` — the loop that serves one worker, as a state machine

`op_action_invoke` waits for its worker, answers, waits again, and stops at the
first message that ends the worker.  Two relations describe the part of a run
that comes before that message:

    Answered   one message that does not end the worker, and its reply
    Serves     a list of such messages, none of them met by a timeout

What the worker hears is read off the run: `ownReplies own` lists the waits of
the invocation whose stack is `own` by the reply each one carries.  The waits of
nested invocations are on longer stacks and do not show there.

    exit (v) or signal (0, c) after `Serves`     the outcome of the whole invocation,
                                                 whatever the worker would send later
    a nested invocation that throws, there       the same exception leaves the
                                                 enclosing invocation, unanswered
-/
import MettEagle.InvokeSpec

namespace MettEagle

open Act

/-! ## What a worker hears -/

/-- The waits of the invocation `own`, by the reply they carry. -/
def ownReplies (own : List Frame) (o : List Obs) : List (Option Reply) :=
  o.filterMap fun
    | .wait gs reply _ _ => if gs = own then some reply else none
    | _ => none

@[simp] theorem ownReplies_append (own : List Frame) (o₁ o₂ : List Obs) :
    ownReplies own (o₁ ++ o₂) = ownReplies own o₁ ++ ownReplies own o₂ :=
  List.filterMap_append

@[simp] theorem ownReplies_wait (own : List Frame) (reply : Option Reply) (rcv : Timeout) (t : ℕ) :
    ownReplies own [.wait own reply rcv t] = [reply] := by
  simp [ownReplies]

theorem not_below_self (own : List Frame) (reply : Option Reply) (rcv : Timeout) (t : ℕ) :
    ¬Obs.Below own (.wait own reply rcv t) := by
  rintro ⟨g, gs, hown, hsuf⟩
  have hlen := hsuf.length_le
  rw [hown, List.length_cons] at hlen
  omega

theorem ownReplies_of_below {own : List Frame} {o : List Obs} (h : ∀ x ∈ o, Obs.Below own x) :
    ownReplies own o = [] := by
  refine List.filterMap_eq_nil_iff.mpr fun x hx => ?_
  cases x with
  | wait gs reply rcv t =>
      refine if_neg fun hgs => ?_
      subst hgs
      exact not_below_self gs reply rcv t (h _ hx)
  | refused name => rfl
  | gone name => rfl
  | resolved base fs name obj lang => rfl
  | launch base fs ds arg => rfl
  | log sev msg => rfl

theorem below_of_logs {own : List Frame} {o : List Obs} (h : ∀ x ∈ o, ∃ sev m, x = .log sev m) :
    ∀ x ∈ o, Obs.Below own x := by
  intro x hx
  obtain ⟨sev, m, rfl⟩ := h x hx
  trivial

section
variable (P : Platform)

/-! ## From the entry to the launch -/

/-- The stack while the server loop of `req` runs. -/
abbrev InvokeReq.stack (req : InvokeReq) (start : ℕ) (fs : List Frame) : List Frame :=
  ⟨start, req.cfg.timeoutUs⟩ :: fs

/-- The part of `op_action_invoke` before its server loop. -/
def prepare (base : ManagerBase) (fs : List Frame) (req : InvokeReq) (env : Env) : M ℕ :=
  findAction base fs env.alive req.name >>= startWorker P base fs req env

theorem opActionInvoke_eq (base : ManagerBase) (fs : List Frame) (req : InvokeReq) (env : Env)
    (script : List Rpc) :
    opActionInvoke P base fs req env script =
      (prepare P base fs req env >>= fun start =>
        serverLoop P (req.stack start fs) req.cfg start env.ending script none
          { toManagerBase := base } >>= finish P req start) := by
  rw [prepare, Act.bind_assoc]
  rfl

/-- What the preparation can do: fail at the lookup, at a guard behind it, or get as far as the
launch, which can fail. -/
inductive Prepared (base : ManagerBase) (fs : List Frame) (req : InvokeReq) (env : Env)
    (w : World) : Out World Obs Stop ℕ → Prop
  | unknown : (w.maps base.actions).lookup req.name = none →
      Prepared base fs req env w
        ⟨.error (.thrown (unknownAction req.name)), w, [.refused req.name]⟩
  | gone {a : Action} : (w.maps base.actions).lookup req.name = some a →
      w.validate env.alive a.ds = none →
      Prepared base fs req env w ⟨.error (.thrown goneAction), w, [.gone req.name]⟩
  | stopped {a : Action} {obj : Object} {e : Exn} :
      (w.maps base.actions).lookup req.name = some a →
      w.validate env.alive a.ds = some obj → e.Plain →
      Prepared base fs req env w
        ⟨.error (.thrown e), w, [.resolved base fs req.name obj a.lang]⟩
  | launched {a : Action} {obj : Object} {ds : Option Slot} {r : Except Stop ℕ} :
      (w.maps base.actions).lookup req.name = some a →
      w.validate env.alive a.ds = some obj → workerDs a env.python w = ⟨.ok ds, w, []⟩ →
      r = .ok (P.clock w.ticks) ∨ (∃ e, Exn.Plain e ∧ r = .error (.thrown e)) →
      Prepared base fs req env w ⟨r, w.tick, [.resolved base fs req.name obj a.lang,
        .launch base (⟨P.clock w.ticks, req.cfg.timeoutUs⟩ :: fs) ds req.arg]⟩

theorem prepared (base : ManagerBase) (fs : List Frame) (req : InvokeReq) (env : Env)
    (w : World) : Prepared P base fs req env w (prepare P base fs req env w) := by
  rw [prepare]
  cases hl : (w.maps base.actions).lookup req.name with
  | none =>
      rw [bind_of_error (findAction_unknown fs env.alive hl)]
      exact .unknown hl
  | some a =>
      have hf := findAction_found fs env.alive hl
      cases hv : w.validate env.alive a.ds with
      | none =>
          rw [hv] at hf
          rw [bind_of_error hf]
          exact .gone hl hv
      | some obj =>
          rw [hv] at hf
          rw [bind_of_ok hf]
          rcases startWorker_cases P base fs req env a w with
            ⟨e, he, h⟩ | ⟨e, ds, he, hds, h⟩ | ⟨ds, hds, h⟩
          · rw [h]
            exact .stopped hl hv he
          · rw [h]
            exact .launched hl hv hds (Or.inr ⟨e, he, rfl⟩)
          · rw [h]
            exact .launched hl hv hds (Or.inl rfl)

/-- The preparation waits for nobody; if it returns, it read the clock once. -/
theorem prepare_cases (base : ManagerBase) (fs : List Frame) (req : InvokeReq) (env : Env)
    (w : World) :
    ∃ o, (∀ x ∈ o, x.isWait = false) ∧
      ((∃ e w', prepare P base fs req env w = ⟨.error (.thrown e), w', o⟩) ∨
        prepare P base fs req env w = ⟨.ok (P.clock w.ticks), w.tick, o⟩) := by
  have h := prepared P base fs req env w
  generalize prepare P base fs req env w = out at h ⊢
  cases h with
  | unknown _ =>
      refine ⟨_, ?_, Or.inl ⟨_, _, rfl⟩⟩
      exact List.forall_mem_singleton.mpr rfl
  | gone _ _ =>
      refine ⟨_, ?_, Or.inl ⟨_, _, rfl⟩⟩
      exact List.forall_mem_singleton.mpr rfl
  | stopped _ _ _ =>
      refine ⟨_, ?_, Or.inl ⟨_, _, rfl⟩⟩
      exact List.forall_mem_singleton.mpr rfl
  | launched _ _ _ hr =>
      rcases hr with rfl | ⟨e, -, rfl⟩
      · refine ⟨_, ?_, Or.inr rfl⟩
        simp [Obs.isWait]
      · refine ⟨_, ?_, Or.inl ⟨_, _, rfl⟩⟩
        simp [Obs.isWait]

theorem prepare_of_ok {P : Platform} {base : ManagerBase} {fs : List Frame} {req : InvokeReq}
    {env : Env} {w : World} {start : ℕ} (h : (prepare P base fs req env w).res = .ok start) :
    prepare P base fs req env w =
        ⟨.ok (P.clock w.ticks), w.tick, (prepare P base fs req env w).obs⟩ := by
  obtain ⟨o, _, ⟨e, w', herr⟩ | hok⟩ := prepare_cases P base fs req env w
  · rw [herr] at h
    cases h
  · rw [hok]

/-! ## Messages that end the worker -/

theorem dispatch_exit {P : Platform} (own : List Frame) (value : CString) (data : WorkerMetadata)
    (epi : WorkerEpiface) (w : World) :
    MettEagle.dispatch P own (.exit value data) epi w =
      ⟨.ok ({ label := -l4ENoReply }, (opExit epi value data).2), w, []⟩ := by
  rw [MettEagle.dispatch]
  rfl

theorem dispatch_signal_exit {P : Platform} (own : List Frame) (code : UInt64)
    (epi : WorkerEpiface) (w : World) :
    ∃ o, MettEagle.dispatch P own (.signal 0 code) epi w =
        ⟨.ok ({ label := -l4ENoReply }, { epi with worker := epi.worker.exitInt (exitCode code) }),
          w, o⟩ ∧
      ∀ x ∈ o, Obs.Below own x := by
  obtain ⟨o, ho, hlog⟩ := opSignal_exit P epi code w
  refine ⟨o, ?_, below_of_logs hlog⟩
  rw [MettEagle.dispatch, bind_of_ok ho]
  simp [Out.after]

/-! ## Messages that do not end the worker -/

/-- The message `m`, dispatched at `w`, is answered with the reply and leaves the world
`w'`. -/
inductive Answered (base : ManagerBase) (own : List Frame) :
    Rpc → World → Reply → World → Prop
  | signal {sig val : UInt64} {w : World} :
      sig ≠ 0 → Answered base own (.signal sig val) w { label := l4EOk } w
  | reject {label : Int} {w : World} :
      Answered base own (.reject label) w { label := label } w
  | invoke {req : InvokeReq} {env : Env} {script : List Rpc} {w w' : World} {reply : Reply}
      {o : List Obs} : opActionInvoke P base own req env script w = ⟨.ok reply, w', o⟩ →
      Answered base own (.invoke req env script) w reply w'

/-- The messages are answered one after the other with the replies, each wait in time. -/
inductive Serves (base : ManagerBase) (own : List Frame) (cfg : Config) (start : ℕ) :
    List Rpc → World → List Reply → World → Prop
  | nil (w : World) : Serves base own cfg start [] w [] w
  | cons {m : Rpc} {rest : List Rpc} {r : Reply} {rs : List Reply} {w w' w'' : World} :
      ¬TimesOut P cfg start w → Answered P base own m (afterCheck cfg w) r w' →
      Serves base own cfg start rest w' rs w'' →
      Serves base own cfg start (m :: rest) w (r :: rs) w''

variable {P}

/-- An invocation that returns got through its preparation, and so did its loop. -/
theorem opActionInvoke_ok {base : ManagerBase} {fs : List Frame} {req : InvokeReq} {env : Env}
    {script : List Rpc} {w : World} {r : Reply}
    (h : (opActionInvoke P base fs req env script w).res = .ok r) :
    ∃ start w₁ o₁ epi, prepare P base fs req env w = ⟨.ok start, w₁, o₁⟩ ∧
      (serverLoop P (req.stack start fs) req.cfg start env.ending script none
        { toManagerBase := base } w₁).res = .ok epi := by
  rw [opActionInvoke_eq] at h
  match hp : prepare P base fs req env w with
  | ⟨.error s, w₁, o₁⟩ =>
      rw [bind_of_error hp] at h
      cases h
  | ⟨.ok start, w₁, o₁⟩ =>
      rw [bind_of_ok hp, Out.after_res] at h
      match hl : serverLoop P (req.stack start fs) req.cfg start env.ending script none
          { toManagerBase := base } w₁ with
      | ⟨.error s, w₂, o₂⟩ =>
          rw [bind_of_error hl] at h
          cases h
      | ⟨.ok epi, w₂, o₂⟩ => exact ⟨start, w₁, o₁, epi, rfl, by rw [hl]⟩

theorem Answered.dispatch {base : ManagerBase} {own : List Frame} {m : Rpc} {r : Reply}
    {w w' : World} {epi : WorkerEpiface} (h : Answered P base own m w r w')
    (hb : epi.toManagerBase = base) :
    ∃ o, MettEagle.dispatch P own m epi w = ⟨.ok (r, epi), w', o⟩ ∧ ∀ x ∈ o, Obs.Below own x := by
  cases h with
  | signal hs =>
      obtain ⟨o, ho, hlog⟩ := opSignal_other P epi hs _ w
      refine ⟨o, ?_, below_of_logs hlog⟩
      rw [MettEagle.dispatch, bind_of_ok ho]
      simp [Out.after]
  | reject =>
      refine ⟨[], ?_, List.forall_mem_nil _⟩
      rw [MettEagle.dispatch]
      rfl
  | invoke hcall =>
      rename_i req env script o
      have hbelow := opActionInvoke_below P base own req env script w
      rw [hcall] at hbelow
      refine ⟨o, ?_, hbelow⟩
      rw [dispatch_invoke, hb, bind_of_ok hcall]
      simp [Out.after]

/-- An answer fixes how the dispatch ends. -/
theorem Answered.out {base : ManagerBase} {own : List Frame} {m : Rpc} {r : Reply}
    {w w' : World} {epi : WorkerEpiface} (h : Answered P base own m w r w')
    (hb : epi.toManagerBase = base) :
    (MettEagle.dispatch P own m epi w).res = .ok (r, epi) ∧
      (MettEagle.dispatch P own m epi w).st = w' := by
  obtain ⟨o, ho, _⟩ := h.dispatch hb
  rw [ho]
  exact ⟨rfl, rfl⟩

/-- Every message ends the loop by an exception, ends the worker, or is answered. -/
theorem dispatch_cases {base : ManagerBase} (own : List Frame) (m : Rpc) {epi : WorkerEpiface}
    (hb : epi.toManagerBase = base) (w : World) :
    ∃ o, (∀ x ∈ o, Obs.Below own x) ∧
      ((∃ s w', MettEagle.dispatch P own m epi w = ⟨.error s, w', o⟩) ∨
        (∃ r epi', epi'.worker.alive = false ∧
          MettEagle.dispatch P own m epi w = ⟨.ok (r, epi'), w, o⟩) ∨
        ∃ r w', Answered P base own m w r w' ∧
          MettEagle.dispatch P own m epi w = ⟨.ok (r, epi), w', o⟩) := by
  cases m with
  | exit value data =>
      refine ⟨[], List.forall_mem_nil _, Or.inr (Or.inl ?_)⟩
      exact ⟨_, _, rfl, dispatch_exit own value data epi w⟩
  | signal sig val =>
      by_cases hs : sig = 0
      · subst hs
        obtain ⟨o, ho, hbelow⟩ := dispatch_signal_exit (P := P) own val epi w
        exact ⟨o, hbelow, Or.inr (Or.inl ⟨_, _, rfl, ho⟩)⟩
      · have hans : Answered P base own (.signal sig val) w { label := l4EOk } w := .signal hs
        obtain ⟨o, ho, hbelow⟩ := hans.dispatch hb
        exact ⟨o, hbelow, Or.inr (Or.inr ⟨_, w, .signal hs, ho⟩)⟩
  | invoke req env script =>
      have hbelow := opActionInvoke_below P base own req env script w
      match hcall : opActionInvoke P base own req env script w with
      | ⟨.ok reply, w', o⟩ =>
          obtain ⟨o', ho, hbelow'⟩ := (Answered.invoke hcall).dispatch hb
          exact ⟨o', hbelow', Or.inr (Or.inr ⟨reply, w', .invoke hcall, ho⟩)⟩
      | ⟨.error s, w', o⟩ =>
          rw [hcall] at hbelow
          refine ⟨o, hbelow, Or.inl ⟨s, w', ?_⟩⟩
          rw [dispatch_invoke, hb, bind_of_error hcall]
  | reject label =>
      have hans : Answered P base own (.reject label) w { label := label } w := .reject
      obtain ⟨o, ho, hbelow⟩ := hans.dispatch hb
      exact ⟨o, hbelow, Or.inr (Or.inr ⟨_, w, .reject, ho⟩)⟩

/-- The reply the next wait carries. -/
def pending : Option Reply → List Reply → Option Reply
  | reply, [] => reply
  | _, r :: rs => pending (some r) rs

/-- A wait that is in time. -/
theorem wait_inTime (own : List Frame) {cfg : Config} {start : ℕ} {w : World}
    (h : ¬TimesOut P cfg start w) (reply : Option Reply) :
    ∃ rcv t, wait P own cfg start reply w =
      ⟨.ok rcv, afterCheck cfg w, [.wait own reply rcv t]⟩ := by
  rw [wait_apply, if_neg h]
  exact ⟨_, _, rfl⟩

/-- **Prefixes.**  Served messages can be cut off the front of a script; each has had
its reply by then, except the last, whose reply the next wait carries. -/
theorem Serves.serverLoop {base : ManagerBase} {own : List Frame} {cfg : Config} {start : ℕ}
    {pre : List Rpc} {rs : List Reply} {w w' : World}
    (h : Serves P base own cfg start pre w rs w') (epi : WorkerEpiface)
    (hb : epi.toManagerBase = base) (ha : epi.worker.alive = true) (reply : Option Reply) :
    ∃ o, ownReplies own o ++ [pending reply rs] = reply :: rs.map some ∧
      ∀ rest ending, MettEagle.serverLoop P own cfg start ending (pre ++ rest) reply epi w =
        (MettEagle.serverLoop P own cfg start ending rest (pending reply rs) epi w').after o := by
  induction h generalizing reply with
  | nil w => exact ⟨[], rfl, fun rest ending => rfl⟩
  | cons htime hm _ ih =>
      rename_i w w₁ w₂
      obtain ⟨rcv, t, hw⟩ := wait_inTime own htime reply
      obtain ⟨o₁, hd, hbelow⟩ := hm.dispatch hb
      obtain ⟨o₂, hreplies, hrest⟩ := ih (some _)
      refine ⟨[.wait own reply rcv t] ++ (o₁ ++ o₂), ?_, fun rest ending => ?_⟩
      · rw [ownReplies_append, ownReplies_append, ownReplies_wait, ownReplies_of_below hbelow]
        exact congrArg (reply :: ·) hreplies
      · rw [List.cons_append, MettEagle.serverLoop, bind_of_ok hw, bind_of_ok hd, if_pos ha,
          hrest rest ending, Out.after_after, Out.after_after, List.append_assoc]
        rfl

/-! ## Any script

Up to the first message that ends the worker, a loop that does not throw serves. -/

/-- The message ends its worker. -/
def Rpc.ends : Rpc → Bool
  | .exit _ _ => true
  | .signal sig _ => sig = 0
  | .invoke _ _ _ => false
  | .reject _ => false

theorem dispatch_of_not_ends {base : ManagerBase} (own : List Frame) {m : Rpc}
    (hm : m.ends = false) {epi : WorkerEpiface} (hb : epi.toManagerBase = base) (w : World) :
    (∃ s w' o, MettEagle.dispatch P own m epi w = ⟨.error s, w', o⟩) ∨
      ∃ r w', Answered P base own m w r w' := by
  cases m with
  | exit value data => cases hm
  | signal sig val =>
      have hs : sig ≠ 0 := of_decide_eq_false hm
      exact Or.inr ⟨_, w, .signal hs⟩
  | invoke req env script =>
      match hcall : opActionInvoke P base own req env script w with
      | ⟨.ok reply, w', o⟩ => exact Or.inr ⟨reply, w', .invoke hcall⟩
      | ⟨.error s, w', o⟩ =>
          refine Or.inl ⟨s, w', o, ?_⟩
          rw [dispatch_invoke, hb, bind_of_error hcall]
  | reject label => exact Or.inr ⟨_, w, .reject⟩

theorem serves_of_ok {base : ManagerBase} {own : List Frame} {cfg : Config} {start : ℕ}
    {ending : Ending} {m : Rpc} {post : List Rpc} {epi epi' : WorkerEpiface}
    (hb : epi.toManagerBase = base) (ha : epi.worker.alive = true) {pre : List Rpc}
    (hpre : ∀ m ∈ pre, m.ends = false) {reply : Option Reply} {w : World}
    (h : (MettEagle.serverLoop P own cfg start ending (pre ++ m :: post) reply epi w).res =
      .ok epi') :
    ∃ rs w₂, Serves P base own cfg start pre w rs w₂ ∧ ¬TimesOut P cfg start w₂ := by
  induction pre generalizing reply w with
  | nil =>
      refine ⟨[], w, .nil w, fun ht => ?_⟩
      have hw := wait_apply P own cfg start reply w
      rw [if_pos ht] at hw
      rw [List.nil_append, MettEagle.serverLoop, bind_of_error hw] at h
      cases h
  | cons m' rest ih =>
      rw [List.cons_append, MettEagle.serverLoop] at h
      by_cases ht : TimesOut P cfg start w
      · have hw := wait_apply P own cfg start reply w
        rw [if_pos ht] at hw
        rw [bind_of_error hw] at h
        cases h
      · obtain ⟨rcv, t, hw⟩ := wait_inTime own ht reply
        rw [bind_of_ok hw, Out.after_res] at h
        rcases dispatch_of_not_ends own (hpre m' List.mem_cons_self) hb (afterCheck cfg w) with
          ⟨s, w', o, herr⟩ | ⟨r, w', hans⟩
        · rw [bind_of_error herr] at h
          cases h
        · obtain ⟨o, hd, -⟩ := hans.dispatch hb
          rw [bind_of_ok hd, if_pos ha, Out.after_res] at h
          obtain ⟨rs, w₂, hserves, ht₂⟩ := ih (fun m hm => hpre m (List.mem_cons_of_mem _ hm)) h
          exact ⟨r :: rs, w₂, .cons ht hans hserves, ht₂⟩

/-! ## The first message that ends the worker -/

section Decides
variable {base : ManagerBase} {fs : List Frame} {req : InvokeReq} {env : Env} {w w₁ w₂ : World}
  {start : ℕ} {o₁ : List Obs} {pre : List Rpc} {rs : List Reply}

/-- What happens to a message that arrives behind served ones: it is dispatched, and only the
worker it leaves behind says whether anything after it is read. -/
theorem opActionInvoke_at (hp : prepare P base fs req env w = ⟨.ok start, w₁, o₁⟩)
    (hs : Serves P base (req.stack start fs) req.cfg start pre w₁ rs w₂)
    (ht : ¬TimesOut P req.cfg start w₂) (m : Rpc) :
    ∃ o, ownReplies (req.stack start fs) o = none :: rs.map some ∧
      ∀ post ending, opActionInvoke P base fs req { env with ending := ending }
          (pre ++ m :: post) w =
        (((MettEagle.dispatch P (req.stack start fs) m { toManagerBase := base } >>=
            fun r => if r.2.worker.alive then
                MettEagle.serverLoop P (req.stack start fs) req.cfg start ending post
                  (some r.1) r.2
              else pure r.2) >>= finish P req start) (afterCheck req.cfg w₂)).after o := by
  obtain ⟨o₂, hreplies, hloop⟩ := hs.serverLoop { toManagerBase := base } rfl rfl none
  obtain ⟨rcv, t, hw⟩ := wait_inTime (req.stack start fs) ht (pending none rs)
  have hquiet : ∀ x ∈ o₁, x.isWait = false := by
    obtain ⟨o, ho, ⟨e, w', herr⟩ | hok⟩ := prepare_cases P base fs req env w
    · rw [hp] at herr
      cases herr
    · rw [hp] at hok
      cases hok
      exact ho
  refine ⟨o₁ ++ (o₂ ++ [.wait (req.stack start fs) (pending none rs) rcv t]), ?_,
    fun post ending => ?_⟩
  · rw [ownReplies_append, ownReplies_append, ownReplies_wait,
      ownReplies_of_below fun x hx => Obs.below_of_not_wait (hquiet x hx)]
    exact hreplies
  · have hp' : prepare P base fs req { env with ending := ending } w = ⟨.ok start, w₁, o₁⟩ := hp
    rw [opActionInvoke_eq, bind_of_ok hp', ← Out.after_after]
    refine congrArg (Out.after o₁) (bind_of_after _ ?_)
    -- the loop: the served prefix, then one more wait
    have hrun := hloop (m :: post) ending
    rw [MettEagle.serverLoop, bind_of_ok hw, Out.after_after] at hrun
    exact hrun

/-- What becomes of an exit value: the caller's array has to hold it and its terminator. -/
theorem finish_opExit (base : ManagerBase) (req : InvokeReq) (start : ℕ) (value : CString)
    (data : WorkerMetadata) (w : World) :
    finish P req start (opExit { toManagerBase := base } value data).2 w =
      if req.retLength ≤ value.length then ⟨.error (.thrown bufferTooSmall), w, []⟩
      else ⟨.ok (exitReply start (P.clock w.ticks) value.bytes data), w.tick, []⟩ := by
  rw [finish_apply]
  exact if_neg Bool.false_ne_true

theorem finish_error (base : ManagerBase) (req : InvokeReq) (start : ℕ) (code : Int) (w : World) :
    finish P req start { toManagerBase := base, worker := ({} : Worker).exitInt code } w =
      ⟨.error (.thrown workerError), w, []⟩ := by
  rw [finish_apply]
  exact if_pos rfl

/-- An exit behind served messages: whatever would come after it, the value is returned if it
fits, and the messages before it have had their replies. -/
theorem opActionInvoke_exit (hp : prepare P base fs req env w = ⟨.ok start, w₁, o₁⟩)
    (hs : Serves P base (req.stack start fs) req.cfg start pre w₁ rs w₂)
    (ht : ¬TimesOut P req.cfg start w₂) (value : CString) (data : WorkerMetadata) :
    ∃ stop w' o, ownReplies (req.stack start fs) o = none :: rs.map some ∧
      ∀ post ending, opActionInvoke P base fs req { env with ending := ending }
          (pre ++ .exit value data :: post) w =
        if req.retLength ≤ value.length then ⟨.error (.thrown bufferTooSmall), w', o⟩
        else ⟨.ok (exitReply start stop value.bytes data), w', o⟩ := by
  obtain ⟨o, hreplies, hrun⟩ := opActionInvoke_at hp hs ht (.exit value data)
  have hcall : ∀ post ending, opActionInvoke P base fs req { env with ending := ending }
      (pre ++ .exit value data :: post) w =
        (finish P req start (opExit { toManagerBase := base } value data).2
          (afterCheck req.cfg w₂)).after o := by
    intro post ending
    rw [hrun post ending, Act.bind_assoc, bind_of_ok (dispatch_exit _ value data _ _),
      Out.after_nil]
    rfl
  rw [finish_opExit base req start value data] at hcall
  by_cases hbig : req.retLength ≤ value.length
  · refine ⟨0, afterCheck req.cfg w₂, o, hreplies, fun post ending => ?_⟩
    rw [hcall post ending, if_pos hbig, if_pos hbig, Out.after, List.append_nil]
  · refine ⟨P.clock (afterCheck req.cfg w₂).ticks, (afterCheck req.cfg w₂).tick, o, hreplies,
      fun post ending => ?_⟩
    rw [hcall post ending, if_neg hbig, if_neg hbig, Out.after, List.append_nil]

/-- A signal 0 behind served messages. -/
theorem opActionInvoke_signal (hp : prepare P base fs req env w = ⟨.ok start, w₁, o₁⟩)
    (hs : Serves P base (req.stack start fs) req.cfg start pre w₁ rs w₂)
    (ht : ¬TimesOut P req.cfg start w₂) (code : UInt64) :
    ∃ w' o, ownReplies (req.stack start fs) o = none :: rs.map some ∧
      ∀ post ending, opActionInvoke P base fs req { env with ending := ending }
          (pre ++ .signal 0 code :: post) w = ⟨.error (.thrown workerError), w', o⟩ := by
  obtain ⟨o, hreplies, hrun⟩ := opActionInvoke_at hp hs ht (.signal 0 code)
  obtain ⟨o', hd, hbelow⟩ := dispatch_signal_exit (P := P) (req.stack start fs) code
    { toManagerBase := base } (afterCheck req.cfg w₂)
  refine ⟨afterCheck req.cfg w₂, o ++ o', ?_, fun post ending => ?_⟩
  · rw [ownReplies_append, hreplies, ownReplies_of_below hbelow, List.append_nil]
  · rw [hrun post ending, Act.bind_assoc, bind_of_ok hd]
    show ((finish P req start _ _).after o').after o = _
    rw [finish_error base req start]
    simp [Out.after]

/-- **The exit state machine.**  `exit` and `signal (0, code)` behind any served messages
decide the outcome, and the messages before them are answered, each in the wait after it. -/
theorem first_terminating_message_decides
    (hp : prepare P base fs req env w = ⟨.ok start, w₁, o₁⟩)
    (hs : Serves P base (req.stack start fs) req.cfg start pre w₁ rs w₂)
    (ht : ¬TimesOut P req.cfg start w₂) :
    (∀ (value : CString) (data : WorkerMetadata), value.length < req.retLength →
      ∃ (stop : ℕ) (w' : World) (o : List Obs), ownReplies (req.stack start fs) o = none :: rs.map some ∧
        ∀ post ending, opActionInvoke P base fs req { env with ending := ending }
            (pre ++ .exit value data :: post) w =
          ⟨.ok (exitReply start stop value.bytes data), w', o⟩) ∧
    (∀ code : UInt64,
      ∃ (w' : World) (o : List Obs), ownReplies (req.stack start fs) o = none :: rs.map some ∧
        ∀ post ending, opActionInvoke P base fs req { env with ending := ending }
            (pre ++ .signal 0 code :: post) w = ⟨.error (.thrown workerError), w', o⟩) := by
  refine ⟨fun value data hfits => ?_, fun code => opActionInvoke_signal hp hs ht code⟩
  obtain ⟨stop, w', o, hreplies, hrun⟩ := opActionInvoke_exit hp hs ht value data
  refine ⟨stop, w', o, hreplies, fun post ending => ?_⟩
  rw [hrun post ending, if_neg (Nat.not_le.mpr hfits)]

end Decides

/-! ## A nested invocation that fails

`dispatch` calls the handler of a nested invocation as it is: whatever that throws leaves
the server loop of the enclosing invocation, and with it the enclosing invocation. -/

/-- One call of `op_action_invoke`: what it is given and the world it finds. -/
structure Call where
  fs : List Frame
  req : InvokeReq
  env : Env
  script : List Rpc
  world : World

def Call.run (P : Platform) (base : ManagerBase) (c : Call) : Out World Obs Stop Reply :=
  opActionInvoke P base c.fs c.req c.env c.script c.world

/-- The server loop of `c` gets as far as the worker's message number `k`, and that is the
nested invocation `d`. -/
inductive Nests (P : Platform) (base : ManagerBase) : Call → ℕ → Call → Prop
  | mk {fs : List Frame} {req req' : InvokeReq} {env env' : Env} {w w₁ w₂ : World} {start : ℕ}
      {o : List Obs} {pre post script : List Rpc} {rs : List Reply} :
      prepare P base fs req env w = ⟨.ok start, w₁, o⟩ →
      Serves P base (req.stack start fs) req.cfg start pre w₁ rs w₂ →
      ¬TimesOut P req.cfg start w₂ →
      Nests P base ⟨fs, req, env, pre ++ .invoke req' env' script :: post, w⟩ rs.length
        ⟨req.stack start fs, req', env', script, afterCheck req.cfg w₂⟩

/-- The worker served on the stack `own` is told the error number `n` in reply to its message
number `k`; the wait that carries the reply is the loop's next one. -/
def ToldError (own : List Frame) (k : ℕ) (n : Int) (o : List Obs) : Prop :=
  (ownReplies own o)[k + 1]?.join.map Reply.label = some n

instance (own : List Frame) (k : ℕ) (n : Int) (o : List Obs) : Decidable (ToldError own k n o) :=
  inferInstanceAs (Decidable (_ = _))

theorem dispatch_invoke_thrown {P : Platform} {base : ManagerBase} {own : List Frame}
    {req : InvokeReq} {env : Env} {script : List Rpc} {w w' : World} {o : List Obs} {e : Exn}
    (h : opActionInvoke P base own req env script w = ⟨.error (.thrown e), w', o⟩) :
    dispatch P own (.invoke req env script) { toManagerBase := base } w =
        ⟨.error (.thrown e), w', o⟩ ∧ ∀ x ∈ o, Obs.Below own x := by
  have hbelow := opActionInvoke_below P base own req env script w
  rw [h] at hbelow
  refine ⟨?_, hbelow⟩
  rw [dispatch_invoke, bind_of_error h]

/-- **Step.**  The enclosing invocation throws what the nested one throws, and its worker has
heard nothing but the replies to its earlier messages. -/
theorem Nests.thrown {P : Platform} {base : ManagerBase} {c d : Call} {k : ℕ}
    (h : Nests P base c k d) {e : Exn} (hd : (d.run P base).res = .error (.thrown e)) :
    (c.run P base).res = .error (.thrown e) ∧
      (ownReplies d.fs (c.run P base).obs).length = k + 1 := by
  cases h with
  | mk hp hs ht =>
      rename_i fs req req' env env' w w₁ w₂ start o pre post script rs
      match hcall : opActionInvoke P base (req.stack start fs) req' env' script
          (afterCheck req.cfg w₂) with
      | ⟨r, w₃, o₃⟩ =>
          obtain rfl : r = .error (.thrown e) := by
            rw [← hd, Call.run, hcall]
          obtain ⟨hdisp, hbelow⟩ := dispatch_invoke_thrown hcall
          obtain ⟨o', hreplies, hrun⟩ := opActionInvoke_at hp hs ht (.invoke req' env' script)
          have hthrow : opActionInvoke P base fs req env
              (pre ++ .invoke req' env' script :: post) w = ⟨.error (.thrown e), w₃, o' ++ o₃⟩ := by
            have h' := hrun post env.ending
            rw [Act.bind_assoc, bind_of_error hdisp] at h'
            exact h'
          simp only [Call.run, hthrow, ownReplies_append, hreplies, ownReplies_of_below hbelow]
          simp

/-- **Runs.**  An exception in a nested invocation, at whatever depth, leaves every
invocation that encloses it. -/
theorem Nests.unwinds {P : Platform} {base : ManagerBase} {c d : Call}
    (h : Relation.ReflTransGen (fun a b => ∃ k, Nests P base a k b) c d) {e : Exn}
    (hd : (d.run P base).res = .error (.thrown e)) :
    (c.run P base).res = .error (.thrown e) := by
  induction h with
  | refl => exact hd
  | tail _ hnests ih =>
      obtain ⟨k, hn⟩ := hnests
      exact ih (hn.thrown hd).1

/-- **No failure is answered.**  A worker whose nested invocation fails is never told an
error number: the exception ends its own invocation and all those around it. -/
theorem nested_failure_never_told {P : Platform} {base : ManagerBase} {c₀ c d : Call} {k : ℕ}
    (hc : Relation.ReflTransGen (fun a b => ∃ k, Nests P base a k b) c₀ c)
    (h : Nests P base c k d) {e : Exn} (hd : (d.run P base).res = .error (.thrown e)) :
    (∀ n, ¬ToldError d.fs k n (c.run P base).obs) ∧ (c₀.run P base).res = .error (.thrown e) := by
  obtain ⟨hres, hlen⟩ := h.thrown hd
  refine ⟨fun n htold => ?_, Nests.unwinds hc hres⟩
  rw [ToldError, List.getElem?_eq_none (by omega)] at htold
  cases htold

end

/-- A worker that signals, sends a message nobody understands, invokes `f` and exits. -/
theorem first_terminating_message_decides_mixed :
    ∃ (stop : ℕ) (w' : World) (o : List Obs),
      ownReplies [⟨0, 0⟩] o =
        [none, some { label := l4EOk }, some { label := -39 },
          some (exitReply 1000 2000 nameG.bytes ⟨5, 6, 7, 8⟩)] ∧
      ∀ post ending, opActionInvoke platform₀ base₀ []
          { name := nameF, retLength := 2 } { ending := ending }
          ([.signal 2 5, .reject (-39),
            .invoke { name := nameF, retLength := 2 } {} [.exit nameG ⟨5, 6, 7, 8⟩]] ++
              .exit nameG ⟨1, 2, 3, 4⟩ :: post) world₀ =
        ⟨.ok (exitReply 0 stop nameG.bytes ⟨1, 2, 3, 4⟩), w', o⟩ :=
  have hp : (prepare platform₀ base₀ [] { name := nameF, retLength := 2 } {} world₀).res = .ok 0 :=
    rfl
  (first_terminating_message_decides (prepare_of_ok hp)
    (.cons (by decide) (.signal (by decide))
      (.cons (by decide) .reject
        (.cons (by decide) (.invoke rfl) (.nil _))))
    (by decide)).1 nameG ⟨1, 2, 3, 4⟩ (by decide)

/-- The worker of `f` asks for `g`, which nobody created, and would exit after that. -/
def asksForG : Call where
  fs := []
  req := { name := nameF, retLength := 2 }
  env := {}
  script := [.invoke { name := nameG } {} [], .exit nameG {}]
  world := world₀

def requestForG : Call where
  fs := [⟨0, 0⟩]
  req := { name := nameG }
  env := {}
  script := []
  world := world₀.tick

theorem asksForG_nests : Nests platform₀ base₀ asksForG 0 requestForG :=
  have hp : (prepare platform₀ base₀ [] asksForG.req asksForG.env world₀).res = .ok 0 := rfl
  .mk (prepare_of_ok hp) (.nil world₀.tick) (by decide)

/-- The worker is not told `-L4_EINVAL`, which a client would be. -/
theorem nested_failure_told_fails :
    ¬∀ (P : Platform) (base : ManagerBase) (c d : Call) (k : ℕ) (e : Exn) (n : Int),
      Nests P base c k d → (d.run P base).res = .error (.thrown e) → e.errNo? = some n →
      ToldError d.fs k n (c.run P base).obs := by
  intro h
  have htold := h platform₀ base₀ asksForG requestForG 0 (unknownAction nameG) (-l4EInval)
    asksForG_nests rfl rfl
  exact absurd htold (by decide)

theorem nested_failure_never_told_unknown :
    (∀ n, ¬ToldError requestForG.fs 0 n (asksForG.run platform₀ base₀).obs) ∧
      (asksForG.run platform₀ base₀).res = .error (.thrown (unknownAction nameG)) :=
  nested_failure_never_told .refl asksForG_nests rfl

end MettEagle
