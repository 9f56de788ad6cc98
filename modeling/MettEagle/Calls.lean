/-
# `MettEagle.Calls` — nested invocations as procedure calls

An action may invoke other actions of its client, and these further ones.  To the author
of an action that is a call of a function by its name.  This module says what such a call
means, and that the manager implements it:

    Registry.procedures   the meaning: names stand for programs, `Lib.Procedures` says what
                          a call of one comes to
    Sends, Staged         the workers of an invocation run these programs, and each of them
                          hears what the manager really answered it
    Staged.sound          whatever else fails, a reply of `L4_EOK` is the answer of the call
    Staged.complete       where nothing else fails, the invocation ends as the call does,
                          errors included

An error of a call is told to nobody but the client: the exception that carries it leaves
the server loops of all the workers in between.
-/
import MettEagle.ClientStub
import MettEagle.ActionMap
import MettEagle.Lib.Procedures

namespace MettEagle

open Act

/-! ## The meaning -/

/-- How a worker ends. -/
inductive WorkerEnd where
  | exit (value : CString)
  | signal (code : UInt64)

/-- What a worker does towards its manager: it invokes actions, gets the result of the RPC,
and ends. -/
abbrev WorkerProg := Prog CString CString RpcResult WorkerEnd

/-- The program that runs in a worker started for this object, in this language, with this
argument. -/
abbrev Images := Object → Language → CString → WorkerProg

/-- What an RPC returns for an exit value. -/
def valueResult (value : CString) : RpcResult :=
  { tag := .label l4EOk, array := value.bytes ++ [0] }

/-- The actions of a client as procedures.  `alive` are the dataspaces that exist, `cap` is the
capacity of the array in a reply. -/
def Registry.procedures (R : Registry) (alive : Object → Bool) (image : Images) (cap : ℕ) :
    Procedures CString CString RpcResult WorkerEnd Exn where
  body name arg :=
    match R name with
    | none => .error (unknownAction name)
    | some (obj, lang) => if alive obj then .ok (image obj lang arg) else .error goneAction
  deliver
    | .exit value => if value.length < cap then .ok (valueResult value) else .error bufferTooSmall
    | .signal _ => .error workerError

section
variable {R : Registry} {alive : Object → Bool} {image : Images} {cap : ℕ} {name : CString}

theorem Registry.body_unbound (h : R name = none) (arg : CString) :
    (R.procedures alive image cap).body name arg = .error (unknownAction name) := by
  simp only [Registry.procedures, h]

theorem Registry.body_bound {obj : Object} {lang : Language} (h : R name = some (obj, lang))
    (arg : CString) : (R.procedures alive image cap).body name arg =
      if alive obj then .ok (image obj lang arg) else .error goneAction := by
  simp only [Registry.procedures, h]

end

/-! ## Workers that run these programs -/

/-- The request of `Faas::invoke`. -/
def faasRequest (cap : ℕ) (name arg : CString) : InvokeReq :=
  { name := name, arg := arg, retLength := cap }

section
variable (P : Platform) (base : ManagerBase)

/-- The invocation finds its action, alive, and launches a worker for it. -/
structure Launched (fs : List Frame) (req : InvokeReq) (env : Env) (w : World) (a : Action)
    (obj : Object) (start : ℕ) (w₁ : World) : Prop where
  find : w.find base req.name = some a
  validate : w.validate env.alive a.ds = some obj
  prepare : ∃ o, prepare P base fs req env w = ⟨.ok start, w₁, o⟩

variable (image : Images) (cap : ℕ) (quiet : Prop)

/-- A worker that runs this program, and that is served on the stack `own` from this world on,
sends these messages.  So do the workers of its invocations; what it is told about these is
what the manager replies.  If `quiet`, workers may stop sending. -/
inductive Sends : List Frame → Config → WorkerProg → World → List Rpc → Prop
  | exit {own : List Frame} {cfg : Config} {w : World} (value : CString) (data : WorkerMetadata) :
      Sends own cfg (.done (.exit value)) w [.exit value data]
  | signal {own : List Frame} {cfg : Config} {w : World} (code : UInt64) :
      Sends own cfg (.done (.signal code)) w [.signal 0 code]
  | silent {own : List Frame} {cfg : Config} {p : WorkerProg} {w : World} :
      quiet → Sends own cfg p w []
  | notLaunched {own : List Frame} {cfg : Config} {name arg : CString}
      {k : RpcResult → WorkerProg} {env : Env} {script : List Rpc} {w w' : World} {s : Stop}
      {o : List Obs} :
      prepare P base own (faasRequest cap name arg) env (afterCheck cfg w) = ⟨.error s, w', o⟩ →
      Sends own cfg (.call name arg k) w [.invoke (faasRequest cap name arg) env script]
  | unanswered {own : List Frame} {cfg : Config} {name arg : CString}
      {k : RpcResult → WorkerProg} {env : Env} {script : List Rpc} {w w₁ w' : World} {a : Action}
      {obj : Object} {start : ℕ} {s : Stop} {o : List Obs} :
      Launched P base own (faasRequest cap name arg) env (afterCheck cfg w) a obj start w₁ →
      Sends ((faasRequest cap name arg).stack start own) {} (image obj a.lang arg) w₁ script →
      opActionInvoke P base own (faasRequest cap name arg) env script (afterCheck cfg w) =
        ⟨.error s, w', o⟩ →
      Sends own cfg (.call name arg k) w [.invoke (faasRequest cap name arg) env script]
  | answered {own : List Frame} {cfg : Config} {name arg : CString} {k : RpcResult → WorkerProg}
      {env : Env} {script rest : List Rpc} {w w₁ w' : World} {a : Action} {obj : Object}
      {start : ℕ} {reply : Reply} {o : List Obs} :
      Launched P base own (faasRequest cap name arg) env (afterCheck cfg w) a obj start w₁ →
      Sends ((faasRequest cap name arg).stack start own) {} (image obj a.lang arg) w₁ script →
      opActionInvoke P base own (faasRequest cap name arg) env script (afterCheck cfg w) =
        ⟨.ok reply, w', o⟩ →
      Sends own cfg (k reply.rpcResult) w' rest →
      Sends own cfg (.call name arg k) w (.invoke (faasRequest cap name arg) env script :: rest)

/-- The worker of this invocation, if it is launched, runs the program of the action. -/
inductive Staged (fs : List Frame) (req : InvokeReq) (env : Env) (script : List Rpc) (w : World) :
    Prop
  | launched {a : Action} {obj : Object} {start : ℕ} {w₁ : World} :
      Launched P base fs req env w a obj start w₁ →
      Sends P base image cap quiet (req.stack start fs) req.cfg (image obj a.lang req.arg) w₁
        script → Staged fs req env script w
  | notLaunched {s : Stop} {w₁ : World} {o : List Obs} :
      prepare P base fs req env w = ⟨.error s, w₁, o⟩ → Staged fs req env script w

end

/-! ## The server loop, read backwards -/

section
variable {P : Platform} {base : ManagerBase} {own : List Frame} {cfg : Config} {start : ℕ}
  {ending : Ending} {reply : Option Reply} {epi epi' : WorkerEpiface} {w : World}

/-- A loop that is sent nothing does not return. -/
theorem serverLoop_nil_ne_ok :
    (serverLoop P own cfg start ending [] reply epi w).res ≠ .ok epi' := by
  intro h
  rw [serverLoop] at h
  by_cases ht : TimesOut P cfg start w
  · have hw := wait_apply P own cfg start reply w
    rw [if_pos ht] at hw
    rw [bind_of_error hw] at h
    cases h
  · obtain ⟨rcv, t, hw⟩ := wait_inTime own ht reply
    rw [bind_of_ok hw] at h
    rcases noMessage_cases ending rcv (afterCheck cfg w) with ⟨code, hn⟩ | hn
    · rw [hn] at h
      cases h
    · rw [hn] at h
      cases h

/-- A loop that returns dispatched its first message, in time. -/
theorem serverLoop_cons_of_ok {m : Rpc} {rest : List Rpc}
    (h : (serverLoop P own cfg start ending (m :: rest) reply epi w).res = .ok epi') :
    ∃ r epi₁ w₁ o, dispatch P own m epi (afterCheck cfg w) = ⟨.ok (r, epi₁), w₁, o⟩ ∧
      ((if epi₁.worker.alive then serverLoop P own cfg start ending rest (some r) epi₁
        else pure epi₁) w₁).res = .ok epi' := by
  rw [serverLoop] at h
  by_cases ht : TimesOut P cfg start w
  · have hw := wait_apply P own cfg start reply w
    rw [if_pos ht] at hw
    rw [bind_of_error hw] at h
    cases h
  · obtain ⟨rcv, t, hw⟩ := wait_inTime own ht reply
    rw [bind_of_ok hw, Out.after_res] at h
    match hd : dispatch P own m epi (afterCheck cfg w) with
    | ⟨.error s, w₁, o⟩ =>
        rw [bind_of_error hd] at h
        cases h
    | ⟨.ok (r, epi₁), w₁, o⟩ =>
        rw [bind_of_ok hd, Out.after_res] at h
        exact ⟨r, epi₁, w₁, o, rfl, h⟩

/-- What the epiface of a worker holds after the worker has ended so. -/
def WorkerEpiface.Ended (epi : WorkerEpiface) : WorkerEnd → Prop
  | .exit value => epi.worker.exitValue = value.bytes ∧ epi.worker.errorExit = false
  | .signal _ => epi.worker.errorExit = true

/-- An invocation ends as a call does: it returns what the caller is told, or throws the
error. -/
def EndsAs (res : Except Stop Reply) (x : Except Exn RpcResult) : Prop :=
  res.map Reply.rpcResult = x.mapError Stop.thrown

theorem EndsAs.of_ok {r : Reply} {x : Except Exn RpcResult} (h : EndsAs (.ok r) x) :
    x = .ok r.rpcResult := by
  cases x with
  | ok b => exact congrArg Except.ok (Except.ok.inj h).symm
  | error e => cases h

theorem EndsAs.of_error {s : Stop} {x : Except Exn RpcResult} (h : EndsAs (.error s) x) :
    ∃ e, x = .error e ∧ s = .thrown e := by
  cases x with
  | ok b => cases h
  | error e => exact ⟨e, rfl, Except.error.inj h⟩

variable (P start) in
/-- From the end of the loop on, the manager delivers. -/
theorem finish_endsAs (R : Registry) (alive : Object → Bool) (image : Images) (req : InvokeReq)
    {e : WorkerEnd} (h : epi.Ended e) (w : World) :
    EndsAs (finish P req start epi w).res ((R.procedures alive image req.retLength).deliver e) := by
  rw [finish_apply]
  cases e with
  | exit value =>
      obtain ⟨hvalue, herr⟩ := h
      rw [herr, hvalue, if_neg Bool.false_ne_true]
      show EndsAs _ (if value.bytes.length < req.retLength then _ else _)
      by_cases hfits : value.bytes.length < req.retLength
      · rw [if_pos hfits, if_neg (Nat.not_le.mpr hfits)]
        rfl
      · rw [if_neg hfits, if_pos (Nat.not_lt.mp hfits)]
        rfl
  | signal code =>
      have herr : epi.worker.errorExit = true := h
      rw [if_pos herr]
      rfl

theorem World.later_of_call {fs : List Frame} {req : InvokeReq} {env : Env} {script : List Rpc}
    {w' : World} {r : Except Stop Reply} {o : List Obs}
    (h : opActionInvoke P base fs req env script w = ⟨r, w', o⟩) : w.Later w' := by
  have hlater := opActionInvoke_later P base fs req env script w
  rw [h] at hlater
  exact hlater

theorem World.later_afterCheck (cfg : Config) (w : World) : w.Later (afterCheck cfg w) := by
  rw [afterCheck]
  split
  · exact World.Later.refl w
  · exact World.later_tick w

end

/-! ## No wrong answer -/

section
variable {P : Platform} {base : ManagerBase} {image : Images} {cap : ℕ} {quiet : Prop}
  {R : Registry}

/-- What runs for a name is the program the registry knows. -/
theorem Represents.body {w : World} (hR : Represents base w R) {name arg : CString} {a : Action}
    {obj : Object} {alive alive' : Object → Bool} (hfind : w.find base name = some a)
    (hval : w.validate alive a.ds = some obj) (halive : ∀ o, alive o = true → alive' o = true) :
    (R.procedures alive' image cap).body name arg = .ok (image obj a.lang arg) := by
  obtain ⟨s, o, hs, ho, hbound⟩ := hR.bound hfind
  rw [hs, World.validate_of_caps ho] at hval
  obtain ⟨hobj, hlive⟩ := Option.filter_eq_some_iff.mp hval
  obtain rfl := Option.some.inj hobj
  rw [Registry.body_bound hbound]
  exact if_pos (halive _ hlive)

/-- A reply is the answer of the call, if the loop served the program of the action. -/
theorem Launched.sound {fs : List Frame} {req : InvokeReq} {env : Env} {w w₁ : World}
    {a : Action} {obj : Object} {start : ℕ} (hl : Launched P base fs req env w a obj start w₁)
    (hR : Represents base w R) (hcap : req.retLength = cap) {script : List Rpc}
    (hloop : ∀ {epi'}, (serverLoop P (req.stack start fs) req.cfg start env.ending script none
        { toManagerBase := base } w₁).res = .ok epi' →
      ∃ e, (R.procedures (fun _ => true) image cap).Returns (image obj a.lang req.arg) (.ok e) ∧
        epi'.Ended e)
    {reply : Reply} (h : (opActionInvoke P base fs req env script w).res = .ok reply) :
    (R.procedures (fun _ => true) image cap).Answers req.name req.arg (.ok reply.rpcResult) := by
  obtain ⟨o, hp⟩ := hl.prepare
  rw [opActionInvoke_eq, bind_of_ok hp, Out.after_res] at h
  match hrun : serverLoop P (req.stack start fs) req.cfg start env.ending script none
      { toManagerBase := base } w₁ with
  | ⟨.error s, w₂, o₂⟩ =>
      rw [bind_of_error hrun] at h
      cases h
  | ⟨.ok epi, w₂, o₂⟩ =>
      rw [bind_of_ok hrun, Out.after_res] at h
      obtain ⟨e, hret, hended⟩ := hloop (congrArg Out.res hrun)
      have hends := finish_endsAs P start R (fun _ => true) image req hended w₂
      rw [h, hcap] at hends
      rw [← hends.of_ok]
      exact .ran (hR.body hl.find hl.validate fun _ _ => rfl) hret

theorem Launched.later {fs : List Frame} {req : InvokeReq} {env : Env} {w w₁ : World}
    {a : Action} {obj : Object} {start : ℕ} (hl : Launched P base fs req env w a obj start w₁) :
    w.Later w₁ := by
  obtain ⟨o, hp⟩ := hl.prepare
  have h := prepare_of_ok (congrArg Out.res hp)
  rw [hp] at h
  cases h
  exact World.later_tick w

/-- **Runs.**  A loop that returns has served a program that ended. -/
theorem Sends.sound {own : List Frame} {cfg : Config} {p : WorkerProg} {w : World}
    {script : List Rpc} (hs : Sends P base image cap quiet own cfg p w script)
    (hR : Represents base w R) {start : ℕ} {ending : Ending} {reply : Option Reply}
    {epi epi' : WorkerEpiface} (hb : epi.toManagerBase = base) (hfresh : epi.worker = {})
    (h : (serverLoop P own cfg start ending script reply epi w).res = .ok epi') :
    ∃ e, (R.procedures (fun _ => true) image cap).Returns p (.ok e) ∧ epi'.Ended e := by
  induction hs generalizing start ending reply epi epi' with
  | exit value data =>
      obtain ⟨r, epi₁, w₁, o, hd, hloop⟩ := serverLoop_cons_of_ok h
      rw [dispatch_exit] at hd
      cases hd
      cases hloop
      refine ⟨_, .done _, rfl, ?_⟩
      show epi.worker.errorExit = false
      rw [hfresh]
  | signal code =>
      rename_i own cfg w
      obtain ⟨r, epi₁, w₁, o, hd, hloop⟩ := serverLoop_cons_of_ok h
      obtain ⟨o', ho', -⟩ := dispatch_signal_exit (P := P) own code epi (afterCheck cfg w)
      rw [ho'] at hd
      cases hd
      cases hloop
      exact ⟨_, .done _, rfl⟩
  | silent _ => exact absurd h serverLoop_nil_ne_ok
  | notLaunched hp =>
      obtain ⟨r, epi₁, w₁, o, hd, hloop⟩ := serverLoop_cons_of_ok h
      rw [dispatch_invoke, hb, opActionInvoke_eq, bind_of_error (bind_of_error hp)] at hd
      cases hd
  | unanswered hl _ hcall _ =>
      obtain ⟨r, epi₁, w₁, o, hd, hloop⟩ := serverLoop_cons_of_ok h
      rw [dispatch_invoke, hb, bind_of_error hcall] at hd
      cases hd
  | answered hl hnested hcall hrest ihnested ihrest =>
      rename_i own cfg name arg k env script rest w w₁ w' a obj start' reply' o
      obtain ⟨r, epi₁, w₂, o₂, hd, hloop⟩ := serverLoop_cons_of_ok h
      rw [dispatch_invoke, hb, bind_of_ok hcall] at hd
      cases hd
      rw [hfresh] at hloop
      have hcheck := hR.later (World.later_afterCheck cfg w)
      -- the callee first, then the rest of the caller
      have hcalled := hl.sound hcheck rfl
        (fun hrun => ihnested (hcheck.later hl.later) rfl rfl hrun) (congrArg Out.res hcall)
      obtain ⟨e, hret, hended⟩ := ihrest (hcheck.later (World.later_of_call hcall)) hb hfresh hloop
      exact ⟨e, .told hcalled hret, hended⟩

/-- Whatever else fails, a reply is the answer of the call. -/
theorem Staged.sound {fs : List Frame} {req : InvokeReq} {env : Env} {script : List Rpc}
    {w : World} (hst : Staged P base image cap quiet fs req env script w)
    (hR : Represents base w R) (hcap : req.retLength = cap) {reply : Reply}
    (h : (opActionInvoke P base fs req env script w).res = .ok reply) :
    (R.procedures (fun _ => true) image cap).Answers req.name req.arg (.ok reply.rpcResult) := by
  cases hst with
  | launched hl hs =>
      exact hl.sound hR hcap (fun hrun => hs.sound (hR.later hl.later) rfl rfl hrun) h
  | notLaunched hp =>
      rw [opActionInvoke_eq, bind_of_error hp] at h
      cases h

end

/-! ## Every answer -/

/-- Nothing the platform does for an invocation fails; `alive` are the dataspaces that exist. -/
structure Env.Smooth (alive : Object → Bool) (env : Env) : Prop where
  alive : env.alive = alive
  parentCap : env.parentCap = true
  allocator : 0 ≤ env.allocator
  python : env.python.isSome = true
  taskCap : env.taskCap = true
  threadCap : env.threadCap = true
  rmCap : env.rmCap = true
  rmCreate : 0 ≤ env.rmCreate
  gate : 0 ≤ env.gate
  launch : env.launch = none

/-- All invocations of these messages are smooth. -/
abbrev SmoothScript (alive : Object → Bool) : List Rpc → Prop :=
  ScriptInvokes fun _ env => env.Smooth alive

section
variable {P : Platform} {base : ManagerBase} {fs : List Frame} {req : InvokeReq} {env : Env}
  {alive : Object → Bool}

theorem chkcap_of_valid {σ ω : Type} {valid : Bool} (h : valid = true) (extra : Bytes)
    (err : Int) : (chkcap valid extra err : Act σ ω Stop Unit) = pure () :=
  if_pos h

theorem workerDs_of_smooth (henv : env.Smooth alive) (a : Action) (w : World) :
    ∃ ds, workerDs a env.python w = ⟨.ok ds, w, []⟩ := by
  obtain ⟨rom, hrom⟩ := Option.isSome_iff_exists.mp henv.python
  simp only [workerDs, hrom]
  split
  · exact ⟨_, rfl⟩
  · split
    · exact ⟨_, rfl⟩
    · exact ⟨_, rfl⟩

variable (P base fs req)

theorem startWorker_of_smooth (henv : env.Smooth alive) (a : Action) (w : World) :
    ∃ o, startWorker P base fs req env a w = ⟨.ok (P.clock w.ticks), w.tick, o⟩ := by
  obtain ⟨ds, hds⟩ := workerDs_of_smooth henv a w
  have hlimit : limitAllocator req.cfg env = pure () := by
    rw [limitAllocator]
    split
    · rfl
    · exact chksys_of_nonneg henv.allocator _
  have hmodel : appModel env = pure () := by
    rw [appModel, chkcap_of_valid henv.taskCap, chkcap_of_valid henv.threadCap,
      chkcap_of_valid henv.rmCap, chksys_of_nonneg henv.rmCreate]
    rfl
  have hlaunch : launch env = pure () := by
    rw [launch, henv.launch]
  rw [startWorker, chkcap_of_valid henv.parentCap, hlimit, hmodel, chksys_of_nonneg henv.gate,
    hlaunch, pure_bind_apply, pure_bind_apply, bind_of_ok hds, Out.after_nil]
  exact ⟨_, rfl⟩

/-- Without other failures an action that is found is launched. -/
theorem launched_of_smooth (henv : env.Smooth alive) {w : World} {a : Action} {obj : Object}
    (hfind : w.find base req.name = some a) (hval : w.validate env.alive a.ds = some obj) :
    Launched P base fs req env w a obj (P.clock w.ticks) w.tick := by
  refine ⟨hfind, hval, ?_⟩
  have hlookup := findAction_found fs env.alive hfind
  rw [hval] at hlookup
  obtain ⟨o, ho⟩ := startWorker_of_smooth P base fs req henv a w
  rw [prepare, bind_of_ok hlookup, ho]
  exact ⟨_, rfl⟩

end

/-- A server loop ends as its worker does, or throws the error of a call. -/
inductive LoopEndsAs : Except Stop WorkerEpiface → Except Exn WorkerEnd → Prop
  | ended {epi : WorkerEpiface} {e : WorkerEnd} : epi.Ended e → LoopEndsAs (.ok epi) (.ok e)
  | thrown (e : Exn) : LoopEndsAs (.error (.thrown e)) (.error e)

section
variable {P : Platform} {base : ManagerBase} {image : Images} {cap : ℕ} {R : Registry}
  {alive : Object → Bool}

/-- Where the loop ends as the program of the action, the invocation ends as the call. -/
theorem Launched.endsAs {fs : List Frame} {req : InvokeReq} {env : Env} {w w₁ : World}
    {a : Action} {obj : Object} {start : ℕ} (hl : Launched P base fs req env w a obj start w₁)
    {script : List Rpc} {x : Except Exn WorkerEnd}
    (hloop : LoopEndsAs (serverLoop P (req.stack start fs) req.cfg start env.ending script none
      { toManagerBase := base } w₁).res x) :
    EndsAs (opActionInvoke P base fs req env script w).res
      (x.bind (R.procedures alive image req.retLength).deliver) := by
  obtain ⟨o, hp⟩ := hl.prepare
  rw [opActionInvoke_eq, bind_of_ok hp, Out.after_res]
  match hrun : serverLoop P (req.stack start fs) req.cfg start env.ending script none
      { toManagerBase := base } w₁ with
  | ⟨r, w₂, o₂⟩ =>
      rw [hrun] at hloop
      cases hloop with
      | ended hended =>
          rw [bind_of_ok hrun, Out.after_res]
          exact finish_endsAs P start R alive image req hended w₂
      | thrown e =>
          rw [bind_of_error hrun]
          rfl

/-- The same, with the answer of the call. -/
theorem Launched.answers {fs : List Frame} {req : InvokeReq} {env : Env} {w w₁ : World}
    {a : Action} {obj : Object} {start : ℕ} (hl : Launched P base fs req env w a obj start w₁)
    (hR : Represents base w R) (henv : env.Smooth alive) (hcap : req.retLength = cap)
    {script : List Rpc}
    (hloop : ∃ x, (R.procedures alive image cap).Returns (image obj a.lang req.arg) x ∧
      LoopEndsAs (serverLoop P (req.stack start fs) req.cfg start env.ending script none
        { toManagerBase := base } w₁).res x) :
    ∃ y, (R.procedures alive image cap).Answers req.name req.arg y ∧
      EndsAs (opActionInvoke P base fs req env script w).res y := by
  obtain ⟨x, hret, hends⟩ := hloop
  have hbody : (R.procedures alive image cap).body req.name req.arg =
      .ok (image obj a.lang req.arg) :=
    hR.body hl.find hl.validate fun o ho => by rwa [henv.alive] at ho
  subst hcap
  exact ⟨_, .ran hbody hret, hl.endsAs hends⟩

variable (image cap) in
/-- Without other failures a launch is refused only where the call is. -/
theorem refused_of_smooth {fs : List Frame} {req : InvokeReq} {env : Env} {w w' : World} {s : Stop}
    {o : List Obs} (henv : env.Smooth alive) (hR : Represents base w R)
    (hp : prepare P base fs req env w = ⟨.error s, w', o⟩) :
    ∃ e, s = .thrown e ∧ (R.procedures alive image cap).body req.name req.arg = .error e := by
  cases hfind : w.find base req.name with
  | none =>
      rw [prepare, bind_of_error (findAction_unknown fs env.alive hfind)] at hp
      cases hp
      exact ⟨_, rfl, Registry.body_unbound (hR.unbound hfind) req.arg⟩
  | some a =>
      obtain ⟨slot, obj, hs, ho, hbound⟩ := hR.bound hfind
      have hlookup := findAction_found fs env.alive hfind
      have hval := World.validate_of_caps ho env.alive
      rw [henv.alive, Option.filter_some] at hval
      rw [henv.alive, hs, hval] at hlookup
      rw [Registry.body_bound hbound]
      cases hlive : alive obj with
      | false =>
          rw [hlive] at hlookup
          rw [prepare, henv.alive, bind_of_error hlookup] at hp
          cases hp
          exact ⟨_, rfl, rfl⟩
      | true =>
          rw [hlive] at hval
          rw [← hs, ← henv.alive] at hval
          obtain ⟨o', ho'⟩ := (launched_of_smooth P base fs req henv hfind hval).prepare
          rw [ho'] at hp
          cases hp

/-- The loop without a `timeout_us`. -/
theorem serverLoop_cons_untimed {own : List Frame} {cfg : Config} (hT : cfg.timeoutUs = 0)
    (start : ℕ) (ending : Ending) (m : Rpc) (rest : List Rpc) (reply : Option Reply)
    (epi : WorkerEpiface) (w : World) :
    (serverLoop P own cfg start ending (m :: rest) reply epi w).res =
      ((dispatch P own m epi >>= fun r => if r.2.worker.alive then
        serverLoop P own cfg start ending rest (some r.1) r.2 else pure r.2) w).res := by
  have ht : ¬TimesOut P cfg start w := fun ht => ht.1 hT
  obtain ⟨rcv, t, hw⟩ := wait_inTime own ht reply
  rw [serverLoop, bind_of_ok hw, Out.after_res, afterCheck, if_pos hT]

/-- **Runs.**  Without other failures every loop ends as the program it serves. -/
theorem Sends.ends {own : List Frame} {cfg : Config} {p : WorkerProg} {w : World}
    {script : List Rpc} (hs : Sends P base image cap False own cfg p w script)
    (hT : cfg.timeoutUs = 0) (hsmooth : SmoothScript alive script) (hR : Represents base w R)
    (start : ℕ) (ending : Ending) (reply : Option Reply) (epi : WorkerEpiface)
    (hb : epi.toManagerBase = base) (hfresh : epi.worker = {}) :
    ∃ x, (R.procedures alive image cap).Returns p x ∧
      LoopEndsAs (serverLoop P own cfg start ending script reply epi w).res x := by
  induction hs generalizing start ending reply epi with
  | exit value data =>
      rename_i own cfg w
      refine ⟨_, .done _, ?_⟩
      rw [serverLoop_cons_untimed hT, bind_of_ok (dispatch_exit own value data epi w)]
      refine .ended ⟨rfl, ?_⟩
      show epi.worker.errorExit = false
      rw [hfresh]
  | signal code =>
      rename_i own cfg w
      refine ⟨_, .done _, ?_⟩
      obtain ⟨o, ho, -⟩ := dispatch_signal_exit (P := P) own code epi w
      rw [serverLoop_cons_untimed hT, bind_of_ok ho]
      exact .ended rfl
  | silent h => exact h.elim
  | notLaunched hp =>
      rename_i own cfg name arg k env script w w' s o
      rw [afterCheck, if_pos hT] at hp
      obtain ⟨e, rfl, hbody⟩ := refused_of_smooth image cap hsmooth.1.1 hR hp
      refine ⟨_, .unwound (.refused hbody), ?_⟩
      rw [serverLoop_cons_untimed hT, dispatch_invoke, hb, opActionInvoke_eq,
        bind_of_error (bind_of_error (bind_of_error hp))]
      exact .thrown e
  | unanswered hl hnested hcall ih =>
      rename_i own cfg name arg k env script w w₁ w' a obj start' s o
      rw [afterCheck, if_pos hT] at hl hcall
      have hnestedEnds := ih rfl hsmooth.1.2 (hR.later hl.later) start' env.ending none
        { toManagerBase := base } rfl rfl
      obtain ⟨x, hans, hends⟩ := hl.answers hR hsmooth.1.1 rfl hnestedEnds
      rw [hcall] at hends
      obtain ⟨e, rfl, rfl⟩ := hends.of_error
      refine ⟨_, .unwound hans, ?_⟩
      rw [serverLoop_cons_untimed hT, dispatch_invoke, hb, bind_of_error (bind_of_error hcall)]
      exact .thrown e
  | answered hl hnested hcall hrest ihnested ihrest =>
      rename_i own cfg name arg k env script rest w w₁ w' a obj start' reply' o
      rw [afterCheck, if_pos hT] at hl hcall
      have hnestedEnds := ihnested rfl hsmooth.1.2 (hR.later hl.later) start' env.ending none
        { toManagerBase := base } rfl rfl
      obtain ⟨x, hans, hends⟩ := hl.answers hR hsmooth.1.1 rfl hnestedEnds
      rw [hcall] at hends
      obtain rfl := hends.of_ok
      obtain ⟨y, hret, hloop⟩ := ihrest hT hsmooth.2 (hR.later (World.later_of_call hcall)) start
        ending (some reply') epi hb hfresh
      refine ⟨y, .told hans hret, ?_⟩
      have hd : dispatch P own (.invoke (faasRequest cap name arg) env script) epi w =
          ⟨.ok (reply', epi), w', o⟩ := by
        rw [dispatch_invoke, hb, bind_of_ok hcall]
        simp [Out.after]
      rw [serverLoop_cons_untimed hT, bind_of_ok hd, Out.after_res]
      simpa only [hfresh, if_true] using hloop

/-- Without other failures an invocation ends as a call. -/
theorem Staged.endsAs {fs : List Frame} {req : InvokeReq} {env : Env} {script : List Rpc}
    {w : World} (hst : Staged P base image cap False fs req env script w)
    (hR : Represents base w R) (henv : env.Smooth alive) (hscript : SmoothScript alive script)
    (hcap : req.retLength = cap) (hT : req.cfg.timeoutUs = 0) :
    ∃ x, (R.procedures alive image cap).Answers req.name req.arg x ∧
      EndsAs (opActionInvoke P base fs req env script w).res x := by
  cases hst with
  | launched hl hs =>
      exact hl.answers hR henv hcap
        (hs.ends hT hscript (hR.later hl.later) _ env.ending none _ rfl rfl)
  | notLaunched hp =>
      obtain ⟨e, rfl, hbody⟩ := refused_of_smooth image cap henv hR hp
      refine ⟨_, .refused hbody, ?_⟩
      rw [opActionInvoke_eq, bind_of_error hp]
      rfl

/-- A platform where nothing fails. -/
def smoothEnv (alive : Object → Bool) : Env := { alive := alive, python := some 0 }

theorem smoothEnv_smooth (alive : Object → Bool) : (smoothEnv alive).Smooth alive :=
  ⟨rfl, rfl, Int.le_refl 0, rfl, rfl, rfl, rfl, Int.le_refl 0, Int.le_refl 0, rfl⟩

variable (P) in
/-- An action the registry knows is launched. -/
theorem launched_of_body (fs : List Frame) (req : InvokeReq) {w : World} {p : WorkerProg}
    (hR : Represents base w R)
    (hbody : (R.procedures alive image cap).body req.name req.arg = .ok p) :
    ∃ a obj, Launched P base fs req (smoothEnv alive) w a obj (P.clock w.ticks) w.tick ∧
      image obj a.lang req.arg = p := by
  cases hfind : w.find base req.name with
  | none =>
      rw [Registry.body_unbound (hR.unbound hfind)] at hbody
      cases hbody
  | some a =>
      obtain ⟨slot, obj, hs, ho, hbound⟩ := hR.bound hfind
      rw [Registry.body_bound hbound] at hbody
      cases hlive : alive obj with
      | false =>
          rw [hlive, if_neg Bool.false_ne_true] at hbody
          cases hbody
      | true =>
          rw [hlive, if_pos rfl] at hbody
          have hval : w.validate (smoothEnv alive).alive a.ds = some obj := by
            rw [hs, World.validate_of_caps ho]
            exact Option.filter_eq_some_iff.mpr ⟨rfl, hlive⟩
          exact ⟨a, obj, launched_of_smooth P base fs req (smoothEnv_smooth alive) hfind hval,
            Except.ok.inj hbody⟩

variable (P) in
/-- One it does not know is not. -/
theorem notLaunched_of_body (fs : List Frame) (req : InvokeReq) {w : World} {e : Exn}
    (hR : Represents base w R)
    (hbody : (R.procedures alive image cap).body req.name req.arg = .error e) :
    ∃ s w' o, prepare P base fs req (smoothEnv alive) w = ⟨.error s, w', o⟩ := by
  cases hfind : w.find base req.name with
  | none => exact ⟨_, _, _, bind_of_error (findAction_unknown fs alive hfind)⟩
  | some a =>
      obtain ⟨slot, obj, hs, ho, hbound⟩ := hR.bound hfind
      have hlookup := findAction_found fs alive hfind
      rw [hs, World.validate_of_caps ho, Option.filter_some] at hlookup
      rw [Registry.body_bound hbound] at hbody
      cases hlive : alive obj with
      | false =>
          rw [hlive, if_neg Bool.false_ne_true] at hlookup
          exact ⟨_, _, _, bind_of_error hlookup⟩
      | true =>
          rw [hlive, if_pos rfl] at hbody
          cases hbody

/-- A call sends its invocation, and what its continuation sends if there is an answer. -/
theorem sends_of_call {own : List Frame} {cfg : Config} {name arg : CString} {env : Env}
    {script : List Rpc} {w : World} {x : Except Exn RpcResult} (hT : cfg.timeoutUs = 0)
    (hst : Staged P base image cap False own (faasRequest cap name arg) env script w)
    (henv : env.Smooth alive) (hscript : SmoothScript alive script)
    (hends : EndsAs (opActionInvoke P base own (faasRequest cap name arg) env script w).res x)
    (k : RpcResult → WorkerProg) (hrest : ∀ b, x = .ok b → ∀ w', w.Later w' →
      ∃ rest, Sends P base image cap False own cfg (k b) w' rest ∧ SmoothScript alive rest) :
    ∃ script', Sends P base image cap False own cfg (.call name arg k) w script' ∧
      SmoothScript alive script' := by
  have hcheck : afterCheck cfg w = w := if_pos hT
  match hcall : opActionInvoke P base own (faasRequest cap name arg) env script w with
  | ⟨.error s, w', o⟩ =>
      refine ⟨[.invoke (faasRequest cap name arg) env script], ?_, ⟨henv, hscript⟩, trivial⟩
      rw [← hcheck] at hcall
      cases hst with
      | launched hl hs =>
          rw [← hcheck] at hl
          exact .unanswered hl hs hcall
      | notLaunched hp =>
          rw [← hcheck] at hp
          exact .notLaunched hp
  | ⟨.ok reply, w', o⟩ =>
      rw [hcall] at hends
      obtain ⟨rest, hs', hrest'⟩ := hrest _ hends.of_ok w' (World.later_of_call hcall)
      refine ⟨.invoke (faasRequest cap name arg) env script :: rest, ?_, ⟨henv, hscript⟩, hrest'⟩
      cases hst with
      | launched hl hs =>
          rw [← hcheck] at hl hcall
          exact .answered hl hs hcall hs'
      | notLaunched hp =>
          rw [opActionInvoke_eq, bind_of_error hp] at hcall
          cases hcall

variable (P) in
mutual

/-- A program that comes to an end is one a worker can run. -/
theorem sends_of_returns {p : WorkerProg} {x : Except Exn WorkerEnd} :
    (R.procedures alive image cap).Returns p x → ∀ (own : List Frame) {cfg : Config} {w : World},
      cfg.timeoutUs = 0 → Represents base w R →
      ∃ script, Sends P base image cap False own cfg p w script ∧ SmoothScript alive script
  | .done (.exit value), own, cfg, w, hT, hR =>
      ⟨_, .exit value {}, trivial, trivial⟩
  | .done (.signal code), own, cfg, w, hT, hR =>
      ⟨_, .signal code, trivial, trivial⟩
  | .told hb hk, own, cfg, w, hT, hR => by
      obtain ⟨script, hscript, hst⟩ := staged_of_answers hb own {} hR rfl
      have henv := smoothEnv_smooth alive
      obtain ⟨y, hans, hends⟩ := hst.endsAs hR henv hscript rfl rfl
      refine sends_of_call hT hst henv hscript hends _ fun b hy w' hlater => ?_
      obtain rfl := Except.ok.inj (hb.unique (hy ▸ hans))
      exact sends_of_returns hk own hT (hR.later hlater)
  | .unwound he, own, cfg, w, hT, hR => by
      obtain ⟨script, hscript, hst⟩ := staged_of_answers he own {} hR rfl
      have henv := smoothEnv_smooth alive
      obtain ⟨y, hans, hends⟩ := hst.endsAs hR henv hscript rfl rfl
      refine sends_of_call hT hst henv hscript hends _ fun b hy w' hlater => ?_
      cases he.unique (hy ▸ hans)

theorem staged_of_answers {name arg : CString} {x : Except Exn RpcResult} :
    (R.procedures alive image cap).Answers name arg x → ∀ (fs : List Frame) (cfg : Config)
      {w : World}, Represents base w R → cfg.timeoutUs = 0 →
      ∃ script, SmoothScript alive script ∧ Staged P base image cap False fs
        { name := name, arg := arg, retLength := cap, cfg := cfg } (smoothEnv alive) script w
  | .refused hbody, fs, cfg, w, hR, hT => by
      obtain ⟨s, w', o, hp⟩ := notLaunched_of_body P fs
        { name := name, arg := arg, retLength := cap, cfg := cfg } hR hbody
      exact ⟨[], trivial, .notLaunched hp⟩
  | .ran hbody hp, fs, cfg, w, hR, hT => by
      obtain ⟨a, obj, hl, himage⟩ := launched_of_body P fs
        { name := name, arg := arg, retLength := cap, cfg := cfg } hR hbody
      obtain ⟨script, hs, hscript⟩ := sends_of_returns hp
        (InvokeReq.stack { name := name, arg := arg, retLength := cap, cfg := cfg }
          (P.clock w.ticks) fs) hT (hR.later hl.later)
      rw [← himage] at hs
      exact ⟨script, hscript, .launched hl hs⟩

end

/-- **Invocations are calls.**  Without other failures every invocation ends as the call it is,
and every call that is answered, or ends in an error, is the end of an invocation. -/
theorem invocation_is_call (P : Platform) {w : World} (hR : Represents base w R)
    (alive : Object → Bool) (image : Images) (fs : List Frame) {req : InvokeReq}
    (hT : req.cfg.timeoutUs = 0) (x : Except Exn RpcResult) :
    (∀ env script, env.Smooth alive → SmoothScript alive script →
      Staged P base image req.retLength False fs req env script w →
      (EndsAs (opActionInvoke P base fs req env script w).res x ↔
        (R.procedures alive image req.retLength).Answers req.name req.arg x)) ∧
    ((R.procedures alive image req.retLength).Answers req.name req.arg x →
      ∃ env script, env.Smooth alive ∧ SmoothScript alive script ∧
        Staged P base image req.retLength False fs req env script w) := by
  refine ⟨fun env script henv hscript hst => ?_, fun hans => ?_⟩
  · obtain ⟨y, hy, hends⟩ := hst.endsAs hR henv hscript rfl hT
    constructor
    · intro h
      obtain rfl : x = y := by
        cases hres : (opActionInvoke P base fs req env script w).res with
        | ok reply =>
            rw [hres] at h hends
            rw [h.of_ok, hends.of_ok]
        | error s =>
            rw [hres] at h hends
            obtain ⟨e, rfl, rfl⟩ := h.of_error
            obtain ⟨e', rfl, he⟩ := hends.of_error
            cases he
            rfl
      exact hy
    · intro h
      rw [h.unique hy]
      exact hends
  · obtain ⟨script, hscript, hst⟩ := staged_of_answers P hans fs req.cfg hR hT
    exact ⟨_, script, smoothEnv_smooth alive, hscript, hst⟩

end

/-! ## The client -/

section
variable {P : Platform} {base : ManagerBase} {image : Images} {quiet : Prop}

/-- A reply without an error comes from the invocation. -/
theorem opActionInvoke_of_serve (hstr : ∀ n, Fmt.Plain (P.errToStr n)) {cap : Option Object}
    {req : InvokeReq} {env : Env} {script : List Rpc} {w : World} {reply : Reply}
    (h : (serve P base ⟨cap, .invoke req env script⟩ w).res = .ok reply)
    (hlabel : 0 ≤ reply.label) :
    (opActionInvoke P base [] req env script (w.deliver cap)).res = .ok reply := by
  have hrep := clientDispatch_refusals P base ⟨cap, .invoke req env script⟩ (w.deliver cap)
  simp only [serve, modify_bind_apply] at h
  cases hres : clientDispatch P base ⟨cap, .invoke req env script⟩ (w.deliver cap) with
  | mk res w' o =>
      cases res with
      | ok r =>
          rw [excLogDispatch_of_ok hres] at h
          exact (congrArg Out.res hres).trans h
      | error s =>
          cases s with
          | blocked =>
              rw [excLogDispatch, tryCatch_of_error _ hres] at h
              cases h
          | terminated =>
              rw [hres] at hrep
              exact hrep.elim
          | thrown e =>
              rw [hres] at hrep
              have herr : ∃ n, e.errNo? = some n ∧ n < 0 := by
                rcases hrep with ⟨hplain, -⟩ | ⟨name, hquote, -⟩
                · obtain ⟨n, he, hneg, -⟩ := hplain.errNo
                  exact ⟨n, he, hneg⟩
                · exact quote_errNo hquote
              obtain ⟨n, he, hneg⟩ := herr
              by_cases hlog : Loggable P e
              · rw [excLogDispatch_of_loggable hstr he hres hlog] at h
                obtain rfl := Except.ok.inj h
                exact absurd hneg (Int.not_lt.mpr hlabel)
              · obtain ⟨f, hf⟩ := excLogDispatch_of_not_loggable hstr he hres hlog
                rw [hf] at h
                cases h

/-- What a call is answered with is an exit value. -/
theorem Registry.value_of_answers {R : Registry} {alive : Object → Bool} {cap : ℕ}
    {name arg : CString} {x : Except Exn RpcResult}
    (h : (R.procedures alive image cap).Answers name arg x) {b : RpcResult} (hb : x = .ok b) :
    ∃ v : CString, b = valueResult v := by
  cases h with
  | refused _ => cases hb
  | ran hbody hret =>
      rename_i p y
      cases y with
      | error e => cases hb
      | ok e =>
          cases e with
          | signal code => cases hb
          | exit v =>
              refine ⟨v, ?_⟩
              have hdeliver : (if v.length < cap then Except.ok (valueResult v)
                else Except.error bufferTooSmall) = Except.ok b := hb
              split at hdeliver
              · exact (Except.ok.inj hdeliver).symm
              · cases hdeliver

/-- **No wrong answer.**  After every run of the client's requests in which the receive slot can be
re-allocated wherever a create asks for it, and whatever fails in the invocation: a string the
client's `action_invoke` returns without an error is the answer of the call.

Without the condition it need not be: a create that fails there has bound its name to the receive
slot, and the next capability the client sends ends up in it. -/
theorem client_gets_answer (hstr : ∀ n, Fmt.Plain (P.errToStr n)) {w₀ w : World}
    {ls : List (ClientMsg × Answer)} (hempty : w₀.maps base.actions = ∅)
    (hrun : Run (Turn P base) w₀ ls w) {cap : Option Object} {req : InvokeReq} {env : Env}
    {script : List Rpc}
    (hst : Staged P base image req.retLength quiet [] req env script (w.deliver cap))
    {reply : Reply} (hres : (serve P base ⟨cap, .invoke req env script⟩ w).res = .ok reply)
    {buf : RecvBuffer} {s : Bytes} (hgets : (actionInvoke buf reply.rpcResult).Gets s) :
    ∃ (R : Registry) (v : CString),
      Run (fun (R : Registry) l R' => R.serve l.1 = (l.2, R')) (fun _ => none) ls R ∧
      v.bytes = s ∧
      (R.procedures (fun _ => true) image req.retLength).Answers req.name req.arg
        (.ok (valueResult v)) := by
  -- the client's requests so far make up a registry
  have hsim : ∃ R, Run (fun (R : Registry) l R' => R.serve l.1 = (l.2, R')) (fun _ => none) ls R ∧
      Represents base w R := by
    refine hrun.simulate (Represents.empty hempty) fun {w w' l R} hrep hturn => ?_
    obtain ⟨hok, hans, rfl⟩ := hturn
    obtain ⟨hans', hrep'⟩ := hrep.turn P hok
    exact ⟨_, Prod.ext (Option.some.inj (hans'.symm.trans hans)) rfl, hrep'⟩
  obtain ⟨R, hrunR, hrep⟩ := hsim
  -- the reply carries no error, so it is the one of the invocation
  have hlabel : 0 ≤ reply.label := by
    by_contra hneg
    have herr : reply.rpcResult.tag.error < 0 := Int.not_le.mp hneg
    exact not_gets_of_error buf herr s hgets
  have hcall := opActionInvoke_of_serve hstr hres hlabel
  have hans := hst.sound (hrep.deliver cap) rfl hcall
  obtain ⟨v, hv⟩ := Registry.value_of_answers hans rfl
  refine ⟨R, v, hrunR, ?_, hv ▸ hans⟩
  obtain ⟨tag, hret, -⟩ := hgets
  have hok : (0 : Int) ≤ (Tag.label l4EOk).error := by decide
  have hstub := actionInvoke_terminated buf hok v
  rw [hv] at hret
  have hsame : actionInvoke buf (valueResult v) =
      if v.length < buf.size then .returned (.label l4EOk) v.bytes else .thrown recvTooSmall :=
    hstub
  rw [hsame] at hret
  split at hret
  · cases hret
    rfl
  · cases hret

end

/-! ## An action that calls itself -/

/-- With an argument, what the call without one returns; that is `g`. -/
def relay : Images := fun _ _ arg =>
  if arg.bytes = [] then .done (.exit nameG)
  else .call nameF default fun r => .done (.exit (CString.ofBytes r.array))

/-- What the client's worker sends, and what the worker of the call does. -/
def relayScript : List Rpc :=
  [.invoke (faasRequest 2 nameF default) {} [.exit nameG {}], .exit nameG {}]

def requestRelay : InvokeReq := { name := nameF, arg := nameG, retLength := 2 }

/-- The client that created `f` invokes it, and gets `g`. -/
theorem client_gets_answer_relay :
    ∃ (R : Registry) (v : CString),
      Run (fun (R : Registry) l R' => R.serve l.1 = (l.2, R')) (fun _ => none)
        [(firstCreate, .done)] R ∧
      v.bytes = lit "g" ∧
      (R.procedures (fun _ => true) relay 2).Answers nameF nameG (.ok (valueResult v)) := by
  have hturn : Turn platform₀ base₀ {} (firstCreate, .done) _ :=
    ⟨⟨1, rfl, by decide, fun n a hn => nomatch hn⟩, rfl, rfl⟩
  have hrun : Run (Turn platform₀ base₀) {} [(firstCreate, .done)] _ := .snoc .nil hturn
  have hst : Staged platform₀ base₀ relay 2 False [] requestRelay {} relayScript
      ((serve platform₀ base₀ firstCreate {}).st.deliver none) :=
    .launched ⟨rfl, rfl, _, rfl⟩ (.answered ⟨rfl, rfl, _, rfl⟩ (.exit nameG {}) rfl (.exit nameG {}))
  have hres : (serve platform₀ base₀ ⟨none, .invoke requestRelay {} relayScript⟩
      (serve platform₀ base₀ firstCreate {}).st).res = .ok (exitReply 0 3000 (lit "g") {}) := rfl
  have hgets : (actionInvoke ⟨[1, 1], by decide⟩ (exitReply 0 3000 (lit "g") {}).rpcResult).Gets
      (lit "g") := ⟨.label 0, rfl, by decide⟩
  exact client_gets_answer platform₀_errToStr rfl hrun hst hres hgets

/-- The same action behind a manager where nothing else fails. -/
theorem invocation_is_call_relay :
    ∃ env script, env.Smooth (fun _ => true) ∧ SmoothScript (fun _ => true) script ∧
      Staged platform₀ base₀ relay 2 False [] requestRelay env script
        (serve platform₀ base₀ firstCreate {}).st := by
  have hok : AllocOk base₀ {} firstCreate := ⟨1, rfl, by decide, fun n a hn => nomatch hn⟩
  have hR := ((Represents.empty rfl).turn platform₀ hok).2
  have hans : (Registry.procedures (Registry.serve (fun _ => none) firstCreate).2 (fun _ => true)
      relay 2).Answers nameF nameG (.ok (valueResult nameG)) :=
    Procedures.answers_iff_answer.mpr ⟨4, rfl⟩
  have hT : requestRelay.cfg.timeoutUs = 0 := rfl
  exact (invocation_is_call platform₀ hR (fun _ => true) relay [] hT _).2 hans

end MettEagle
