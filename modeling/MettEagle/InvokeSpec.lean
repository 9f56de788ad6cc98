/-
# `MettEagle.InvokeSpec` — what each step of `op_action_invoke` can do

One lemma for each primitive of `MettEagle.Invoke`, saying everything it can do
at a state; nothing after this module unfolds a primitive.  Then the one
induction over scripts that every invariant of an invocation goes through:

    HeadRules       what the head of an invocation and each later primitive
                    have to preserve
    HeadRules.loop  the server loop preserves it, whatever the worker sends
    HeadRules.run   so does `op_action_invoke`, at any depth of nesting
    LoopRules       rules for the primitives of the head, one by one

Two instances follow at once.  An invocation reads the maps, the slots and the
kernel objects and changes none of them, only the clock moves; and every wait it
performs is its own or an inner one's, never one of the enclosing invocations'.
-/
import MettEagle.Invoke

namespace MettEagle

open Act

/-! ## Exceptions -/

/-- The exception carries a negative error number and a text of the manager's own, without
braces. -/
inductive Exn.Plain : Exn → Prop
  | loggable {errNo : Int} {msg : Bytes} :
      errNo < 0 → Fmt.Plain msg → Exn.Plain (.loggable errNo msg)
  | runtimeError {errNo : Int} {extra : Bytes} :
      errNo < 0 → Fmt.Plain extra → Exn.Plain (.runtimeError errNo extra)

/-- What an invocation of an unbound name throws; the name is part of the text. -/
def unknownAction (name : CString) : Exn :=
  .loggable (-l4EInval) (lit "Action '" ++ (name.bytes ++ lit "' doesn't exist"))

def goneAction : Exn := .loggable (-l4EInval) (lit "dataspace invalid")
def workerTimeout : Exn := .loggable (-l4EFault) (lit "Worker timeout")
def workerError : Exn := .loggable (-l4EFault) (lit "Worker exited with error")
def bufferTooSmall : Exn := .loggable (-l4EMsgTooLong) (lit "The utcb buffer is too small!")
def ipcFailed (code : ℕ) : Exn :=
  .runtimeError (l4IpcToErrno code) (lit "Worker ipc failed.")

theorem goneAction_plain : goneAction.Plain := .loggable (by decide) (by decide)
theorem workerTimeout_plain : workerTimeout.Plain := .loggable (by decide) (by decide)
theorem workerError_plain : workerError.Plain := .loggable (by decide) (by decide)
theorem bufferTooSmall_plain : bufferTooSmall.Plain := .loggable (by decide) (by decide)
theorem ipcFailed_plain (code : ℕ) : (ipcFailed code).Plain :=
  .runtimeError (l4IpcToErrno_neg code) (by decide)

theorem throwLoggable_plain {σ ω α : Type} {msg : Bytes} (h : Fmt.Plain msg) (errNo : Int)
    (w : σ) :
    (throwLoggable errNo msg [] : Act σ ω Stop α) w =
      ⟨.error (.thrown (.loggable errNo msg)), w, []⟩ := by
  simp only [throwLoggable, loggableException, Fmt.format_plain h]
  rfl

/-! ## Guards: return at once or throw, and change nothing -/

/-- The program returns without doing anything, or throws a plain exception at once. -/
def Guard {σ ω α : Type} (m : Act σ ω Stop α) : Prop :=
  ∀ w, (∃ a, m w = ⟨.ok a, w, []⟩) ∨ ∃ e, Exn.Plain e ∧ m w = ⟨.error (.thrown e), w, []⟩

section
variable {σ ω α β : Type}

theorem Guard.pure (a : α) : Guard (Pure.pure a : Act σ ω Stop α) :=
  fun _ => Or.inl ⟨a, rfl⟩

theorem Guard.throw {e : Exn} (h : e.Plain) : Guard (Act.throw (.thrown e) : Act σ ω Stop α) :=
  fun _ => Or.inr ⟨e, h, rfl⟩

theorem Guard.throwLoggable {errNo : Int} {msg : Bytes} (hneg : errNo < 0) (h : Fmt.Plain msg) :
    Guard (MettEagle.throwLoggable errNo msg [] : Act σ ω Stop α) :=
  fun w => Or.inr ⟨_, .loggable hneg h, throwLoggable_plain h errNo w⟩

theorem Guard.bind {m : Act σ ω Stop α} {f : α → Act σ ω Stop β} (hm : Guard m)
    (hf : ∀ a, Guard (f a)) : Guard (m >>= f) := by
  intro w
  rcases hm w with ⟨a, ha⟩ | ⟨e, he, herr⟩
  · rw [bind_of_ok ha, Out.after_nil]
    exact hf a w
  · rw [bind_of_error herr]
    exact Or.inr ⟨e, he, rfl⟩

theorem Guard.chksys (err : Int) (extra : Bytes) (h : Fmt.Plain extra) :
    Guard (MettEagle.chksys err extra : Act σ ω Stop Unit) := by
  intro w
  simp only [MettEagle.chksys]
  split
  · rename_i hneg
    exact Or.inr ⟨_, .runtimeError hneg h, rfl⟩
  · exact Or.inl ⟨(), rfl⟩

theorem Guard.chkcap (valid : Bool) (extra : Bytes) (err : Int) (h : Fmt.Plain extra)
    (hneg : err < 0) : Guard (MettEagle.chkcap valid extra err : Act σ ω Stop Unit) := by
  intro w
  cases valid with
  | true => exact Or.inl ⟨(), rfl⟩
  | false => exact Or.inr ⟨_, .runtimeError hneg h, rfl⟩

end

theorem Guard.limitAllocator (cfg : Config) (env : Env) :
    Guard (MettEagle.limitAllocator cfg env) := by
  simp only [MettEagle.limitAllocator]
  split
  · exact Guard.pure _
  · exact Guard.chksys _ _ (by decide)

theorem Guard.workerDs (action : Action) (rom : Option Slot) :
    Guard (MettEagle.workerDs action rom) := by
  simp only [MettEagle.workerDs]
  split
  · exact Guard.pure _
  · split
    · cases rom with
      | none => exact Guard.throwLoggable (by decide) (by decide)
      | some s => exact Guard.pure _
    · exact Guard.pure _

theorem Guard.appModel (env : Env) : Guard (MettEagle.appModel env) := by
  refine Guard.bind (Guard.chkcap _ _ _ (by decide) (by decide)) fun _ => ?_
  refine Guard.bind (Guard.chkcap _ _ _ (by decide) (by decide)) fun _ => ?_
  refine Guard.bind (Guard.chkcap _ _ _ (by decide) (by decide)) fun _ => ?_
  exact Guard.chksys _ _ (by decide)

theorem Guard.launch (env : Env) : Guard (MettEagle.launch env) := by
  simp only [MettEagle.launch]
  cases env.launch with
  | none => exact Guard.pure _
  | some f => exact Guard.throw (.runtimeError f.neg f.plain)

/-! ## The primitives -/

/-- Only the clock moved, and it did not move back. -/
structure World.Later (w w' : World) : Prop where
  maps : w'.maps = w.maps
  rcv : w'.rcv = w.rcv
  caps : w'.caps = w.caps
  ticks : w.ticks ≤ w'.ticks

theorem World.Later.refl (w : World) : w.Later w := ⟨rfl, rfl, rfl, le_refl _⟩

theorem World.Later.trans {w₁ w₂ w₃ : World} (h : w₁.Later w₂) (h' : w₂.Later w₃) :
    w₁.Later w₃ :=
  ⟨h'.maps.trans h.maps, h'.rcv.trans h.rcv, h'.caps.trans h.caps, le_trans h.ticks h'.ticks⟩

/-- The world after one more clock reading. -/
def World.tick (w : World) : World := { w with ticks := w.ticks + 1 }

theorem World.later_tick (w : World) : w.Later w.tick := ⟨rfl, rfl, rfl, Nat.le_succ _⟩

section
variable (P : Platform)

theorem now_apply (w : World) : now P w = ⟨.ok (P.clock w.ticks), w.tick, []⟩ := rfl

section findAction
variable {base : ManagerBase} {name : CString} {w : World} (fs : List Frame)
  (alive : Object → Bool)

theorem findAction_unknown (h : (w.maps base.actions).lookup name = none) :
    findAction base fs alive name w =
      ⟨.error (.thrown (unknownAction name)), w, [.refused name]⟩ := by
  simp only [findAction, get_bind_apply, if_pos (Actions.count_eq_zero.mpr h)]
  rfl

theorem findAction_found {a : Action} (h : (w.maps base.actions).lookup name = some a) :
    findAction base fs alive name w =
      match w.validate alive a.ds with
      | none => ⟨.error (.thrown goneAction), w, [.gone name]⟩
      | some o => ⟨.ok a, w, [.resolved base fs name o a.lang]⟩ := by
  have hc : (w.maps base.actions).count name ≠ 0 := fun hc => by
    rw [Actions.count_eq_zero.mp hc] at h
    cases h
  simp only [findAction, get_bind_apply, if_neg hc, modify_bind_apply,
    Actions.index_of_lookup h, World.setMap_self]
  cases w.validate alive a.ds with
  | none => rfl
  | some o => rfl

end findAction

/-- Before the launch nothing happens but a plain exception; the clock is read once, just
before it, and the dataspace is the one the language gives. -/
theorem startWorker_cases (base : ManagerBase) (fs : List Frame) (req : InvokeReq) (env : Env)
    (action : Action) (w : World) :
    (∃ e, Exn.Plain e ∧
      startWorker P base fs req env action w = ⟨.error (.thrown e), w, []⟩) ∨
    (∃ e ds, Exn.Plain e ∧ workerDs action env.python w = ⟨.ok ds, w, []⟩ ∧
      startWorker P base fs req env action w = ⟨.error (.thrown e), w.tick,
        [.launch base (⟨P.clock w.ticks, req.cfg.timeoutUs⟩ :: fs) ds req.arg]⟩) ∨
    (∃ ds, workerDs action env.python w = ⟨.ok ds, w, []⟩ ∧ startWorker P base fs req env action w =
      ⟨.ok (P.clock w.ticks), w.tick,
        [.launch base (⟨P.clock w.ticks, req.cfg.timeoutUs⟩ :: fs) ds req.arg]⟩) := by
  simp only [startWorker]
  -- the guards, one after the other: each returns and changes nothing, or ends the whole
  rcases Guard.chkcap env.parentCap (lit "alloc parent cap") (-l4ENoMem) (by decide)
    (by decide) w with ⟨_, h⟩ | ⟨e, he, h⟩
  swap; · exact Or.inl ⟨e, he, bind_of_error h⟩
  rw [bind_of_ok h, Out.after_nil]
  rcases Guard.limitAllocator req.cfg env w with ⟨_, h⟩ | ⟨e, he, h⟩
  swap; · exact Or.inl ⟨e, he, bind_of_error h⟩
  rw [bind_of_ok h, Out.after_nil]
  rcases Guard.workerDs action env.python w with ⟨ds, hds⟩ | ⟨e, he, h⟩
  swap; · exact Or.inl ⟨e, he, bind_of_error h⟩
  rw [bind_of_ok hds, Out.after_nil]
  rcases Guard.appModel env w with ⟨_, h⟩ | ⟨e, he, h⟩
  swap; · exact Or.inl ⟨e, he, bind_of_error h⟩
  rw [bind_of_ok h, Out.after_nil]
  rcases Guard.chksys env.gate (lit "Failed to create gate") (by decide) w
    with ⟨_, h⟩ | ⟨e, he, h⟩
  swap; · exact Or.inl ⟨e, he, bind_of_error h⟩
  rw [bind_of_ok h, Out.after_nil, bind_of_ok (now_apply P w), Out.after_nil, emit_bind_apply]
  rcases Guard.launch env w.tick with ⟨_, h⟩ | ⟨e, he, h⟩
  · rw [bind_of_ok h]
    exact Or.inr (Or.inr ⟨ds, hds, rfl⟩)
  · rw [bind_of_error h]
    exact Or.inr (Or.inl ⟨e, ds, he, hds, rfl⟩)

/-- The timeout `check_timeout` computes from the clock reading `t`. -/
def budget (start : ℕ) (timeoutUs : UInt32) (t : ℕ) : Timeout :=
  P.timeoutFromUs (UInt32.ofNat (timeoutUs.toNat - passedUs start t).toNat)

/-- At the clock reading `t` the time is used up. -/
def Expired (start : ℕ) (timeoutUs : UInt32) (t : ℕ) : Prop :=
  (timeoutUs.toNat : Int) < passedUs start t

instance (start : ℕ) (timeoutUs : UInt32) (t : ℕ) : Decidable (Expired start timeoutUs t) :=
  inferInstanceAs (Decidable ((timeoutUs.toNat : Int) < passedUs start t))

theorem checkTimeout_apply (start : ℕ) (timeoutUs : UInt32) (w : World) :
    checkTimeout P start timeoutUs w =
      if Expired start timeoutUs (P.clock w.ticks) then
        ⟨.error (.thrown workerTimeout), w.tick, []⟩
      else ⟨.ok (budget P start timeoutUs (P.clock w.ticks)), w.tick, []⟩ := by
  have hiff : (timeoutUs.toNat - passedUs start (P.clock w.ticks) < 0) ↔
      Expired start timeoutUs (P.clock w.ticks) := by
    simp only [Expired]
    omega
  simp only [checkTimeout, bind_of_ok (now_apply P w), Out.after_nil]
  by_cases h : Expired start timeoutUs (P.clock w.ticks)
  · rw [if_pos h, if_pos (hiff.mpr h), throwLoggable_plain (by decide)]
    rfl
  · rw [if_neg h, if_neg (fun hc => h (hiff.mp hc))]
    rfl

/-- The receive timeout a wait passes on: none is computed without a `timeout_us`, and the
compound call ignores the one that is. -/
def rcvTimeout (cfg : Config) (start : ℕ) (reply : Option Reply) (t : ℕ) : Timeout :=
  match reply with
  | none => if cfg.timeoutUs = 0 then .never else budget P start cfg.timeoutUs t
  | some _ => l4IpcNever

/-- The reading that precedes a wait, and the world after it: without a `timeout_us` the
clock is not read again. -/
def checkedAt (cfg : Config) (w : World) : ℕ :=
  if cfg.timeoutUs = 0 then P.clock (w.ticks - 1) else P.clock w.ticks

def afterCheck (cfg : Config) (w : World) : World :=
  if cfg.timeoutUs = 0 then w else w.tick

/-- A wait finds its time used up. -/
def TimesOut (cfg : Config) (start : ℕ) (w : World) : Prop :=
  cfg.timeoutUs ≠ 0 ∧ Expired start cfg.timeoutUs (P.clock w.ticks)

instance (cfg : Config) (start : ℕ) (w : World) : Decidable (TimesOut P cfg start w) :=
  inferInstanceAs (Decidable (_ ∧ _))

theorem wait_apply (fs : List Frame) (cfg : Config) (start : ℕ) (reply : Option Reply)
    (w : World) :
    wait P fs cfg start reply w =
      if TimesOut P cfg start w then ⟨.error (.thrown workerTimeout), w.tick, []⟩
      else ⟨.ok (rcvTimeout P cfg start reply (P.clock w.ticks)), afterCheck cfg w,
        [.wait fs reply (rcvTimeout P cfg start reply (P.clock w.ticks)) (checkedAt P cfg w)]⟩ := by
  by_cases h0 : cfg.timeoutUs = 0
  · have hn : ¬TimesOut P cfg start w := fun h => h.1 h0
    rw [if_neg hn]
    simp only [wait, if_pos h0, pure_bind_apply, get_bind_apply, emit_bind_apply, afterCheck,
      checkedAt, rcvTimeout]
    cases reply with
    | none => rfl
    | some r => rfl
  · simp only [wait, if_neg h0]
    have hck := checkTimeout_apply P start cfg.timeoutUs w
    by_cases hx : Expired start cfg.timeoutUs (P.clock w.ticks)
    · rw [if_pos hx] at hck
      rw [if_pos ⟨h0, hx⟩, bind_of_error hck]
    · rw [if_neg hx] at hck
      rw [if_neg (fun h => hx h.2), bind_of_ok hck, Out.after_nil]
      simp only [get_bind_apply, emit_bind_apply, afterCheck, checkedAt, rcvTimeout, if_neg h0]
      cases reply with
      | none => rfl
      | some r => rfl

/-- With no message left the loop ends in an IPC error or never. -/
theorem noMessage_cases (ending : Ending) (rcv : Timeout) (w : World) :
    (∃ code, noMessage ending rcv w = ⟨.error (.thrown (ipcFailed code)), w, []⟩) ∨
    noMessage ending rcv w = ⟨.error .blocked, w, []⟩ := by
  cases ending with
  | ipcError code => exact Or.inl ⟨code, rfl⟩
  | silent =>
      cases rcv with
      | never => exact Or.inr rfl
      | us n => exact Or.inl ⟨l4IpcReTimeout, rfl⟩

/-- A message without format errors is printed or silenced, nothing else. -/
theorem logM_apply {σ : Type} (sev : Severity) {msg t : Bytes} {args : List Bytes}
    (h : Fmt.format msg args = .ok t) (w : σ) :
    ∃ o, logM P sev msg args w = ⟨.ok (), w, o⟩ ∧ ∀ x ∈ o, ∃ m, x = .log sev m := by
  cases hs : Silencer.silenceByEnv.silence P.logLevel sev with
  | true =>
      refine ⟨[], ?_, List.forall_mem_nil _⟩
      simp [logM, log, hs]
  | false =>
      refine ⟨[.log sev t], ?_, fun x hx => ⟨t, List.mem_singleton.mp hx⟩⟩
      simp [logM, log, hs, h, Except.map]

/-- The exit code of `signal (0, val)`, cut to an `int`. -/
def exitCode (val : UInt64) : Int := (BitVec.ofNat 32 val.toNat).toInt

theorem opSignal_exit (epi : WorkerEpiface) (val : UInt64) (w : World) :
    ∃ o, opSignal P epi 0 val w =
        ⟨.ok (-l4ENoReply, { epi with worker := epi.worker.exitInt (exitCode val) }), w, o⟩ ∧
      ∀ x ∈ o, ∃ sev m, x = .log sev m := by
  have hfmt : Fmt.format (lit "Worker finished with wrong exit! {:s} (=exit: {:d})")
      [P.errToStr (exitCode val), decimal (exitCode val)] = .ok _ := rfl
  obtain ⟨o, ho, hlog⟩ := logM_apply P .error hfmt w
  refine ⟨o, ?_, fun x hx => ⟨.error, hlog x hx⟩⟩
  show (logM P .error _ [P.errToStr (exitCode val), decimal (exitCode val)] >>= _) w = _
  rw [bind_of_ok ho]
  simp [Out.after, exitCode]

theorem opSignal_other (epi : WorkerEpiface) {sig : UInt64} (hs : sig ≠ 0) (val : UInt64)
    (w : World) :
    ∃ o, opSignal P epi sig val w = ⟨.ok (l4EOk, epi), w, o⟩ ∧
      ∀ x ∈ o, ∃ sev m, x = .log sev m := by
  have hfmt : Fmt.format (lit "Got unknown signal '{:d}' with value '{:d}'")
      [decimal sig.toNat, decimal val.toNat] = .ok _ := rfl
  obtain ⟨o, ho, hlog⟩ := logM_apply P .warn hfmt w
  refine ⟨o, ?_, fun x hx => ⟨.warn, hlog x hx⟩⟩
  simp only [opSignal, if_neg hs]
  rw [bind_of_ok ho]
  simp [Out.after]

/-- What an invocation returns when its worker has exited by itself. -/
def exitReply (start stop : ℕ) (value : Bytes) (data : WorkerMetadata) : Reply :=
  { label := l4EOk, ret := value ++ [0],
    data := { data with startWorker := start, endWorker := stop } }

theorem finish_apply (req : InvokeReq) (start : ℕ) (epi : WorkerEpiface) (w : World) :
    finish P req start epi w =
      if epi.worker.errorExit then ⟨.error (.thrown workerError), w, []⟩
      else if req.retLength ≤ epi.worker.exitValue.length then
        ⟨.error (.thrown bufferTooSmall), w, []⟩
      else ⟨.ok (exitReply start (P.clock w.ticks) epi.worker.exitValue epi.metadata), w.tick, []⟩ := by
  simp only [finish]
  split
  · exact throwLoggable_plain (by decide) _ w
  · split
    · exact throwLoggable_plain (by decide) _ w
    · exact bind_of_ok (now_apply P w)

/-- An invocation ends in a plain exception, or returns the exit value. -/
theorem finish_cases (req : InvokeReq) (start : ℕ) (epi : WorkerEpiface) (w : World) :
    (∃ e, Exn.Plain e ∧ finish P req start epi w = ⟨.error (.thrown e), w, []⟩) ∨
    ∃ reply, finish P req start epi w = ⟨.ok reply, w.tick, []⟩ := by
  rw [finish_apply]
  split
  · exact Or.inl ⟨workerError, workerError_plain, rfl⟩
  · split
    · exact Or.inl ⟨bufferTooSmall, bufferTooSmall_plain, rfl⟩
    · exact Or.inr ⟨_, rfl⟩

end

/-! ## The induction over scripts

`I fs w` is what holds while the invocations `fs` run, `J w` what is left of it when an
exception has unwound them, `Φ` what the run shows.  A run that starts below the
invocations `fs₀` stays below them: every stack it meets ends in `fs₀`.  The fields of
`LoopRules` are the facts about single steps; `loop` and `run` are the theorems about
whole runs. -/

structure LoopRules (P : Platform) (base : ManagerBase) (fs₀ : List Frame)
    (I : List Frame → World → Prop) (J : World → Prop) (Φ : Report Obs Stop) : Prop where
  leave : ∀ {f fs w}, fs₀ <:+ fs → I (f :: fs) w → I fs w
  stop : ∀ {fs w}, I fs w → J w
  tick : ∀ {fs w}, I fs w → I fs w.tick
  enter : ∀ {fs w} (T : UInt32), I fs w → I (⟨P.clock w.ticks, T⟩ :: fs) w.tick
  log : ∀ {o : List Obs}, (∀ x ∈ o, ∃ sev m, x = .log sev m) → Φ.holds o none
  plain : ∀ {e}, Exn.Plain e → Φ.holds [] (some (.thrown e))
  blocked : Φ.holds [] (some .blocked)
  refused : ∀ name, Φ.holds [.refused name] (some (.thrown (unknownAction name)))
  gone : ∀ name, Φ.holds [.gone name] (some (.thrown goneAction))
  resolved : ∀ {fs w alive name a o}, fs₀ <:+ fs → I fs w → (w.maps base.actions).lookup name = some a →
    w.validate alive a.ds = some o → Φ.holds [.resolved base fs name o a.lang] none
  launch : ∀ {fs w} (T : UInt32) (ds : Option Slot) (arg : CString), fs₀ <:+ fs → I fs w →
    Φ.holds [.launch base (⟨P.clock w.ticks, T⟩ :: fs) ds arg] none
  wait : ∀ {f fs w cfg} (reply : Option Reply), fs₀ <:+ fs → I (f :: fs) w →
    cfg.timeoutUs = f.timeoutUs → ¬TimesOut P cfg f.start w →
    Φ.holds [.wait (f :: fs) reply (rcvTimeout P cfg f.start reply (P.clock w.ticks))
      (checkedAt P cfg w)] none

mutual

/-- Every `action_invoke` among the messages of a worker, and of the workers started for it, is one
of `N`. -/
def Rpc.Invokes (N : InvokeReq → Env → Prop) : Rpc → Prop
  | .invoke req env script => N req env ∧ ScriptInvokes N script
  | .exit _ _ | .signal _ _ | .reject _ => True

def ScriptInvokes (N : InvokeReq → Env → Prop) : List Rpc → Prop
  | [] => True
  | m :: rest => m.Invokes N ∧ ScriptInvokes N rest

end

mutual

theorem Rpc.invokes_of_forall {N : InvokeReq → Env → Prop} (h : ∀ req env, N req env) :
    ∀ m : Rpc, m.Invokes N
  | .invoke req env script => ⟨h req env, scriptInvokes_of_forall h script⟩
  | .exit _ _ => trivial
  | .signal _ _ => trivial
  | .reject _ => trivial

theorem scriptInvokes_of_forall {N : InvokeReq → Env → Prop} (h : ∀ req env, N req env) :
    ∀ script : List Rpc, ScriptInvokes N script
  | [] => trivial
  | m :: rest => ⟨Rpc.invokes_of_forall h m, scriptInvokes_of_forall h rest⟩

end

/-- The same with one rule for the head of an invocation, up to the launch, instead of a rule for
each of its steps, and for the invocations in `N` only. -/
structure HeadRules (P : Platform) (base : ManagerBase) (fs₀ : List Frame)
    (N : InvokeReq → Env → Prop) (I : List Frame → World → Prop) (J : World → Prop)
    (Φ : Report Obs Stop) : Prop where
  leave : ∀ {f fs w}, fs₀ <:+ fs → I (f :: fs) w → I fs w
  stop : ∀ {fs w}, I fs w → J w
  tick : ∀ {fs w}, I fs w → I fs w.tick
  log : ∀ {o : List Obs}, (∀ x ∈ o, ∃ sev m, x = .log sev m) → Φ.holds o none
  plain : ∀ {e}, Exn.Plain e → Φ.holds [] (some (.thrown e))
  blocked : Φ.holds [] (some .blocked)
  head : ∀ {fs} (req : InvokeReq) (env : Env), N req env → fs₀ <:+ fs →
    Triple (I fs) (findAction base fs env.alive req.name >>= startWorker P base fs req env)
      (fun start => I (⟨start, req.cfg.timeoutUs⟩ :: fs)) (fun _ => J) Φ
  wait : ∀ {f fs w cfg} (reply : Option Reply), fs₀ <:+ fs → I (f :: fs) w →
    cfg.timeoutUs = f.timeoutUs → ¬TimesOut P cfg f.start w →
    Φ.holds [.wait (f :: fs) reply (rcvTimeout P cfg f.start reply (P.clock w.ticks))
      (checkedAt P cfg w)] none

theorem invokeWith_head (P : Platform) (base : ManagerBase) (fs : List Frame) (req : InvokeReq)
    (env : Env) (loop : List Frame → ℕ → WorkerEpiface → M WorkerEpiface) :
    invokeWith P base fs req env loop =
      ((findAction base fs env.alive req.name >>= startWorker P base fs req env) >>= fun start =>
        loop (⟨start, req.cfg.timeoutUs⟩ :: fs) start { toManagerBase := base } >>= fun epi =>
          finish P req start epi) := by
  rw [Act.bind_assoc]
  rfl

namespace HeadRules

variable {P : Platform} {base : ManagerBase} {fs₀ : List Frame} {N : InvokeReq → Env → Prop}
  {I : List Frame → World → Prop} {J : World → Prop} {Φ : Report Obs Stop}
  (R : HeadRules P base fs₀ N I J Φ)
include R

theorem afterCheck {fs : List Frame} {w : World} (cfg : Config) (h : I fs w) :
    I fs (afterCheck cfg w) := by
  simp only [MettEagle.afterCheck]
  split
  · exact h
  · exact R.tick h

theorem waits (f : Frame) (fs : List Frame) {cfg : Config} (reply : Option Reply)
    (hfs : fs₀ <:+ fs) (hT : cfg.timeoutUs = f.timeoutUs) :
    Triple (I (f :: fs)) (MettEagle.wait P (f :: fs) cfg f.start reply)
      (fun _ => I (f :: fs)) (fun _ => J) Φ := by
  refine Triple.of_out fun w hw => ?_
  rw [wait_apply]
  by_cases ht : TimesOut P cfg f.start w
  · rw [if_pos ht]
    exact ⟨_, _, _, rfl, R.plain workerTimeout_plain, R.stop (R.tick hw)⟩
  · rw [if_neg ht]
    exact ⟨_, _, _, rfl, R.wait reply hfs hw hT ht, R.afterCheck cfg hw⟩

theorem signals (fs : List Frame) (epi : WorkerEpiface) (sig val : UInt64)
    (hb : epi.toManagerBase = base) :
    Triple (I fs) (opSignal P epi sig val)
      (fun r w => I fs w ∧ r.2.toManagerBase = base) (fun _ => J) Φ := by
  refine Triple.of_out fun w hw => ?_
  by_cases hs : sig = 0
  · subst hs
    obtain ⟨o, ho, hlog⟩ := opSignal_exit P epi val w
    exact ⟨_, _, _, ho, R.log hlog, hw, hb⟩
  · obtain ⟨o, ho, hlog⟩ := opSignal_other P epi hs val w
    exact ⟨_, _, _, ho, R.log hlog, hw, hb⟩

theorem finishes (fs : List Frame) (req : InvokeReq) (start : ℕ) (epi : WorkerEpiface) :
    Triple (I fs) (finish P req start epi) (fun _ => I fs) (fun _ => J) Φ := by
  refine Triple.of_out fun w hw => ?_
  rcases finish_cases P req start epi w with ⟨e, he, h⟩ | ⟨reply, h⟩
  · exact ⟨_, _, _, h, R.plain he, R.stop hw⟩
  · exact ⟨_, _, _, h, Φ.nil, R.tick hw⟩

/-- `op_action_invoke` around a loop that keeps to the rules keeps to the rules. -/
theorem invokes (fs : List Frame) (req : InvokeReq) (env : Env) (hreq : N req env)
    (hfs : fs₀ <:+ fs) {loop : List Frame → ℕ → WorkerEpiface → M WorkerEpiface}
    (hloop : ∀ start inner, inner.toManagerBase = base →
      Triple (I (⟨start, req.cfg.timeoutUs⟩ :: fs))
        (loop (⟨start, req.cfg.timeoutUs⟩ :: fs) start inner)
        (fun epi w => I (⟨start, req.cfg.timeoutUs⟩ :: fs) w ∧ epi.toManagerBase = base)
        (fun _ => J) Φ) :
    Triple (I fs) (invokeWith P base fs req env loop) (fun _ => I fs) (fun _ => J) Φ := by
  rw [invokeWith_head]
  refine Triple.bind (R.head req env hreq hfs) fun start => ?_
  refine Triple.bind (hloop start _ rfl) fun epi => ?_
  exact (R.finishes fs req start epi).conseq (fun w hw => R.leave hfs hw.1) fun _ _ h => h

mutual

theorem dispatches : ∀ (m : Rpc) (f : Frame) (fs : List Frame) (epi : WorkerEpiface),
    m.Invokes N → fs₀ <:+ fs → epi.toManagerBase = base →
    Triple (I (f :: fs)) (dispatch P (f :: fs) m epi)
      (fun r w => I (f :: fs) w ∧ r.2.toManagerBase = base) (fun _ => J) Φ
  | .exit value data, f, fs, epi, _, hfs, hb => by
      rw [dispatch]
      exact Triple.pure _ fun w hw => ⟨hw, hb⟩
  | .signal sig val, f, fs, epi, _, hfs, hb => by
      rw [dispatch]
      refine Triple.bind (R.signals (f :: fs) epi sig val hb) fun r => ?_
      exact Triple.pure _ fun w hw => hw
  | .invoke req env script, f, fs, epi, hN, hfs, hb => by
      rw [dispatch, hb]
      have hfs' : fs₀ <:+ f :: fs := hfs.trans (List.suffix_cons f fs)
      refine Triple.bind (R.invokes (f :: fs) req env hN.1 hfs' fun start inner hi => ?_)
        fun reply => ?_
      · exact loop script ⟨start, req.cfg.timeoutUs⟩ (f :: fs) req.cfg env.ending none inner hN.2
          hfs' rfl hi
      · exact Triple.pure _ fun w hw => ⟨hw, hb⟩
  | .reject label, f, fs, epi, _, hfs, hb => by
      rw [dispatch]
      exact Triple.pure _ fun w hw => ⟨hw, hb⟩

theorem loop : ∀ (script : List Rpc) (f : Frame) (fs : List Frame) (cfg : Config)
    (ending : Ending) (reply : Option Reply) (epi : WorkerEpiface), ScriptInvokes N script →
    fs₀ <:+ fs → cfg.timeoutUs = f.timeoutUs → epi.toManagerBase = base →
    Triple (I (f :: fs)) (serverLoop P (f :: fs) cfg f.start ending script reply epi)
      (fun epi' w => I (f :: fs) w ∧ epi'.toManagerBase = base) (fun _ => J) Φ
  | [], f, fs, cfg, ending, reply, epi, _, hfs, hT, hb => by
      rw [serverLoop]
      refine Triple.bind (R.waits f fs reply hfs hT) fun rcv => ?_
      refine Triple.of_out fun w hw => ?_
      rcases noMessage_cases ending rcv w with ⟨code, h⟩ | h
      · exact ⟨_, _, _, h, R.plain (ipcFailed_plain code), R.stop hw⟩
      · exact ⟨_, _, _, h, R.blocked, R.stop hw⟩
  | m :: rest, f, fs, cfg, ending, reply, epi, hN, hfs, hT, hb => by
      rw [serverLoop]
      refine Triple.bind (R.waits f fs reply hfs hT) fun rcv => ?_
      refine Triple.bind (dispatches m f fs epi hN.1 hfs hb) fun r => ?_
      refine Triple.ite (fun _ => ?_) fun _ => ?_
      · intro w hw
        exact loop rest f fs cfg ending (some r.1) r.2 hN.2 hfs hT hw.2 w hw.1
      · exact Triple.pure _ fun w hw => hw

end

/-- **Runs.**  Whatever the worker and its own workers send, `op_action_invoke` keeps to the
rules. -/
theorem run (req : InvokeReq) (env : Env) (script : List Rpc) (hreq : N req env)
    (hscript : ScriptInvokes N script) :
    Triple (I fs₀) (opActionInvoke P base fs₀ req env script) (fun _ => I fs₀) (fun _ => J) Φ :=
  R.invokes fs₀ req env hreq List.suffix_rfl fun start inner hi =>
    R.loop script ⟨start, req.cfg.timeoutUs⟩ fs₀ req.cfg env.ending none inner hscript
      List.suffix_rfl rfl hi

end HeadRules

namespace LoopRules

variable {P : Platform} {base : ManagerBase} {fs₀ : List Frame} {I : List Frame → World → Prop}
  {J : World → Prop} {Φ : Report Obs Stop} (R : LoopRules P base fs₀ I J Φ)
include R

theorem finds (fs : List Frame) (alive : Object → Bool) (name : CString) (hfs : fs₀ <:+ fs) :
    Triple (I fs) (findAction base fs alive name) (fun _ => I fs) (fun _ => J) Φ := by
  refine Triple.of_out fun w hw => ?_
  cases hl : (w.maps base.actions).lookup name with
  | none => exact ⟨_, _, _, findAction_unknown fs alive hl, R.refused name, R.stop hw⟩
  | some a =>
      rw [findAction_found fs alive hl]
      cases hv : w.validate alive a.ds with
      | none => exact ⟨_, _, _, rfl, R.gone name, R.stop hw⟩
      | some o => exact ⟨_, _, _, rfl, R.resolved hfs hw hl hv, hw⟩

theorem starts (fs : List Frame) (req : InvokeReq) (env : Env) (action : Action)
    (hfs : fs₀ <:+ fs) :
    Triple (I fs) (startWorker P base fs req env action)
      (fun start => I (⟨start, req.cfg.timeoutUs⟩ :: fs)) (fun _ => J) Φ := by
  refine Triple.of_out fun w hw => ?_
  rcases startWorker_cases P base fs req env action w with
    ⟨e, he, h⟩ | ⟨e, ds, he, -, h⟩ | ⟨ds, -, h⟩
  · exact ⟨_, _, _, h, R.plain he, R.stop hw⟩
  · exact ⟨_, _, _, h, Φ.append (R.launch _ ds req.arg hfs hw) (R.plain he), R.stop (R.tick hw)⟩
  · exact ⟨_, _, _, h, R.launch _ ds req.arg hfs hw, R.enter _ hw⟩

theorem toHead : HeadRules P base fs₀ (fun _ _ => True) I J Φ where
  leave := R.leave
  stop := R.stop
  tick := R.tick
  log := R.log
  plain := R.plain
  blocked := R.blocked
  head := fun {fs} req env _ hfs =>
    Triple.bind (R.finds fs env.alive req.name hfs) fun action => R.starts fs req env action hfs
  wait := R.wait

theorem run (req : InvokeReq) (env : Env) (script : List Rpc) :
    Triple (I fs₀) (opActionInvoke P base fs₀ req env script) (fun _ => I fs₀) (fun _ => J) Φ :=
  R.toHead.run req env script trivial (scriptInvokes_of_forall (fun _ _ => trivial) script)

end LoopRules

/-! ## Two instances -/

def Obs.isWait : Obs → Bool
  | .wait _ _ _ _ => true
  | _ => false

/-- Rules for a property that is about waits only. -/
theorem LoopRules.ofWaits {P : Platform} {base : ManagerBase} {fs₀ : List Frame}
    {I : List Frame → World → Prop} {J : World → Prop} {O : Obs → Prop}
    (hO : ∀ x, x.isWait = false → O x)
    (leave : ∀ {f fs w}, fs₀ <:+ fs → I (f :: fs) w → I fs w)
    (stop : ∀ {fs w}, I fs w → J w)
    (tick : ∀ {fs w}, I fs w → I fs w.tick)
    (enter : ∀ {fs w} (T : UInt32), I fs w → I (⟨P.clock w.ticks, T⟩ :: fs) w.tick)
    (wait : ∀ {f fs w cfg} (reply : Option Reply), fs₀ <:+ fs → I (f :: fs) w →
      cfg.timeoutUs = f.timeoutUs → ¬TimesOut P cfg f.start w →
      O (.wait (f :: fs) reply (rcvTimeout P cfg f.start reply (P.clock w.ticks))
        (checkedAt P cfg w))) :
    LoopRules P base fs₀ I J (Report.all O) :=
  have hone : ∀ {x : Obs}, O x → ∀ y ∈ [x], O y := List.forall_mem_singleton.mpr
  { leave := leave
    stop := stop
    tick := tick
    enter := enter
    log := fun ho x hx => by
      obtain ⟨sev, m, rfl⟩ := ho x hx
      exact hO _ rfl
    plain := fun _ => List.forall_mem_nil _
    blocked := List.forall_mem_nil _
    refused := fun _ => hone (hO _ rfl)
    gone := fun _ => hone (hO _ rfl)
    resolved := fun _ _ _ _ => hone (hO _ rfl)
    launch := fun _ _ _ _ _ => hone (hO _ rfl)
    wait := fun reply hfs hI hT htime => hone (wait reply hfs hI hT htime) }

section
variable (P : Platform) (base : ManagerBase) (fs : List Frame)

/-- Every wait of the run belongs to an invocation below `fs`. -/
def Obs.Below (fs : List Frame) : Obs → Prop
  | .wait gs _ _ _ => ∃ g gs', gs = g :: gs' ∧ fs <:+ gs'
  | _ => True

theorem Obs.below_of_not_wait {fs : List Frame} {x : Obs} (h : x.isWait = false) :
    Obs.Below fs x := by
  cases x with
  | wait gs reply rcv t => cases h
  | refused name => trivial
  | gone name => trivial
  | resolved base fs name obj lang => trivial
  | launch base fs ds arg => trivial
  | log sev msg => trivial

theorem frameRules (w₀ : World) :
    LoopRules P base fs (fun _ w => w₀.Later w) (fun w => w₀.Later w)
      (Report.all (Obs.Below fs)) :=
  .ofWaits (fun _ => Obs.below_of_not_wait)
    (fun _ h => h)
    (fun h => h)
    (fun h => h.trans (World.later_tick _))
    (fun _ h => h.trans (World.later_tick _))
    (fun _ hfs _ _ _ => ⟨_, _, rfl, hfs⟩)

/-- **Frame.**  However it ends, an invocation leaves maps, slots and objects alone. -/
theorem opActionInvoke_later (req : InvokeReq) (env : Env) (script : List Rpc) (w : World) :
    w.Later (opActionInvoke P base fs req env script w).st := by
  obtain ⟨_, hok, herr⟩ := (frameRules P base fs w).run req env script w (World.Later.refl w)
  cases h : (opActionInvoke P base fs req env script w).res with
  | ok r => exact hok r h
  | error e => exact herr e h

theorem opActionInvoke_below (req : InvokeReq) (env : Env) (script : List Rpc) (w : World) :
    ∀ x ∈ (opActionInvoke P base fs req env script w).obs, Obs.Below fs x :=
  ((frameRules P base fs w).run req env script w (World.Later.refl w)).1

end

end MettEagle
