/-
# `MettEagle.Wrappers` — two worker runtimes and what they report

An action is run by one of two programs.  Both call the function, hand a string it
returns to the manager with `exit`, and have the same catch blocks around it all,
whose error number becomes the exit code of the process:

    C++       `Main (argv[0])`                 raises: a C++ exception
    Python    `PyObject_CallObject`            raises: `NULL`, and no exception

The Python runtime takes the `NULL` for a function that returned nothing, and its
answer is the empty string.  `reports_iff` says when the manager's reply is the
outcome of the function.
-/
import MettEagle.Libfaas

namespace MettEagle

open Act

/-! ## Processes -/

/-- What is thrown: an exception the libraries know, or a value of any other type. -/
inductive Thrown where
  | exn (e : Exn)
  | other

/-- How a process stops short: by an exception, waiting for a reply, or by
`std::terminate`. -/
inductive ProcStop where
  | thrown (e : Thrown)
  | blocked
  | terminated

/-- Code of a process; what it shows are the messages it sends to its manager. -/
abbrev Proc := Act Unit Rpc ProcStop

def Stop.inProc : Stop → ProcStop
  | .thrown e => .thrown (.exn e)
  | .blocked => .blocked
  | .terminated => .terminated

/-- The helpers of L4Re and of `liblog`, in a process. -/
def inProc {α : Type} (m : Act Unit Rpc Stop α) : Proc α := fun u =>
  ⟨(m u).res.mapError Stop.inProc, (m u).st, (m u).obs⟩

/-- How a call of a user function ends. -/
inductive Outcome where
  | returns (s : Bytes)
  | raises (e : Thrown)

/-- A user function: how it ends, and what it sends to the manager before it does. -/
structure UserFunction where
  outcome : Bytes → Outcome
  messages : Bytes → List Rpc := fun _ => []

/-- What the Python library answers before it calls `main`: whether the module exists, whether
it has a `main` and that can be called, and whether the argument can be converted. -/
structure Python where
  functionCap : Bool := true
  module : Bool := true
  main : Option Bool := some true
  argString : Bool := true

/-- What a process meets: the errors of sending the exit message, its log level, what
`std::terminate` signals to the parent if it signals anything, and the timing data. -/
structure ProcEnv where
  exitErr : CString → Int := fun _ => 0
  logLevel : BitVec 32 := 31
  abort : Option UInt64 := none
  data : WorkerMetadata := {}
  python : Python := {}

def UserFunction.send (f : UserFunction) (arg : Bytes) : Proc Unit := fun u =>
  ⟨.ok (), u, f.messages arg⟩

/-- `Main (arg)`. -/
def UserFunction.main (f : UserFunction) (arg : Bytes) : Proc Bytes := do
  f.send arg
  match f.outcome arg with
  | .returns s => pure s
  | .raises e => Act.throw (.thrown e)

/-- `PyObject_CallObject`; `none` is `NULL`. -/
def UserFunction.callObject (f : UserFunction) (arg : Bytes) : Proc (Option Bytes) := do
  f.send arg
  match f.outcome arg with
  | .returns s => pure (some s)
  | .raises _ => pure none

/-- `chksys (getManager ()->exit (value, metadata), "exit rpc")`.  A message that can be sent is
not answered. -/
def exitRpc (env : ProcEnv) (value : CString) : Proc Unit :=
  if env.exitErr value < 0 then inProc (chksys (env.exitErr value) (lit "exit rpc"))
  else do
    Act.emit (.exit value env.data)
    Act.throw .blocked

section
variable (P : Platform) (env : ProcEnv)

/-- `log<FATAL> (e)` in a catch block; an exception out of it leaves `main`. -/
def logFatal (e : Exn) : Proc Unit :=
  match logException .silenceByEnv env.logLevel .fatal P.errToStr e with
  | .ok _ => pure ()
  | .error _ => Act.throw .terminated

/-- The catch blocks of both `main`s; `unknown` is what the last one returns. -/
def catchBlocks (unknown : Int) (body : Proc Int) : Proc Int :=
  Act.tryCatch body fun stop =>
    match stop with
    | .thrown (.exn (.loggable e msg)) => do
        logFatal P env (.loggable e msg)
        pure e
    | .thrown (.exn (.runtimeError e extra)) => do
        logFatal P env (.runtimeError e extra)
        pure e
    | .thrown _ =>
        match log .silenceByEnv env.logLevel .fatal (lit "Function threw unknown error.") [] with
        | .ok _ => pure unknown
        | .error _ => Act.throw .terminated
    | .blocked => Act.throw .blocked
    | .terminated => Act.throw .terminated

/-- `Loggable_exception (-L4_EINVAL, "Wrong number of arguments. …", argc)`. -/
def wrongArgc (argc : ℕ) : Proc Int :=
  inProc (throwLoggable (-l4EInval) (lit "Wrong number of arguments. Expected 1 got {:d}")
    [decimal argc])

/-- `main` of libfaas. -/
def cppMain (f : UserFunction) (argv : List CString) : Proc Int :=
  catchBlocks P env (-0xDEAD) <|
    match argv with
    | [arg] => do
        let ret ← f.main arg.bytes
        exitRpc env (CString.ofBytes ret)
        inProc (throwLoggable (-l4EFault) (lit "wrapper unreachable") [])
    | _ => wrongArgc argv.length

/-- `invoke_python_main`.  What `PyString_AsString` returned is used after `Py_XDECREF (pValue)`, which
may have freed the object it points into; the bytes are taken to be there still. -/
def invokePythonMain (f : UserFunction) (arg : Bytes) : Proc Bytes :=
  if env.python.module = false then
    inProc (throwLoggable (-l4EInval) (lit "Could not create '__main__' module") [])
  else match env.python.main with
  | none => inProc (throwLoggable (-l4EInval) (lit "Could not find 'main' method") [])
  | some false => inProc (throwLoggable (-l4EInval) (lit "'main' is not callable") [])
  | some true =>
      if env.python.argString = false then
        inProc (throwLoggable (-l4EInval)
          (lit "Failed to convert std::string to python string") [])
      else do
        let pValue ← f.callObject arg
        match pValue with
        | none => pure []
        | some s => pure s

/-- `main` of `python-faas2.7`. -/
def pythonMain (f : UserFunction) (argv : List CString) : Proc Int :=
  catchBlocks P env (-l4EInval) <|
    match argv with
    | [arg] => do
        inProc (chkcap env.python.functionCap (lit "no capability called 'function' passed")
          (-l4ENoMem))
        let answer ← invokePythonMain env f arg.bytes
        exitRpc env (CString.ofBytes answer)
        Act.throw .terminated -- `__builtin_unreachable`
    | _ => wrongArgc argv.length

end

/-- Which of the two runs the action. -/
inductive Runtime where
  | cpp | python
deriving DecidableEq

def Runtime.main (P : Platform) (env : ProcEnv) : Runtime → UserFunction → List CString → Proc Int
  | .cpp => cppMain P env
  | .python => pythonMain P env

/-- The messages of a process: those of its `main`, and the signal of an exit code. -/
def processMessages (abort : Option UInt64) (main : Proc Int) : List Rpc :=
  (main ()).obs ++ match (main ()).res with
    | .ok code => [exitWith code]
    | .error .terminated => abort.toList.map (Rpc.signal 0)
    | .error _ => []

/-- The messages of a worker that runs `f` with the argument `arg`. -/
def Runtime.messages (P : Platform) (env : ProcEnv) (rt : Runtime) (f : UserFunction)
    (arg : CString) : List Rpc :=
  processMessages env.abort (rt.main P env f [arg])

/-! ## What a process sends -/

/-- The log takes the exception; the last catch block logs a text of its own. -/
def Thrown.Written (P : Platform) (env : ProcEnv) : Thrown → Prop
  | .exn e => e.errNo?.isSome = true →
      ∃ r, logException .silenceByEnv env.logLevel .fatal P.errToStr e = .ok r
  | .other => True

/-- What the catch blocks return. -/
def Thrown.code (unknown : Int) : Thrown → Int
  | .exn e => e.errNo?.getD unknown
  | .other => unknown

/-- Nothing keeps the Python runtime from calling `main`. -/
structure Python.Ready (py : Python) : Prop where
  functionCap : py.functionCap = true
  module : py.module = true
  main : py.main = some true
  argString : py.argString = true

/-- What the Python runtime answers. -/
def Outcome.pythonAnswer : Outcome → Bytes
  | .returns s => s
  | .raises _ => []

/-- The last message of a process that has a value to exit with. -/
def exitMessage (env : ProcEnv) (value : CString) : Rpc :=
  if env.exitErr value < 0 then exitWith (env.exitErr value) else .exit value env.data

section
variable {P : Platform} {env : ProcEnv} {unknown : Int} {body : Proc Int} {o : List Rpc}
  {e : Thrown}

theorem log_unknown (level : BitVec 32) : ∃ r, log .silenceByEnv level .fatal
    (lit "Function threw unknown error.") [] = .ok r := by
  simp only [log]
  split
  · exact ⟨none, rfl⟩
  · exact ⟨_, by rw [Fmt.format_plain (by decide)]; rfl⟩

theorem catchBlocks_of_written (h : body () = ⟨.error (.thrown e), (), o⟩) (he : e.Written P env) :
    catchBlocks P env unknown body () = ⟨.ok (e.code unknown), (), o⟩ := by
  rw [catchBlocks, tryCatch_of_error _ h]
  obtain ⟨r, hr⟩ := log_unknown env.logLevel
  cases e with
  | other => simp [hr, Thrown.code, Out.after]
  | exn e =>
      cases e with
      | loggable n msg =>
          obtain ⟨r, hr⟩ := he rfl
          simp [logFatal, hr, Thrown.code, Exn.errNo?, Out.after]
      | runtimeError n extra =>
          obtain ⟨r, hr⟩ := he rfl
          simp [logFatal, hr, Thrown.code, Exn.errNo?, Out.after]
      | baseException str => simp [hr, Thrown.code, Exn.errNo?, Out.after]
      | number err => simp [hr, Thrown.code, Exn.errNo?, Out.after]
      | formatError what => simp [hr, Thrown.code, Exn.errNo?, Out.after]

theorem catchBlocks_of_not_written (h : body () = ⟨.error (.thrown e), (), o⟩)
    (he : ¬e.Written P env) :
    catchBlocks P env unknown body () = ⟨.error .terminated, (), o⟩ := by
  rw [catchBlocks, tryCatch_of_error _ h]
  cases e with
  | other => exact absurd trivial he
  | exn e =>
      have hfail : ∃ x, logException .silenceByEnv env.logLevel .fatal P.errToStr e = .error x := by
        cases hr : logException .silenceByEnv env.logLevel .fatal P.errToStr e with
        | ok r => exact absurd (fun _ => ⟨r, hr⟩) he
        | error x => exact ⟨x, rfl⟩
      obtain ⟨x, hx⟩ := hfail
      cases e with
      | loggable n msg => simp [logFatal, hx, Out.after]
      | runtimeError n extra => simp [logFatal, hx, Out.after]
      | baseException str => exact absurd (fun hs => by cases hs) he
      | number err => exact absurd (fun hs => by cases hs) he
      | formatError what => exact absurd (fun hs => by cases hs) he

/-- An exception of a text without braces can be logged. -/
theorem written_of_plain (hstr : ∀ n, Fmt.Plain (P.errToStr n)) {n : Int} {extra : Bytes}
    (hextra : Fmt.Plain extra) : (Thrown.exn (.runtimeError n extra)).Written P env := by
  intro _
  have htext : Fmt.Plain (P.errToStr n ++ (lit ": " ++ extra)) :=
    (hstr n).append (Fmt.Plain.append (by decide) hextra)
  have hcut : Fmt.Plain (CString.ofBytes (P.errToStr n ++ (lit ": " ++ extra))).bytes :=
    fun c hc => htext c ((List.takeWhile_prefix _).subset hc)
  rw [logException, Exn.text, format_pair]
  exact (logObject_ok_iff _ _ _ _).mpr (Or.inr (Fmt.bracesDoubled_of_plain hcut))

/-- From the return of the call on, the two `main`s send the same. -/
theorem messages_of_call (unknown : Int) (hstr : ∀ n, Fmt.Plain (P.errToStr n)) {call : Proc Bytes} {ret : Bytes}
    (h : call () = ⟨.ok ret, (), o⟩) (tail : Proc Int) :
    processMessages env.abort (catchBlocks P env unknown
        (call >>= fun ret => exitRpc env (CString.ofBytes ret) >>= fun _ => tail)) =
      o ++ [exitMessage env (CString.ofBytes ret)] := by
  by_cases herr : env.exitErr (CString.ofBytes ret) < 0
  · have hbody : (call >>= fun ret => exitRpc env (CString.ofBytes ret) >>= fun _ => tail) () =
        ⟨.error (.thrown (.exn (.runtimeError (env.exitErr (CString.ofBytes ret))
          (lit "exit rpc")))), (), o⟩ := by
      have hexit : exitRpc env (CString.ofBytes ret) () = ⟨.error (.thrown (.exn (.runtimeError
          (env.exitErr (CString.ofBytes ret)) (lit "exit rpc")))), (), []⟩ := by
        rw [exitRpc, if_pos herr]
        simp only [inProc, chksys, if_pos herr]
        rfl
      rw [bind_of_ok h, bind_of_error hexit, Out.after, List.append_nil]
    rw [processMessages, catchBlocks_of_written hbody (written_of_plain hstr (by decide)),
      exitMessage, if_pos herr]
    rfl
  · have hbody : (call >>= fun ret => exitRpc env (CString.ofBytes ret) >>= fun _ => tail) () =
        ⟨.error .blocked, (), o ++ [.exit (CString.ofBytes ret) env.data]⟩ := by
      have hexit : exitRpc env (CString.ofBytes ret) () =
          ⟨.error .blocked, (), [.exit (CString.ofBytes ret) env.data]⟩ := by
        rw [exitRpc, if_neg herr]
        rfl
      rw [bind_of_ok h, bind_of_error hexit]
      rfl
    have hcatch : catchBlocks P env unknown
        (call >>= fun ret => exitRpc env (CString.ofBytes ret) >>= fun _ => tail) () =
          ⟨.error .blocked, (), o ++ [.exit (CString.ofBytes ret) env.data]⟩ := by
      rw [catchBlocks, tryCatch_of_error _ hbody]
      simp [Out.after]
    rw [processMessages, hcatch, exitMessage, if_neg herr]
    exact List.append_nil _

end

section
variable {P : Platform} {env : ProcEnv} {f : UserFunction} {arg : CString}

theorem UserFunction.send_bind_apply {α : Type} (f : UserFunction) (arg : Bytes)
    (k : Unit → Proc α) : (f.send arg >>= k) () = (k () ()).after (f.messages arg) :=
  bind_of_ok rfl

theorem invokePythonMain_apply (hready : env.python.Ready) (f : UserFunction) (arg : CString) :
    invokePythonMain env f arg.bytes () =
      ⟨.ok (f.outcome arg.bytes).pythonAnswer, (), f.messages arg.bytes⟩ := by
  rw [invokePythonMain, hready.main, hready.module, hready.argString, if_neg (by decide)]
  cases hout : f.outcome arg.bytes with
  | returns s =>
      have hcall : f.callObject arg.bytes () = ⟨.ok (some s), (), f.messages arg.bytes⟩ := by
        rw [UserFunction.callObject, UserFunction.send_bind_apply, hout]
        simp [Out.after]
      refine (bind_of_ok hcall).trans ?_
      simp [Out.after, Outcome.pythonAnswer]
  | raises e =>
      have hcall : f.callObject arg.bytes () = ⟨.ok none, (), f.messages arg.bytes⟩ := by
        rw [UserFunction.callObject, UserFunction.send_bind_apply, hout]
        simp [Out.after]
      refine (bind_of_ok hcall).trans ?_
      simp [Out.after, Outcome.pythonAnswer]

/-- A Python function that raises is to its manager one that returns the empty string. -/
theorem messages_python (hstr : ∀ n, Fmt.Plain (P.errToStr n)) (hready : env.python.Ready) :
    Runtime.python.messages P env f arg = f.messages arg.bytes ++
      [exitMessage env (CString.ofBytes (f.outcome arg.bytes).pythonAnswer)] := by
  have hcall := invokePythonMain_apply hready f arg
  refine Eq.trans ?_ (messages_of_call (-l4EInval) hstr hcall (Act.throw .terminated))
  rw [Runtime.messages, Runtime.main, pythonMain, hready.functionCap]
  rfl

theorem messages_cpp_returns (hstr : ∀ n, Fmt.Plain (P.errToStr n)) {s : Bytes}
    (hout : f.outcome arg.bytes = .returns s) :
    Runtime.cpp.messages P env f arg =
      f.messages arg.bytes ++ [exitMessage env (CString.ofBytes s)] := by
  have hcall : f.main arg.bytes () = ⟨.ok s, (), f.messages arg.bytes⟩ := by
    rw [UserFunction.main, UserFunction.send_bind_apply, hout]
    simp [Out.after]
  exact messages_of_call (-0xDEAD) hstr hcall _

/-- A C++ exception ends the process with a signal, if it can be logged. -/
theorem messages_cpp_raises (P : Platform) (env : ProcEnv) {e : Thrown}
    (hout : f.outcome arg.bytes = .raises e) :
    (e.Written P env → Runtime.cpp.messages P env f arg =
      f.messages arg.bytes ++ [exitWith (e.code (-0xDEAD))]) ∧
    (¬e.Written P env → Runtime.cpp.messages P env f arg =
      f.messages arg.bytes ++ env.abort.toList.map (Rpc.signal 0)) := by
  have hcall : f.main arg.bytes () = ⟨.error (.thrown e), (), f.messages arg.bytes⟩ := by
    rw [UserFunction.main, UserFunction.send_bind_apply, hout]
    simp [Out.after]
  have hbody := bind_of_error (f := fun ret => exitRpc env (CString.ofBytes ret) >>= fun _ =>
    (inProc (throwLoggable (-l4EFault) (lit "wrapper unreachable") []) : Proc Int)) hcall
  constructor
  · intro he
    have hmain : Runtime.cpp.main P env f [arg] () = _ := catchBlocks_of_written hbody he
    rw [Runtime.messages, processMessages, hmain]
  · intro he
    have hmain : Runtime.cpp.main P env f [arg] () = _ := catchBlocks_of_not_written hbody he
    rw [Runtime.messages, processMessages, hmain]

end

/-! ## What the manager makes of it -/

section
variable {P : Platform} {base : ManagerBase} {fs : List Frame} {req : InvokeReq} {env : Env}
  {w w₁ w₂ : World} {start : ℕ} {o₁ : List Obs} {pre : List Rpc} {rs : List Reply}

/-- Behind served messages the time is used up: whatever was to come, the worker timed out. -/
theorem opActionInvoke_late (hp : prepare P base fs req env w = ⟨.ok start, w₁, o₁⟩)
    (hs : Serves P base (req.stack start fs) req.cfg start pre w₁ rs w₂)
    (hlate : TimesOut P req.cfg start w₂) (rest : List Rpc) :
    ∃ w' o, opActionInvoke P base fs req env (pre ++ rest) w =
      ⟨.error (.thrown workerTimeout), w', o⟩ := by
  obtain ⟨o₂, -, hloop⟩ := hs.serverLoop { toManagerBase := base } rfl rfl none
  have hwait := wait_apply P (req.stack start fs) req.cfg start (pending none rs) w₂
  rw [if_pos hlate] at hwait
  have hrest : serverLoop P (req.stack start fs) req.cfg start env.ending rest (pending none rs)
      { toManagerBase := base } w₂ = ⟨.error (.thrown workerTimeout), w₂.tick, []⟩ := by
    cases rest with
    | nil =>
        rw [serverLoop]
        exact bind_of_error hwait
    | cons m rest =>
        rw [serverLoop]
        exact bind_of_error hwait
  have hrun := hloop rest env.ending
  rw [hrest] at hrun
  rw [opActionInvoke_eq, bind_of_ok hp, bind_of_error hrun]
  exact ⟨_, _, rfl⟩

/-- No further message comes: the IPC fails, or nothing happens any more. -/
theorem opActionInvoke_silent (hp : prepare P base fs req env w = ⟨.ok start, w₁, o₁⟩)
    (hs : Serves P base (req.stack start fs) req.cfg start pre w₁ rs w₂)
    (ht : ¬TimesOut P req.cfg start w₂) :
    ∃ w' o, (∃ code, opActionInvoke P base fs req env pre w =
        ⟨.error (.thrown (ipcFailed code)), w', o⟩) ∨
      opActionInvoke P base fs req env pre w = ⟨.error .blocked, w', o⟩ := by
  obtain ⟨o₂, -, hloop⟩ := hs.serverLoop { toManagerBase := base } rfl rfl none
  obtain ⟨rcv, t, hwait⟩ := wait_inTime (req.stack start fs) ht (pending none rs)
  have hrun := hloop [] env.ending
  rw [List.append_nil, serverLoop, bind_of_ok hwait] at hrun
  rw [opActionInvoke_eq, bind_of_ok hp]
  rcases noMessage_cases env.ending rcv (afterCheck req.cfg w₂) with ⟨code, h⟩ | h
  · rw [h] at hrun
    rw [bind_of_error hrun]
    exact ⟨_, _, Or.inl ⟨code, rfl⟩⟩
  · rw [h] at hrun
    rw [bind_of_error hrun]
    exact ⟨_, _, Or.inr rfl⟩

end

section
variable {P : Platform} {base : ManagerBase} {cap : Option Object} {req : InvokeReq} {env : Env}
  {script : List Rpc} {w w' : World} {o : List Obs}

theorem serve_invoke_of_ok {r : Reply}
    (h : opActionInvoke P base [] req env script (w.deliver cap) = ⟨.ok r, w', o⟩) :
    (serve P base ⟨cap, .invoke req env script⟩ w).res = .ok r := by
  simp only [serve, modify_bind_apply]
  exact congrArg Out.res (excLogDispatch_of_ok h)

theorem serve_invoke_of_thrown (hstr : ∀ n, Fmt.Plain (P.errToStr n)) {e : Exn} {n : Int}
    (h : opActionInvoke P base [] req env script (w.deliver cap) = ⟨.error (.thrown e), w', o⟩)
    (he : e.Plain) (hn : e.errNo? = some n) :
    (serve P base ⟨cap, .invoke req env script⟩ w).res = .ok { label := n } := by
  simp only [serve, modify_bind_apply]
  obtain ⟨-, -, -, hdoubled⟩ := he.errNo
  exact excLogDispatch_of_loggable hstr hn h (Or.inr hdoubled)

theorem serve_invoke_of_blocked
    (h : opActionInvoke P base [] req env script (w.deliver cap) = ⟨.error .blocked, w', o⟩) :
    (serve P base ⟨cap, .invoke req env script⟩ w).res = .error .blocked := by
  simp only [serve, modify_bind_apply]
  have h' : clientDispatch P base ⟨cap, .invoke req env script⟩ (w.deliver cap) =
    ⟨.error .blocked, w', o⟩ := h
  rw [excLogDispatch, tryCatch_of_error _ h']
  rfl

end

/-! ## Outcomes and replies -/

/-- The invocation succeeds with exactly this string. -/
def Succeeds (res : Except Stop Reply) (s : Bytes) : Prop :=
  ∃ r, res = .ok r ∧ r.label = l4EOk ∧ r.ret = s ++ [0]

def FailsWith (res : Except Stop Reply) (n : Int) : Prop :=
  ∃ r, res = .ok r ∧ r.label = n

/-- What the client is told is how the function ended. -/
structure Reports (res : Except Stop Reply) (out : Outcome) : Prop where
  value : ∀ s, Succeeds res s ↔ out = .returns s
  error : FailsWith res (-l4EFault) ↔ ∃ e, out = .raises e

section
variable {out : Outcome}

theorem reports_exitReply {start stop : ℕ} {v : Bytes} {data : WorkerMetadata} :
    Reports (.ok (exitReply start stop v data)) out ↔ out = .returns v := by
  have hgets : ∀ s, Succeeds (.ok (exitReply start stop v data)) s ↔ v = s := by
    intro s
    constructor
    · rintro ⟨r, hr, -, hret⟩
      obtain rfl := Except.ok.inj hr
      exact List.append_cancel_right hret
    · rintro rfl
      exact ⟨_, rfl, rfl, rfl⟩
  have hfails : ¬FailsWith (.ok (exitReply start stop v data)) (-l4EFault) := by
    rintro ⟨r, hr, hlabel⟩
    obtain rfl := Except.ok.inj hr
    exact absurd (show l4EOk = -l4EFault from hlabel) (by decide)
  constructor
  · intro h
    exact (h.value v).mp ((hgets v).mpr rfl)
  · rintro rfl
    refine ⟨fun s => (hgets s).trans ?_, iff_of_false hfails ?_⟩
    · constructor
      · rintro rfl
        rfl
      · intro h
        cases h
        rfl
    · rintro ⟨e, he⟩
      cases he

theorem not_succeeds_of_label {n : Int} (hn : n ≠ l4EOk) (s : Bytes) :
    ¬Succeeds (.ok { label := n }) s := by
  rintro ⟨r, hr, hlabel, -⟩
  obtain rfl := Except.ok.inj hr
  exact hn hlabel

theorem reports_fault : Reports (.ok { label := -l4EFault }) out ↔ ∃ e, out = .raises e := by
  constructor
  · intro h
    exact h.error.mp ⟨_, rfl, rfl⟩
  · rintro ⟨e, rfl⟩
    refine ⟨fun s => iff_of_false (not_succeeds_of_label (by decide) s) ?_,
      iff_of_true ⟨_, rfl, rfl⟩ ⟨e, rfl⟩⟩
    intro h
    cases h

/-- Every other error, and no answer at all, is the report of no outcome. -/
theorem not_reports {res : Except Stop Reply} (hvalue : ∀ s, ¬Succeeds res s)
    (herror : ¬FailsWith res (-l4EFault)) : ¬Reports res out := by
  intro h
  cases out with
  | returns s => exact hvalue s ((h.value s).mpr rfl)
  | raises e => exact herror (h.error.mpr ⟨e, rfl⟩)

theorem not_reports_label {n : Int} (hok : n ≠ l4EOk) (hfault : n ≠ -l4EFault) :
    ¬Reports (.ok { label := n }) out := by
  refine not_reports (not_succeeds_of_label hok) ?_
  rintro ⟨r, hr, hlabel⟩
  obtain rfl := Except.ok.inj hr
  exact hfault hlabel

theorem not_reports_stop {s : Stop} : ¬Reports (.error s) out := by
  refine not_reports (fun v => ?_) ?_
  · rintro ⟨r, hr, -⟩
    cases hr
  · rintro ⟨r, hr, -⟩
    cases hr

end

/-! ## The two runtimes -/

section
variable {P : Platform} (hstr : ∀ n, Fmt.Plain (P.errToStr n)) {base : ManagerBase}
  {cap : Option Object} {req : InvokeReq} {menv : Env} {w₀ w₁ w₂ : World} {start : ℕ}
  {o₁ : List Obs} {pre : List Rpc} {rs : List Reply} {out : Outcome}
  (hp : prepare P base [] req menv (w₀.deliver cap) = ⟨.ok start, w₁, o₁⟩)
  (hs : Serves P base (req.stack start []) req.cfg start pre w₁ rs w₂)
include hstr hp hs

theorem serve_late (hlate : TimesOut P req.cfg start w₂) (rest : List Rpc) :
    (serve P base ⟨cap, .invoke req menv (pre ++ rest)⟩ w₀).res = .ok { label := -l4EFault } := by
  obtain ⟨w', o, h⟩ := opActionInvoke_late hp hs hlate rest
  exact serve_invoke_of_thrown hstr h workerTimeout_plain rfl

variable (ht : ¬TimesOut P req.cfg start w₂)
include ht

theorem serve_signal (code : UInt64) :
    (serve P base ⟨cap, .invoke req menv (pre ++ [.signal 0 code])⟩ w₀).res =
      .ok { label := -l4EFault } := by
  obtain ⟨w', o, -, h⟩ := opActionInvoke_signal hp hs ht code
  exact serve_invoke_of_thrown hstr (h [] menv.ending) workerError_plain rfl

theorem not_reports_silent :
    ¬Reports (serve P base ⟨cap, .invoke req menv pre⟩ w₀).res out := by
  obtain ⟨w', o, ⟨code, h⟩ | h⟩ := opActionInvoke_silent hp hs ht
  · rw [serve_invoke_of_thrown hstr h (ipcFailed_plain code) rfl]
    have hcode : l4IpcToErrno code ≠ l4EOk ∧ l4IpcToErrno code ≠ -l4EFault := by
      simp only [l4IpcToErrno, l4EIpcLo, l4EOk, l4EFault]
      omega
    exact not_reports_label hcode.1 hcode.2
  · rw [serve_invoke_of_blocked h]
    exact not_reports_stop

/-- A process that has a value to exit with. -/
theorem reports_exitMessage (env : ProcEnv) (v : CString) :
    Reports (serve P base ⟨cap, .invoke req menv (pre ++ [exitMessage env v])⟩ w₀).res out ↔
      if env.exitErr v < 0 then ∃ e, out = .raises e
      else v.length < req.retLength ∧ out = .returns v.bytes := by
  by_cases herr : env.exitErr v < 0
  · rw [exitMessage, if_pos herr, if_pos herr, exitWith, serve_signal hstr hp hs ht]
    exact reports_fault
  · rw [exitMessage, if_neg herr, if_neg herr]
    obtain ⟨stop, w', o, -, hrun⟩ := opActionInvoke_exit hp hs ht v env.data
    have h := hrun [] menv.ending
    by_cases hbig : req.retLength ≤ v.length
    · rw [if_pos hbig] at h
      rw [serve_invoke_of_thrown hstr h bufferTooSmall_plain rfl]
      exact iff_of_false (not_reports_label (by decide) (by decide))
        fun hfits => Nat.not_lt.mpr hbig hfits.1
    · rw [if_neg hbig] at h
      rw [serve_invoke_of_ok h, reports_exitReply]
      exact (and_iff_right (Nat.not_le.mp hbig)).symm

end

/-- When the manager reports the outcome.  A result must be one that can be carried, in time; an
error is reported by a timeout, and else only if the runtime gets to signal it: in C++ the
log has to take it or `std::terminate` to signal, in Python the exit message must fail. -/
def Reportable (P : Platform) (env : ProcEnv) (rt : Runtime) (retLength : ℕ) (late : Prop) :
    Outcome → Prop
  | .returns s => ¬late ∧ (0 : UInt8) ∉ s ∧ 0 ≤ env.exitErr (CString.ofBytes s) ∧
      s.length < retLength
  | .raises e => late ∨ match rt with
      | .cpp => e.Written P env ∨ env.abort.isSome = true
      | .python => env.exitErr (CString.ofBytes []) < 0

section
variable {P : Platform} {base : ManagerBase} {cap : Option Object} {req : InvokeReq} {menv : Env}
  {w₀ w₁ w₂ : World} {start : ℕ} {o₁ : List Obs} {rs : List Reply} {f : UserFunction}
  {env : ProcEnv}

/-- A function that returns in time, under either runtime. -/
theorem reports_returns (hstr : ∀ n, Fmt.Plain (P.errToStr n)) {pre : List Rpc}
    (hp : prepare P base [] req menv (w₀.deliver cap) = ⟨.ok start, w₁, o₁⟩)
    (hs : Serves P base (req.stack start []) req.cfg start pre w₁ rs w₂)
    (ht : ¬TimesOut P req.cfg start w₂) (s : Bytes) :
    Reports (serve P base ⟨cap, .invoke req menv
        (pre ++ [exitMessage env (CString.ofBytes s)])⟩ w₀).res (.returns s) ↔
      (0 : UInt8) ∉ s ∧ 0 ≤ env.exitErr (CString.ofBytes s) ∧ s.length < req.retLength := by
  rw [reports_exitMessage hstr hp hs ht]
  have hsame : Outcome.returns s = .returns (CString.ofBytes s).bytes ↔ (0 : UInt8) ∉ s := by
    rw [← CString.ofBytes_eq_iff]
    constructor
    · intro h
      injection h with h
      exact h.symm
    · intro h
      rw [h]
  rw [hsame]
  by_cases herr : env.exitErr (CString.ofBytes s) < 0
  · rw [if_pos herr]
    refine iff_of_false ?_ fun h => absurd herr (Int.not_lt.mpr h.2.1)
    rintro ⟨e, he⟩
    cases he
  · rw [if_neg herr]
    have hlen : (0 : UInt8) ∉ s → (CString.ofBytes s).length = s.length := fun h0 => by
      rw [CString.length, CString.ofBytes_eq_iff.mpr h0]
    constructor
    · rintro ⟨hfits, h0⟩
      exact ⟨h0, Int.not_lt.mp herr, hlen h0 ▸ hfits⟩
    · rintro ⟨h0, -, hfits⟩
      exact ⟨(hlen h0).symm ▸ hfits, h0⟩

/-- A function that raises in time, under the C++ runtime. -/
theorem reports_cpp_raises (hstr : ∀ n, Fmt.Plain (P.errToStr n))
    (hp : prepare P base [] req menv (w₀.deliver cap) = ⟨.ok start, w₁, o₁⟩)
    (hs : Serves P base (req.stack start []) req.cfg start (f.messages req.arg.bytes) w₁ rs w₂)
    (ht : ¬TimesOut P req.cfg start w₂) {e : Thrown}
    (hout : f.outcome req.arg.bytes = .raises e) :
    Reports (serve P base ⟨cap, .invoke req menv (Runtime.cpp.messages P env f req.arg)⟩ w₀).res
        (.raises e) ↔ e.Written P env ∨ env.abort.isSome = true := by
  obtain ⟨hwritten, hnot⟩ := messages_cpp_raises P env hout
  by_cases he : e.Written P env
  · rw [hwritten he, exitWith, serve_signal hstr hp hs ht]
    exact iff_of_true (reports_fault.mpr ⟨e, rfl⟩) (Or.inl he)
  · rw [hnot he]
    cases habort : env.abort with
    | some code =>
        rw [show (some code : Option UInt64).toList.map (Rpc.signal 0) = [.signal 0 code] from rfl,
          serve_signal hstr hp hs ht]
        exact iff_of_true (reports_fault.mpr ⟨e, rfl⟩) (Or.inr rfl)
    | none =>
        rw [show (none : Option UInt64).toList.map (Rpc.signal 0) = [] from rfl, List.append_nil]
        refine iff_of_false (not_reports_silent hstr hp hs ht) ?_
        rintro (hw | hsome)
        · exact he hw
        · cases hsome

/-- **Outcomes.**  The worker is launched, the interpreter gets to call `main`, and the messages
the function sends are answered.  Then the client is told how the function ended exactly if
the outcome is reportable. -/
theorem reports_iff (hstr : ∀ n, Fmt.Plain (P.errToStr n)) (rt : Runtime)
    (hready : rt = .python → env.python.Ready)
    (hp : prepare P base [] req menv (w₀.deliver cap) = ⟨.ok start, w₁, o₁⟩)
    (hs : Serves P base (req.stack start []) req.cfg start (f.messages req.arg.bytes) w₁ rs w₂) :
    Reports (serve P base ⟨cap, .invoke req menv (rt.messages P env f req.arg)⟩ w₀).res
        (f.outcome req.arg.bytes) ↔
      Reportable P env rt req.retLength (TimesOut P req.cfg start w₂)
        (f.outcome req.arg.bytes) := by
  have hlast : ∃ rest, rt.messages P env f req.arg = f.messages req.arg.bytes ++ rest := by
    cases rt with
    | python => exact ⟨_, messages_python hstr (hready rfl)⟩
    | cpp =>
        cases hout : f.outcome req.arg.bytes with
        | returns s => exact ⟨_, messages_cpp_returns hstr hout⟩
        | raises e =>
            by_cases he : e.Written P env
            · exact ⟨_, (messages_cpp_raises P env hout).1 he⟩
            · exact ⟨_, (messages_cpp_raises P env hout).2 he⟩
  by_cases hlate : TimesOut P req.cfg start w₂
  · obtain ⟨rest, hrest⟩ := hlast
    rw [hrest, serve_late hstr hp hs hlate, reports_fault]
    cases f.outcome req.arg.bytes with
    | returns s =>
        refine iff_of_false ?_ fun h => h.1 hlate
        rintro ⟨e, he⟩
        cases he
    | raises e => exact iff_of_true ⟨e, rfl⟩ (Or.inl hlate)
  · cases hout : f.outcome req.arg.bytes with
    | returns s =>
        have hmsgs : rt.messages P env f req.arg =
            f.messages req.arg.bytes ++ [exitMessage env (CString.ofBytes s)] := by
          cases rt with
          | cpp => exact messages_cpp_returns hstr hout
          | python => rw [messages_python hstr (hready rfl), hout, Outcome.pythonAnswer]
        rw [hmsgs, reports_returns hstr hp hs hlate]
        exact (and_iff_right hlate).symm
    | raises e =>
        cases rt with
        | cpp =>
            rw [reports_cpp_raises hstr hp hs hlate hout]
            exact (or_iff_right hlate).symm
        | python =>
            rw [messages_python hstr (hready rfl), hout, Outcome.pythonAnswer,
              reports_exitMessage hstr hp hs hlate]
            refine Iff.trans ?_ (or_iff_right hlate).symm
            by_cases herr : env.exitErr (CString.ofBytes []) < 0
            · rw [if_pos herr]
              exact iff_of_true ⟨e, rfl⟩ herr
            · rw [if_neg herr]
              refine iff_of_false ?_ herr
              rintro ⟨-, h⟩
              cases h

end

/-! ## A function that raises -/

/-- Raises whatever it is called with, an exception of its own. -/
def raising : UserFunction := { outcome := fun _ => .raises .other }

/-- Signals once and returns its argument. -/
def echo : UserFunction where
  outcome := .returns
  messages := fun _ => [.signal 2 5]

/-- `world₀`, with `f` a Python script. -/
def pythonWorld : World :=
  { world₀ with maps := fun _ => AList.insert nameF { ds := some 1, lang := python } ∅ }

def requestForF : InvokeReq := { name := nameF, arg := nameG, retLength := 2 }

/-- The script raises, and the client is told `L4_EOK` and the empty string. -/
theorem reports_fails :
    raising.outcome requestForF.arg.bytes = .raises .other ∧
    Succeeds (serve platform₀ base₀ ⟨none, .invoke requestForF { python := some 3 }
      (Runtime.python.messages platform₀ {} raising requestForF.arg)⟩ pythonWorld).res [] ∧
    ¬Reports (serve platform₀ base₀ ⟨none, .invoke requestForF { python := some 3 }
      (Runtime.python.messages platform₀ {} raising requestForF.arg)⟩ pythonWorld).res
        (raising.outcome requestForF.arg.bytes) := by
  have hsucceeds : Succeeds (serve platform₀ base₀ ⟨none, .invoke requestForF { python := some 3 }
      (Runtime.python.messages platform₀ {} raising requestForF.arg)⟩ pythonWorld).res [] :=
    ⟨_, rfl, rfl, rfl⟩
  refine ⟨rfl, hsucceeds, fun h => ?_⟩
  cases (h.value []).mp hsucceeds

theorem python_ready : ({} : Python).Ready := ⟨rfl, rfl, rfl, rfl⟩

/-- The same function under C++, and a script that returns. -/
theorem reports_iff_both :
    Reports (serve platform₀ base₀ ⟨none, .invoke requestForF {}
      (Runtime.cpp.messages platform₀ {} raising requestForF.arg)⟩ world₀).res
        (.raises .other) ∧
    Reports (serve platform₀ base₀ ⟨none, .invoke requestForF { python := some 3 }
      (Runtime.python.messages platform₀ {} echo requestForF.arg)⟩ pythonWorld).res
        (.returns nameG.bytes) :=
  have hp : (prepare platform₀ base₀ [] requestForF {} (world₀.deliver none)).res = .ok 0 := rfl
  have hp' : (prepare platform₀ base₀ [] requestForF { python := some 3 }
      (pythonWorld.deliver none)).res = .ok 0 := rfl
  ⟨(reports_iff platform₀_errToStr .cpp (fun h => by cases h) (prepare_of_ok hp) (.nil _)).mpr
      (Or.inr (Or.inl trivial)),
    (reports_iff platform₀_errToStr .python (fun _ => python_ready) (prepare_of_ok hp')
      (.cons (by decide) (.signal (by decide)) (.nil _))).mpr
        ⟨by decide, by decide, by decide, by decide⟩⟩

end MettEagle
