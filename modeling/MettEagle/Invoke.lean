/-
# `MettEagle.Invoke` — `op_action_invoke` and its server loop

`Manager_Base_Epiface::op_action_invoke` looks an action up, starts a worker for
it and then serves that worker, and only that worker, from a loop of its own.
The worker may ask for another invocation; `dispatch` then runs
`op_action_invoke` again, inside the outer loop, on the same thread.  The
definitions follow the source in this order:

    findAction       name and dataspace checks
    startWorker      everything up to `worker->launch ()`
    serverLoop       receive, dispatch, leave on exit, reply-and-wait
    finish           exit value, metadata, reply buffer

What the outside contributes to ONE invocation is a script: the messages its
worker sends, in order, each nested `action_invoke` carrying the script of its
own worker, and an `Env` with the answers of the kernel and of L4Re.  A run of
the real system is one script; statements below quantify over all of them.

The loop of the source tests the clock at two places, before the first receive
and before each reply-and-wait, and passes the computed timeout to the first
only: `l4_ipc_call` gets `L4_IPC_NEVER`.  `wait` does the same.
-/
import MettEagle.Server

namespace MettEagle

/-! ## What an invocation is given -/

/-- A failure inside `libloader` or a constructor: an `L4::Runtime_error` with a negative
error number and one of their constant texts. -/
structure Failure where
  errNo : Int
  extra : Bytes
  neg : errNo < 0
  plain : Fmt.Plain extra

/-- What happens once the worker has sent its last message. -/
inductive Ending where
  | silent
  | ipcError (code : ℕ)
deriving DecidableEq

/-- The answers of kernel and L4Re during one invocation. -/
structure Env where
  /-- objects that still exist when the dataspace is validated -/
  alive : Object → Bool := fun _ => true
  parentCap : Bool := true
  allocator : Int := 0
  python : Option Slot := none
  taskCap : Bool := true
  threadCap : Bool := true
  rmCap : Bool := true
  rmCreate : Int := 0
  gate : Int := 0
  launch : Option Failure := none
  ending : Ending := .silent

/-- The arguments of `action_invoke`; `retLength` is the capacity of the caller's array. -/
structure InvokeReq where
  name : CString
  arg : CString := default
  retLength : ℕ := 0
  cfg : Config := {}

/-- The messages a worker can send to its manager gate.  A message that fits none of the
operations is rejected by the dispatch code with an error label. -/
inductive Rpc where
  | exit (value : CString) (data : WorkerMetadata)
  | signal (sig val : UInt64)
  | invoke (req : InvokeReq) (env : Env) (script : List Rpc)
  | reject (label : Int)

/-! ## The worker and its epiface -/

/-- `Worker`, as far as the server loop sees it. -/
structure Worker where
  alive : Bool := true
  exitValue : Bytes := []
  exitError : Int := 0
  errorExit : Bool := false
deriving DecidableEq

/-- `Worker::exit (std::string)`. -/
def Worker.exitString (w : Worker) (value : Bytes) : Worker :=
  { w with exitValue := value, alive := false }

/-- `Worker::exit (int)`. -/
def Worker.exitInt (w : Worker) (exitCode : Int) : Worker :=
  { w with exitError := exitCode, alive := false, errorExit := true }

/-- `Manager_Worker_Epiface`. -/
structure WorkerEpiface extends ManagerBase where
  worker : Worker := {}
  metadata : WorkerMetadata := {}

/-- `{:d}`. -/
def decimal (n : Int) : Bytes := lit (toString n)

section
variable (P : Platform)

/-- `Manager_Worker_Epiface::op_signal`. -/
def opSignal (epi : WorkerEpiface) (sig val : UInt64) : M (Int × WorkerEpiface) :=
  if sig = 0 then do
    let err := (BitVec.ofNat 32 val.toNat).toInt -- `static_cast<int>`
    logM P .error (lit "Worker finished with wrong exit! {:s} (=exit: {:d})")
      [P.errToStr err, decimal err]
    pure (-l4ENoReply, { epi with worker := epi.worker.exitInt err })
  else do
    logM P .warn (lit "Got unknown signal '{:d}' with value '{:d}'")
      [decimal sig.toNat, decimal val.toNat]
    pure (l4EOk, epi)

/-- `Manager_Worker_Epiface::op_exit`. -/
def opExit (epi : WorkerEpiface) (value : CString) (data : WorkerMetadata) :
    Int × WorkerEpiface :=
  (-l4ENoReply, { epi with worker := epi.worker.exitString value.bytes, metadata := data })

/-! ## The steps of `op_action_invoke` -/

/-- `check_timeout`. -/
def checkTimeout (start : ℕ) (timeoutUs : UInt32) : M Timeout := do
  let t ← now P
  let remainingUs := timeoutUs.toNat - passedUs start t
  if remainingUs < 0 then throwLoggable (-l4EFault) (lit "Worker timeout") []
  else pure (P.timeoutFromUs (UInt32.ofNat remainingUs.toNat))

/-- The lookup: the name must be bound and its dataspace alive. -/
def findAction (base : ManagerBase) (fs : List Frame) (alive : Object → Bool) (name : CString) :
    M Action := do
  let w ← Act.get
  if (w.maps base.actions).count name = 0 then do
    Act.emit (.refused name)
    throwLoggable (-l4EInval) (lit "Action '{}' doesn't exist") [name.bytes]
  else do
    let found := (w.maps base.actions).index name
    Act.modify fun w => w.setMap base.actions found.2
    match w.validate alive found.1.ds with
    | none => do
        Act.emit (.gone name)
        throwLoggable (-l4EInval) (lit "dataspace invalid") []
    | some o => do
        Act.emit (.resolved base fs name o found.1.lang)
        pure found.1

/-- The allocator of the worker: its own one if the memory is limited. -/
def limitAllocator (cfg : Config) (env : Env) : M Unit :=
  if cfg.memoryLimit = 0 then pure () else chksys env.allocator (lit "create limited allocator")

/-- The dataspace the worker is started from.  A language that is neither `BINARY` nor
`PYTHON` leaves it default-constructed. -/
def workerDs (action : Action) (rom : Option Slot) : M (Option Slot) :=
  if action.lang = binary then pure action.ds
  else if action.lang = python then
    match rom with
    | none => throwLoggable (-l4EInval) (lit "Couldn't find file 'rom/python-faas2.7'") []
    | some s => pure (some s)
  else pure none

/-- The constructor of `App_model`. -/
def appModel (env : Env) : M Unit := do
  chkcap env.taskCap (lit "allocating task cap") (-l4ENoMem)
  chkcap env.threadCap (lit "allocating thread cap") (-l4ENoMem)
  chkcap env.rmCap (lit "allocating region-map cap") (-l4ENoMem)
  chksys env.rmCreate (lit "allocating new region map")

/-- `worker->launch ()`, which is `libloader`'s. -/
def launch (env : Env) : M Unit :=
  match env.launch with
  | some f => Act.throw (.thrown (.runtimeError f.errNo f.extra))
  | none => pure ()

/-- From the parent capability to the launch; returns `meta_data.start_worker`. -/
def startWorker (base : ManagerBase) (fs : List Frame) (req : InvokeReq) (env : Env)
    (action : Action) : M ℕ := do
  chkcap env.parentCap (lit "alloc parent cap") (-l4ENoMem)
  limitAllocator req.cfg env
  let ds ← workerDs action env.python
  appModel env
  chksys env.gate (lit "Failed to create gate")
  let start ← now P
  Act.emit (.launch base (⟨start, req.cfg.timeoutUs⟩ :: fs) ds req.arg)
  launch env
  pure start

/-- One wait for the worker: `l4_ipc_receive` when there is nothing to reply to, else
`l4_ipc_call`.  Both compute a timeout; only the first is given it. -/
def wait (fs : List Frame) (cfg : Config) (start : ℕ) (reply : Option Reply) : M Timeout := do
  let timeout ← if cfg.timeoutUs = 0 then pure Timeout.never else checkTimeout P start cfg.timeoutUs
  let rcv := match reply with
    | none => timeout
    | some _ => l4IpcNever
  let w ← Act.get
  Act.emit (.wait fs reply rcv (P.clock (w.ticks - 1)))
  pure rcv

/-- The worker sends nothing more: the IPC fails, or the wait runs into its timeout, or it
never ends. -/
def noMessage (ending : Ending) (rcv : Timeout) : M WorkerEpiface :=
  match ending, rcv with
  | .ipcError code, _ =>
      Act.throw (.thrown (.runtimeError (l4IpcToErrno code) (lit "Worker ipc failed.")))
  | .silent, .us _ =>
      Act.throw (.thrown (.runtimeError (l4IpcToErrno l4IpcReTimeout) (lit "Worker ipc failed.")))
  | .silent, .never => Act.throw .blocked

/-- From the end of the loop to `return L4_EOK`. -/
def finish (req : InvokeReq) (start : ℕ) (epi : WorkerEpiface) : M Reply :=
  if epi.worker.errorExit then
    throwLoggable (-l4EFault) (lit "Worker exited with error") []
  else if req.retLength ≤ epi.worker.exitValue.length then
    throwLoggable (-l4EMsgTooLong) (lit "The utcb buffer is too small!") []
  else do
    let stop ← now P
    pure { label := l4EOk
           ret := epi.worker.exitValue ++ [0]
           data := { epi.metadata with startWorker := start, endWorker := stop } }

/-- `op_action_invoke`, around whatever loop serves the worker. -/
def invokeWith (base : ManagerBase) (fs : List Frame) (req : InvokeReq) (env : Env)
    (loop : List Frame → ℕ → WorkerEpiface → M WorkerEpiface) : M Reply := do
  let action ← findAction base fs env.alive req.name
  let start ← startWorker P base fs req env action
  let epi ← loop (⟨start, req.cfg.timeoutUs⟩ :: fs) start { toManagerBase := base }
  finish P req start epi

mutual

/-- `worker_epiface->dispatch`. -/
def dispatch (fs : List Frame) : Rpc → WorkerEpiface → M (Reply × WorkerEpiface)
  | .exit value data, epi =>
      let r := opExit epi value data
      pure ({ label := r.1 }, r.2)
  | .signal sig val, epi => do
      let r ← opSignal P epi sig val
      pure ({ label := r.1 }, r.2)
  | .invoke req env script, epi => do
      let reply ← invokeWith P epi.toManagerBase fs req env fun fs start inner =>
        serverLoop fs req.cfg start env.ending script none inner
      pure (reply, epi)
  | .reject label, epi => pure ({ label := label }, epi)

/-- The server loop, from one wait to the next.  `reply` is what the worker is told when the
wait begins; the first wait tells it nothing. -/
def serverLoop (fs : List Frame) (cfg : Config) (start : ℕ) (ending : Ending) :
    List Rpc → Option Reply → WorkerEpiface → M WorkerEpiface
  | [], reply, _ => do
      let rcv ← wait P fs cfg start reply
      noMessage ending rcv
  | m :: rest, reply, epi => do
      let _ ← wait P fs cfg start reply
      let r ← dispatch fs m epi
      if r.2.worker.alive then serverLoop fs cfg start ending rest (some r.1) r.2
      else pure r.2

end

/-- `Manager_Base_Epiface::op_action_invoke`. -/
def opActionInvoke (base : ManagerBase) (fs : List Frame) (req : InvokeReq) (env : Env)
    (script : List Rpc) : M Reply :=
  invokeWith P base fs req env fun fs start inner =>
    serverLoop P fs req.cfg start env.ending script none inner

theorem dispatch_invoke (fs : List Frame) (req : InvokeReq) (env : Env) (script : List Rpc)
    (epi : WorkerEpiface) :
    dispatch P fs (.invoke req env script) epi =
      (opActionInvoke P epi.toManagerBase fs req env script >>= fun reply =>
        pure (reply, epi)) := by
  rw [dispatch]
  rfl

end

/-! ## A manager to evaluate on

One action `f` behind a living dataspace, a clock that advances by a microsecond with every
reading, and a `LOG_LEVEL` that silences everything. -/

/-- `l4_timeout_from_us` rounds large values down to its floating format; up to 1023
microseconds there is nothing to round. -/
def timeoutFromSmallUs (u : UInt32) : Timeout :=
  if u = 0xFFFFFFFF then .never else .us u.toNat

def platform₀ : Platform where
  clock := fun n => 1000 * n
  timeoutFromUs := timeoutFromSmallUs
  errToStr := fun _ => lit "Unknown error"
  logLevel := 0

def nameF : CString := ⟨lit "f", by decide⟩
def nameG : CString := ⟨lit "g", by decide⟩

def base₀ : ManagerBase := ⟨0, 0, 0⟩

def world₀ : World where
  maps := fun _ => AList.insert nameF { ds := some 1, lang := binary } ∅
  rcv := 2
  caps := fun s => if s = 1 then some 7 else none

end MettEagle
