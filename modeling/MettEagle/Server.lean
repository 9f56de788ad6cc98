/-
# `MettEagle.Server` — the state of a client's server thread and what it does

One thread of the manager serves one client.  Its handlers are programs
(`Lib.Act`) over a `World`: the clock readings taken so far, the action maps,
the slot the next capability will be received into and what the slots refer
to.  `Obs` lists what a handler does that somebody can see or that a statement
about it needs to name: messages logged, names looked up, workers launched,
waits for a worker.

Code outside the repository appears in two ways.  What it is a function of its
argument stays a field of `Platform`; what it answers once, on one call, is an
input of the handler that makes the call.
-/
import MettEagle.Lib.Act
import MettEagle.Liblog
import Mathlib.Data.List.AList

namespace MettEagle

/-! ## Data -/

/-- `MettEagle::Language`, an unchecked 64-bit value. -/
abbrev Language := UInt64

def binary : Language := 0
def python : Language := 1

/-- `struct Action`; `none` is an invalid capability. -/
structure Action where
  ds : Option Slot := none
  lang : Language := binary
deriving DecidableEq, Inhabited

/-- `std::map<std::string, Action>`. -/
abbrev Actions := AList fun _ : CString => Action

/-- Which map object a `std::shared_ptr<std::map<…>>` points to. -/
abbrev MapRef := ℕ

/-- `Manager_Base_Epiface`: what a client's epiface hands down to its workers' epifaces. -/
structure ManagerBase where
  actions : MapRef
  thread : ℕ
  scheduler : ℕ
deriving DecidableEq

/-- `MettEagle::Config`. -/
structure Config where
  memoryLimit : Int := 0
  timeoutUs : UInt32 := 0
deriving DecidableEq

/-- `MettEagle::Worker_Metadata`. -/
structure WorkerMetadata where
  startRuntime : ℕ := 0
  startFunction : ℕ := 0
  endFunction : ℕ := 0
  endRuntime : ℕ := 0
deriving DecidableEq, Inhabited

/-- `MettEagle::Metadata`. -/
structure Metadata extends WorkerMetadata where
  startWorker : ℕ := 0
  endWorker : ℕ := 0
deriving DecidableEq, Inhabited

/-- A reply message: its label, and the output array and metadata of `action_invoke`. -/
structure Reply where
  label : Int
  ret : Bytes := []
  data : Metadata := {}
deriving DecidableEq

/-- A running invocation as a timeout sees it: when its worker was started and the
`timeout_us` of its `Config`. -/
structure Frame where
  start : ℕ
  timeoutUs : UInt32
deriving DecidableEq

/-! ## State and observations -/

structure World where
  /-- how many times the clock was read -/
  ticks : ℕ := 0
  maps : MapRef → Actions := fun _ => ∅
  /-- the slot the server loop receives the next capability into -/
  rcv : Slot := 0
  /-- what the kernel has in each slot -/
  caps : Slot → Option Object := fun _ => none

/-- What a handler does besides returning.  `fs` is the stack of running invocations,
innermost first; its length is the nesting depth. -/
inductive Obs where
  /-- a request was refused because of this action name, which goes into the error text -/
  | refused (name : CString)
  /-- the name was found, but its dataspace is gone -/
  | gone (name : CString)
  /-- the lookup of an invocation succeeded -/
  | resolved (base : ManagerBase) (fs : List Frame) (name : CString) (obj : Object)
      (lang : Language)
  /-- `worker->launch ()` was called, with this dataspace and this argument -/
  | launch (base : ManagerBase) (fs : List Frame) (ds : Option Slot) (arg : CString)
  /-- the thread waits for its worker: `l4_ipc_receive`, or `l4_ipc_call` with a reply to
  the worker's last message.  `now` is the last clock reading. -/
  | wait (fs : List Frame) (reply : Option Reply) (rcv : Timeout) (now : ℕ)
  | log (sev : Severity) (msg : Bytes)
deriving DecidableEq

/-- How a handler ends without returning: by an exception, waiting for a message that never
comes, or by `std::terminate`. -/
inductive Stop where
  | thrown (e : Exn)
  | blocked
  | terminated
deriving DecidableEq

/-- A handler. -/
abbrev M := Act World Obs Stop

/-- The parts of the platform that are functions: the clock readings in the order they are
taken, `l4_timeout_from_us`, `l4sys_errtostr`, and the value of `LOG_LEVEL`. -/
structure Platform where
  clock : ℕ → ℕ
  timeoutFromUs : UInt32 → Timeout
  errToStr : Int → Bytes
  logLevel : BitVec 32

/-! ## Primitives -/

section
variable (P : Platform)

/-- `high_resolution_clock::now ()`. -/
def now : M ℕ := do
  let w ← Act.get
  Act.modify fun w => { w with ticks := w.ticks + 1 }
  pure (P.clock w.ticks)

/-- `throw Loggable_exception (err_no, msg, args...)`.  The constructor is `noexcept`: a
format error inside it ends the process. -/
def throwLoggable {σ ω α : Type} (errNo : Int) (msg : Bytes) (args : List Bytes) :
    Act σ ω Stop α :=
  match loggableException errNo msg args with
  | .ok e => Act.throw (.thrown e)
  | .error _ => Act.throw .terminated

/-- `L4Re::chksys`: a negative value becomes an `L4::Runtime_error`. -/
def chksys {σ ω : Type} (err : Int) (extra : Bytes) : Act σ ω Stop Unit :=
  if err < 0 then Act.throw (.thrown (.runtimeError err extra)) else pure ()

theorem chksys_of_nonneg {σ ω : Type} {err : Int} (h : 0 ≤ err) (extra : Bytes) :
    (chksys err extra : Act σ ω Stop Unit) = pure () :=
  if_neg (Int.not_lt.mpr h)

/-- `L4Re::chkcap`. -/
def chkcap {σ ω : Type} (valid : Bool) (extra : Bytes) (err : Int) : Act σ ω Stop Unit :=
  if valid then pure () else Act.throw (.thrown (.runtimeError err extra))

/-- `log<Severity> (format, args...)` with the default silencer. -/
def logM {σ : Type} (sev : Severity) (msg : Bytes) (args : List Bytes) : Act σ Obs Stop Unit :=
  match log .silenceByEnv P.logLevel sev msg args with
  | .ok none => pure ()
  | .ok (some out) => Act.emit (.log sev out)
  | .error e => Act.throw (.thrown (.formatError e))

/-- `log<Severity> (e)` with the default silencer. -/
def logExn {σ : Type} (sev : Severity) (e : Exn) : Act σ Obs Stop Unit :=
  match logObject .silenceByEnv P.logLevel sev (e.text P.errToStr) with
  | .ok none => pure ()
  | .ok (some out) => Act.emit (.log sev out)
  | .error e => Act.throw (.thrown (.formatError e))

/-- `Exc_log_dispatch::operator ()`: run the dispatcher of the server loop, and turn what it
throws into a log message and a reply. -/
def excLogDispatch {σ : Type} (handler : Act σ Obs Stop Reply) : Act σ Obs Stop Reply :=
  Act.tryCatch handler fun stop =>
    match stop with
    | .thrown (.loggable e msg) => do
        logExn P .error (.loggable e msg)
        pure { label := e }
    | .thrown (.runtimeError e extra) => do
        logExn P .error (.runtimeError e extra)
        pure { label := e }
    | .thrown (.baseException str) => do
        logExn P .error (.baseException str)
        pure { label := -l4EInval }
    | .thrown (.number err) => do
        logExn P .error (.number err)
        pure { label := err }
    | other => Act.throw other

end

/-! ## Capabilities and maps -/

/-- `cap.validate ()`: the living object behind the capability, if there is one; the label
the source tests is nonzero exactly then.  `alive` says which objects still exist when the
kernel is asked. -/
def World.validate (w : World) (alive : Object → Bool) (cap : Option Slot) : Option Object :=
  (cap.bind w.caps).filter alive

/-- `_actions->count (name)`. -/
def Actions.count (m : Actions) (name : CString) : ℕ := if name ∈ m then 1 else 0

/-- `(*_actions)[name]`: a missing entry is created. -/
def Actions.index (m : Actions) (name : CString) : Action × Actions :=
  match m.lookup name with
  | some a => (a, m)
  | none => (default, m.insert name default)

theorem Actions.count_eq_zero {m : Actions} {name : CString} :
    m.count name = 0 ↔ m.lookup name = none := by
  simp [Actions.count, AList.lookup_eq_none]

theorem Actions.index_of_lookup {m : Actions} {name : CString} {a : Action}
    (h : m.lookup name = some a) : m.index name = (a, m) := by
  simp [Actions.index, h]

/-- Replace one map. -/
def World.setMap (w : World) (r : MapRef) (m : Actions) : World :=
  { w with maps := Function.update w.maps r m }

@[simp] theorem World.setMap_maps_self (w : World) (r : MapRef) (m : Actions) :
    (w.setMap r m).maps r = m := by simp [World.setMap]

@[simp] theorem World.setMap_self (w : World) (r : MapRef) : w.setMap r (w.maps r) = w := by
  simp [World.setMap]

@[simp] theorem World.setMap_caps (w : World) (r : MapRef) (m : Actions) :
    (w.setMap r m).caps = w.caps := rfl

end MettEagle
