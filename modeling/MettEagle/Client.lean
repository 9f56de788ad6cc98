/-
# `MettEagle.Client` — the server of one client

`Manager_Client_Epiface` adds two operations to `op_action_invoke`: create an
action from the capability that came with the message, and delete one.  Both
work on the action map of the client; create also moves the capability out of
the receive slot, by keeping the slot and having the server loop allocate a new
one.

    World.deliver    the kernel writes a capability into the receive slot
    opActionCreate   four ways to fail, the last one after the map was changed
    opActionDelete   erases the entry and unmaps its slot
    serve            one turn of the server loop: receive, dispatch, and
                     `Exc_log_dispatch` around the dispatch
-/
import MettEagle.InvokeSpec

namespace MettEagle

open Act

/-! ## Operations -/

/-- What kernel and L4Re answer during one `action_create`: which objects exist when the
capability is validated, and the slot `realloc_rcv_cap` finds, if it finds one. -/
structure CreateEnv where
  alive : Object → Bool := fun _ => true
  realloc : Option Slot

/-- `Manager_Client_Epiface::op_action_create`. -/
def opActionCreate (base : ManagerBase) (name : CString) (capReceived : Bool) (lang : Language)
    (env : CreateEnv) : M Int :=
  if capReceived = false then throwLoggable (-l4EInval) (lit "No dataspace cap received") []
  else do
    let w ← Act.get
    if (w.validate env.alive (some w.rcv)).isNone then
      throwLoggable (-l4EInval) (lit "Received capability is invalid") []
    else if (w.maps base.actions).count name ≠ 0 then do
      Act.emit (.refused name)
      throwLoggable (-l4EExist) (lit "Action '{:s}' already exists") [name.bytes]
    else do
      Act.modify fun w => w.setMap base.actions
        ((w.maps base.actions).insert name { ds := some w.rcv, lang := lang })
      match env.realloc with
      | none => throwLoggable (-l4ENoMem) (lit "Failed to realloc_rcv_cap") []
      | some slot => do
          Act.modify fun w => { w with rcv := slot }
          pure l4EOk

def World.unmap (w : World) (slot : Option Slot) : World :=
  { w with caps := match slot with
      | some s => Function.update w.caps s none
      | none => w.caps }

/-- `_actions->erase (name)`.  With the entry goes the reference to its slot, the only one: the
client's thread runs no worker while it serves the client.  The slot is unmapped. -/
def World.forget (w : World) (base : ManagerBase) (name : CString) : World :=
  (w.setMap base.actions ((w.maps base.actions).erase name)).unmap
    (((w.maps base.actions).lookup name).bind Action.ds)

/-- `Manager_Client_Epiface::op_action_delete`. -/
def opActionDelete (base : ManagerBase) (name : CString) : M Int := do
  Act.modify fun w => w.forget base name
  pure l4EOk

/-! ## Messages -/

/-- The operations of the client gate.  What fits none of them is answered by the dispatch
code itself. -/
inductive ClientOp where
  | create (name : CString) (lang : Language) (env : CreateEnv)
  | delete (name : CString)
  | invoke (req : InvokeReq) (env : Env) (script : List Rpc)
  | reject (label : Int)

/-- A message, with the object of the capability it carries, if it carries one. -/
structure ClientMsg where
  cap : Option Object := none
  op : ClientOp

/-- The kernel overwrites the receive slot on every message that carries a capability. -/
def World.deliver (w : World) (cap : Option Object) : World :=
  match cap with
  | some o => { w with caps := Function.update w.caps w.rcv (some o) }
  | none => w

section
variable (P : Platform)

/-- The dispatch of the client's epiface. -/
def clientDispatch (base : ManagerBase) (msg : ClientMsg) : M Reply :=
  match msg.op with
  | .create name lang env => do
      let label ← opActionCreate base name msg.cap.isSome lang env
      pure { label := label }
  | .delete name => do
      let label ← opActionDelete base name
      pure { label := label }
  | .invoke req env script => opActionInvoke P base [] req env script
  | .reject label => pure { label := label }

/-- One turn of the client's server loop. -/
def serve (base : ManagerBase) (msg : ClientMsg) : M Reply := do
  Act.modify fun w => w.deliver msg.cap
  excLogDispatch P (clientDispatch P base msg)

end

/-! ## What create can do -/

/-- What a create of a bound name throws; the name is part of the text. -/
def actionExists (name : CString) : Exn :=
  .loggable (-l4EExist) (lit "Action '" ++ (name.bytes ++ lit "' already exists"))

def noCap : Exn := .loggable (-l4EInval) (lit "No dataspace cap received")
def invalidCap : Exn := .loggable (-l4EInval) (lit "Received capability is invalid")
def reallocFailed : Exn := .loggable (-l4ENoMem) (lit "Failed to realloc_rcv_cap")

theorem noCap_plain : noCap.Plain := .loggable (by decide) (by decide)
theorem invalidCap_plain : invalidCap.Plain := .loggable (by decide) (by decide)
theorem reallocFailed_plain : reallocFailed.Plain := .loggable (by decide) (by decide)

/-- The world with the received capability bound to a name. -/
def World.bindAction (w : World) (base : ManagerBase) (name : CString) (lang : Language) : World :=
  w.setMap base.actions ((w.maps base.actions).insert name { ds := some w.rcv, lang := lang })

/-- The outcome of a create, case by case in the order of the source. -/
theorem opActionCreate_apply (base : ManagerBase) (name : CString) (capReceived : Bool)
    (lang : Language) (env : CreateEnv) (w : World) :
    opActionCreate base name capReceived lang env w =
      if capReceived = false then ⟨.error (.thrown noCap), w, []⟩
      else if (w.validate env.alive (some w.rcv)).isNone then ⟨.error (.thrown invalidCap), w, []⟩
      else if (w.maps base.actions).count name ≠ 0 then
        ⟨.error (.thrown (actionExists name)), w, [.refused name]⟩
      else match env.realloc with
        | none => ⟨.error (.thrown reallocFailed), w.bindAction base name lang, []⟩
        | some slot => ⟨.ok l4EOk, { w.bindAction base name lang with rcv := slot }, []⟩ := by
  simp only [opActionCreate]
  split
  · exact throwLoggable_plain (by decide) _ w
  · rw [get_bind_apply]
    split
    · exact throwLoggable_plain (by decide) _ w
    · split
      · rfl
      · rw [modify_bind_apply]
        cases env.realloc with
        | none => exact throwLoggable_plain (by decide) _ _
        | some slot => rfl

end MettEagle
