/-
# `MettEagle.Isolation` — many clients, each served as if it were alone

Every client has an epiface, a thread and a scheduler of its own, and each invocation
hands these on to the epiface of the worker it starts:

    register     `Manager_Client_Epiface (thread, scheduler)`, with a new map
    invoke       `Manager_Worker_Epiface (_actions, _thread, _scheduler, worker)`,
                 `create_gate (…, _thread, …)`, `Worker (…, _scheduler.get (), …)`
    nested       the same, from the epiface of the innermost worker

A `Manager` holds the clients with the workers in service, innermost first, and one
message of one client or worker is a step; between two of them any other client may be
served.  What a client sees is a `Registry` of its own (`separates`), so its invocations
resolve their names as if the other clients were not there.
-/
import MettEagle.ActionMap
import MettEagle.ServerLoop
import MettEagle.Lib.Noninterference

namespace MettEagle

open Act Noninterference

/-! ## Clients and the workers in service -/

/-- A worker in service: its epiface, the thread its gate is bound to, the scheduler it was
started with and its frame. -/
structure Service where
  epiface : WorkerEpiface
  gateThread : ℕ
  scheduler : ℕ
  frame : Frame

/-- What an epiface hands on to the worker it starts. -/
def ManagerBase.service (base : ManagerBase) (frame : Frame) : Service where
  epiface := { toManagerBase := base }
  gateThread := base.thread
  scheduler := base.scheduler
  frame := frame

/-- A registered client: its epiface, the receive slot of its server, how often its thread has
read the clock, and the workers in service, innermost first. -/
structure ClientThread where
  base : ManagerBase
  rcv : Slot
  ticks : ℕ := 0
  services : List Service := []

namespace ClientThread
variable (c : ClientThread)

/-- The epiface the next message comes to: the innermost worker's, or the client's. -/
def handler : ManagerBase :=
  match c.services with
  | [] => c.base
  | s :: _ => s.epiface.toManagerBase

def frames : List Frame := c.services.map Service.frame

/-- The workers in service after the preparation of an invocation.  An exception leaves the
loops of all enclosing invocations. -/
def afterPrepare (req : InvokeReq) : Except Stop ℕ → List Service
  | .ok start => c.handler.service ⟨start, req.cfg.timeoutUs⟩ :: c.services
  | .error _ => []

end ClientThread

/-- The maps and capability slots of the manager, and its clients. -/
structure Manager (K : Type*) where
  maps : MapRef → Actions := fun _ => ∅
  caps : Slot → Option Object := fun _ => none
  client : K → Option ClientThread := fun _ => none

/-- The slots that hold something for the entries of a map. -/
def Actions.slots (m : Actions) : List Slot := m.entries.filterMap fun e => e.2.ds

/-- The slots in the hands of a server: the receive slot and those of the entries. -/
def World.Uses (w : World) (base : ManagerBase) (slot : Slot) : Prop :=
  slot = w.rcv ∨ slot ∈ Actions.slots (w.maps base.actions)

instance (w : World) (base : ManagerBase) (slot : Slot) : Decidable (w.Uses base slot) :=
  inferInstanceAs (Decidable (_ ∨ _))

namespace Manager
variable {K : Type*} [DecidableEq K] (m : Manager K) (k : K) (c : ClientThread)

/-- The manager as the thread of a client sees it. -/
def world : World where
  ticks := c.ticks
  maps := m.maps
  rcv := c.rcv
  caps := m.caps

/-- What the thread of a client leaves behind. -/
def put (w : World) (services : List Service) : Manager K where
  maps := w.maps
  caps := w.caps
  client := Function.update m.client k
    (some { base := c.base, rcv := w.rcv, ticks := w.ticks, services := services })

/-- A new client, with an empty map. -/
def register : Manager K where
  maps := Function.update m.maps c.base.actions ∅
  caps := m.caps
  client := Function.update m.client k (some c)

/-- The epiface of a client goes with its map, and with the map the slots of the entries. -/
def drop : Manager K where
  maps := Function.update m.maps c.base.actions ∅
  caps := fun slot => if slot ∈ Actions.slots (m.maps c.base.actions) then none else m.caps slot
  client := Function.update m.client k none

/-- A slot that is in no server's hands. -/
def Free (slot : Slot) : Prop := ∀ k c, m.client k = some c → ¬(m.world c).Uses c.base slot

/-- What is allocated for a new client is in nobody's hands. -/
structure Fresh : Prop where
  services : c.services = []
  actions : ∀ k c', m.client k = some c' → c'.base.actions ≠ c.base.actions
  thread : ∀ k c', m.client k = some c' → c'.base.thread ≠ c.base.thread
  scheduler : ∀ k c', m.client k = some c' → c'.base.scheduler ≠ c.base.scheduler
  rcv : m.Free c.rcv

end Manager

/-! ## Steps -/

/-- What a client does, or a worker for it.  A message of the client may carry a capability;
`returns` and `throws` are the ends of the innermost invocation. -/
inductive Request where
  | register
  | create (cap : Option Object) (name : CString) (lang : Language) (alive : Object → Bool)
  | delete (cap : Option Object) (name : CString)
  | reject (cap : Option Object) (label : Int)
  | invoke (cap : Option Object) (req : InvokeReq) (env : Env)
  | nested (req : InvokeReq) (env : Env)
  | returns
  | throws
  | disconnect

/-- How the name of an invocation is resolved. -/
inductive Resolution where
  | unknown
  | gone
  | found (obj : Object) (lang : Language)
deriving DecidableEq

/-- The resolution, from what is observed of an invocation. -/
def resolution : List Obs → Option Resolution
  | .refused _ :: _ => some .unknown
  | .gone _ :: _ => some .gone
  | .resolved _ _ _ o lang :: _ => some (.found o lang)
  | _ => none

/-- One step of the manager.  A create is given a slot by `realloc_rcv_cap`.  Where an exception
leaves the server of a client the process ends; here the client goes on, and so do the others,
which only adds runs. -/
inductive ManagerStep {K : Type*} [DecidableEq K] (P : Platform) :
    Manager K → K × Request × Option Resolution → Manager K → Prop
  | register {m : Manager K} {k : K} {c : ClientThread} : m.client k = none → m.Fresh c →
      ManagerStep P m (k, .register, none) (m.register k c)
  | create {m : Manager K} {k : K} {c : ClientThread} {cap : Option Object} {name : CString}
      {lang : Language} {alive : Object → Bool} {slot : Slot} :
      m.client k = some c → c.services = [] → m.Free slot →
      ManagerStep P m (k, .create cap name lang alive, none)
        (m.put k c (serve P c.base ⟨cap, .create name lang ⟨alive, some slot⟩⟩ (m.world c)).st [])
  | delete {m : Manager K} {k : K} {c : ClientThread} {cap : Option Object} {name : CString} :
      m.client k = some c → c.services = [] →
      ManagerStep P m (k, .delete cap name, none)
        (m.put k c (serve P c.base ⟨cap, .delete name⟩ (m.world c)).st [])
  | reject {m : Manager K} {k : K} {c : ClientThread} {cap : Option Object} {label : Int} :
      m.client k = some c → c.services = [] →
      ManagerStep P m (k, .reject cap label, none)
        (m.put k c (serve P c.base ⟨cap, .reject label⟩ (m.world c)).st [])
  | invoke {m : Manager K} {k : K} {c : ClientThread} {cap : Option Object} {req : InvokeReq}
      {env : Env} {out : Out World Obs Stop ℕ} :
      m.client k = some c → c.services = [] →
      out = prepare P c.handler c.frames req env ((m.world c).deliver cap) →
      ManagerStep P m (k, .invoke cap req env, resolution out.obs)
        (m.put k c out.st (c.afterPrepare req out.res))
  | nested {m : Manager K} {k : K} {c : ClientThread} {req : InvokeReq} {env : Env}
      {out : Out World Obs Stop ℕ} :
      m.client k = some c → c.services ≠ [] →
      out = prepare P c.handler c.frames req env (m.world c) →
      ManagerStep P m (k, .nested req env, resolution out.obs)
        (m.put k c out.st (c.afterPrepare req out.res))
  | returns {m : Manager K} {k : K} {c : ClientThread} {s : Service} {rest : List Service} :
      m.client k = some c → c.services = s :: rest →
      ManagerStep P m (k, .returns, none) (m.put k c (m.world c) rest)
  | throws {m : Manager K} {k : K} {c : ClientThread} :
      m.client k = some c → c.services ≠ [] →
      ManagerStep P m (k, .throws, none) (m.put k c (m.world c) [])
  | disconnect {m : Manager K} {k : K} {c : ClientThread} :
      m.client k = some c → c.services = [] →
      ManagerStep P m (k, .disconnect, none) (m.drop k c)

/-! ## What a client sees -/

namespace Registry
variable (R : Registry)

/-- The registry after a request.  A slot plays no part. -/
def after : Request → Registry
  | .register | .disconnect => fun _ => none
  | .create cap name lang alive => (R.serve ⟨cap, .create name lang ⟨alive, none⟩⟩).2
  | .delete cap name => (R.serve ⟨cap, .delete name⟩).2
  | .reject _ _ | .invoke _ _ _ | .nested _ _ | .returns | .throws => R

def resolveName (name : CString) (alive : Object → Bool) : Resolution :=
  match R name with
  | none => .unknown
  | some p => if alive p.1 then .found p.1 p.2 else .gone

/-- What the registry answers to a request: the resolution of a name. -/
def resolve : Request → Option Resolution
  | .invoke _ req env => some (R.resolveName req.name env.alive)
  | .nested req env => some (R.resolveName req.name env.alive)
  | .register | .create _ _ _ _ | .delete _ _ | .reject _ _ | .returns | .throws
  | .disconnect => none

end Registry

/-- A registry, as a machine that hears the requests of one client and its workers. -/
def registry : Mealy Registry Request (Option Resolution) where
  next := Registry.after
  out := Registry.resolve

/-! ## Slots in hand -/

section own
variable {base : ManagerBase} {w w' : World} {R : Registry} {slot : Slot} {F : Slot → Prop}

theorem Actions.mem_slots {m : Actions} :
    slot ∈ Actions.slots m ↔ ∃ n a, m.lookup n = some a ∧ a.ds = some slot := by
  rw [Actions.slots, List.mem_filterMap]
  constructor
  · rintro ⟨⟨n, a⟩, hmem, hds⟩
    exact ⟨n, a, AList.mem_lookup_iff.mpr hmem, hds⟩
  · rintro ⟨n, a, hn, hds⟩
    exact ⟨⟨n, a⟩, AList.mem_lookup_iff.mp hn, hds⟩

theorem World.uses_iff :
    w.Uses base slot ↔ slot = w.rcv ∨ ∃ n a, w.find base n = some a ∧ a.ds = some slot :=
  or_congr_right Actions.mem_slots

/-- Slots in hand are a matter of the map and the receive slot. -/
theorem World.Uses.congr (h : w.Uses base slot) (hmap : w'.maps base.actions = w.maps base.actions)
    (hrcv : w'.rcv = w.rcv) : w'.Uses base slot := by
  rw [World.Uses, hmap, hrcv]
  exact h

/-- What a server may do to the world it shares with the others: change its own map and the
slots in its hands, and take fresh slots into its hands. -/
structure Own (base : ManagerBase) (F : Slot → Prop) (w w' : World) : Prop where
  maps : ∀ r, r ≠ base.actions → w'.maps r = w.maps r
  caps : ∀ slot, ¬w.Uses base slot → w'.caps slot = w.caps slot
  uses : ∀ slot, w'.Uses base slot → w.Uses base slot ∨ F slot

namespace Own

theorem refl (base : ManagerBase) (F : Slot → Prop) (w : World) : Own base F w w :=
  ⟨fun _ _ => rfl, fun _ _ => rfl, fun _ h => Or.inl h⟩

/-- A second step takes nothing more into its hands. -/
theorem trans {w'' : World} (h : Own base (fun _ => False) w w') (h' : Own base F w' w'') :
    Own base F w w'' where
  maps := fun r hr => (h'.maps r hr).trans (h.maps r hr)
  caps := by
    intro slot hslot
    have hslot' : ¬w'.Uses base slot := fun hu => hslot ((h.uses slot hu).resolve_right id)
    exact (h'.caps slot hslot').trans (h.caps slot hslot)
  uses := fun slot hu => (h'.uses slot hu).imp_left fun hu' => (h.uses slot hu').resolve_right id

theorem later (F : Slot → Prop) (h : w.Later w') : Own base F w w' where
  maps := fun r _ => congrFun h.maps r
  caps := fun slot _ => congrFun h.caps slot
  uses := fun _ hu => Or.inl (hu.congr (congrFun h.maps.symm _) h.rcv.symm)

theorem deliver (F : Slot → Prop) (cap : Option Object) : Own base F w (w.deliver cap) where
  maps := by
    intro r _
    cases cap with
    | none => rfl
    | some o => rfl
  caps := fun slot hslot => w.caps_deliver_ne (fun heq => hslot (Or.inl heq)) cap
  uses := by
    intro slot hu
    rw [World.uses_iff] at hu ⊢
    simp only [World.rcv_deliver, World.find_deliver] at hu
    exact Or.inl hu

theorem bindAction (F : Slot → Prop) (name : CString) (lang : Language) :
    Own base F w (w.bindAction base name lang) where
  maps := fun r hr => Function.update_of_ne hr _ _
  caps := fun _ _ => rfl
  uses := by
    intro s hu
    rw [World.uses_iff] at hu ⊢
    refine Or.inl ?_
    rcases hu with hrcv | ⟨n, a, hn, hds⟩
    · exact Or.inl hrcv
    · by_cases hname : n = name
      · subst hname
        rw [World.find_bindAction_self] at hn
        cases hn
        exact Or.inl (Option.some.inj hds).symm
      · rw [World.find_bindAction_ne w base hname] at hn
        exact Or.inr ⟨n, a, hn, hds⟩

theorem receive (slot : Slot) : Own base (fun s => slot = s) w { w with rcv := slot } where
  maps := fun _ _ => rfl
  caps := fun _ _ => rfl
  uses := by
    intro s hu
    rcases hu with hrcv | hmem
    · exact Or.inr hrcv.symm
    · exact Or.inl (Or.inr hmem)

theorem forget (F : Slot → Prop) (name : CString) : Own base F w (w.forget base name) where
  maps := fun r hr => Function.update_of_ne hr _ _
  caps := by
    intro s hs
    refine w.caps_forget_ne base fun a ha hds => hs ?_
    exact World.uses_iff.mpr (Or.inr ⟨name, a, ha, hds⟩)
  uses := by
    intro s hu
    rw [World.uses_iff] at hu ⊢
    refine Or.inl (hu.imp_right ?_)
    rintro ⟨n, a, hn, hds⟩
    by_cases hname : n = name
    · subst hname
      rw [World.find_forget_self] at hn
      cases hn
    · rw [World.find_forget_ne w base hname] at hn
      exact ⟨n, a, hn, hds⟩

end Own

/-- The registry of a server is that of its own map and of the slots in its hands. -/
theorem Represents.frame (h : Represents base w R)
    (hmap : w'.maps base.actions = w.maps base.actions) (hrcv : w'.rcv = w.rcv)
    (hcaps : ∀ slot, w.Uses base slot → w'.caps slot = w.caps slot) : Represents base w' R where
  toSlots := h.toSlots.congr (fun n => by rw [World.find, hmap]; rfl) hrcv
  bound := by
    intro n a hn
    rw [World.find, hmap] at hn
    obtain ⟨s, o, hs, ho, hR⟩ := h.bound hn
    exact ⟨s, o, hs, (hcaps s (World.uses_iff.mpr (Or.inr ⟨n, a, hn, hs⟩))).trans ho, hR⟩
  unbound := by
    intro n hn
    rw [World.find, hmap] at hn
    exact h.unbound hn

/-! ## What a message does -/

/-- A create keeps to its own and the slot it is given, if it is given one. -/
theorem serve_create_own (P : Platform) (cap : Option Object) (name : CString) (lang : Language)
    (env : CreateEnv) :
    Own base (fun s => env.realloc = some s) w
      (serve P base ⟨cap, .create name lang env⟩ w).st := by
  rw [serve_st]
  refine (Own.deliver _ cap).trans ?_
  simp only [clientDispatch, map_apply]
  rcases opActionCreate_st_cases base name cap.isSome lang env (w.deliver cap) with
    ⟨hst, -⟩ | ⟨-, -, hst⟩ | ⟨s, hs, -, hout⟩
  · rw [hst]
    exact Own.refl _ _ _
  · rw [hst]
    exact Own.bindAction _ name lang
  · rw [hout, hs]
    simp only [Option.some.injEq]
    exact (Own.bindAction _ name lang).trans (Own.receive s)

theorem serve_delete_own (P : Platform) (cap : Option Object) (name : CString) :
    Own base F w (serve P base ⟨cap, .delete name⟩ w).st := by
  rw [serve_st]
  exact (Own.deliver _ cap).trans (Own.forget F name)

theorem serve_reject_own (P : Platform) (cap : Option Object) (label : Int) :
    Own base F w (serve P base ⟨cap, .reject label⟩ w).st := by
  rw [serve_st]
  exact (Own.deliver _ cap).trans (Own.refl _ _ _)

/-- The preparation of an invocation moves the clock, if anything. -/
theorem prepare_later (P : Platform) (fs : List Frame) (req : InvokeReq) (env : Env) :
    w.Later (prepare P base fs req env w).st := by
  have h := prepared P base fs req env w
  generalize MettEagle.prepare P base fs req env w = out at h ⊢
  cases h with
  | unknown _ => exact World.Later.refl w
  | gone _ _ => exact World.Later.refl w
  | stopped _ _ _ => exact World.Later.refl w
  | launched _ _ _ _ => exact World.later_tick w

theorem Represents.resolveName_of_validate (h : Represents base w R) {name : CString}
    {alive : Object → Bool} {a : Action} {obj : Object} (hl : w.find base name = some a)
    (hv : w.validate alive a.ds = some obj) : R.resolveName name alive = .found obj a.lang := by
  obtain ⟨s, o, hs, ho, hR⟩ := h.bound hl
  rw [hs, World.validate_of_caps ho, Option.filter_some] at hv
  rw [Registry.resolveName, hR]
  cases ha : alive o with
  | false =>
      rw [ha] at hv
      cases hv
  | true =>
      rw [ha] at hv
      cases hv
      simp only [ha]
      rfl

/-- A name is resolved as the registry has it. -/
theorem Represents.prepare (h : Represents base w R) (P : Platform) (fs : List Frame)
    (req : InvokeReq) (env : Env) :
    resolution (MettEagle.prepare P base fs req env w).obs =
      some (R.resolveName req.name env.alive) := by
  have hprep := prepared P base fs req env w
  generalize MettEagle.prepare P base fs req env w = out at hprep ⊢
  cases hprep with
  | unknown hl =>
      rw [Registry.resolveName, h.unbound hl]
      rfl
  | gone hl hv =>
      obtain ⟨s, o, hs, ho, hR⟩ := h.bound hl
      rw [hs, World.validate_of_caps ho, Option.filter_some] at hv
      rw [Registry.resolveName, hR]
      cases ha : env.alive o with
      | false =>
          simp only [ha]
          rfl
      | true =>
          rw [ha] at hv
          cases hv
  | stopped hl hv _ =>
      rw [h.resolveName_of_validate hl hv]
      rfl
  | launched hl hv _ _ =>
      rw [h.resolveName_of_validate hl hv]
      rfl

end own

/-! ## Confinement -/

/-- The worker is served with what an epiface has. -/
structure Service.Of (s : Service) (base : ManagerBase) : Prop where
  actions : s.epiface.actions = base.actions
  thread : s.epiface.thread = base.thread ∧ s.gateThread = base.thread
  scheduler : s.epiface.scheduler = base.scheduler ∧ s.scheduler = base.scheduler

theorem ManagerBase.service_of (base : ManagerBase) (frame : Frame) :
    (base.service frame).Of base :=
  ⟨rfl, ⟨rfl, rfl⟩, ⟨rfl, rfl⟩⟩

theorem Service.Of.epiface_eq {s : Service} {base : ManagerBase} (h : s.Of base) :
    s.epiface.toManagerBase = base := by
  obtain ⟨hactions, ⟨hthread, -⟩, ⟨hscheduler, -⟩⟩ := h
  generalize s.epiface.toManagerBase = b at hactions hthread hscheduler
  cases b
  cases base
  simp_all

/-- Nothing is shared. -/
structure ManagerBase.Differs (base base' : ManagerBase) : Prop where
  actions : base.actions ≠ base'.actions
  thread : base.thread ≠ base'.thread
  scheduler : base.scheduler ≠ base'.scheduler

variable {K : Type*}

/-- Every worker in service has map, thread and scheduler of its client, which are no other
client's. -/
structure Confined (m : Manager K) : Prop where
  services : ∀ {k c}, m.client k = some c → ∀ s ∈ c.services, s.Of c.base
  bases : ∀ {k k' c c'}, k ≠ k' → m.client k = some c → m.client k' = some c' →
    c.base.Differs c'.base

/-- The clients are confined, and no slot is in the hands of two. -/
structure Apart (m : Manager K) : Prop extends Confined m where
  slots : ∀ {k k' c c' slot}, k ≠ k' → m.client k = some c → m.client k' = some c' →
    (m.world c).Uses c.base slot → ¬(m.world c').Uses c'.base slot

variable {m : Manager K} {k k' : K} {c c' : ClientThread} {w : World} {F : Slot → Prop}
  {sv : List Service}

theorem Confined.handler (h : Confined m) (hk : m.client k = some c) : c.handler = c.base := by
  have hsv := h.services hk
  obtain ⟨base, rcv, ticks, services⟩ := c
  cases services with
  | nil => rfl
  | cons s rest => exact (hsv s (List.mem_cons_self)).epiface_eq

/-- Whether an invocation gets to its server loop or not, the workers in service are the
client's. -/
theorem Confined.afterPrepare (h : Confined m) (hk : m.client k = some c) (req : InvokeReq)
    (res : Except Stop ℕ) : ∀ s ∈ c.afterPrepare req res, s.Of c.base := by
  cases res with
  | error e => exact List.forall_mem_nil _
  | ok start =>
      intro s hs
      rcases List.mem_cons.mp hs with rfl | hs
      · rw [h.handler hk]
        exact c.base.service_of _
      · exact h.services hk s hs

/-! ## What a step leaves to the others -/

theorem ManagerBase.Differs.symm {base base' : ManagerBase} (h : base.Differs base') :
    base'.Differs base :=
  ⟨h.actions.symm, h.thread.symm, h.scheduler.symm⟩

/-- The other clients, their maps and the slots in their hands are as they were. -/
structure Spared (k : K) (m m' : Manager K) : Prop where
  client : ∀ k', k' ≠ k → m'.client k' = m.client k'
  maps : ∀ {k' c'}, k' ≠ k → m.client k' = some c' →
    m'.maps c'.base.actions = m.maps c'.base.actions
  caps : ∀ {k' c' slot}, k' ≠ k → m.client k' = some c' → (m.world c').Uses c'.base slot →
    m'.caps slot = m.caps slot

variable {m' : Manager K}

theorem Spared.uses_iff (h : Spared k m m') (hne : k' ≠ k) (hk' : m.client k' = some c')
    {slot : Slot} : (m'.world c').Uses c'.base slot ↔ (m.world c').Uses c'.base slot := by
  have hmaps := h.maps hne hk'
  exact ⟨fun hu => hu.congr hmaps.symm rfl, fun hu => hu.congr hmaps rfl⟩

theorem Spared.represents (h : Spared k m m') (hne : k' ≠ k) (hk' : m.client k' = some c')
    {R : Registry} (hrep : Represents c'.base (m.world c') R) :
    Represents c'.base (m'.world c') R := by
  have hmaps := h.maps hne hk'
  exact hrep.frame hmaps rfl fun _ hu => h.caps hne hk' hu

/-- What is asked of the client `k` after its step: it is confined, and has nothing in its hands
that another client has. -/
structure Keeps (k : K) (m : Manager K) (c : ClientThread) (w : World) : Prop where
  services : ∀ s ∈ c.services, s.Of c.base
  bases : ∀ {k' c'}, k' ≠ k → m.client k' = some c' → c.base.Differs c'.base
  slots : ∀ {k' c' slot}, k' ≠ k → m.client k' = some c' → w.Uses c.base slot →
    ¬(m.world c').Uses c'.base slot

/-- **Step.**  Clients stay apart. -/
theorem Apart.step (h : Apart m) (hspared : Spared k m m')
    (hkeeps : ∀ {c}, m'.client k = some c → Keeps k m c (m'.world c)) : Apart m' := by
  have hother : ∀ {k' c'}, k' ≠ k → m'.client k' = some c' → m.client k' = some c' :=
    fun hne hk' => (hspared.client _ hne).symm.trans hk'
  refine ⟨⟨?_, ?_⟩, ?_⟩
  · intro k₁ c₁ h₁
    by_cases hk₁ : k₁ = k
    · subst hk₁
      exact (hkeeps h₁).services
    · exact h.services (hother hk₁ h₁)
  · intro k₁ k₂ c₁ c₂ hne h₁ h₂
    by_cases hk₁ : k₁ = k
    · subst hk₁
      exact (hkeeps h₁).bases hne.symm (hother hne.symm h₂)
    · by_cases hk₂ : k₂ = k
      · subst hk₂
        exact ((hkeeps h₂).bases hne (hother hne h₁)).symm
      · exact h.bases hne (hother hk₁ h₁) (hother hk₂ h₂)
  · intro k₁ k₂ c₁ c₂ slot hne h₁ h₂ hu
    by_cases hk₁ : k₁ = k
    · subst hk₁
      rw [hspared.uses_iff hne.symm (hother hne.symm h₂)]
      exact (hkeeps h₁).slots hne.symm (hother hne.symm h₂) hu
    · rw [hspared.uses_iff hk₁ (hother hk₁ h₁)] at hu
      by_cases hk₂ : k₂ = k
      · subst hk₂
        exact fun hu' => (hkeeps h₂).slots hk₁ (hother hk₁ h₁) hu' hu
      · rw [hspared.uses_iff hk₂ (hother hk₂ h₂)]
        exact h.slots hne (hother hk₁ h₁) (hother hk₂ h₂) hu

section kinds
variable [DecidableEq K]

theorem client_put : (m.put k c w sv).client k =
    some { base := c.base, rcv := w.rcv, ticks := w.ticks, services := sv } :=
  Function.update_self ..

theorem client_register : (m.register k c).client k = some c := Function.update_self ..

theorem client_drop : (m.drop k c).client k = none := Function.update_self ..

/-- A client that keeps to its own. -/
theorem Apart.spared_put (h : Apart m) (hk : m.client k = some c)
    (hown : Own c.base F (m.world c) w) : Spared k m (m.put k c w sv) where
  client := fun _ hne => Function.update_of_ne hne _ _
  maps := fun hne hk' => hown.maps _ (h.bases hne hk' hk).actions
  caps := fun hne hk' hu => hown.caps _ (h.slots hne hk' hk hu)

theorem Apart.put (h : Apart m) (hk : m.client k = some c) (hown : Own c.base F (m.world c) w)
    (hF : ∀ slot, F slot → m.Free slot) (hsv : ∀ s ∈ sv, s.Of c.base) :
    Apart (m.put k c w sv) := by
  refine h.step (h.spared_put hk hown) fun {c₁} h₁ => ?_
  obtain rfl : _ = c₁ := Option.some.inj (client_put.symm.trans h₁)
  refine ⟨hsv, fun hne hk' => (h.bases hne hk' hk).symm, fun {k' c' slot} hne hk' hu => ?_⟩
  rcases hown.uses slot hu with hold | hfresh
  · exact h.slots hne.symm hk hk' hold
  · exact hF slot hfresh k' c' hk'

/-- A new client. -/
theorem Apart.spared_register (hfresh : m.Fresh c) : Spared k m (m.register k c) where
  client := fun _ hne => Function.update_of_ne hne _ _
  maps := fun _ hk' => Function.update_of_ne (hfresh.actions _ _ hk') _ _
  caps := fun _ _ _ => rfl

theorem register_maps_self : ((m.register k c).world c).maps c.base.actions = ∅ :=
  Function.update_self ..

theorem Apart.register (h : Apart m) (hfresh : m.Fresh c) : Apart (m.register k c) := by
  refine h.step (Apart.spared_register hfresh) fun {c₁} h₁ => ?_
  obtain rfl : c = c₁ := Option.some.inj (client_register.symm.trans h₁)
  refine ⟨?_, fun {k' c'} hne hk' => ?_, fun {k' c' slot} hne hk' hu => ?_⟩
  · rw [hfresh.services]
    exact List.forall_mem_nil _
  · exact ⟨(hfresh.actions _ _ hk').symm, (hfresh.thread _ _ hk').symm,
      (hfresh.scheduler _ _ hk').symm⟩
  · rcases hu with rfl | hmem
    · exact hfresh.rcv k' c' hk'
    · rw [register_maps_self] at hmem
      cases hmem

/-- A new client's registry is empty. -/
theorem represents_register : Represents c.base ((m.register k c).world c) fun _ => none :=
  .empty register_maps_self

/-- A client that leaves. -/
theorem Apart.spared_drop (h : Apart m) (hk : m.client k = some c) : Spared k m (m.drop k c) where
  client := fun _ hne => Function.update_of_ne hne _ _
  maps := fun hne hk' => Function.update_of_ne (h.bases hne hk' hk).actions _ _
  caps := fun hne hk' hu => if_neg fun hmem => h.slots hne hk' hk hu (Or.inr hmem)

theorem Apart.drop (h : Apart m) (hk : m.client k = some c) : Apart (m.drop k c) := by
  refine h.step (h.spared_drop hk) fun {c₁} h₁ => ?_
  rw [client_drop] at h₁
  cases h₁

end kinds

/-! ## One step -/

/-- A slot in nobody's hands may be used as the next receive slot. -/
theorem Manager.Free.fresh {slot : Slot} (h : m.Free slot) (hk : m.client k = some c)
    (cap : Option Object) : MettEagle.Fresh c.base ((m.world c).deliver cap) slot := by
  have hfree := h k c hk
  rw [World.uses_iff] at hfree
  refine ⟨fun heq => hfree (Or.inl ?_), fun n a hn hds => hfree (Or.inr ⟨n, a, ?_, hds⟩)⟩
  · rwa [World.rcv_deliver] at heq
  · rwa [World.find_deliver] at hn

section step
variable [DecidableEq K] {P : Platform} {r : Request} {o : Option Resolution}

/-- What a step can do: a client comes, a client goes, or a client does something on its own and
its registry follows. -/
inductive Effect (m : Manager K) (k : K) : Request → Option Resolution → Manager K → Prop
  | register {c : ClientThread} : m.Fresh c → Effect m k .register none (m.register k c)
  | disconnect {c : ClientThread} : m.client k = some c → Effect m k .disconnect none (m.drop k c)
  | put {r : Request} {o : Option Resolution} {c : ClientThread} {w : World} {sv : List Service}
      {F : Slot → Prop} :
      m.client k = some c → Own c.base F (m.world c) w → (∀ slot, F slot → m.Free slot) →
      (∀ s ∈ sv, s.Of c.base) →
      (∀ R, Represents c.base (m.world c) R → o = R.resolve r ∧ Represents c.base w (R.after r)) →
      Effect m k r o (m.put k c w sv)

theorem no_services {base : ManagerBase} : ∀ s ∈ ([] : List Service), s.Of base :=
  List.forall_mem_nil _

/-- An invocation, of the client or of a worker. -/
theorem effect_prepare (h : Confined m) (hk : m.client k = some c) {w : World} {req : InvokeReq}
    {env : Env} (hown : Own c.base (fun _ => False) (m.world c) w)
    (hrep : ∀ R, Represents c.base (m.world c) R → Represents c.base w R)
    (hr : ∀ R : Registry, R.resolve r = some (R.resolveName req.name env.alive) ∧ R.after r = R) :
    Effect m k r (resolution (prepare P c.handler c.frames req env w).obs)
      (m.put k c (prepare P c.handler c.frames req env w).st
        (c.afterPrepare req (prepare P c.handler c.frames req env w).res)) := by
  have hlater : w.Later (prepare P c.base c.frames req env w).st :=
    prepare_later P c.frames req env
  have hafter := h.afterPrepare hk req (prepare P c.base c.frames req env w).res
  rw [h.handler hk]
  refine .put hk (hown.trans (Own.later (fun _ => False) hlater)) (fun _ => False.elim) hafter ?_
  intro R hR
  rw [(hr R).1, (hr R).2]
  exact ⟨(hrep R hR).prepare P c.frames req env, (hrep R hR).later hlater⟩

/-- A step that only ends invocations. -/
theorem effect_services (hk : m.client k = some c) (hsv : ∀ s ∈ sv, s.Of c.base)
    (hr : ∀ R : Registry, R.resolve r = none ∧ R.after r = R) :
    Effect m k r none (m.put k c (m.world c) sv) := by
  refine .put hk (Own.refl c.base (fun _ => False) _) (fun _ => False.elim) hsv ?_
  intro R hR
  rw [(hr R).1, (hr R).2]
  exact ⟨rfl, hR⟩

theorem ManagerStep.effect (h : Confined m) (hstep : ManagerStep P m (k, r, o) m') :
    Effect m k r o m' := by
  cases hstep with
  | register _ hfresh => exact .register hfresh
  | @create _ c cap name lang alive slot hk _ hfree =>
      refine .put hk (serve_create_own P cap name lang ⟨alive, some slot⟩)
        (fun s hs => Option.some.inj hs ▸ hfree) no_services ?_
      intro R hR
      have hok : AllocOk c.base (m.world c) ⟨cap, .create name lang ⟨alive, some slot⟩⟩ :=
        ⟨slot, rfl, hfree.fresh hk cap⟩
      exact ⟨rfl, (hR.turn P hok).2⟩
  | @delete _ c cap name hk _ =>
      refine .put hk (serve_delete_own (F := fun _ => False) P cap name) (fun _ => False.elim)
        no_services ?_
      intro R hR
      have hok : AllocOk c.base (m.world c) ⟨cap, .delete name⟩ := trivial
      exact ⟨rfl, (hR.turn P hok).2⟩
  | @reject _ c cap label hk _ =>
      refine .put hk (serve_reject_own (F := fun _ => False) P cap label) (fun _ => False.elim)
        no_services ?_
      intro R hR
      have hok : AllocOk c.base (m.world c) ⟨cap, .reject label⟩ := trivial
      exact ⟨rfl, (hR.turn P hok).2⟩
  | @invoke _ c cap req env out hk _ hout =>
      subst hout
      exact effect_prepare h hk (Own.deliver _ cap) (fun R hR => hR.deliver cap)
        fun R => ⟨rfl, rfl⟩
  | @nested _ c req env out hk _ hout =>
      subst hout
      exact effect_prepare h hk (Own.refl _ _ _) (fun R hR => hR) fun R => ⟨rfl, rfl⟩
  | @returns _ c s rest hk hsv =>
      refine effect_services hk (fun s' hs' => ?_) fun R => ⟨rfl, rfl⟩
      refine h.services hk s' ?_
      rw [hsv]
      exact List.mem_cons_of_mem _ hs'
  | throws hk _ => exact effect_services hk no_services fun R => ⟨rfl, rfl⟩
  | disconnect hk _ => exact .disconnect hk

theorem Effect.spared (h : Apart m) (heff : Effect m k r o m') : Spared k m m' := by
  cases heff with
  | register hfresh => exact Apart.spared_register hfresh
  | disconnect hk => exact h.spared_drop hk
  | put hk hown _ _ _ => exact h.spared_put hk hown

/-- **Step.** -/
theorem Effect.apart (h : Apart m) (heff : Effect m k r o m') : Apart m' := by
  cases heff with
  | register hfresh => exact h.register hfresh
  | disconnect hk => exact h.drop hk
  | put hk hown hF hsv _ => exact h.put hk hown hF hsv

/-- What a client sees of the manager: the registry of its map, if it is there. -/
structure Sees (k : K) (m : Manager K) (R : Registry) : Prop where
  apart : Apart m
  represents : ∀ {c}, m.client k = some c → Represents c.base (m.world c) R

theorem Sees.own {R : Registry} (h : Sees k m R) (heff : Effect m k r o m') :
    o = R.resolve r ∧ Sees k m' (R.after r) := by
  have hapart := heff.apart h.apart
  cases heff with
  | @register c hfresh =>
      refine ⟨rfl, hapart, fun {c₁} h₁ => ?_⟩
      obtain rfl : c = c₁ := Option.some.inj (client_register.symm.trans h₁)
      exact represents_register
  | @disconnect c hk =>
      refine ⟨rfl, hapart, fun {c₁} h₁ => ?_⟩
      rw [client_drop] at h₁
      cases h₁
  | @put _ _ c w sv F hk hown hF hsv hrep =>
      obtain ⟨ho, hafter⟩ := hrep R (h.represents hk)
      refine ⟨ho, hapart, fun {c₁} h₁ => ?_⟩
      obtain rfl : _ = c₁ := Option.some.inj (client_put.symm.trans h₁)
      exact hafter

theorem Sees.others {R : Registry} (h : Sees k m R) (hne : k' ≠ k) (heff : Effect m k' r o m') :
    Sees k m' R := by
  have hspared := heff.spared h.apart
  refine ⟨heff.apart h.apart, fun {c} hk => ?_⟩
  have hold : m.client k = some c := (hspared.client k hne.symm).symm.trans hk
  exact hspared.represents hne.symm hold (h.represents hold)

/-- A registry of its own is all that a client sees of the manager. -/
theorem separates (P : Platform) (k : K) :
    Separates (ManagerStep (K := K) P) registry k (Sees k) where
  own := fun hsees hstep => hsees.own (hstep.effect hsees.apart.toConfined)
  others := fun hsees hne hstep => hsees.others hne (hstep.effect hsees.apart.toConfined)

end step

/-! ## Runs -/

/-- A lookup or a launch for the epiface. -/
def Obs.Of (base : ManagerBase) : Obs → Prop
  | .resolved b _ _ _ _ => b = base
  | .launch b _ _ _ => b = base
  | .refused _ | .gone _ | .wait _ _ _ _ | .log _ _ => True

theorem confinementRules (P : Platform) (base : ManagerBase) (fs : List Frame) :
    LoopRules P base fs (fun _ _ => True) (fun _ => True) (Report.all (Obs.Of base)) :=
  have hone : ∀ {x : Obs}, x.Of base → ∀ y ∈ [x], y.Of base := List.forall_mem_singleton.mpr
  { leave := fun _ _ => trivial
    stop := fun _ => trivial
    tick := fun _ => trivial
    enter := fun _ _ => trivial
    log := by
      intro o ho x hx
      obtain ⟨sev, msg, rfl⟩ := ho x hx
      trivial
    plain := fun _ => List.forall_mem_nil _
    blocked := List.forall_mem_nil _
    refused := fun _ => hone trivial
    gone := fun _ => hone trivial
    resolved := fun _ _ _ _ => hone rfl
    launch := fun _ _ _ _ _ => hone rfl
    wait := fun _ _ _ _ _ => hone trivial }

/-- **Trees.**  In the whole tree of an invocation names are looked up and workers launched for
the epiface at its root. -/
theorem opActionInvoke_confined (P : Platform) (base : ManagerBase) (fs : List Frame)
    (req : InvokeReq) (env : Env) (script : List Rpc) (w : World) :
    ∀ x ∈ (opActionInvoke P base fs req env script w).obs, x.Of base :=
  ((confinementRules P base fs).run req env script w trivial).1

/-- At the start there is no client. -/
theorem Apart.start : Apart ({} : Manager K) where
  services := nofun
  bases := nofun
  slots := nofun

/-- **Isolation.**  In every state of every run each worker in service has the map, thread and
scheduler of its client, which no other client has, and so has the whole tree of the next
invocation; and whatever the others do, a client that asks the same has its names, and those
its workers ask for, resolved in the same way. -/
theorem clients_isolated [DecidableEq K] (P : Platform) {m m' : Manager K}
    {ls ls' : List (K × Request × Option Resolution)} (hrun : Run (ManagerStep P) {} ls m)
    (hrun' : Run (ManagerStep P) {} ls' m') :
    Confined m ∧
      (∀ {k c}, m.client k = some c → ∀ req env script,
        ∀ x ∈ (opActionInvoke P c.base [] req env script (m.world c)).obs, x.Of c.base) ∧
      ∀ k, inputs k ls = inputs k ls' → outputs k ls = outputs k ls' := by
  have hapart : Apart m := hrun.inv (I := fun _ m => Apart m) Apart.start
    fun {_ _ l _} h hstep => by
      obtain ⟨k, r, o⟩ := l
      exact (hstep.effect h.toConfined).apart h
  have hsees : ∀ k, Sees k ({} : Manager K) fun _ => none := fun k => ⟨Apart.start, nofun⟩
  refine ⟨hapart.toConfined, fun {_ c} _ req env script => ?_, fun k hsame => ?_⟩
  · exact opActionInvoke_confined P c.base [] req env script _
  · exact (separates P k).outputs_eq (hsees k) hrun hrun' hsame

/-! ## Two clients with an action of the same name -/

def clientA : ClientThread := { base := ⟨0, 0, 0⟩, rcv := 0 }
def clientB : ClientThread := { base := ⟨1, 1, 1⟩, rcv := 10 }

def createF (o : Object) : Request := .create (some o) nameF binary fun _ => true
def invokeF : Request := .invoke none { name := nameF } {}

/-- Client A creates an action and invokes it. -/
def runA : List (Bool × Request × Option Resolution) :=
  [(true, .register, none), (true, createF 7, none), (true, invokeF, some (.found 7 binary))]

/-- Client B is there too, and has created another action under the same name. -/
def runBA : List (Bool × Request × Option Resolution) :=
  [(false, .register, none), (false, createF 9, none), (true, .register, none),
    (true, createF 7, none), (true, invokeF, some (.found 7 binary))]

theorem exists_run_invokeF (res : Resolution) {m : Manager Bool} {c : ClientThread}
    {ls : List (Bool × Request × Option Resolution)} (hrun : Run (ManagerStep platform₀) {} ls m)
    (hk : m.client true = some c) (hsv : c.services = [])
    (hres : resolution (prepare platform₀ c.handler c.frames { name := nameF } {} (m.world c)).obs =
      some res) : ∃ m', Run (ManagerStep platform₀) {} (ls ++ [(true, invokeF, some res)]) m' := by
  rw [← hres]
  exact ⟨_, hrun.snoc (.invoke hk hsv rfl)⟩

/-- Where there is one client, what it does not use is free. -/
theorem free_of_only {m : Manager Bool} {k : Bool} {c : ClientThread} {slot : Slot}
    (hk : m.client k = some c) (hnone : m.client (!k) = none)
    (hslot : ¬(m.world c).Uses c.base slot) : m.Free slot := by
  intro k' c' hk'
  by_cases hkk : k' = k
  · rw [hkk, hk] at hk'
    cases hk'
    exact hslot
  · rw [Bool.eq_not_of_ne hkk, hnone] at hk'
    cases hk'

theorem clients_isolated_pair :
    ∃ m m' : Manager Bool, Run (ManagerStep platform₀) {} runA m ∧
      Run (ManagerStep platform₀) {} runBA m' ∧ outputs true runA = outputs true runBA := by
  have hA : Run (ManagerStep platform₀) ({} : Manager Bool) [(true, .register, none)] _ :=
    .snoc .nil (.register (c := clientA) rfl ⟨rfl, nofun, nofun, nofun, nofun⟩)
  have hfreeA : Manager.Free (({} : Manager Bool).register true clientA) 1 :=
    free_of_only (k := true) rfl rfl (by decide)
  have hcreateA := hA.snoc (l := (true, createF 7, none)) (.create (c := clientA) rfl rfl hfreeA)
  obtain ⟨m, hrun⟩ := exists_run_invokeF (.found 7 binary) hcreateA rfl rfl rfl
  have hB : Run (ManagerStep platform₀) ({} : Manager Bool) [(false, .register, none)] _ :=
    .snoc .nil (.register (c := clientB) rfl ⟨rfl, nofun, nofun, nofun, nofun⟩)
  have hfreeB : Manager.Free (({} : Manager Bool).register false clientB) 11 :=
    free_of_only (k := false) rfl rfl (by decide)
  have hcreateB := hB.snoc (l := (false, createF 9, none)) (.create (c := clientB) rfl rfl hfreeB)
  have hBA := hcreateB.snoc (.register (k := true) (c := clientA) rfl ?_)
  have hcreateBA := hBA.snoc (l := (true, createF 7, none))
    (.create (c := clientA) rfl rfl (show Manager.Free _ 1 from ?_))
  · obtain ⟨m', hrun'⟩ := exists_run_invokeF (.found 7 binary) hcreateBA rfl rfl rfl
    exact ⟨m, m', hrun, hrun', (clients_isolated platform₀ hrun hrun').2.2 true rfl⟩
  · intro k c hk
    cases k with
    | true =>
        cases hk
        decide
    | false =>
        cases hk
        decide
  · refine ⟨rfl, ?_, ?_, ?_, ?_⟩
    all_goals
      intro k c hk
      cases k with
      | true => cases hk
      | false =>
          cases hk
          decide

end MettEagle
