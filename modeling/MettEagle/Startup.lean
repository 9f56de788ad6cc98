/-
# `MettEagle.Startup` — what a worker finds when it starts

Between the lookup of an action and the first message of its worker, an invocation fills in
the members of the `Worker` object, and the loader calls it back to put them into the new
process:

    set_argv_strings, set_envp_strings      `init_prog` pushes them onto the stack
    add_initial_capability                  `push_initial_caps` pushes a table of names
                                            `map_initial_caps` maps what they stand for

The last two run over the same list separately, and each computes the slots for itself:
`get_initial_cap`, which is libloader's, moves `start` on from entry to entry.  The process
looks a name up in the table and uses the slot it finds there.

`initial_caps_found` is about any sequence of `add_initial_capability`, `worker_startup`
about the one of an invocation and both runtimes.
-/
import MettEagle.ArgStrings
import MettEagle.Wrappers
import MettEagle.Environ
import MettEagle.Lib.NameTable

namespace MettEagle

open NameTable (last?)

/-! ## The code -/

/-- `Worker::Initial_Cap`; no capability stands for an invalid one. -/
structure InitialCap where
  capability : Option Slot
  name : CString
  rights : BitVec 32 := 0
  flags : BitVec 32 := 0
deriving DecidableEq

/-- `l4re_env_cap_entry_t`. -/
structure CapEntry where
  name : CString
  cap : Slot
  flags : BitVec 32
deriving DecidableEq

/-- The slots `get_initial_cap` gives to a list of names, one after the other. -/
def assignSlots (getInitialCap : CString → Slot → Slot × Slot) :
    List CString → Slot → List (CString × Slot)
  | [], _ => []
  | name :: names, start =>
      (name, (getInitialCap name start).1) ::
        assignSlots getInitialCap names (getInitialCap name start).2

/-- What L4Re decides: which names are short enough for an entry, how many bytes it takes on the
stack, where the slots of a new process begin, and which one a name gets. -/
structure Loader where
  isValidName : CString → Bool
  entrySize : ℕ
  first : Slot
  getInitialCap : CString → Slot → Slot × Slot
  apart : ∀ names, NameTable.Apart id (assignSlots getInitialCap names first)

/-- The members of `Worker` that have to do with the new process, and the process: the table of
names, from the lowest address up, and what is mapped into its slots. -/
structure NewProcess where
  stack : WorkerStack
  initialCapabilities : List InitialCap := []
  table : List CapEntry := []
  slots : Slot → Option (Slot × BitVec 32) := fun _ => none

/-- A new `Worker` object, once the loader has made its stack. -/
def NewProcess.fresh (mem : ByteMem) (sp : ℕ) : NewProcess := { stack := { mem := mem, sp := sp } }

/-- `L4_CAP_FPAGE_RW`. -/
def l4CapFpageRW : BitVec 32 := 0x5

def onStack {α : Type} (m : Act WorkerStack Obs Stop α) : Act NewProcess Obs Stop α := fun p =>
  ⟨(m p.stack).res, { p with stack := (m p.stack).st }, (m p.stack).obs⟩

section
variable (P : Platform) (L : Loader) (r : Remote) (mapErr : InitialCap → Slot → Int)

/-- `Worker::add_initial_capability`. -/
def addInitialCapability (c : InitialCap) : Act NewProcess Obs Stop Unit :=
  if L.isValidName c.name = false then
    logM P .error (lit "Capability name '\x7b\x7d' too long -- ignored") [c.name.bytes]
  else Act.modify fun p => { p with initialCapabilities := p.initialCapabilities ++ [c] }

def addInitialCapabilities : List InitialCap → Act NewProcess Obs Stop Unit
  | [] => pure ()
  | c :: cs => do
      addInitialCapability P L c
      addInitialCapabilities cs

/-- `_stack.push (l4re_env_cap_entry_t (…))`.  The entry takes its place on the stack; what it says
is kept in `table`, and its bytes are not stored in `mem`. -/
def pushEntry (e : CapEntry) : Act NewProcess Obs Stop Unit := do
  let p ← Act.get
  chksys (r.check (p.stack.sp - L.entrySize) L.entrySize) []
  Act.modify fun p => { p with
    stack := { p.stack with sp := p.stack.sp - L.entrySize }
    table := e :: p.table }

/-- `Worker::push_initial_caps`. -/
def pushInitialCaps : List InitialCap → Slot → Act NewProcess Obs Stop Slot
  | [], start => pure start
  | c :: cs, start => do
      let cap := L.getInitialCap c.name start
      pushEntry L r ⟨c.name, cap.1, c.flags⟩
      pushInitialCaps cs cap.2

/-- What `task->map` leaves in a slot of the new process: an invalid capability maps nothing. -/
def mapCap (c : InitialCap) (s : Slot) (p : NewProcess) : NewProcess :=
  { p with slots := match c.capability with
    | none => p.slots
    | some cap => Function.update p.slots s (some (cap, c.rights &&& 0xf)) }

/-- `Worker::map_initial_caps`. -/
def mapInitialCaps : List InitialCap → Slot → Act NewProcess Obs Stop Unit
  | [], _ => pure ()
  | c :: cs, start => do
      let cap := L.getInitialCap c.name start
      chksys (mapErr c cap.1) []
      Act.modify (mapCap c cap.1)
      mapInitialCaps cs cap.2

/-- What the loader calls of `Worker::launch ()`, in its order. -/
def startProcess : Act NewProcess Obs Stop Unit := do
  onStack (initProg r)
  let p ← Act.get
  let _ ← pushInitialCaps L r p.initialCapabilities L.first
  mapInitialCaps L mapErr p.initialCapabilities L.first

def nameRom : CString := ⟨lit "rom", by decide⟩
def nameFunction : CString := ⟨lit "function", by decide⟩

/-- The part of `op_action_invoke` between the gate of the worker and its launch; `rom` is the
manager's own capability. -/
def setUpWorker (rom : Option Slot) (action : Action) (arg : CString) :
    Act NewProcess Obs Stop Unit := do
  Act.modify fun p => { p with stack := p.stack.setArgvStrings [arg.bytes] }
  Act.modify fun p => { p with
    stack := p.stack.setEnvpStrings [lit "PKGNAME=Worker    ", lit "LOG_LEVEL=31"] }
  addInitialCapability P L ⟨rom, nameRom, l4CapFpageRW, 0⟩
  if action.lang ≠ binary then
    addInitialCapability P L ⟨action.ds, nameFunction, l4CapFpageRW, 0⟩
  else pure ()

end

/-! ## The process looks around -/

/-- The strings a process reads from one of its lists; the walk meets the last one first. -/
def ReadStrings (m : ByteMem) (range : StringRange) (l : List Bytes) : Prop :=
  if range.a0 = 0 then l = [] else Walk m range.a0 range.al l.reverse

/-- `L4Re::Env::get_cap`: the entry of this name at the lowest address. -/
def NewProcess.getCap (p : NewProcess) (name : CString) : Option CapEntry :=
  p.table.find? fun e => e.name = name

/-- The capability in the slot of an entry, and the rights it was mapped with. -/
def NewProcess.Holds (p : NewProcess) (e : CapEntry) (c : InitialCap) : Prop :=
  e.flags = c.flags ∧ ∀ cap, c.capability = some cap → p.slots e.cap = some (cap, c.rights &&& 0xf)

/-- What the runtime finds in its environment; the rest of `env` it meets later. -/
def NewProcess.procEnv (p : NewProcess) (environ : List Bytes) (env : ProcEnv) : ProcEnv :=
  { env with
    logLevel := getLevel environ
    python := { env.python with functionCap := (p.getCap nameFunction).isSome } }

/-! ## The table and the slots -/

/-- The initial capabilities with the slots both loops give them. -/
def slotted (L : Loader) : List InitialCap → Slot → List (InitialCap × Slot)
  | [], _ => []
  | c :: cs, start =>
      (c, (L.getInitialCap c.name start).1) :: slotted L cs (L.getInitialCap c.name start).2

/-- Its name is short enough. -/
def Loader.accepts (L : Loader) (c : InitialCap) : Bool := L.isValidName c.name

def InitialCap.entry (x : InitialCap × Slot) : CapEntry := ⟨x.1.name, x.2, x.1.flags⟩

/-- What is mapped for it. -/
def InitialCap.mapped (c : InitialCap) : Option (Slot × BitVec 32) :=
  c.capability.map fun cap => (cap, c.rights &&& 0xf)

section
variable {P : Platform} {L : Loader} {r : Remote} {mapErr : InitialCap → Slot → Int}
  {p p' : NewProcess} {o : List Obs}

theorem slotted_fst (L : Loader) (cs : List InitialCap) :
    ∀ start, (slotted L cs start).map Prod.fst = cs := by
  induction cs with
  | nil => exact fun _ => rfl
  | cons c cs ih => exact fun start => congrArg (c :: ·) (ih _)

theorem slotted_names (L : Loader) (cs : List InitialCap) : ∀ start,
    (slotted L cs start).map (fun x => (x.1.name, x.2)) =
      assignSlots L.getInitialCap (cs.map InitialCap.name) start := by
  induction cs with
  | nil => exact fun _ => rfl
  | cons c cs ih => exact fun start => congrArg ((c.name, _) :: ·) (ih _)

theorem slotted_apart (L : Loader) (cs : List InitialCap) :
    NameTable.Apart InitialCap.name (slotted L cs L.first) := by
  have h := L.apart (cs.map InitialCap.name)
  rw [NameTable.Apart, ← slotted_names, List.pairwise_map] at h
  exact h

theorem chksys_of_ok {σ : Type} {err : Int} {extra : Bytes} {α : Type}
    {k : Unit → Act σ Obs Stop α} {s s' : σ} {a : α}
    (h : (chksys err extra >>= k) s = ⟨.ok a, s', o⟩) : k () s = ⟨.ok a, s', o⟩ := by
  by_cases herr : err < 0
  · rw [chksys, if_pos herr] at h
    cases h
  · rwa [chksys, if_neg herr] at h

theorem pushEntry_of_ok {α : Type} {k : Unit → Act NewProcess Obs Stop α} {a : α} {e : CapEntry}
    (h : (pushEntry L r e >>= k) p = ⟨.ok a, p', o⟩) :
    k () { p with stack := { p.stack with sp := p.stack.sp - L.entrySize }, table := e :: p.table } =
      ⟨.ok a, p', o⟩ := by
  rw [pushEntry, Act.bind_assoc, Act.get_bind_apply, Act.bind_assoc] at h
  have hrest := chksys_of_ok h
  rwa [Act.modify_bind_apply] at hrest

/-- What `push_initial_caps` leaves behind: the entries on top, the last one lowest. -/
structure Tabled (L : Loader) (cs : List InitialCap) (start : Slot) (p p' : NewProcess) : Prop where
  table : p'.table = ((slotted L cs start).map InitialCap.entry).reverse ++ p.table
  slots : p'.slots = p.slots
  mem : p'.stack.mem = p.stack.mem
  range : p'.stack.range = p.stack.range

theorem pushInitialCaps_tabled {cs : List InitialCap} : ∀ {start s : Slot} {p : NewProcess},
    pushInitialCaps L r cs start p = ⟨.ok s, p', o⟩ → Tabled L cs start p p' := by
  induction cs with
  | nil =>
      intro start s p hrun
      cases hrun
      exact ⟨rfl, rfl, rfl, rfl⟩
  | cons c cs ih =>
      intro start s p hrun
      obtain ⟨htable, hslots, hmem, hrange⟩ := ih (pushEntry_of_ok hrun)
      refine ⟨?_, hslots, hmem, hrange⟩
      rw [htable, slotted, List.map_cons, List.reverse_cons, List.append_assoc]
      rfl

theorem mapCap_slots (c : InitialCap) (s : Slot) (p : NewProcess) :
    (mapCap c s p).slots = NameTable.put InitialCap.mapped p.slots (c, s) := by
  rw [mapCap, NameTable.put, InitialCap.mapped]
  cases c.capability with
  | none => rfl
  | some cap => rfl

/-- `map_initial_caps` fills the slots the table names. -/
theorem mapInitialCaps_of_ok {cs : List InitialCap} : ∀ {start : Slot} {p : NewProcess},
    mapInitialCaps L mapErr cs start p = ⟨.ok (), p', o⟩ →
      p'.slots = NameTable.store InitialCap.mapped (slotted L cs start) p.slots ∧
      p'.table = p.table ∧ p'.stack = p.stack := by
  induction cs with
  | nil =>
      intro start p hrun
      cases hrun
      exact ⟨rfl, rfl, rfl⟩
  | cons c cs ih =>
      intro start p hrun
      have hrest := chksys_of_ok hrun
      rw [Act.modify_bind_apply] at hrest
      obtain ⟨hslots, htable, hstack⟩ := ih hrest
      refine ⟨?_, htable, hstack⟩
      rw [hslots, mapCap_slots]
      rfl

theorem onStack_of_ok {α : Type} {m : Act WorkerStack Obs Stop α} {a : α}
    (h : onStack m p = ⟨.ok a, p', o⟩) :
    ∃ st, m p.stack = ⟨.ok a, st, o⟩ ∧ p' = { p with stack := st } := by
  cases hm : m p.stack with
  | mk res st o' =>
      rw [onStack, hm] at h
      cases h
      exact ⟨st, rfl, rfl⟩

/-- What starting the process leaves behind. -/
structure Started (L : Loader) (r : Remote) (p p' : NewProcess) : Prop where
  strings : ∃ st o, initProg r p.stack = (⟨.ok (), st, o⟩ : Out WorkerStack Obs Stop Unit) ∧
    p'.stack.mem = st.mem ∧ p'.stack.range = st.range
  table : p'.table =
    ((slotted L p.initialCapabilities L.first).map InitialCap.entry).reverse ++ p.table
  slots : p'.slots =
    NameTable.store InitialCap.mapped (slotted L p.initialCapabilities L.first) p.slots

theorem startProcess_started (hrun : startProcess L r mapErr p = ⟨.ok (), p', o⟩) :
    Started L r p p' := by
  rw [startProcess] at hrun
  obtain ⟨_, p₁, o₁, o₂, hinit, hrest, -⟩ := Act.ok_of_bind hrun
  rw [Act.get_bind_apply] at hrest
  obtain ⟨s, p₂, o₃, o₄, hpush, hmap, -⟩ := Act.ok_of_bind hrest
  obtain ⟨hslots, htable, hstack⟩ := mapInitialCaps_of_ok hmap
  obtain ⟨st, hst, rfl⟩ := onStack_of_ok hinit
  have htab := pushInitialCaps_tabled hpush
  refine ⟨⟨st, o₁, hst, ?_, ?_⟩, ?_, ?_⟩
  · rw [hstack]
    exact htab.mem
  · rw [hstack]
    exact htab.range
  · rw [htable]
    exact htab.table
  · rw [hslots, htab.slots]

/-- **Lookups.**  In the process, a name stands for the capability of that name that is last in
the list. -/
theorem Started.lookup (h : Started L r p p') (htable : p.table = []) (name : CString) :
    match last? InitialCap.name p.initialCapabilities name with
    | none => p'.getCap name = none
    | some c => ∃ e, p'.getCap name = some e ∧ p'.Holds e c := by
  have hget : p'.getCap name =
      (last? (fun x : InitialCap × Slot => x.1.name) (slotted L p.initialCapabilities L.first)
        name).map InitialCap.entry := by
    rw [NewProcess.getCap, h.table, htable, List.append_nil]
    exact NameTable.last?_map InitialCap.entry _ name
  have hlist : last? InitialCap.name p.initialCapabilities name =
      (last? (fun x : InitialCap × Slot => x.1.name) (slotted L p.initialCapabilities L.first)
        name).map Prod.fst := by
    rw [← NameTable.last?_map, slotted_fst]
  cases hx : last? (fun x : InitialCap × Slot => x.1.name)
      (slotted L p.initialCapabilities L.first) name with
  | none =>
      rw [hx] at hget hlist
      rw [hlist]
      exact hget
  | some x =>
      rw [hx] at hget hlist
      rw [hlist]
      refine ⟨InitialCap.entry x, hget, rfl, fun cap hcap => ?_⟩
      have hvalue : x.1.mapped = some (cap, x.1.rights &&& 0xf) := by
        rw [InitialCap.mapped, hcap]
        rfl
      rw [h.slots]
      exact NameTable.store_of_last (slotted_apart L _) hx hvalue

theorem logM_of_ok {σ : Type} {sev : Severity} {msg : Bytes} {args : List Bytes} {s s' : σ}
    (h : logM P sev msg args s = ⟨.ok (), s', o⟩) : s' = s := by
  cases hlog : log .silenceByEnv P.logLevel sev msg args with
  | error e =>
      rw [logM, hlog] at h
      cases h
  | ok out =>
      rw [logM, hlog] at h
      cases out with
      | none =>
          cases h
          rfl
      | some t =>
          cases h
          rfl

/-- An addition that returned: the name is too long and nothing happened, or it is in the list. -/
theorem addInitialCapability_of_ok {c : InitialCap}
    (h : addInitialCapability P L c p = ⟨.ok (), p', o⟩) :
    p' = { p with initialCapabilities := p.initialCapabilities ++ [c].filter L.accepts } := by
  rw [addInitialCapability] at h
  cases hv : L.isValidName c.name with
  | false =>
      have hacc : ¬L.accepts c = true := fun h => Bool.false_ne_true (hv.symm.trans h)
      rw [hv, if_pos rfl] at h
      rw [logM_of_ok h, List.filter_cons_of_neg hacc, List.filter_nil, List.append_nil]
  | true =>
      have hacc : L.accepts c = true := hv
      rw [hv, if_neg (by decide)] at h
      cases h
      rw [List.filter_cons_of_pos hacc, List.filter_nil]

theorem addInitialCapabilities_of_ok {cs : List InitialCap} : ∀ {p : NewProcess} {o : List Obs},
    addInitialCapabilities P L cs p = ⟨.ok (), p', o⟩ →
      p' = { p with initialCapabilities := p.initialCapabilities ++ cs.filter L.accepts } := by
  induction cs with
  | nil =>
      intro p o hrun
      cases hrun
      rw [List.filter_nil, List.append_nil]
  | cons c cs ih =>
      intro p o hrun
      obtain ⟨_, p₁, o₁, o₂, hadd, hrest, -⟩ := Act.ok_of_bind hrun
      have hfilter : (c :: cs).filter L.accepts = [c].filter L.accepts ++ cs.filter L.accepts :=
        List.filter_append [c] cs
      rw [ih hrest, addInitialCapability_of_ok hadd, hfilter, ← List.append_assoc]

end

/-- The initial capabilities of a new process by name: what was added last under a name is what
the name stands for, with the rights and flags given there; what was added under a name that is
too long is not there. -/
theorem initial_caps_found (P : Platform) (L : Loader) (r : Remote)
    (mapErr : InitialCap → Slot → Int) {adds : List InitialCap} {p p' : NewProcess} {o : List Obs}
    (hnew : p.initialCapabilities = []) (htable : p.table = [])
    (hrun : (addInitialCapabilities P L adds >>= fun _ => startProcess L r mapErr) p =
      ⟨.ok (), p', o⟩) (name : CString) :
    match last? InitialCap.name (adds.filter L.accepts) name with
    | none => p'.getCap name = none
    | some c => ∃ e, p'.getCap name = some e ∧ p'.Holds e c := by
  obtain ⟨_, p₁, o₁, o₂, hadd, hstart, -⟩ := Act.ok_of_bind hrun
  obtain rfl := addInitialCapabilities_of_ok hadd
  have hlookup := (startProcess_started hstart).lookup htable name
  rwa [hnew, List.nil_append] at hlookup

/-- A loader that takes names of up to 16 bytes and gives one slot after the other. -/
def nextSlots (_ : CString) (start : Slot) : Slot × Slot := (start, start + 1)

theorem le_of_mem_assignSlots (names : List CString) :
    ∀ start, ∀ x ∈ assignSlots nextSlots names start, start ≤ x.2 := by
  induction names with
  | nil =>
      intro start x hx
      cases hx
  | cons name names ih =>
      intro start x hx
      rcases List.mem_cons.mp hx with rfl | hx
      · exact le_rfl
      · exact (Nat.le_succ start).trans (ih _ x hx)

theorem assignSlots_nextSlots_apart (names : List CString) :
    ∀ start, NameTable.Apart id (assignSlots nextSlots names start) := by
  induction names with
  | nil => exact fun _ => List.Pairwise.nil
  | cons name names ih =>
      intro start
      refine List.Pairwise.cons (fun x hx _ => ?_) (ih _)
      exact ne_of_lt (le_of_mem_assignSlots names _ x hx)

def loader₀ : Loader where
  isValidName name := name.length ≤ 16
  entrySize := 32
  first := 64
  getInitialCap := nextSlots
  apart names := assignSlots_nextSlots_apart names 64

/-- Two capabilities under one name, and one under a name that is too long. -/
def addedTwice : List InitialCap :=
  [⟨some 1, nameRom, l4CapFpageRW, 0⟩, ⟨some 2, nameFunction, 0xff, 0⟩,
    ⟨some 3, nameRom, 0xff, 1⟩, ⟨some 4, ⟨lit "a_name_with_20_bytes", by decide⟩, 0, 0⟩]

theorem initial_caps_found_twice :
    ∃ (p : NewProcess) (e : CapEntry), p.getCap nameRom = some e ∧ p.slots e.cap = some (3, 0xf) := by
  have hrun : (addInitialCapabilities platform₀ loader₀ addedTwice >>= fun _ =>
      startProcess loader₀ onePage fun _ _ => 0) (NewProcess.fresh (fun _ => 0) 0x2000) =
        ⟨.ok (), _, _⟩ := rfl
  have hfound := initial_caps_found platform₀ loader₀ onePage (fun _ _ => 0) rfl rfl hrun nameRom
  have hlast : last? InitialCap.name (addedTwice.filter loader₀.accepts) nameRom =
      some ⟨some 3, nameRom, 0xff, 1⟩ := by decide
  rw [hlast] at hfound
  obtain ⟨e, he, -, hslot⟩ := hfound
  exact ⟨_, e, he, hslot 3 rfl⟩

/-! ## A worker -/

/-- The environment an invocation gives its worker. -/
def workerEnviron : List Bytes := [lit "PKGNAME=Worker    ", lit "LOG_LEVEL=31"]

/-- The initial capabilities of a worker. -/
def workerCaps (rom : Option Slot) (action : Action) : List InitialCap :=
  ⟨rom, nameRom, l4CapFpageRW, 0⟩ ::
    if action.lang ≠ binary then [⟨action.ds, nameFunction, l4CapFpageRW, 0⟩] else []

theorem Layout.readStrings {m : ByteMem} {range : StringRange} {l : List Bytes}
    (h : Layout m range l) (l' : List Bytes) : ReadStrings m range l' ↔ l' = l := by
  rw [ReadStrings]
  by_cases hl : l = []
  · rw [if_pos (h.a0_eq_zero.mpr hl), hl]
  · rw [if_neg fun h0 => hl (h.a0_eq_zero.mp h0), h.walk hl, List.reverse_inj]

section
variable {P : Platform} {L : Loader} {r : Remote} {mapErr : InitialCap → Slot → Int}
  {rom : Option Slot} {action : Action} {arg : CString} {p p' : NewProcess} {o : List Obs}
  (hrom : L.isValidName nameRom = true) (hfunction : L.isValidName nameFunction = true)
include hrom hfunction

theorem setUpWorker_of_ok (hrun : setUpWorker P L rom action arg p = ⟨.ok (), p', o⟩) :
    p' = { p with
      stack := (p.stack.setArgvStrings [arg.bytes]).setEnvpStrings workerEnviron
      initialCapabilities := p.initialCapabilities ++ workerCaps rom action } := by
  rw [setUpWorker, Act.modify_bind_apply, Act.modify_bind_apply] at hrun
  obtain ⟨_, p₁, o₁, o₂, hadd, hrest, -⟩ := Act.ok_of_bind hrun
  have hp₁ := addInitialCapability_of_ok hadd
  have hacc : L.accepts ⟨rom, nameRom, l4CapFpageRW, 0⟩ = true := hrom
  rw [List.filter_cons_of_pos hacc, List.filter_nil] at hp₁
  subst hp₁
  by_cases hlang : action.lang ≠ binary
  · have hacc' : L.accepts ⟨action.ds, nameFunction, l4CapFpageRW, 0⟩ = true := hfunction
    rw [if_pos hlang] at hrest
    have hp' := addInitialCapability_of_ok hrest
    rw [List.filter_cons_of_pos hacc', List.filter_nil] at hp'
    rw [hp', workerCaps, if_pos hlang, List.append_assoc]
    rfl
  · rw [if_neg hlang] at hrest
    cases hrest
    rw [workerCaps, if_neg hlang]
    rfl

omit hrom hfunction in
theorem lookup_workerCaps (hstart : Started L r p p')
    (hcaps : p.initialCapabilities = workerCaps rom action) (htable : p.table = []) :
    (∃ e, p'.getCap nameRom = some e ∧ p'.Holds e ⟨rom, nameRom, l4CapFpageRW, 0⟩) ∧
    (action.lang = binary → p'.getCap nameFunction = none) ∧
    (action.lang ≠ binary → ∃ e, p'.getCap nameFunction = some e ∧
      p'.Holds e ⟨action.ds, nameFunction, l4CapFpageRW, 0⟩) := by
  have hne : nameRom ≠ nameFunction := by decide
  have hroms := hstart.lookup htable nameRom
  have hfunctions := hstart.lookup htable nameFunction
  rw [hcaps, workerCaps] at hroms hfunctions
  by_cases hlang : action.lang = binary
  · rw [if_neg (not_not_intro hlang), ← List.nil_append [_], NameTable.last?_append_singleton]
      at hroms hfunctions
    rw [if_pos rfl] at hroms
    rw [if_neg hne] at hfunctions
    exact ⟨hroms, fun _ => hfunctions, fun h => absurd hlang h⟩
  · rw [if_pos hlang, ← List.singleton_append, NameTable.last?_append_singleton]
      at hroms hfunctions
    rw [if_neg hne.symm, ← List.nil_append [_], NameTable.last?_append_singleton, if_pos rfl]
      at hroms
    rw [if_pos rfl] at hfunctions
    exact ⟨hroms, fun h => absurd h hlang, fun _ => hfunctions⟩

/-- The lists of a worker and its table. -/
theorem worker_started
    (hrun : (setUpWorker P L rom action arg >>= fun _ => startProcess L r mapErr) p =
      ⟨.ok (), p', o⟩) (h0 : ∀ which, (p.stack.range which).a0 = 0) (htable : p.table = [])
    (hcaps : p.initialCapabilities = []) :
    Layout p'.stack.mem (p'.stack.range .argv) [arg.bytes] ∧
    Layout p'.stack.mem (p'.stack.range .envp) workerEnviron ∧
    (∃ e, p'.getCap nameRom = some e ∧ p'.Holds e ⟨rom, nameRom, l4CapFpageRW, 0⟩) ∧
    (action.lang = binary → p'.getCap nameFunction = none) ∧
    (action.lang ≠ binary → ∃ e, p'.getCap nameFunction = some e ∧
      p'.Holds e ⟨action.ds, nameFunction, l4CapFpageRW, 0⟩) := by
  obtain ⟨_, p₁, o₁, o₂, hsetUp, hstart, -⟩ := Act.ok_of_bind hrun
  obtain rfl := setUpWorker_of_ok hrom hfunction hsetUp
  have hstarted := startProcess_started hstart
  obtain ⟨st, o₃, hinit, hmem, hrange⟩ := hstarted.strings
  have hargv : ∀ s ∈ [arg.bytes], (0 : UInt8) ∉ s := by
    intro s hs
    obtain rfl := List.mem_singleton.mp hs
    exact arg.nulFree
  have henvp : ∀ s ∈ workerEnviron, (0 : UInt8) ∉ s := by decide
  obtain ⟨ha, he, -⟩ := initProg_layout hargv henvp h0 hinit
  rw [← hmem, ← hrange] at ha he
  refine ⟨ha, he, lookup_workerCaps hstarted ?_ htable⟩
  show p.initialCapabilities ++ workerCaps rom action = _
  rw [hcaps, List.nil_append]

end

theorem getLevel_workerEnviron : getLevel workerEnviron = 31 := by decide

/-- What every worker that was started finds.  It reads the argument of the invocation, all of
it, as its only argument, and an environment that silences no message; `rom` is what the manager
has under this name, and `function` is there for the languages that need it, as the dataspace of
the action, and for no other.  So both runtimes run their function on that argument: the Python
one never misses its capability, and none is started with a wrong number of arguments. -/
theorem worker_startup (P : Platform) (L : Loader) (r : Remote) (mapErr : InitialCap → Slot → Int)
    (hrom : L.isValidName nameRom = true) (hfunction : L.isValidName nameFunction = true)
    {rom : Option Slot} {action : Action} {arg : CString} {mem : ByteMem} {sp : ℕ}
    {p : NewProcess} {o : List Obs}
    (hrun : (setUpWorker P L rom action arg >>= fun _ => startProcess L r mapErr)
      (NewProcess.fresh mem sp) = ⟨.ok (), p, o⟩) :
    (∀ argv, ReadStrings p.stack.mem (p.stack.range .argv) argv ↔ argv = [arg.bytes]) ∧
    (∀ environ, ReadStrings p.stack.mem (p.stack.range .envp) environ ↔ environ = workerEnviron) ∧
    (∃ e, p.getCap nameRom = some e ∧ p.Holds e ⟨rom, nameRom, l4CapFpageRW, 0⟩) ∧
    (action.lang = binary → p.getCap nameFunction = none) ∧
    (action.lang ≠ binary → ∃ e, p.getCap nameFunction = some e ∧
      p.Holds e ⟨action.ds, nameFunction, l4CapFpageRW, 0⟩) ∧
    ∀ argv environ, ReadStrings p.stack.mem (p.stack.range .argv) argv →
      ReadStrings p.stack.mem (p.stack.range .envp) environ →
      (∀ sev, Silencer.silenceByEnv.silence (getLevel environ) sev = false) ∧
      ∀ (rt : Runtime) (f : UserFunction) (env : ProcEnv),
        processMessages env.abort (rt.main P (p.procEnv environ env) f (argv.map CString.ofBytes)) =
          rt.messages P { env with
            logLevel := 31
            python := { env.python with functionCap := decide (action.lang ≠ binary) } } f arg := by
  obtain ⟨hargv, henvp, hroms, hbinary, hother⟩ :=
    worker_started hrom hfunction hrun (fun _ => rfl) rfl rfl
  refine ⟨hargv.readStrings, henvp.readStrings, hroms, hbinary, hother, ?_⟩
  intro argv environ hread hread'
  obtain rfl := (hargv.readStrings _).mp hread
  obtain rfl := (henvp.readStrings _).mp hread'
  refine ⟨?_, fun rt f env => ?_⟩
  · intro sev
    rw [getLevel_workerEnviron]
    cases sev <;> rfl
  · have harg : [arg.bytes].map CString.ofBytes = [arg] := by
      rw [List.map_singleton]
      exact congrArg (fun c => [c]) (CString.ext (CString.ofBytes_eq_iff.mpr arg.nulFree))
    have hcap : (p.getCap nameFunction).isSome = decide (action.lang ≠ binary) := by
      by_cases hlang : action.lang = binary
      · rw [hbinary hlang, decide_eq_false (not_not_intro hlang)]
        rfl
      · obtain ⟨e, he, -⟩ := hother hlang
        rw [he, decide_eq_true hlang]
        rfl
    rw [harg, NewProcess.procEnv, getLevel_workerEnviron, hcap]
    rfl

/-- A Python action with one argument. -/
theorem worker_startup_python : ∃ p : NewProcess,
    ReadStrings p.stack.mem (p.stack.range .argv) [nameG.bytes] ∧
    ∃ e, p.getCap nameFunction = some e ∧ p.slots e.cap = some (1, l4CapFpageRW) := by
  have hrun : (setUpWorker platform₀ loader₀ (some 9) { ds := some 1, lang := python } nameG >>=
      fun _ => startProcess loader₀ onePage fun _ _ => 0) (NewProcess.fresh (fun _ => 0) 0x2000) =
        ⟨.ok (), _, _⟩ := rfl
  obtain ⟨hargv, -, -, -, hfunction, -⟩ :=
    worker_startup platform₀ loader₀ onePage (fun _ _ => 0) (by decide) (by decide) hrun
  obtain ⟨e, he, -, hslot⟩ := hfunction (by decide)
  exact ⟨_, (hargv _).mpr rfl, e, he, hslot 1 rfl⟩

end MettEagle
