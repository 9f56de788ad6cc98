/-
# `MettEagle.CpuAccounts` — the CPUs of all clients, while their threads come and go

Here the registry thread takes the calls of one `op_register_client` after the other, the
threads of any number of clients run through their deletion IRQs (`DeletionIrq`), and
all of them share `available_cpus`:

    noCpu       a registration finds no CPU
    selected    a registration gets one, and is in progress from here on
    client      a step of one client's machine: its registration goes on or fails, a gate
                is deleted, its thread is in `handle_irq`

A registration that throws keeps its CPU, and a client has its own until
`free_client_cpu` puts it back (`Holds`).  Seen by itself, every client is the machine of
`DeletionIrq` (`component`); every CPU is available or has one owner (`Owned`).

Each call of `select_client_cpu` and of `free_client_cpu` is one step; what happens when
two of them overlap is `MettEagle.CpuRace`.  What throws before `register_obj` throws at
its stage.
-/
import MettEagle.Lib.Owners
import MettEagle.Register
import MettEagle.DeletionIrq

namespace MettEagle.DeletionIrq

/-! ## The registry and its clients -/

/-- The registry thread, `available_cpus`, and the clients with their threads. -/
structure Clients (K W : Type*) where
  available : Word
  /-- whose registration is in progress -/
  registering : Option K := none
  /-- what `select_client_cpu` returned for the client -/
  bitmap : K → Option Word := fun _ => none
  thread : K → Client W := fun _ => {}

inductive ClientsEvent (K W : Type*) where
  | noCpu
  | selected (k : K) (bitmap : Word)
  | client (k : K) (e : Event W)

variable {K W : Type*}

/-- `available_cpus`, for a call. -/
def Clients.cpus (s : Clients K W) : Cpus := { available := s.available }

/-- Done by the registry thread, inside `op_register_client`. -/
def Event.byRegistry : Event W → Bool
  | .registered _ | .refused => true
  | _ => false

/-- What an event calls on `available_cpus`. -/
def Event.onCpus : Event W → Act Cpus Obs Stop Unit
  | .freedClientCpu bitmap => freeClientCpu bitmap
  | _ => pure ()

/-- Whose registration is in progress after an event of `k` that leads to `stage`. -/
def Event.registering (k : K) (stage : Stage) (before : Option K) : Event W → Option K
  | .registered _ => if stage = .returned then none else some k
  | .refused => none
  | _ => before

variable [DecidableEq K]

/-- An event of the client `k`, whose machine goes to `c`. -/
def Clients.after (s : Clients K W) (k : K) (e : Event W) (c : Client W) : Clients K W :=
  { available := (e.onCpus s.cpus).st.available
    registering := e.registering k c.stage s.registering
    bitmap := s.bitmap
    thread := Function.update s.thread k c }

/-- A registration of the client `k` that has got a CPU. -/
def Clients.select (s : Clients K W) (k : K) (bitmap : Word) (cpus : Cpus) : Clients K W :=
  { s with
    available := cpus.available
    registering := some k
    bitmap := Function.update s.bitmap k (some bitmap) }

/-- One step of the registry, a client, a worker or the thread of a client. -/
inductive ClientsStep [DecidableEq W] : Clients K W → ClientsEvent K W → Clients K W → Prop
  | noCpu {s : Clients K W} {e : Stop} {cpus : Cpus} {o : List Obs} : s.registering = none →
      selectClientCpu s.cpus = ⟨.error e, cpus, o⟩ →
      ClientsStep s .noCpu { s with available := cpus.available }
  | select {s : Clients K W} {k : K} {m : Word} {cpus : Cpus} {o : List Obs} :
      s.registering = none → s.bitmap k = none → selectClientCpu s.cpus = ⟨.ok m, cpus, o⟩ →
      ClientsStep s (.selected k m) (s.select k m cpus)
  | client {s : Clients K W} {k : K} {m : Word} {e : Event W} {c : Client W} :
      s.bitmap k = some m → (e.byRegistry = true → s.registering = some k) →
      Step m (s.thread k) e c → ClientsStep s (.client k e) (s.after k e c)

variable {ls : List (ClientsEvent K W)} {l : ClientsEvent K W} {s s' : Clients K W} {k k' : K}
  {m : Word} {e : Event W} {c : Client W}

@[simp] theorem thread_after : (s.after k e c).thread k = c := Function.update_self ..

theorem thread_after_of_ne (h : k' ≠ k) : (s.after k e c).thread k' = s.thread k' :=
  Function.update_of_ne h ..

@[simp] theorem bitmap_select {cpus : Cpus} : (s.select k m cpus).bitmap k = some m :=
  Function.update_self ..

theorem bitmap_select_of_ne {cpus : Cpus} (h : k' ≠ k) :
    (s.select k m cpus).bitmap k' = s.bitmap k' := Function.update_of_ne h ..

/-! ## The owner of a CPU -/

/-- The handler is behind `free_client_cpu`. -/
def Pc.freed : Pc → Bool
  | .deleteThis | .pthreadExit | .exited => true
  | _ => false

theorem Pc.late_of_freed {pc : Pc} (h : pc.freed = true) : pc.late = true := by
  cases pc with
  | out => cases h
  | test => cases h
  | _ => rfl

omit [DecidableEq K] in
/-- The client got this CPU and has not given it back. -/
def Clients.Holds (s : Clients K W) (k : K) (i : ℕ) : Prop :=
  ∃ m, s.bitmap k = some m ∧ i ∈ bits m ∧ (s.thread k).pc.freed = false

omit [DecidableEq K] in
/-- Every CPU of `mask` is available or held by one client, who got it alone. -/
structure Owned (mask : Word) (s : Clients K W) : Prop where
  owners : Owners (bits mask) (bits s.available) s.Holds
  single : ∀ {k m}, s.bitmap k = some m → ∃ i ∈ bits mask, bits m = {i}

variable {mask : Word} {cpus : Cpus} {o : List Obs} {i : ℕ}

omit [DecidableEq K] in
theorem Owned.start (mask : Word) : Owned mask ({ available := mask } : Clients K W) where
  owners := .start fun _ _ ⟨_, hnone, _⟩ => by cases hnone
  single := nofun

omit [DecidableEq K] in
/-- What `select_client_cpu` returns is one available CPU, which it takes out. -/
theorem selected_cases (h : selectClientCpu s.cpus = ⟨.ok m, cpus, o⟩) :
    ∃ i ∈ bits s.available, bits m = {i} ∧ bits cpus.available = bits s.available \ {i} := by
  rw [selectClientCpu_apply] at h
  split at h
  · cases h
  · rename_i hne
    cases h
    obtain ⟨i, hlow, hi, -⟩ := lowestCpu_spec hne
    have hm : bits (lowestCpu s.cpus.available) = {i} := by
      rw [hlow, bits_oneAt (lt_of_mem_bits hi)]
    exact ⟨i, hi, hm, by rw [bits_and_not, hm]; rfl⟩

omit [DecidableEq K] in
/-- A registration finds no CPU exactly if all are given away. -/
theorem Owned.full (h : Owned mask s) :
    (∃ e, (selectClientCpu s.cpus).res = .error e) ↔ ∀ i ∈ bits mask, ∃ k, s.Holds k i := by
  rw [← h.owners.none_free, bits_eq_empty, selectClientCpu_apply]
  by_cases havail : s.cpus.available = 0
  · rw [if_pos havail]
    exact iff_of_true ⟨_, rfl⟩ havail
  · rw [if_neg havail]
    exact iff_of_false nofun havail

theorem holds_after_of_ne (h : k' ≠ k) : (s.after k e c).Holds k' i ↔ s.Holds k' i := by
  rw [Clients.Holds, Clients.Holds, thread_after_of_ne h]
  rfl

/-- The CPU goes to the new client. -/
theorem Owned.select (h : Owned mask s) (hnone : s.bitmap k = none) (hthread : s.thread k = {})
    (hsel : selectClientCpu s.cpus = ⟨.ok m, cpus, o⟩) : Owned mask (s.select k m cpus) := by
  obtain ⟨i, hi, hm, hcpus⟩ := selected_cases hsel
  refine ⟨h.owners.take hi (k := k) (fun j => ?_) (fun k' j => ?_), ?_⟩
  · show j ∈ bits cpus.available ↔ _
    rw [hcpus, Finset.mem_sdiff, Finset.mem_singleton]
  · by_cases hk : k' = k
    · subst hk
      -- the client had nothing before
      have hnot : ¬s.Holds k' j := fun ⟨_, hk, _⟩ => by
        rw [hnone] at hk
        cases hk
      rw [or_iff_right hnot, Clients.Holds]
      constructor
      · rintro ⟨m', hm', hj, -⟩
        cases bitmap_select.symm.trans hm'
        rw [hm, Finset.mem_singleton] at hj
        exact ⟨rfl, hj⟩
      · rintro ⟨-, rfl⟩
        refine ⟨m, bitmap_select, ?_, ?_⟩
        · rw [hm]
          exact Finset.mem_singleton_self j
        · show (s.thread k').pc.freed = false
          rw [hthread]
          rfl
    · rw [or_iff_left fun heq => hk heq.1, Clients.Holds, Clients.Holds, bitmap_select_of_ne hk]
      rfl
  · intro k' m' hm'
    by_cases hk : k' = k
    · subst hk
      cases bitmap_select.symm.trans hm'
      exact ⟨i, h.owners.within hi, hm⟩
    · rw [bitmap_select_of_ne hk] at hm'
      exact h.single hm'

/-- Nobody's CPU changes hands. -/
theorem Owned.keep (h : Owned mask s) (he : e.onCpus = pure ())
    (hfreed : c.pc.freed = (s.thread k).pc.freed) : Owned mask (s.after k e c) := by
  have hcpus : (s.after k e c).available = s.available := by
    show (e.onCpus s.cpus).st.available = s.available
    rw [he]
    rfl
  refine ⟨?_, h.single⟩
  rw [hcpus]
  refine h.owners.congr fun k' i => ?_
  by_cases hk : k' = k
  · subst hk
    rw [Clients.Holds, Clients.Holds, thread_after, hfreed]
    rfl
  · exact holds_after_of_ne hk

/-- A client gives its CPU back. -/
theorem Owned.free (h : Owned mask s) (hbitmap : s.bitmap k = some m)
    (hbefore : (s.thread k).pc.freed = false) (hafter : c.pc.freed = true) :
    Owned mask (s.after k (.freedClientCpu m) c) := by
  obtain ⟨i, hmask, hm⟩ := h.single hbitmap
  have hcpus : bits (s.after k (.freedClientCpu m) c).available = bits s.available ∪ {i} := by
    rw [← hm, ← bits_or]
    rfl
  have hi : s.Holds k i := ⟨m, hbitmap, by rw [hm]; exact Finset.mem_singleton_self i, hbefore⟩
  refine ⟨h.owners.giveBack hi (fun j => ?_) (fun k' j => ?_), h.single⟩
  · rw [hcpus, Finset.mem_union, Finset.mem_singleton]
  · by_cases hk : k' = k
    · subst hk
      refine iff_of_false ?_ ?_
      · rintro ⟨_, _, _, hnot⟩
        rw [thread_after, hafter] at hnot
        cases hnot
      · rintro ⟨⟨m', hm', hj, -⟩, hne⟩
        cases hbitmap.symm.trans hm'
        rw [hm, Finset.mem_singleton] at hj
        exact hne hj
    · rw [holds_after_of_ne hk]
      refine (and_iff_left_of_imp fun hj heq => hk ?_).symm
      rw [heq] at hj
      exact h.owners.unique hj hi

/-! ## One client among the others -/

/-- What happened to the client `k`. -/
def ClientsEvent.of (k : K) : ClientsEvent K W → Option (Event W)
  | .client k' e => if k' = k then some e else none
  | _ => none

def eventsOf (k : K) (ls : List (ClientsEvent K W)) : List (Event W) :=
  ls.filterMap (ClientsEvent.of k)

theorem eventsOf_snoc (k : K) (ls : List (ClientsEvent K W)) (l : ClientsEvent K W) :
    eventsOf k (ls ++ [l]) = eventsOf k ls ++ (ClientsEvent.of k l).toList := by
  rw [eventsOf, List.filterMap_append]
  cases h : ClientsEvent.of k l with
  | none => simp [eventsOf, h]
  | some e => simp [eventsOf, h]

variable [DecidableEq W]

/-- A client that never got a CPU has done nothing; one that did runs the machine of
`DeletionIrq` with its bitmap. -/
structure Component (k : K) (ls : List (ClientsEvent K W)) (s : Clients K W) : Prop where
  idle : s.bitmap k = none → eventsOf k ls = [] ∧ s.thread k = {}
  run : ∀ {m}, s.bitmap k = some m → Run (Step m) {} (eventsOf k ls) (s.thread k)

/-- An event of somebody else. -/
theorem Component.keep (h : Component k ls s) (hl : ClientsEvent.of k l = none)
    (hbitmap : s'.bitmap k = s.bitmap k) (hthread : s'.thread k = s.thread k) :
    Component k (ls ++ [l]) s' := by
  have hevents : eventsOf k (ls ++ [l]) = eventsOf k ls := by
    rw [eventsOf_snoc, hl]
    exact List.append_nil _
  constructor
  · rw [hevents, hbitmap, hthread]
    exact h.idle
  · intro m
    rw [hevents, hbitmap, hthread]
    exact h.run

/-- **Step.** -/
theorem Component.step (h : Component k ls s) (hstep : ClientsStep s l s') :
    Component k (ls ++ [l]) s' := by
  cases hstep with
  | noCpu _ _ => exact h.keep rfl rfl rfl
  | @select k₁ m₁ _ _ _ hnone _ =>
      by_cases hk : k₁ = k
      · subst hk
        obtain ⟨hevents, hthread⟩ := h.idle hnone
        have hnil : eventsOf k₁ (ls ++ [.selected k₁ m₁]) = [] := by
          rw [eventsOf_snoc, hevents]
          rfl
        constructor
        · intro hnot
          rw [bitmap_select] at hnot
          cases hnot
        · intro m _
          rw [hnil]
          show Run (Step m) {} [] (s.thread k₁)
          rw [hthread]
          exact .nil
      · exact h.keep rfl (bitmap_select_of_ne (Ne.symm hk)) rfl
  | @client k₁ m₁ e c hbitmap _ hexec =>
      by_cases hk : k₁ = k
      · subst hk
        constructor
        · intro hnot
          rw [show s.bitmap k₁ = none from hnot] at hbitmap
          cases hbitmap
        · intro m hm
          cases hbitmap.symm.trans hm
          rw [eventsOf_snoc, ClientsEvent.of, if_pos rfl, thread_after]
          exact (h.run hbitmap).snoc hexec
      · exact h.keep (if_neg hk) rfl (thread_after_of_ne (Ne.symm hk))

/-- **Runs.**  Every client by itself is a run of its machine. -/
theorem component {mask : Word} (hrun : Run ClientsStep { available := mask } ls s) (k : K) :
    Component k ls s :=
  hrun.inv (I := fun ls s => Component k ls s) ⟨fun _ => ⟨rfl, rfl⟩, nofun⟩
    fun h hstep => h.step hstep

/-! ## Every CPU has one owner -/

variable {es : List (Event W)} {c' : Client W}

omit [DecidableEq W] in
/-- A step of the handler is none of the registry's; it puts the bitmap back or calls nothing on
`available_cpus`. -/
theorem handleIrq_event {g : Gate} {pc pc' : Pc} (h : handleIrq m g pc = some (e, pc')) :
    e.byRegistry = false ∧
      ((e = .freedClientCpu m ∧ pc.freed = false ∧ pc'.freed = true) ∨
        (e.onCpus = pure () ∧ pc'.freed = pc.freed)) := by
  cases pc with
  | out => cases h
  | exited => cases h
  | test =>
      simp only [handleIrq] at h
      split at h
      · cases h
        exact ⟨rfl, Or.inr ⟨rfl, rfl⟩⟩
      · cases h
        exact ⟨rfl, Or.inr ⟨rfl, rfl⟩⟩
  | freeClientCpu =>
      cases h
      exact ⟨rfl, Or.inl ⟨rfl, rfl, rfl⟩⟩
  | _ =>
      cases h
      exact ⟨rfl, Or.inr ⟨rfl, rfl⟩⟩

/-- So does a step of the client. -/
theorem Step.freed (h : Step m c e c') :
    (e = .freedClientCpu m ∧ c.pc.freed = false ∧ c'.pc.freed = true) ∨
      (e.onCpus = pure () ∧ c'.pc.freed = c.pc.freed) := by
  cases h with
  | exec hexec => exact (handleIrq_event hexec).2
  | handles _ hout _ =>
      rw [hout]
      exact Or.inr ⟨rfl, rfl⟩
  | _ => exact Or.inr ⟨rfl, rfl⟩

/-- **Step.** -/
theorem Owned.step (h : Owned mask s) (hcomp : ∀ k, Component k ls s)
    (hstep : ClientsStep s l s') : Owned mask s' := by
  cases hstep with
  | noCpu _ hsel =>
      rw [selectClientCpu_apply] at hsel
      split at hsel
      · cases hsel
        exact h
      · cases hsel
  | select _ hnone hsel => exact h.select hnone ((hcomp _).idle hnone).2 hsel
  | client hbitmap _ hexec =>
      rcases hexec.freed with ⟨rfl, hbefore, hafter⟩ | ⟨he, hfreed⟩
      · exact h.free hbitmap hbefore hafter
      · exact h.keep he hfreed

/-- **Runs.** -/
theorem owned (hrun : Run ClientsStep { available := mask } ls s) : Owned mask s :=
  have hboth := hrun.inv (I := fun ls s => (∀ k, Component k ls s) ∧ Owned mask s)
    ⟨component .nil, Owned.start mask⟩
    fun ⟨hcomp, h⟩ hstep => ⟨fun k => (hcomp k).step hstep, h.step hcomp hstep⟩
  hboth.2

/-! ## What is known of one client -/

theorem Inv.run (hrun : Run (Step m) {} es c) : Inv m es c :=
  hrun.inv (I := fun es c => Inv m es c) ⟨rfl, nofun, iff_of_true rfl rfl, fun _ => rfl⟩
    fun h hstep => h.step hstep

/-- Somebody looks after a gate that is gone. -/
theorem noticed (hrun : Run (Step m) {} es c) (hgone : c.gate = .gone) :
    c.pending = true ∨ c.pc = .test ∨ c.pc.late = true :=
  latch.run (fun h => by cases h) hrun hgone

/-- A registration that has thrown goes no further. -/
theorem throws_of_refused (hrun : Run (Step m) {} es c) :
    c.refused = true → c.stage.throws = true :=
  hrun.inv (I := fun _ c => c.refused = true → c.stage.throws = true) nofun fun h hstep => by
    cases hstep with
    | register hok _ =>
        intro hrefused
        cases hok.symm.trans hrefused
    | refuse hthrows => exact fun _ => hthrows
    | _ => exact h

omit [DecidableEq W] in
theorem Stage.not_running_of_throws {stage : Stage} (h : stage.throws = true) :
    stage.running = false := by
  cases stage with
  | registerDelIrq => cases h
  | handOut => cases h
  | returned => cases h
  | _ => rfl

omit [DecidableEq W] in
/-- The cleanup has put the bitmap back exactly if the handler is behind `free_client_cpu`. -/
theorem Inv.mem_iff (h : Inv m es c) : .freedClientCpu m ∈ es ↔ c.pc.freed = true := by
  have hmem : .freedClientCpu m ∈ es ↔ .freedClientCpu m ∈ cleanups es := by
    rw [cleanups, List.mem_filter]
    exact ⟨fun hes => ⟨hes, rfl⟩, And.left⟩
  rw [hmem, h.done]
  cases c.pc with
  | deleteThis => simp [Pc.done, Pc.freed, cleanup]
  | pthreadExit => simp [Pc.done, Pc.freed, cleanup]
  | exited => simp [Pc.done, Pc.freed, cleanup]
  | _ => simp [Pc.done, Pc.freed]

/-! ## A client can give its CPU back -/

/-- Steps of the machine lead behind `free_client_cpu`, and no call of its registration throws. -/
def CanFree (m : Word) (c : Client W) : Prop :=
  ∃ es c', Run (Step m) c es c' ∧ .refused ∉ es ∧ c'.pc.freed = true

theorem CanFree.step (hstep : Step m c e c') (he : e ≠ .refused) (h : CanFree m c') :
    CanFree m c := by
  obtain ⟨es, c'', hrun, hes, hfreed⟩ := h
  refine ⟨[e] ++ es, c'', (Run.snoc .nil hstep).append hrun, fun hmem => ?_, hfreed⟩
  rcases List.mem_append.mp hmem with hmem | hmem
  · exact he (List.mem_singleton.mp hmem).symm
  · exact hes hmem

theorem CanFree.exec {pc : Pc} (hexec : handleIrq m c.gate c.pc = some (e, pc)) (he : e ≠ .refused)
    (h : CanFree m { c with pc := pc }) : CanFree m c := .step (.exec hexec) he h

/-- The handler that has begun its cleanup ends it. -/
theorem canFree_of_late (h : c.pc.late = true) : CanFree m c := by
  have hfreed : ∀ {c : Client W}, c.pc.freed = true → CanFree m c := fun {c} h =>
    ⟨[], c, .nil, nofun, h⟩
  have hcpu : ∀ {c : Client W}, c.pc = .freeClientCpu → CanFree m c := fun {c} h =>
    .exec (show _ = some (.freedClientCpu m, .deleteThis) by rw [h]; rfl) nofun (hfreed rfl)
  have hserver : ∀ {c : Client W}, c.pc = .deleteServer → CanFree m c := fun {c} h =>
    .exec (show _ = some (.deletedServer, .freeClientCpu) by rw [h]; rfl) nofun (hcpu rfl)
  cases hpc : c.pc with
  | out =>
      rw [hpc] at h
      cases h
  | test =>
      rw [hpc] at h
      cases h
  | deleteEpiface =>
      exact .exec (show _ = some (.deletedEpiface, .deleteServer) by rw [hpc]; rfl) nofun
        (hserver rfl)
  | deleteServer => exact hserver hpc
  | freeClientCpu => exact hcpu hpc
  | _ => exact hfreed (by rw [hpc]; rfl)

theorem canFree_of_test (hpc : c.pc = .test) (hgone : c.gate = .gone) : CanFree m c :=
  .exec (show _ = some (.isGone, .deleteEpiface) by rw [hpc, hgone]; rfl) nofun
    (canFree_of_late rfl)

theorem canFree_of_gone (hrunning : c.stage.running = true) (hgone : c.gate = .gone)
    (h : c.pending = true ∨ c.pc = .test ∨ c.pc.late = true) : CanFree m c := by
  rcases h with hpending | htest | hlate
  · by_cases hlate : c.pc.late = true
    · exact canFree_of_late hlate
    · cases hpc : c.pc with
      | out =>
          exact .step (.handles hrunning hpc hpending) nofun (canFree_of_test rfl hgone)
      | test => exact canFree_of_test hpc hgone
      | _ => exact absurd (by rw [hpc]; rfl) hlate
  · exact canFree_of_test htest hgone
  · exact canFree_of_late hlate

/-- Once its registration has returned. -/
theorem canFree_of_returned (hrun : Run (Step m) {} es c) (hstage : c.stage = .returned) :
    CanFree m c := by
  have hrunning : c.stage.running = true := by
    rw [hstage]
    rfl
  cases hgate : c.gate with
  | absent =>
      rw [(Inv.run hrun).absent.mp hgate] at hstage
      cases hstage
  | alive =>
      refine .step (.clientGateDeleted hstage hgate) nofun
        (canFree_of_gone hrunning rfl (Or.inl ?_))
      simp [Client.mark, hstage, Stage.delIrq]
  | gone => exact canFree_of_gone hrunning hgate (noticed hrun hgate)

/-- How many calls of `op_register_client` are left. -/
def Stage.left : Stage → ℕ
  | .registerObj => 6
  | .decRefcnt => 5
  | .registerIrqObj => 4
  | .registerDelIrq => 3
  | .runThread => 2
  | .handOut => 1
  | .returned => 0

theorem Stage.left_cases (stage : Stage) :
    stage = .returned ∨ ∃ stage', stage.next = some stage' ∧ stage'.left < stage.left := by
  cases stage with
  | returned => exact Or.inl rfl
  | _ => exact Or.inr ⟨_, rfl, by decide⟩

/-- Unless a call of its registration has thrown; the induction is on the calls left. -/
theorem canFree (hrun : Run (Step m) {} es c) (hok : c.refused = false) : CanFree m c := by
  induction hn : c.stage.left using Nat.strong_induction_on generalizing es c with
  | _ n ih =>
      rcases c.stage.left_cases with hstage | ⟨stage, hnext, hlt⟩
      · exact canFree_of_returned hrun hstage
      · have hstep : Step m c (.registered c.stage) (c.register stage) := .register hok hnext
        exact .step hstep nofun (ih _ (hn ▸ hlt) (hrun.snoc hstep) hok rfl)

/-! ## The registration in progress -/

/-- A call of a registration returns or throws; other steps leave it where it is. -/
theorem Step.registers (h : Step m c e c') :
    (∃ stage, e = .registered stage ∧ c.stage ≠ .returned) ∨
      (e = .refused ∧ c'.refused = true) ∨
      (e.byRegistry = false ∧ c'.stage = c.stage ∧ c'.refused = c.refused) := by
  cases h with
  | register _ hnext =>
      refine Or.inl ⟨c.stage, rfl, fun hstage => ?_⟩
      rw [hstage] at hnext
      cases hnext
  | refuse _ => exact Or.inr (Or.inl ⟨rfl, rfl⟩)
  | exec hexec => exact Or.inr (Or.inr ⟨(handleIrq_event hexec).1, rfl, rfl⟩)
  | _ => exact Or.inr (Or.inr ⟨rfl, rfl, rfl⟩)

omit [DecidableEq K] [DecidableEq W] in
theorem Event.registering_of_not {stage : Stage} {before : Option K} (h : e.byRegistry = false) :
    e.registering k stage before = before := by
  cases e with
  | registered _ => cases h
  | refused => cases h
  | _ => rfl

/-- The registry is in the registration of the client until that returns or throws. -/
def Clients.Registers (s : Clients K W) (k : K) : Prop :=
  s.bitmap k ≠ none → (s.thread k).refused = false → (s.thread k).stage ≠ .returned →
    s.registering = some k

/-- Its own steps. -/
theorem Clients.Registers.after (h : s.Registers k) (hbitmap : s.bitmap k = some m)
    (hstep : Step m (s.thread k) e c) : (s.after k e c).Registers k := by
  intro _ hok hstage
  rw [thread_after] at hok hstage
  rcases hstep.registers with ⟨_, rfl, -⟩ | ⟨-, hrefused⟩ | ⟨he, hsame, hrefused⟩
  · exact if_neg hstage
  · rw [hrefused] at hok
    cases hok
  · rw [hsame] at hstage
    rw [hrefused] at hok
    refine (Event.registering_of_not he).trans (h ?_ hok hstage)
    rw [hbitmap]
    exact nofun

/-- **Step.** -/
theorem Clients.Registers.step (h : ∀ k, s.Registers k) (hstep : ClientsStep s l s') :
    ∀ k, s'.Registers k := by
  cases hstep with
  | noCpu _ _ => exact h
  | @select k₁ _ _ _ hidle _ _ =>
      intro k hbitmap hok hstage
      by_cases hk : k = k₁
      · rw [hk]
        rfl
      · rw [bitmap_select_of_ne hk] at hbitmap
        have hin := h k hbitmap hok hstage
        rw [hidle] at hin
        cases hin
  | @client k₁ _ e _ hbits hreg hexec =>
      intro k
      by_cases hk : k = k₁
      · subst hk
        exact (h k).after hbits hexec
      · intro hbitmap hok hstage
        rw [thread_after_of_ne hk] at hok hstage
        have hin := h k hbitmap hok hstage
        cases he : e.byRegistry with
        | false => exact (Event.registering_of_not he).trans hin
        | true =>
            rw [hreg he] at hin
            exact absurd (Option.some.inj hin).symm hk

/-- **Runs.** -/
theorem registers {mask : Word} (hrun : Run ClientsStep { available := mask } ls s) :
    ∀ k, s.Registers k :=
  hrun.inv (I := fun _ s => ∀ k, s.Registers k) (fun _ hnot => absurd rfl hnot)
    fun h hstep => Clients.Registers.step h hstep

/-- What one client and its registration do, while the others stand still. -/
theorem lift_run (hbitmap : s.bitmap k = some m) (hreg : s.Registers k)
    (hok : (s.thread k).refused = false) (hrun : Run (Step m) (s.thread k) es c)
    (hes : .refused ∉ es) :
    ∃ s', Run ClientsStep s (es.map (.client k)) s' ∧ s'.bitmap = s.bitmap ∧ s'.thread k = c ∧
      (∀ k', k' ≠ k → s'.thread k' = s.thread k') ∧ s'.Registers k ∧ c.refused = false := by
  induction hrun with
  | nil => exact ⟨s, .nil, rfl, rfl, fun _ _ => rfl, hreg, hok⟩
  | @snoc es c c' e _ hstep ih =>
      obtain ⟨s', hs', hbits, hk, hothers, hreg', hok'⟩ :=
        ih fun hmem => hes (List.mem_append_left _ hmem)
      rw [← hbits] at hbitmap
      rw [← hk] at hstep hok'
      have hin : e.byRegistry = true → s'.registering = some k := by
        intro he
        rcases hstep.registers with ⟨_, -, hstage⟩ | ⟨rfl, -⟩ | ⟨hnot, -⟩
        · refine hreg' ?_ hok' hstage
          rw [hbitmap]
          exact nofun
        · exact absurd (List.mem_append_right _ (List.mem_singleton_self _)) hes
        · rw [he] at hnot
          cases hnot
      have hrefused : c'.refused = false := by
        cases hstep with
        | refuse _ => exact absurd (List.mem_append_right _ (List.mem_singleton_self _)) hes
        | _ => exact hok'
      refine ⟨s'.after k e c', ?_, hbits, thread_after, fun k' hne => ?_, hreg'.after hbitmap hstep,
        hrefused⟩
      · rw [List.map_append]
        exact hs'.snoc (.client hbitmap hin hstep)
      · rw [thread_after_of_ne hne, hothers k' hne]

/-! ## Accounts -/

/-- What the CPUs of `mask` come to, whatever the threads do. -/
structure Accounts (mask : Word) (ls : List (ClientsEvent K W)) (s : Clients K W) : Prop where
  owned : Owned mask s
  /-- a client gives its CPU back at most once, behind its epiface and its server -/
  cleanup : ∀ {k m}, s.bitmap k = some m → ∃ rest, cleanups (eventsOf k ls) ++ rest = cleanup m
  freed : ∀ {k m}, s.bitmap k = some m →
    (.freedClientCpu m ∈ eventsOf k ls ↔ (s.thread k).pc.freed = true)
  /-- and not before its gate is gone -/
  after : ∀ {k}, (s.thread k).pc.freed = true → (s.thread k).gate = .gone
  /-- so no two clients with gates have the same CPU -/
  apart : ∀ {k k' m m'}, k ≠ k' → s.bitmap k = some m → s.bitmap k' = some m' →
    (s.thread k).gate ≠ .gone → (s.thread k').gate ≠ .gone → Disjoint (bits m) (bits m')
  full : (∃ e, (selectClientCpu s.cpus).res = .error e) ↔ ∀ i ∈ bits mask, ∃ k, s.Holds k i
  quiet : ∀ {k i}, (s.thread k).pending = false → (s.thread k).pc.Outside →
    (s.Holds k i ↔ (∃ m, s.bitmap k = some m ∧ i ∈ bits m) ∧ (s.thread k).gate ≠ .gone)
  /-- the CPU of a registration that has thrown stays away -/
  lost : ∀ {k}, (s.thread k).refused = true → ∃ i, s.Holds k i
  /-- any other can come back without a step of anybody else -/
  returns : ∀ {k i}, s.Holds k i → (s.thread k).refused = false →
    ∃ (es : List (Event W)) (s' : Clients K W),
      Run ClientsStep s (es.map (.client k)) s' ∧ i ∈ bits s'.available

theorem Component.gone (h : Component k ls s) (hlate : (s.thread k).pc.late = true) :
    (s.thread k).gate = .gone := by
  cases hbitmap : s.bitmap k with
  | none =>
      rw [(h.idle hbitmap).2] at hlate
      cases hlate
  | some m => exact (Inv.run (h.run hbitmap)).gone hlate

theorem Component.holds (h : Component k ls s) (hbitmap : s.bitmap k = some m)
    (hi : i ∈ bits m) (hgate : (s.thread k).gate ≠ .gone) : s.Holds k i := by
  refine ⟨m, hbitmap, hi, ?_⟩
  cases hfreed : (s.thread k).pc.freed with
  | false => rfl
  | true => exact absurd (h.gone (Pc.late_of_freed hfreed)) hgate

theorem Component.refused (h : Component k ls s) (hrefused : (s.thread k).refused = true) :
    (∃ m, s.bitmap k = some m) ∧ (s.thread k).pc = .out := by
  cases hbitmap : s.bitmap k with
  | none =>
      rw [(h.idle hbitmap).2] at hrefused
      cases hrefused
  | some m =>
      have hrun := h.run hbitmap
      have hthrows := throws_of_refused hrun hrefused
      exact ⟨⟨m, rfl⟩, (Inv.run hrun).early (Stage.not_running_of_throws hthrows)⟩

theorem Component.quiet (h : Component k ls s)
    (hpending : (s.thread k).pending = false) (hout : (s.thread k).pc.Outside) :
    s.Holds k i ↔ (∃ m, s.bitmap k = some m ∧ i ∈ bits m) ∧ (s.thread k).gate ≠ .gone := by
  constructor
  · rintro ⟨m, hbitmap, hi, hfreed⟩
    refine ⟨⟨m, hbitmap, hi⟩, fun hgone => ?_⟩
    rcases noticed (h.run hbitmap) hgone with hp | htest | hlate
    · rw [hpending] at hp
      cases hp
    · rw [htest] at hout
      rcases hout with hc | hc <;> cases hc
    · rcases hout with hpc | hpc
      · rw [hpc] at hlate
        cases hlate
      · rw [hpc] at hfreed
        cases hfreed
  · rintro ⟨⟨m, hbitmap, hi⟩, hgate⟩
    exact h.holds hbitmap hi hgate

/-- The run of a client that gives its CPU back. -/
theorem returns_cpu (hrun : Run ClientsStep { available := mask } ls s)
    (hholds : s.Holds k i) (hok : (s.thread k).refused = false) :
    ∃ (es : List (Event W)) (s' : Clients K W),
      Run ClientsStep s (es.map (.client k)) s' ∧ i ∈ bits s'.available := by
  have hown := owned hrun
  obtain ⟨m, hbitmap, -, -⟩ := id hholds
  obtain ⟨es, c', hes, hnot, hfreed⟩ := canFree ((component hrun k).run hbitmap) hok
  obtain ⟨s', hrun', hbits, hk, hothers, -⟩ := lift_run hbitmap (registers hrun k) hok hes hnot
  refine ⟨es, s', hrun', (owned (hrun.append hrun')).owners.mem_free_iff.mpr
    ⟨hown.owners.held hholds, fun k' hk' => ?_⟩⟩
  -- nobody but `k` can have it, and `k` has given it back
  obtain ⟨m', hm', hi', hnot⟩ := hk'
  by_cases hne : k' = k
  · rw [hne, hk, hfreed] at hnot
    cases hnot
  · rw [hbits] at hm'
    rw [hothers k' hne] at hnot
    exact hne (hown.owners.unique ⟨m', hm', hi', hnot⟩ hholds)

/-- **Runs.**  Whatever the order in which clients register, fail to, delete their gates and are
cleaned up. -/
theorem cpus_accounted (hrun : Run ClientsStep { available := mask } ls s) :
    Accounts mask ls s := by
  have hcomp := component hrun
  have hown := owned hrun
  constructor
  · exact hown
  · intro k m hbitmap
    rw [(Inv.run ((hcomp k).run hbitmap)).done]
    exact Pc.done_append m _
  · intro k m hbitmap
    exact (Inv.run ((hcomp k).run hbitmap)).mem_iff
  · intro k hfreed
    exact (hcomp k).gone (Pc.late_of_freed hfreed)
  · intro k k' m m' hne hk hk' hgate hgate'
    refine Finset.disjoint_left.mpr fun i hi hi' => hne ?_
    exact hown.owners.unique ((hcomp k).holds hk hi hgate) ((hcomp k').holds hk' hi' hgate')
  · exact hown.full
  · intro k i hpending hout
    exact (hcomp k).quiet hpending hout
  · intro k hrefused
    obtain ⟨⟨m, hbitmap⟩, hout⟩ := (hcomp k).refused hrefused
    obtain ⟨i, -, hm⟩ := hown.single hbitmap
    refine ⟨i, m, hbitmap, ?_, ?_⟩
    · rw [hm]
      exact Finset.mem_singleton_self i
    · rw [hout]
      rfl
  · intro k i hholds hok
    exact returns_cpu hrun hholds hok

/-- A client comes and goes, with the only CPU there is. -/
theorem cpus_accounted_one :
    ∃ (ls : List (ClientsEvent Bool Unit)) (s : Clients Bool Unit), s.bitmap true = some 1 ∧
      .freedClientCpu 1 ∈ eventsOf true ls ∧ Accounts 1 ls s := by
  have hselected : Run (ClientsStep (K := Bool) (W := Unit)) { available := 1 }
      [.selected true 1] _ := .snoc .nil (.select rfl rfl rfl)
  have hrefcnt : Run (Step (W := Unit) 1) {} [.registered .registerObj] _ :=
    .snoc .nil (.register rfl rfl)
  have hirq := hrefcnt.snoc (.register rfl rfl)
  have hdelIrq := hirq.snoc (.register rfl rfl)
  have hrun := hdelIrq.snoc (.register rfl rfl)
  have hhandOut := hrun.snoc (.register rfl rfl)
  have hreturned := hhandOut.snoc (.register rfl rfl)
  have hgone := hreturned.snoc (.clientGateDeleted rfl rfl)
  have hhandles := hgone.snoc (.handles rfl rfl rfl)
  have hlooked := hhandles.snoc (.exec (e := .isGone) rfl)
  have hepiface := hlooked.snoc (.exec (e := .deletedEpiface) rfl)
  have hserver := hepiface.snoc (.exec (e := .deletedServer) rfl)
  have hcpu := hserver.snoc (.exec (e := .freedClientCpu 1) rfl)
  obtain ⟨s, hall, hbits, -⟩ :=
    lift_run rfl (registers hselected true) rfl hcpu (by decide)
  exact ⟨_, s, by rw [hbits]; rfl, by decide, cpus_accounted (hselected.append hall)⟩

end MettEagle.DeletionIrq
