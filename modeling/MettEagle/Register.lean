/-
# `MettEagle.Register` — `op_register_client`

A registration takes a CPU and then does six things that can fail.  Where one
of them throws, nothing gives the CPU back; where the creation of the thread
fails, the error is logged and the registration goes on.  So a registration is
atomic exactly if it fails before it takes a CPU or does not fail at all, and as
long as all registrations are, the CPUs missing are those of the live clients.
-/
import MettEagle.Cpus

namespace MettEagle

open Act

/-- What kernel, L4Re and pthreads answer during one registration.  A negative number is an
error, as is a nonzero result of `pthread_create`. -/
structure RegisterEnv where
  scheduler : Int := 0
  pthreadCreate : Int := 0
  /-- `register_obj` returned a valid capability -/
  gate : Bool := true
  /-- `pthread_cancel` succeeded -/
  canceled : Bool := true
  decRefcnt : Int := 0
  /-- `register_irq_obj` returned a valid capability -/
  irq : Bool := true
  registerDelIrq : Int := 0
  runThread : Int := 0

/-- A boolean as `{}` prints it. -/
def boolText (b : Bool) : Bytes := if b then lit "true" else lit "false"

/-- `pthread_create`, whose failure is only logged. -/
def createThread (P : Platform) (env : RegisterEnv) : Act Cpus Obs Stop Unit :=
  if env.pthreadCreate = 0 then pure () else logM P .error (lit "failed to create thread") []

/-- Register the client's epiface in its server loop. -/
def registerGate (env : RegisterEnv) : Act Cpus Obs Stop Unit :=
  if env.gate then pure ()
  else throwLoggable (-l4ENoMem) (lit "Failed to register client IPC gate, thread_canceled={}")
    [boolText env.canceled]

/-- The steps of `op_register_client` between the selection of a CPU and its return. -/
def registerSteps (P : Platform) (env : RegisterEnv) : Act Cpus Obs Stop Unit := do
  chksys env.scheduler (lit "Failed to create scheduler")
  createThread P env
  registerGate env
  chksys env.decRefcnt (lit "dec_refcnt of client epiface")
  chkcap env.irq (lit "gate deletion irq") (-l4ENoMem)
  -- the result of `register_del_irq` is not looked at
  chksys env.runThread []

/-- `Manager_Registry_Epiface::op_register_client`.  The deletion handler of the client captures
the bitmap. -/
def opRegisterClient (P : Platform) (env : RegisterEnv) : Act Cpus Obs Stop Int := do
  let bitmap ← selectClientCpu
  registerSteps P env
  Act.modify fun s => { s with clients := bitmap :: s.clients }
  pure l4EOk

/-- Every step after the selection of a CPU succeeds. -/
structure RegisterEnv.AllSucceed (env : RegisterEnv) : Prop where
  scheduler : 0 ≤ env.scheduler
  pthreadCreate : env.pthreadCreate = 0
  gate : env.gate = true
  decRefcnt : 0 ≤ env.decRefcnt
  irq : env.irq = true
  registerDelIrq : 0 ≤ env.registerDelIrq
  runThread : 0 ≤ env.runThread

/-! ## What a registration can do -/

section
variable (P : Platform) (env : RegisterEnv) (s : Cpus)

/-- The thread is created, or an error is logged. -/
theorem createThread_apply : ∃ o, createThread P env s = ⟨.ok (), s, o⟩ := by
  simp only [createThread]
  split
  · exact ⟨[], rfl⟩
  · have hmsg : Fmt.Plain (lit "failed to create thread") := by decide
    obtain ⟨o, ho, _⟩ := logM_apply P .error (Fmt.format_plain hmsg []) s
    exact ⟨o, ho⟩

theorem registerGate_guard : Guard (registerGate env) := by
  intro s
  simp only [registerGate]
  split
  · exact Or.inl ⟨(), rfl⟩
  · cases env.canceled with
    | true => exact Or.inr ⟨_, .loggable (by decide) (by decide), rfl⟩
    | false => exact Or.inr ⟨_, .loggable (by decide) (by decide), rfl⟩

/-- The steps return or throw; they never touch `available_cpus`. -/
theorem registerSteps_cases :
    ∃ o, (∃ e, registerSteps P env s = ⟨.error (.thrown e), s, o⟩) ∨
      registerSteps P env s = ⟨.ok (), s, o⟩ := by
  simp only [registerSteps]
  have hfirst : Guard (chksys env.scheduler (lit "Failed to create scheduler") :
      Act Cpus Obs Stop Unit) := Guard.chksys _ _ (by decide)
  rcases hfirst s with ⟨_, h⟩ | ⟨e, _, h⟩
  swap; · exact ⟨[], Or.inl ⟨e, bind_of_error h⟩⟩
  rw [bind_of_ok h, Out.after_nil]
  obtain ⟨o, ho⟩ := createThread_apply P env s
  rw [bind_of_ok ho]
  -- the rest are guards
  have hrest : Guard (registerGate env >>= fun _ =>
      chksys env.decRefcnt (lit "dec_refcnt of client epiface") >>= fun _ =>
      chkcap env.irq (lit "gate deletion irq") (-l4ENoMem) >>= fun _ =>
      (chksys env.runThread [] : Act Cpus Obs Stop Unit)) :=
    Guard.bind (registerGate_guard env) fun _ =>
      Guard.bind (Guard.chksys _ _ (by decide)) fun _ =>
        Guard.bind (Guard.chkcap _ _ _ (by decide) (by decide)) fun _ =>
          Guard.chksys _ _ (by decide)
  rcases hrest s with ⟨_, h⟩ | ⟨e, _, h⟩
  · exact ⟨o ++ [], Or.inr (by rw [h]; rfl)⟩
  · exact ⟨o ++ [], Or.inl ⟨e, by rw [h]; rfl⟩⟩

theorem registerSteps_of_allSucceed (h : env.AllSucceed) :
    ∃ o, registerSteps P env s = ⟨.ok (), s, o⟩ := by
  obtain ⟨o, ho⟩ := createThread_apply P env s
  have hgate : registerGate env s = ⟨.ok (), s, []⟩ := by
    rw [registerGate, if_pos h.gate]
    rfl
  have hirq : (chkcap env.irq (lit "gate deletion irq") (-l4ENoMem) : Act Cpus Obs Stop Unit) s =
      ⟨.ok (), s, []⟩ := by
    rw [h.irq]
    rfl
  refine ⟨o ++ [], ?_⟩
  simp only [registerSteps]
  rw [chksys_of_nonneg h.scheduler, pure_bind_apply, bind_of_ok ho, bind_of_ok hgate,
    Out.after_nil, chksys_of_nonneg h.decRefcnt, pure_bind_apply, bind_of_ok hirq, Out.after_nil,
    chksys_of_nonneg h.runThread]
  rfl

/-- The state after a CPU was taken. -/
def Cpus.taken (s : Cpus) : Cpus :=
  { s with available := s.available &&& ~~~lowestCpu s.available }

/-- The state after the CPU went to a new client. -/
def Cpus.given (s : Cpus) : Cpus :=
  { s.taken with clients := lowestCpu s.available :: s.clients }

theorem opRegisterClient_none (h : s.available = 0) :
    opRegisterClient P env s = ⟨.error (.thrown noCpu), s, []⟩ := by
  have hsel := selectClientCpu_apply s
  rw [if_pos h] at hsel
  rw [opRegisterClient, bind_of_error hsel]

/-- Once a CPU is taken, either a step throws and the CPU stays taken, or the CPU goes to a new
client. -/
theorem opRegisterClient_taken (h : s.available ≠ 0) :
    ∃ o, (∃ e, registerSteps P env s.taken = ⟨.error (.thrown e), s.taken, o⟩ ∧
        opRegisterClient P env s = ⟨.error (.thrown e), s.taken, o⟩) ∨
      (registerSteps P env s.taken = ⟨.ok (), s.taken, o⟩ ∧
        opRegisterClient P env s = ⟨.ok l4EOk, s.given, o⟩) := by
  have hsel := selectClientCpu_apply s
  rw [if_neg h] at hsel
  rw [opRegisterClient, bind_of_ok hsel, Out.after_nil]
  obtain ⟨o, ⟨e, he⟩ | hok⟩ := registerSteps_cases P env s.taken
  · exact ⟨o, Or.inl ⟨e, he, bind_of_error he⟩⟩
  · refine ⟨o, Or.inr ⟨hok, ?_⟩⟩
    have hrest := bind_of_ok (f := fun _ => (Act.modify fun s' : Cpus =>
      { s' with clients := lowestCpu s.available :: s'.clients }) >>= fun _ =>
        (pure l4EOk : Act Cpus Obs Stop Int)) hok
    refine hrest.trans ?_
    simp [Out.after, Cpus.given, Cpus.taken]

end

/-! ## Atomicity -/

theorem Cpus.taken_available_ne {s : Cpus} (h : s.available ≠ 0) :
    s.taken.available ≠ s.available := by
  obtain ⟨i, hlow, hi, _⟩ := lowestCpu_spec h
  intro heq
  have hbits : bits s.taken.available = bits s.available \ {i} := by
    rw [← bits_oneAt (lt_of_mem_bits hi), ← hlow]
    exact bits_and_not _ _
  have hmem : i ∈ bits s.taken.available := heq ▸ hi
  rw [hbits, Finset.mem_sdiff, Finset.mem_singleton] at hmem
  exact hmem.2 rfl

/-- The registration reports every failed step and leaves `available_cpus` alone then. -/
structure RegisterAtomic (P : Platform) (env : RegisterEnv) (s : Cpus) : Prop where
  failed : ¬env.AllSucceed →
    (∃ e, (opRegisterClient P env s).res = .error (.thrown e)) ∧
      (opRegisterClient P env s).st.available = s.available
  ok : (opRegisterClient P env s).res = .ok l4EOk → env.AllSucceed

theorem registerAtomic_iff (P : Platform) (env : RegisterEnv) (s : Cpus) :
    RegisterAtomic P env s ↔ s.available = 0 ∨ env.AllSucceed := by
  constructor
  · intro h
    by_contra hcond
    rw [not_or] at hcond
    obtain ⟨hne, hfail⟩ := hcond
    obtain ⟨⟨e, he⟩, hsame⟩ := h.failed hfail
    obtain ⟨o, ⟨_, _, hout⟩ | ⟨_, hout⟩⟩ := opRegisterClient_taken P env s hne
    · rw [hout] at hsame
      exact Cpus.taken_available_ne hne hsame
    · rw [hout] at he
      cases he
  · rintro (hzero | hall)
    · have hout := opRegisterClient_none P env s hzero
      refine ⟨fun _ => by rw [hout]; exact ⟨⟨noCpu, rfl⟩, rfl⟩, fun hok => ?_⟩
      rw [hout] at hok
      cases hok
    · exact ⟨fun hfail => absurd hall hfail, fun _ => hall⟩

/-- What happens to the registry: a client registers, or a live client is gone and its deletion
handler runs. -/
inductive RegistryOp where
  | register (env : RegisterEnv)
  | disconnect (m : Word)

/-- A step of the registry that takes no CPU in vain. -/
inductive RegistryStep (P : Platform) : Cpus → RegistryOp → Cpus → Prop
  | register {s : Cpus} {env : RegisterEnv} : (s.available = 0 ∨ env.AllSucceed) →
      RegistryStep P s (.register env) (opRegisterClient P env s).st
  | disconnect {s : Cpus} {l₁ l₂ : List Word} {m : Word} : s.clients = l₁ ++ m :: l₂ →
      RegistryStep P s (.disconnect m) (freeClientCpu m { s with clients := l₁ ++ l₂ }).st

/-- A registration that returns gave the lowest available CPU to a new client. -/
theorem Held.registered {P : Platform} {mask : Word} {cpus : List ℕ} {s s' : Cpus}
    {env : RegisterEnv} {r : Int} {o : List Obs} (h : Held mask cpus s)
    (hreg : opRegisterClient P env s = ⟨.ok r, s', o⟩) :
    ∃ i, i ∈ bits s.available ∧ (∀ j ∈ bits s.available, i ≤ j) ∧
      s'.clients = oneAt 64 i :: s.clients ∧ Held mask (i :: cpus) s' := by
  by_cases hzero : s.available = 0
  · rw [opRegisterClient_none P env s hzero] at hreg
    cases hreg
  · obtain ⟨_, ⟨e, _, hout⟩ | ⟨_, hout⟩⟩ := opRegisterClient_taken P env s hzero
    · rw [hout] at hreg
      cases hreg
    · rw [hout] at hreg
      cases hreg
      obtain ⟨i, hlow, hi, hmin, hheld⟩ := h.select hzero
      exact ⟨i, hi, hmin, congrArg (· :: s.clients) hlow, hheld⟩

theorem Held.registryStep {P : Platform} {mask : Word} {cpus : List ℕ} {s s' : Cpus}
    {op : RegistryOp} (h : Held mask cpus s) (hstep : RegistryStep P s op s') :
    ∃ cpus', Held mask cpus' s' := by
  cases hstep with
  | register hcond =>
      rename_i env
      by_cases hzero : s.available = 0
      · rw [opRegisterClient_none P env s hzero]
        exact ⟨cpus, h⟩
      · have hall := hcond.resolve_left hzero
        obtain ⟨o, ⟨e, he, _⟩ | ⟨_, hout⟩⟩ := opRegisterClient_taken P env s hzero
        · obtain ⟨o', ho'⟩ := registerSteps_of_allSucceed P env s.taken hall
          rw [ho'] at he
          cases he
        · obtain ⟨i, _, _, _, hheld⟩ := h.registered hout
          rw [hout]
          exact ⟨_, hheld⟩
  | disconnect hclients =>
      obtain ⟨c₁, i, c₂, _, _, hheld⟩ := h.free hclients
      exact ⟨_, hheld⟩

/-- **Registration.**  A registration is atomic exactly if there is no CPU to take or every step
after that succeeds; and in every run of such registrations, with any disconnects among
them, the CPUs missing are as many as the live clients. -/
theorem register_atomic (P : Platform) :
    (∀ env s, RegisterAtomic P env s ↔ s.available = 0 ∨ env.AllSucceed) ∧
    ∀ mask ops s, Run (RegistryStep P) { available := mask } ops s →
      (bits mask \ bits s.available).card = s.clients.length := by
  refine ⟨registerAtomic_iff P, fun mask ops s hrun => ?_⟩
  obtain ⟨cpus, hheld⟩ := hrun.inv (I := fun _ s => ∃ cpus, Held mask cpus s)
    ⟨[], .initial mask⟩ fun ⟨_, h⟩ hstep => h.registryStep hstep
  exact hheld.card_missing

/-- The scheduler cannot be created: the only CPU is gone, and no client has it. -/
theorem register_atomic_fails :
    ¬∀ (P : Platform) (env : RegisterEnv) (s : Cpus), RegisterAtomic P env s := by
  intro h
  have hat := (h platform₀ { scheduler := -l4ENoMem } { available := 1 }).failed
    fun hall => absurd hall.scheduler (by decide)
  exact absurd hat.2 (by decide)

/-- Two CPUs, one client. -/
theorem register_atomic_one :
    (bits (3 : Word) \ bits (opRegisterClient platform₀ {} { available := 3 }).st.available).card =
      (opRegisterClient platform₀ {} { available := 3 }).st.clients.length :=
  (register_atomic platform₀).2 3 [.register {}] _
    (.snoc .nil (.register (Or.inr ⟨by decide, rfl, rfl, by decide, rfl, by decide, by decide⟩)))

/-! ## Successful registrations

A registration that returns `L4_EOK` may have logged an error on its way; who holds which CPU
does not depend on that. -/

/-- A registration that returns, or a disconnect. -/
inductive RegistrySuccess (P : Platform) : Cpus → RegistryOp → Cpus → Prop
  | register {s s' : Cpus} {env : RegisterEnv} {r : Int} {o : List Obs} :
      opRegisterClient P env s = ⟨.ok r, s', o⟩ → RegistrySuccess P s (.register env) s'
  | disconnect {s s' : Cpus} {l₁ l₂ : List Word} {m : Word} {o : List Obs} :
      s.clients = l₁ ++ m :: l₂ → freeClientCpu m { s with clients := l₁ ++ l₂ } = ⟨.ok (), s', o⟩ →
      RegistrySuccess P s (.disconnect m) s'

/-- The clients' masks have one bit each; no two of them meet, none meets the available CPUs,
and all of these together are `mask`. -/
structure Partition (mask : Word) (s : Cpus) : Prop where
  single : ∀ m ∈ s.clients, ∃ i, bits m = {i}
  apart : s.clients.Pairwise fun m m' => Disjoint (bits m) (bits m')
  unavailable : ∀ m ∈ s.clients, Disjoint (bits s.available) (bits m)
  cover : ∀ i, i ∈ bits mask ↔ i ∈ bits s.available ∨ ∃ m ∈ s.clients, i ∈ bits m

/-- A client holds the CPU. -/
theorem Held.mem_iff {mask : Word} {cpus : List ℕ} {s : Cpus} (h : Held mask cpus s) {i : ℕ} :
    (∃ m ∈ s.clients, i ∈ bits m) ↔ i ∈ cpus := by
  rw [h.clients]
  constructor
  · rintro ⟨m, hm, hi⟩
    obtain ⟨j, hj, rfl⟩ := List.mem_map.mp hm
    rw [bits_oneAt (h.small j hj), Finset.mem_singleton] at hi
    rwa [hi]
  · intro hi
    refine ⟨oneAt 64 i, List.mem_map_of_mem hi, ?_⟩
    rw [bits_oneAt (h.small i hi)]
    exact Finset.mem_singleton_self i

theorem Held.partition {mask : Word} {cpus : List ℕ} {s : Cpus} (h : Held mask cpus s) :
    Partition mask s where
  single := by
    intro m hm
    rw [h.clients] at hm
    obtain ⟨i, hi, rfl⟩ := List.mem_map.mp hm
    exact ⟨i, bits_oneAt (h.small i hi)⟩
  apart := by
    rw [h.clients, List.pairwise_map]
    refine h.nodup.imp_of_mem fun {i j} hi hj hne => ?_
    rw [bits_oneAt (h.small i hi), bits_oneAt (h.small j hj)]
    exact Finset.disjoint_singleton.mpr hne
  unavailable := by
    intro m hm
    rw [h.clients] at hm
    obtain ⟨i, hi, rfl⟩ := List.mem_map.mp hm
    rw [bits_oneAt (h.small i hi)]
    refine Finset.disjoint_singleton_right.mpr fun havail => ?_
    exact Finset.disjoint_left.mp h.disjoint havail (List.mem_toFinset.mpr hi)
  cover := by
    intro i
    rw [h.mem_iff, ← h.cover, Finset.mem_union, List.mem_toFinset]

theorem Held.registrySuccess {P : Platform} {mask : Word} {cpus : List ℕ} {s s' : Cpus}
    {op : RegistryOp} (h : Held mask cpus s) (hstep : RegistrySuccess P s op s') :
    ∃ cpus', Held mask cpus' s' := by
  cases hstep with
  | register hreg =>
      obtain ⟨i, _, _, _, hheld⟩ := h.registered hreg
      exact ⟨_, hheld⟩
  | disconnect hclients hfree =>
      cases hfree
      obtain ⟨c₁, i, c₂, _, _, hheld⟩ := h.free hclients
      exact ⟨_, hheld⟩

/-- The registration fails with `-L4_ENOENT`, and nothing has changed. -/
def RefusesNoCpu (P : Platform) (env : RegisterEnv) (s : Cpus) : Prop :=
  (∃ e, (opRegisterClient P env s).res = .error (.thrown e) ∧ e.errNo? = some (-l4ENoEnt)) ∧
    (opRegisterClient P env s).st = s

theorem refusesNoCpu_iff (P : Platform) (env : RegisterEnv) (s : Cpus) :
    RefusesNoCpu P env s ↔ s.available = 0 := by
  constructor
  · rintro ⟨⟨e, he, _⟩, hsame⟩
    by_contra hne
    obtain ⟨_, ⟨_, _, hout⟩ | ⟨_, hout⟩⟩ := opRegisterClient_taken P env s hne
    · rw [hout] at hsame
      exact Cpus.taken_available_ne hne (congrArg Cpus.available hsame)
    · rw [hout] at he
      cases he
  · intro hzero
    rw [RefusesNoCpu, opRegisterClient_none P env s hzero]
    exact ⟨⟨noCpu, rfl, rfl⟩, rfl⟩

/-- No CPU is available exactly if the clients hold all of them. -/
theorem Partition.available_eq_zero_iff {mask : Word} {s : Cpus} (h : Partition mask s) :
    s.available = 0 ↔ ∀ i ∈ bits mask, ∃ m ∈ s.clients, i ∈ bits m := by
  constructor
  · intro hzero i hi
    refine ((h.cover i).mp hi).resolve_left fun havail => ?_
    rw [hzero, bits_zero] at havail
    exact absurd havail (Finset.notMem_empty i)
  · intro hall
    by_contra hne
    obtain ⟨i, hi⟩ := bits_nonempty.mpr hne
    obtain ⟨m, hm, him⟩ := hall i ((h.cover i).mpr (Or.inl hi))
    exact Finset.disjoint_left.mp (h.unavailable m hm) hi him

/-- **Partition.**  In every run of successful registrations and disconnects the clients hold one
CPU each and share none; a registration gets the lowest available CPU, and is refused exactly
if the clients hold all CPUs there were. -/
theorem cpu_partition {P : Platform} {mask : Word} {ops : List RegistryOp} {s : Cpus}
    (hrun : Run (RegistrySuccess P) { available := mask } ops s) :
    Partition mask s ∧
      (∀ env r s' o, opRegisterClient P env s = ⟨.ok r, s', o⟩ →
        ∃ m i, s'.clients = m :: s.clients ∧ bits m = {i} ∧ i ∈ bits s.available ∧
          ∀ j ∈ bits s.available, i ≤ j) ∧
      ∀ env, RefusesNoCpu P env s ↔ ∀ i ∈ bits mask, ∃ m ∈ s.clients, i ∈ bits m := by
  obtain ⟨cpus, hheld⟩ := hrun.inv (I := fun _ s => ∃ cpus, Held mask cpus s)
    ⟨[], .initial mask⟩ fun ⟨_, h⟩ hstep => h.registrySuccess hstep
  refine ⟨hheld.partition, fun env r s' o hreg => ?_, fun env => ?_⟩
  · obtain ⟨i, hi, hmin, hclients, -⟩ := hheld.registered hreg
    exact ⟨oneAt 64 i, i, hclients, bits_oneAt (lt_of_mem_bits hi), hi, hmin⟩
  · rw [refusesNoCpu_iff]
    exact hheld.partition.available_eq_zero_iff

/-- The CPUs 0 and 63; both are given away, and 0 comes back. -/
theorem cpu_partition_last :
    ∃ s : Cpus, s.clients = [oneAt 64 63] ∧ Partition (oneAt 64 0 ||| oneAt 64 63) s :=
  have h₁ : opRegisterClient platform₀ {} ⟨oneAt 64 0 ||| oneAt 64 63, []⟩ =
      ⟨.ok l4EOk, ⟨oneAt 64 63, [oneAt 64 0]⟩, []⟩ := rfl
  have h₂ : opRegisterClient platform₀ {} ⟨oneAt 64 63, [oneAt 64 0]⟩ =
      ⟨.ok l4EOk, ⟨0, [oneAt 64 63, oneAt 64 0]⟩, []⟩ := rfl
  have h₃ : freeClientCpu (oneAt 64 0) ⟨0, [oneAt 64 63] ++ []⟩ =
      ⟨.ok (), ⟨oneAt 64 0, [oneAt 64 63]⟩, []⟩ := rfl
  ⟨_, rfl, (cpu_partition (.snoc (.snoc (.snoc .nil (.register h₁)) (.register h₂))
    (.disconnect rfl h₃))).1⟩

end MettEagle
