/-
# `MettEagle.Placement` — on which CPU the workers of a client run

A registration takes a CPU, creates a scheduler for it and gives this scheduler to
the epiface of the client; the invocations of the client hand it on to their workers,
at any depth, and `run_thread` asks it where it may run a thread:

    op_register_client    `select_client_cpu`, `create<L4::Scheduler> << … << bitmap`
    op_action_invoke      `Worker (…, _scheduler.get (), …)`
    run_thread            `scheduler->info (&cpu_max, &cpus); sp.affinity = cpus`
    deletion handler      `free_client_cpu (bitmap)`

A `Site` is the manager of `Isolation` together with the CPUs of `Cpus`, and what the
schedulers and the deletion handlers were made with.  A registration may fail anywhere,
and then may have lost its CPU; a create may fail in `realloc_rcv_cap`, and then has
changed the map of its client.  Calls of `select_client_cpu` and `free_client_cpu` are
steps here, one after the other.
-/
import MettEagle.Isolation
import MettEagle.Register

namespace MettEagle

/-! ## The code -/

/-- `l4_sched_param_t`, as far as it is set. -/
structure SchedParam where
  prio : ℕ
  affinity : Word

/-- `L4_SCHED_MIN_PRIO`. -/
def l4SchedMinPrio : ℕ := 0

/-- `App_model::run_thread`: the parameters handed to the scheduler, if it gets that far; `info` is
what the scheduler answers, an error and its CPUs. -/
def runThread (info : Int × Word) : Option SchedParam :=
  if info.1 ≠ 0 then none else some { prio := l4SchedMinPrio, affinity := info.2 }

/-- What is documented of `info`: a scheduler that was created with `bitmap` names no CPU that is
not in it. -/
def InfoOf (bitmap : Word) (info : Int × Word) : Prop := info.1 = 0 → bits info.2 ⊆ bits bitmap

/-! ## Registrations and clients -/

/-- The manager and its CPUs. -/
structure Site (K : Type*) where
  manager : Manager K := {}
  cpus : Cpus
  /-- the bitmap a scheduler was created with -/
  scheduler : ℕ → Word := fun _ => 0
  /-- the bitmap the deletion handler of a client captured -/
  captured : K → Word := fun _ => 0

inductive SiteOp where
  | register (env : RegisterEnv)
  | request (r : Request) (o : Option Resolution)
  | disconnect

/-- Served by the thread of a client that is there. -/
def Request.isServed : Request → Bool
  | .register | .disconnect => false
  | _ => true

/-- One step: a registration, a message of a client or of one of its workers, a create that is given
no slot, or the deletion handler of a client. -/
inductive SiteStep {K : Type*} [DecidableEq K] (P : Platform) : Site K → K × SiteOp → Site K → Prop
  | register {s : Site K} {k : K} {c : ClientThread} {env : RegisterEnv} {r : Int} {cpus : Cpus}
      {o : List Obs} : opRegisterClient P env s.cpus = ⟨.ok r, cpus, o⟩ →
      s.manager.client k = none → s.manager.Fresh c →
      SiteStep P s (k, .register env)
        { manager := s.manager.register k c
          cpus := cpus
          scheduler := Function.update s.scheduler c.base.scheduler (lowestCpu s.cpus.available)
          captured := Function.update s.captured k (lowestCpu s.cpus.available) }
  | refused {s : Site K} {k : K} {env : RegisterEnv} {e : Stop} {cpus : Cpus} {o : List Obs} :
      opRegisterClient P env s.cpus = ⟨.error e, cpus, o⟩ →
      SiteStep P s (k, .register env) { s with cpus := cpus }
  | request {s : Site K} {k : K} {r : Request} {o : Option Resolution} {m : Manager K} :
      r.isServed = true → ManagerStep P s.manager (k, r, o) m →
      SiteStep P s (k, .request r o) { s with manager := m }
  | createFails {s : Site K} {k : K} {c : ClientThread} {cap : Option Object} {name : CString}
      {lang : Language} {alive : Object → Bool} :
      s.manager.client k = some c → c.services = [] →
      SiteStep P s (k, .request (.create cap name lang alive) none) { s with
        manager := s.manager.put k c
          (serve P c.base ⟨cap, .create name lang ⟨alive, none⟩⟩ (s.manager.world c)).st [] }
  | disconnect {s : Site K} {k : K} {m : Manager K} :
      ManagerStep P s.manager (k, .disconnect, none) m →
      SiteStep P s (k, .disconnect) { s with
        manager := m
        cpus := (freeClientCpu (s.captured k)
          { s.cpus with clients := s.cpus.clients.erase (s.captured k) }).st }

/-- The thread of this worker is run on these CPUs. -/
def Site.RunsOn {K : Type*} (s : Site K) (sv : Service) (cpus : Finset ℕ) : Prop :=
  ∃ info sp, InfoOf (s.scheduler sv.scheduler) info ∧ runThread info = some sp ∧
    cpus = bits sp.affinity

/-! ## Who has which CPU -/

/-- The client has this CPU: its scheduler was made for it, and its deletion handler will give it
back. -/
structure Site.Has {K : Type*} (s : Site K) (k : K) (c : ClientThread) (i : ℕ) : Prop where
  small : i < 64
  captured : s.captured k = oneAt 64 i
  scheduler : s.scheduler c.base.scheduler = oneAt 64 i

structure SiteInv {K : Type*} (mask : Word) (s : Site K) : Prop where
  apart : Apart s.manager
  within : bits s.cpus.available ⊆ bits mask
  placed : ∀ {k c}, s.manager.client k = some c →
    ∃ i, s.Has k c i ∧ i ∈ bits mask ∧ i ∉ bits s.cpus.available
  distinct : ∀ {k k' c c' i i'}, k ≠ k' → s.manager.client k = some c →
    s.manager.client k' = some c' → s.Has k c i → s.Has k' c' i' → i ≠ i'

theorem oneAt_injective {i j : ℕ} (hi : i < 64) (hj : j < 64) (h : oneAt 64 i = oneAt 64 j) :
    i = j := by
  have hbits := congrArg bits h
  rw [bits_oneAt hi, bits_oneAt hj] at hbits
  exact Finset.singleton_injective hbits

variable {K : Type*} {mask : Word} {s s' : Site K} {k k' : K} {c c' : ClientThread}

theorem Site.Has.unique {i j : ℕ} (hi : s.Has k c i) (hj : s.Has k c j) : i = j :=
  oneAt_injective hi.small hj.small (hi.captured.symm.trans hj.captured)

/-- A registration takes the CPU it gives away, and nothing else; a failed one takes at most
that. -/
theorem opRegisterClient_available (P : Platform) (env : RegisterEnv) (s : Cpus) :
    (opRegisterClient P env s).st.available = s.available ∨
      (s.available ≠ 0 ∧
        (opRegisterClient P env s).st.available = s.available &&& ~~~lowestCpu s.available) := by
  by_cases hzero : s.available = 0
  · rw [opRegisterClient_none P env s hzero]
    exact Or.inl rfl
  · refine Or.inr ⟨hzero, ?_⟩
    obtain ⟨o, ⟨e, -, hout⟩ | ⟨-, hout⟩⟩ := opRegisterClient_taken P env s hzero
    · rw [hout]
      rfl
    · rw [hout]
      rfl

theorem available_of_ok {P : Platform} {env : RegisterEnv} {s cpus : Cpus} {r : Int} {o : List Obs}
    (h : opRegisterClient P env s = ⟨.ok r, cpus, o⟩) :
    s.available ≠ 0 ∧ cpus.available = s.available &&& ~~~lowestCpu s.available := by
  by_cases hzero : s.available = 0
  · rw [opRegisterClient_none P env s hzero] at h
    cases h
  · refine ⟨hzero, ?_⟩
    obtain ⟨o, ⟨e, -, hout⟩ | ⟨-, hout⟩⟩ := opRegisterClient_taken P env s hzero
    · rw [hout] at h
      cases h
    · rw [hout] at h
      cases h
      rfl

namespace SiteInv

theorem start (mask : Word) : SiteInv mask ({ cpus := { available := mask } } : Site K) where
  apart := Apart.start
  within := Finset.Subset.refl _
  placed := nofun
  distinct := nofun

/-- Fewer CPUs are available, and the clients have what they had. -/
theorem fewer (h : SiteInv mask s) {cpus : Cpus}
    (hsub : bits cpus.available ⊆ bits s.cpus.available) :
    SiteInv mask { s with cpus := cpus } where
  apart := h.apart
  within := hsub.trans h.within
  placed := by
    intro k c hk
    obtain ⟨i, ⟨hi, hcap, hsched⟩, hmask, hnot⟩ := h.placed hk
    exact ⟨i, ⟨hi, hcap, hsched⟩, hmask, fun hmem => hnot (hsub hmem)⟩
  distinct := fun hne hk hk' ⟨hi, hcap, hsched⟩ ⟨hi', hcap', hsched'⟩ =>
    h.distinct hne hk hk' ⟨hi, hcap, hsched⟩ ⟨hi', hcap', hsched'⟩

/-- The clients of `s'` were there in `s`, and have what they had. -/
theorem transfer (h : SiteInv mask s) (hapart : Apart s'.manager)
    (hwithin : bits s'.cpus.available ⊆ bits mask)
    (hold : ∀ {k c}, s'.manager.client k = some c → ∃ c₀, s.manager.client k = some c₀ ∧
      c.base = c₀.base)
    (hsched : s'.scheduler = s.scheduler) (hcap : s'.captured = s.captured)
    (hnot : ∀ {k c i}, s'.manager.client k = some c → s'.Has k c i →
      i ∉ bits s.cpus.available → i ∉ bits s'.cpus.available) : SiteInv mask s' := by
  have hback : ∀ {k c c₀ i}, c.base = c₀.base → s'.Has k c i → s.Has k c₀ i := by
    rintro k c c₀ i hbase ⟨hi, hk, hs⟩
    rw [hcap] at hk
    rw [hsched, hbase] at hs
    exact ⟨hi, hk, hs⟩
  refine ⟨hapart, hwithin, ?_, ?_⟩
  · intro k c hk
    obtain ⟨c₀, hk₀, hbase⟩ := hold hk
    obtain ⟨i, ⟨hi, hcap₀, hsched₀⟩, hmask, hfree⟩ := h.placed hk₀
    have hhas : s'.Has k c i := ⟨hi, by rw [hcap, hcap₀], by rw [hsched, hbase, hsched₀]⟩
    exact ⟨i, hhas, hmask, hnot hk hhas hfree⟩
  · intro k k' c c' i i' hne hk hk' hi hi'
    obtain ⟨c₀, hk₀, hbase⟩ := hold hk
    obtain ⟨c₀', hk₀', hbase'⟩ := hold hk'
    exact h.distinct hne hk₀ hk₀' (hback hbase hi) (hback hbase' hi')

section
variable [DecidableEq K] {P : Platform}

/-- A client that keeps to its own, and the slots in nobody's hands. -/
theorem put (h : SiteInv mask s) (hk : s.manager.client k = some c) {w : World}
    {F : Slot → Prop} {sv : List Service} (hown : Own c.base F (s.manager.world c) w)
    (hF : ∀ slot, F slot → s.manager.Free slot) (hsv : ∀ x ∈ sv, x.Of c.base) :
    SiteInv mask { s with manager := s.manager.put k c w sv } := by
  refine h.transfer (h.apart.put hk hown hF hsv) h.within ?_ rfl rfl fun _ _ hnot => hnot
  intro k₁ c₁ h₁
  by_cases hk₁ : k₁ = k
  · subst hk₁
    obtain rfl := Option.some.inj (client_put.symm.trans h₁)
    exact ⟨c, hk, rfl⟩
  · exact ⟨c₁, (Function.update_of_ne hk₁ _ _).symm.trans h₁, rfl⟩

theorem register (h : SiteInv mask s) (hfresh : s.manager.Fresh c) {cpus : Cpus}
    (hne : s.cpus.available ≠ 0)
    (hcpus : cpus.available = s.cpus.available &&& ~~~lowestCpu s.cpus.available) :
    SiteInv mask { manager := s.manager.register k c
                   cpus := cpus
                   scheduler := Function.update s.scheduler c.base.scheduler
                     (lowestCpu s.cpus.available)
                   captured := Function.update s.captured k (lowestCpu s.cpus.available) } := by
  obtain ⟨j, hlow, hj, -⟩ := lowestCpu_spec hne
  have hjlt := lt_of_mem_bits hj
  have havail : bits cpus.available = bits s.cpus.available \ {j} := by
    rw [hcpus, bits_and_not, hlow, bits_oneAt hjlt]
  have hsub : bits cpus.available ⊆ bits s.cpus.available := by
    rw [havail]
    exact Finset.sdiff_subset
  -- the clients there were
  have hother : ∀ {k₁ c₁}, k₁ ≠ k → (s.manager.register k c).client k₁ = some c₁ →
      s.manager.client k₁ = some c₁ := fun hk₁ h₁ => (Function.update_of_ne hk₁ _ _).symm.trans h₁
  have hsched : ∀ {k₁ c₁}, s.manager.client k₁ = some c₁ →
      Function.update s.scheduler c.base.scheduler (lowestCpu s.cpus.available)
        c₁.base.scheduler = s.scheduler c₁.base.scheduler := fun h₁ =>
    Function.update_of_ne (hfresh.scheduler _ _ h₁) _ _
  -- what the new one has was available, what the others have was not
  have hnew : ∀ {c₁ i}, (s.manager.register k c).client k = some c₁ →
      Function.update s.captured k (lowestCpu s.cpus.available) k = oneAt 64 i → i < 64 →
      i = j := by
    intro c₁ i _ hcap hi
    rw [Function.update_self, hlow] at hcap
    exact (oneAt_injective hjlt hi hcap).symm
  refine ⟨h.apart.register hfresh, hsub.trans h.within, ?_, ?_⟩
  · intro k₁ c₁ h₁
    by_cases hk₁ : k₁ = k
    · subst hk₁
      obtain rfl : c = c₁ := Option.some.inj (client_register.symm.trans h₁)
      refine ⟨j, ⟨hjlt, ?_, ?_⟩, h.within hj, ?_⟩
      · exact (Function.update_self ..).trans hlow
      · exact (Function.update_self ..).trans hlow
      · rw [havail, Finset.mem_sdiff, Finset.mem_singleton]
        exact fun hmem => hmem.2 rfl
    · obtain ⟨i, ⟨hi, hcap, hs⟩, hmask, hnot⟩ := h.placed (hother hk₁ h₁)
      refine ⟨i, ⟨hi, ?_, ?_⟩, hmask, fun hmem => hnot (hsub hmem)⟩
      · exact (Function.update_of_ne hk₁ _ _).trans hcap
      · exact (hsched (hother hk₁ h₁)).trans hs
  · have hdistinct : ∀ {k₁ c₁ i₁ i}, k₁ ≠ k → (s.manager.register k c).client k₁ = some c₁ →
        Function.update s.captured k (lowestCpu s.cpus.available) k₁ = oneAt 64 i₁ → i₁ < 64 →
        i = j → i₁ ≠ i := by
      rintro k₁ c₁ i₁ i hk₁ h₁ hcap hi₁ rfl rfl
      obtain ⟨i, ⟨hi, hcap₀, -⟩, -, hnot⟩ := h.placed (hother hk₁ h₁)
      rw [Function.update_of_ne hk₁, hcap₀] at hcap
      rw [oneAt_injective hi hi₁ hcap] at hnot
      exact hnot hj
    rintro k₁ k₂ c₁ c₂ i₁ i₂ hne' h₁ h₂ ⟨hi₁, hcap₁, hs₁⟩ ⟨hi₂, hcap₂, hs₂⟩
    by_cases hk₁ : k₁ = k
    · subst hk₁
      exact (hdistinct hne'.symm h₂ hcap₂ hi₂ (hnew h₁ hcap₁ hi₁)).symm
    · by_cases hk₂ : k₂ = k
      · subst hk₂
        exact hdistinct hk₁ h₁ hcap₁ hi₁ (hnew h₂ hcap₂ hi₂)
      · refine h.distinct hne' (hother hk₁ h₁) (hother hk₂ h₂) ⟨hi₁, ?_, ?_⟩ ⟨hi₂, ?_, ?_⟩
        · exact (Function.update_of_ne hk₁ _ _).symm.trans hcap₁
        · exact (hsched (hother hk₁ h₁)).symm.trans hs₁
        · exact (Function.update_of_ne hk₂ _ _).symm.trans hcap₂
        · exact (hsched (hother hk₂ h₂)).symm.trans hs₂

/-- **Step.** -/
theorem step {l : K × SiteOp} (h : SiteInv mask s) (hstep : SiteStep P s l s') :
    SiteInv mask s' := by
  cases hstep with
  | register hreg _ hfresh =>
      obtain ⟨hne, hcpus⟩ := available_of_ok hreg
      exact h.register hfresh hne hcpus
  | @refused k env e cpus o hreg =>
      refine h.fewer ?_
      have hst : (opRegisterClient P env s.cpus).st = cpus := congrArg Out.st hreg
      rcases opRegisterClient_available P env s.cpus with hsame | ⟨-, htaken⟩
      · rw [← hst, hsame]
      · rw [← hst, htaken, bits_and_not]
        exact Finset.sdiff_subset
  | @request k r o m hserved hm =>
      cases hm.effect h.apart.toConfined with
      | register _ | disconnect _ => cases hserved
      | put hk hown hF hsv _ => exact h.put hk hown hF hsv
  | @createFails k c cap name lang alive hk _ =>
      exact h.put hk (serve_create_own P cap name lang ⟨alive, none⟩) nofun no_services
  | @disconnect k m hm =>
      cases hm with
      | @disconnect _ c hk _ =>
          obtain ⟨j, hj, hjmask, -⟩ := h.placed hk
          have havail : bits (freeClientCpu (s.captured k)
              { s.cpus with clients := s.cpus.clients.erase (s.captured k) }).st.available =
                bits s.cpus.available ∪ {j} := by
            show bits (s.cpus.available ||| s.captured k) = _
            rw [bits_or, hj.captured, bits_oneAt hj.small]
          have hother : ∀ {k₁ c₁}, (s.manager.drop k c).client k₁ = some c₁ →
              k₁ ≠ k ∧ s.manager.client k₁ = some c₁ := by
            intro k₁ c₁ h₁
            by_cases hk₁ : k₁ = k
            · rw [hk₁, client_drop] at h₁
              cases h₁
            · exact ⟨hk₁, (Function.update_of_ne hk₁ _ _).symm.trans h₁⟩
          refine h.transfer (h.apart.drop hk) ?_ (fun h₁ => ⟨_, (hother h₁).2, rfl⟩) rfl rfl ?_
          · rw [havail]
            exact Finset.union_subset h.within (Finset.singleton_subset_iff.mpr hjmask)
          · rintro k₁ c₁ i h₁ ⟨hi, hcap, hsched⟩ hnot hmem
            rw [havail, Finset.mem_union, Finset.mem_singleton] at hmem
            obtain ⟨hne, hold⟩ := hother h₁
            exact h.distinct hne hold hk ⟨hi, hcap, hsched⟩ hj (hmem.resolve_left hnot)

end

end SiteInv

/-! ## Runs -/

theorem runsOn_subset {sv : Service} {cpus : Finset ℕ} {i : ℕ} (hsv : sv.Of c.base)
    (hhas : s.Has k c i) (hruns : s.RunsOn sv cpus) : cpus ⊆ {i} := by
  obtain ⟨info, sp, hinfo, hsp, rfl⟩ := hruns
  rw [runThread] at hsp
  split at hsp
  · cases hsp
  · rename_i herr
    cases hsp
    have hsub := hinfo (not_not.mp herr)
    rwa [hsv.scheduler.2, hhas.scheduler, bits_oneAt hhas.small] at hsub

/-- **Placement.**  In every run of registrations, failed ones among them, of requests and of
disconnects each client has the CPU its registration took, which is not available; its workers,
at whatever depth, run on no other one.  So no worker of one client ever shares a CPU with a
worker of another. -/
theorem workers_placed [DecidableEq K] {P : Platform} {ls : List (K × SiteOp)}
    (hrun : Run (SiteStep P) { cpus := { available := mask } } ls s) :
    (∀ {k c}, s.manager.client k = some c → ∃ i, s.Has k c i ∧ i ∈ bits mask ∧
      i ∉ bits s.cpus.available ∧ ∀ sv ∈ c.services, ∀ cpus, s.RunsOn sv cpus → cpus ⊆ {i}) ∧
    ∀ {k k' c c'}, k ≠ k' → s.manager.client k = some c → s.manager.client k' = some c' →
      ∀ sv ∈ c.services, ∀ sv' ∈ c'.services, ∀ cpus cpus', s.RunsOn sv cpus →
        s.RunsOn sv' cpus' → Disjoint cpus cpus' := by
  have hinv : SiteInv mask s := hrun.inv (I := fun _ s => SiteInv mask s) (.start mask)
    fun h hstep => h.step hstep
  refine ⟨fun {k c} hk => ?_, fun {k k' c c'} hne hk hk' sv hsv sv' hsv' cpus cpus' hr hr' => ?_⟩
  · obtain ⟨i, hhas, hmask, hnot⟩ := hinv.placed hk
    refine ⟨i, hhas, hmask, hnot, fun sv hsv cpus hruns => ?_⟩
    exact runsOn_subset (hinv.apart.services hk sv hsv) hhas hruns
  · obtain ⟨i, hhas, -, -⟩ := hinv.placed hk
    obtain ⟨i', hhas', -, -⟩ := hinv.placed hk'
    have hdiff : i ≠ i' := hinv.distinct hne hk hk' hhas hhas'
    have hsub := runsOn_subset (hinv.apart.services hk sv hsv) hhas hr
    have hsub' := runsOn_subset (hinv.apart.services hk' sv' hsv') hhas' hr'
    exact (Finset.disjoint_singleton.mpr hdiff).mono hsub hsub'

/-- Two CPUs, two clients, and a worker of each. -/
theorem workers_placed_pair : ∃ (s : Site Bool) (c c' : ClientThread) (sv sv' : Service),
    s.manager.client true = some c ∧ s.manager.client false = some c' ∧
    c.services = [sv] ∧ c'.services = [sv'] ∧
    ∀ cpus cpus', s.RunsOn sv cpus → s.RunsOn sv' cpus' → Disjoint cpus cpus' := by
  have hreg₁ : opRegisterClient platform₀ {} ⟨3, []⟩ = ⟨.ok l4EOk, ⟨2, [1]⟩, []⟩ := rfl
  have hreg₂ : opRegisterClient platform₀ {} ⟨2, [1]⟩ = ⟨.ok l4EOk, ⟨0, [2, 1]⟩, []⟩ := rfl
  have hB : Run (SiteStep platform₀) ({ cpus := { available := 3 } } : Site Bool)
      [(false, .register {})] _ :=
    .snoc .nil (.register (c := clientB) hreg₁ rfl ⟨rfl, nofun, nofun, nofun, nofun⟩)
  have hfreeB : Manager.Free (({} : Manager Bool).register false clientB) 11 :=
    free_of_only (k := false) rfl rfl (by decide)
  have hcreateB := hB.snoc (l := (false, .request (createF 9) none))
    (.request rfl (.create (c := clientB) rfl rfl hfreeB))
  have hinvokeB := hcreateB.snoc (.request (k := false) (r := invokeF) rfl (.invoke rfl rfl rfl))
  have hA := hinvokeB.snoc (.register (k := true) (c := clientA) hreg₂ rfl ?_)
  have hcreateA := hA.snoc (l := (true, .request (createF 7) none))
    (.request rfl (.create (c := clientA) rfl rfl (show Manager.Free _ 1 from ?_)))
  · have hinvokeA := hcreateA.snoc (.request (k := true) (r := invokeF) rfl (.invoke rfl rfl rfl))
    obtain ⟨-, happart⟩ := workers_placed hinvokeA
    have hne : true ≠ false := Bool.noConfusion
    exact ⟨_, _, _, _, _, rfl, rfl, rfl, rfl, happart hne rfl rfl _
      (List.mem_singleton_self _) _ (List.mem_singleton_self _)⟩
  · intro k c hk
    cases k with
    | true =>
        cases hk
        decide
    | false =>
        cases hk
        decide
  · refine ⟨rfl, ?_, ?_, ?_, ?_⟩
    all_goals
      intro k c hk
      cases k with
      | true => cases hk
      | false =>
          cases hk
          decide

end MettEagle
