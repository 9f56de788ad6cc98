/-
# `MettEagle.BenchmarkCpus` — which CPU a client of the benchmark gets

The clients of the benchmark register one after the other; the manager gives each the
lowest CPU that is left.  The benchmark serializes its clients for this reason alone,
"to make sure that the server will assign the available cpus to the clients in a predictable
manner".  Here the two sides run together:

    getManager            `op_register_client` of the manager takes a CPU
    action_create         may fail after that; the client then ends
    end of a client       its capability goes away, and some time later the deletion
                          handler gives the CPU back

The manager has just started and the benchmark is its only client.  `cpus_in_order` says
what the serialization achieves, in every interleaving of the threads and whatever fails.
-/
import MettEagle.Benchmark
import MettEagle.Placement
import Mathlib.Data.Finset.Sort

namespace MettEagle.Benchmark

variable {n : ℕ}

/-! ## Both sides -/

structure Deployment (n : ℕ) where
  bench : State n
  cpus : Cpus
  /-- the bitmap a client was registered with -/
  cpuOf : Fin n → Option Word := fun _ => none
  /-- its registration or its `action_create` threw, and it has ended -/
  refused : Fin n → Bool := fun _ => false

def Deployment.start (n : ℕ) (mask : Word) : Deployment n where
  bench := init n
  cpus := { available := mask }

/-- A step of a thread, or of the deletion handler of a client. -/
inductive Event (n : ℕ) where
  | thread (t : Thread n)
  | deleted (c : Fin n)

/-- The client has let go of its capability. -/
def Deployment.Ended (s : Deployment n) (c : Fin n) : Prop :=
  s.bench.client c = .finished ∨ s.refused c = true ∨ s.bench.main = .exited

inductive DeploymentStep (P : Platform) : Deployment n → Event n → Deployment n → Prop
  | thread {s : Deployment n} {t : Thread n} {b : State n} : Next s.bench t b →
      (∀ c, t = .client c → s.bench.client c ≠ .registering) →
      DeploymentStep P s (.thread t) { s with bench := b }
  | register {s : Deployment n} {c : Fin n} {env : RegisterEnv} {r : Int} {cpus : Cpus}
      {o : List Obs} {b : State n} : s.bench.client c = .registering → s.refused c = false →
      opRegisterClient P env s.cpus = ⟨.ok r, cpus, o⟩ → Next s.bench (.client c) b →
      DeploymentStep P s (.thread (.client c)) { s with
        bench := b
        cpus := cpus
        cpuOf := Function.update s.cpuOf c (some (lowestCpu s.cpus.available)) }
  | refuse {s : Deployment n} {c : Fin n} {env : RegisterEnv} {e : Stop} {cpus : Cpus}
      {o : List Obs} : s.bench.client c = .registering → s.bench.main ≠ .exited →
      s.refused c = false →
      opRegisterClient P env s.cpus = ⟨.error e, cpus, o⟩ →
      DeploymentStep P s (.thread (.client c)) { s with
        cpus := cpus
        refused := Function.update s.refused c true }
  | createFails {s : Deployment n} {c : Fin n} {env : RegisterEnv} {r : Int} {cpus : Cpus}
      {o : List Obs} : s.bench.client c = .registering → s.bench.main ≠ .exited →
      s.refused c = false →
      opRegisterClient P env s.cpus = ⟨.ok r, cpus, o⟩ →
      DeploymentStep P s (.thread (.client c)) { s with
        cpus := cpus
        cpuOf := Function.update s.cpuOf c (some (lowestCpu s.cpus.available))
        refused := Function.update s.refused c true }
  | deleted {s : Deployment n} {c : Fin n} {m : Word} : s.Ended c → s.cpuOf c = some m →
      m ∈ s.cpus.clients →
      DeploymentStep P s (.deleted c) { s with
        cpus := (freeClientCpu m { s.cpus with clients := s.cpus.clients.erase m }).st }

/-! ## The CPUs in their order -/

/-- The CPUs of the machine, the lowest first. -/
def cpuList (mask : Word) : List ℕ := (bits mask).sort

/-- Taking the least of the members from place `k` on leaves those from place `k + 1` on. -/
theorem sort_drop_least {s t : Finset ℕ} {k i : ℕ} (ht : t = (s.sort.drop k).toFinset)
    (hi : i ∈ t) (hmin : ∀ j ∈ t, i ≤ j) :
    s.sort[k]? = some i ∧ t \ {i} = (s.sort.drop (k + 1)).toFinset := by
  subst ht
  have hsorted : (s.sort.drop k).Pairwise (· < ·) :=
    (s.sortedLT_sort.pairwise).sublist (List.drop_sublist k _)
  have hhead : s.sort[k]? = (s.sort.drop k).head? := List.head?_drop.symm
  have htail : s.sort.drop (k + 1) = (s.sort.drop k).tail := List.tail_drop.symm
  rw [hhead, htail]
  cases hl : s.sort.drop k with
  | nil =>
      rw [hl] at hi
      cases hi
  | cons a l =>
      rw [hl] at hi hmin hsorted
      obtain ⟨hlt, -⟩ := List.pairwise_cons.mp hsorted
      have hia : i = a := by
        rcases List.mem_cons.mp (List.mem_toFinset.mp hi) with h | h
        · exact h
        · have hle := hmin a (List.mem_toFinset.mpr (List.mem_cons_self ..))
          exact absurd (hlt i h) (Nat.not_lt.mpr hle)
      subst hia
      refine ⟨rfl, ?_⟩
      have hnot : i ∉ l := fun h => Nat.lt_irrefl i (hlt i h)
      rw [List.toFinset_cons, List.tail_cons, Finset.insert_sdiff_of_mem _ (Finset.mem_singleton_self i),
        Finset.sdiff_singleton_eq_erase, Finset.erase_eq_of_notMem]
      exact fun h => hnot (List.mem_toFinset.mp h)

/-- The lowest CPU, if those that are left are the ones from place `k` on. -/
theorem lowest_of_left {mask available : Word} {k : ℕ} (hne : available ≠ 0)
    (h : bits available = ((cpuList mask).drop k).toFinset) :
    ∃ i, (cpuList mask)[k]? = some i ∧ lowestCpu available = oneAt 64 i ∧
      bits (available &&& ~~~lowestCpu available) = ((cpuList mask).drop (k + 1)).toFinset := by
  obtain ⟨i, hlow, hi, hmin⟩ := lowestCpu_spec hne
  obtain ⟨hplace, hrest⟩ := sort_drop_least h hi hmin
  refine ⟨i, hplace, hlow, ?_⟩
  rw [bits_and_not, hlow, bits_oneAt (lt_of_mem_bits hi), hrest]
  rfl

/-! ## Who has registered -/

theorem ClientPc.started_of_registered {pc : ClientPc} (h : pc.registered = true) :
    pc.started = true := by
  cases pc <;> first | rfl | cases h

/-- A client that a step moves on stays registered, or stays where it is. -/
theorem client_move {s : State n} {c : Fin n} {p q : ClientPc} {o : Option (Thread n)}
    (hp : s.client c = p) (hregp : p.registered = true) (hregq : q.registered = true) (d : Fin n) :
    (s.move c q o).client d = s.client d ∨
      ((s.client d).registered = true ∧ ((s.move c q o).client d).registered = true) := by
  by_cases hd : d = c
  · subst hd
    rw [State.move_self, hp]
    exact Or.inr ⟨hregp, hregq⟩
  · exact Or.inl (State.move_of_ne hd)

/-- **Step.**  Apart from a registration, a step leaves a client as registered as it was; it may
start one. -/
theorem client_step {s s' : State n} {t : Thread n} (h : Inv s) (hstep : Step s t s')
    (ht : ∀ c, t = .client c → s.client c ≠ .registering) (d : Fin n) :
    s'.client d = s.client d ∨
      ((s.client d).registered = true ∧ (s'.client d).registered = true) ∨
      (s.client d = .notStarted ∧ s'.client d = .registering) := by
  cases hstep with
  | @register c hc => exact absurd hc (ht c rfl)
  | lock hc _ | relock hc _ | pass hc _ | fail hc _ | park hc | spurious hc | unlock hc
  | notifyNobody hc _ | measured hc =>
      exact (client_move hc rfl rfl d).imp_right Or.inl
  | count hc => exact (client_move (o := s.owner) hc rfl rfl d).imp_right Or.inl
  | @notifyMain c hc =>
      have hc' : s.wakeMain.client c = .notifyMain := by rwa [State.wakeMain_client]
      have hmove := client_move (q := .testing) (o := s.owner) hc' rfl rfl d
      rw [State.wakeMain_client] at hmove
      exact hmove.imp_right Or.inl
  | @notifyNext c e hc he =>
      have hne : c ≠ e := by
        rintro rfl
        cases hc.symm.trans he
      have hc' : (s.move e .woken s.owner).client c = .notifyNext := (State.move_of_ne hne).trans hc
      rcases client_move (q := .measuring) (o := s.owner) hc' rfl rfl d with h₂ | ⟨h₂, h₂'⟩
      · rw [h₂]
        exact (client_move he rfl rfl d).imp_right Or.inl
      · rcases client_move (q := .woken) (o := s.owner) he rfl rfl d with h₁ | ⟨h₁, -⟩
        · rw [h₁] at h₂
          exact Or.inr (Or.inl ⟨h₂, h₂'⟩)
        · exact Or.inr (Or.inl ⟨h₁, h₂'⟩)
  | start hm =>
      obtain ⟨c, hval, hidle⟩ := h.idle_of_starting hm
      obtain rfl := Fin.ext hval
      by_cases hd : d = c
      · subst hd
        exact Or.inr (Or.inr ⟨hidle, Function.update_self ..⟩)
      · exact Or.inl (Function.update_of_ne hd ..)
  | mainLock _ _ | mainPass _ _ | mainFail _ _ | mainPark _ | mainSpurious _ | mainRelock _ _
  | mainUnlock _ | startFails _ | join _ _ | exit _ => exact Or.inl rfl

theorem registered_step {s s' : State n} {t : Thread n} (h : Inv s) (hstep : Step s t s')
    (ht : ∀ c, t = .client c → s.client c ≠ .registering) (d : Fin n) :
    (s'.client d).registered = (s.client d).registered := by
  rcases client_step h hstep ht d with hsame | ⟨hreg, hreg'⟩ | ⟨hidle, hnew⟩
  · rw [hsame]
  · rw [hreg, hreg']
  · rw [hidle, hnew]
    rfl

theorem eq_move_of_registering {s s' : State n} {c : Fin n} (hc : s.client c = .registering)
    (hstep : Step s (.client c) s') : s' = s.move c .locking s.owner := by
  cases hstep with
  | register _ => rfl
  | lock h _ | relock h _ | pass h _ | fail h _ | park h | spurious h | unlock h | notifyNext h _
  | notifyNobody h _ | measured h | count h | notifyMain h => cases hc.symm.trans h

/-- The client that registers is the one whose number the counter shows. -/
theorem Inv.registering {s : State n} (h : Inv s) {c : Fin n} (hc : s.client c = .registering) :
    c.val = s.count := by
  have hle := h.order c (by rw [hc]; rfl)
  have hnot : ¬c.val < s.count := fun hlt => by
    have hcounted := (h.counted c).mpr hlt
    rw [hc] at hcounted
    cases hcounted
  omega

theorem Inv.registered_of_lt {s : State n} (h : Inv s) {c d : Fin n}
    (hc : s.client c = .registering) (hd : d < c) : (s.client d).registered = true := by
  have hcount := h.registering hc
  exact ClientPc.registered_of_counted ((h.counted d).mpr (by omega))

/-! ## The invariant -/

/-- Every client that was registered has the CPU of its number; and while clients are still
missing, the CPUs left are those from the number of the next one on. -/
structure DeploymentInv (mask : Word) (s : Deployment n) : Prop where
  bench : Inv s.bench
  placed : ∀ c m, s.cpuOf c = some m → ∃ i, (cpuList mask)[c.val]? = some i ∧ m = oneAt 64 i
  registered : ∀ c, (s.bench.client c).registered = true → (s.cpuOf c).isSome = true
  refused : ∀ c, s.refused c = true → s.bench.client c = .registering
  left : s.bench.main ≠ .exited → (∀ c, s.refused c = false) →
    ∀ c, (s.bench.client c).registered = false →
      (∀ d, d < c → (s.bench.client d).registered = true) →
      bits s.cpus.available = ((cpuList mask).drop c).toFinset

namespace DeploymentInv

variable {mask : Word} {s s' : Deployment n} {P : Platform}

theorem start (n : ℕ) (mask : Word) : DeploymentInv mask (.start n mask) where
  bench := Inv.init n
  placed := fun _ _ h => by cases h
  registered := fun _ h => by cases h
  refused := fun _ h => by cases h
  left := by
    intro _ _ c _ hlower
    have hzero : c.val = 0 := by
      by_contra hne
      have hpos : 0 < n := Nat.lt_of_le_of_lt (Nat.zero_le _) c.isLt
      have hreg := hlower ⟨0, hpos⟩ (Nat.pos_of_ne_zero hne)
      cases hreg
    rw [hzero, List.drop_zero]
    exact (Finset.sort_toFinset _ _).symm

/-- What is left when a client registers. -/
theorem left_of_registering (h : DeploymentInv mask s) {c : Fin n}
    (hc : s.bench.client c = .registering) (hlive : s.bench.main ≠ .exited)
    (hrefused : s.refused c = false) :
    bits s.cpus.available = ((cpuList mask).drop c).toFinset := by
  refine h.left hlive (fun d => ?_) c (by rw [hc]; rfl) fun d hd => h.bench.registered_of_lt hc hd
  by_contra hd
  have hd' := h.refused d (Bool.not_eq_false _ ▸ hd)
  have hval : d.val = c.val := (h.bench.registering hd').trans (h.bench.registering hc).symm
  rw [Fin.ext hval] at hd
  exact hd hrefused

/-- The CPU of a registration. -/
theorem place (h : DeploymentInv mask s) {c : Fin n} (hc : s.bench.client c = .registering)
    (hlive : s.bench.main ≠ .exited) (hrefused : s.refused c = false) {env : RegisterEnv} {r : Int}
    {cpus : Cpus} {o : List Obs} (hreg : opRegisterClient P env s.cpus = ⟨.ok r, cpus, o⟩) :
    bits cpus.available = ((cpuList mask).drop (c + 1)).toFinset ∧
      ∀ d m, Function.update s.cpuOf c (some (lowestCpu s.cpus.available)) d = some m →
        ∃ i, (cpuList mask)[d.val]? = some i ∧ m = oneAt 64 i := by
  obtain ⟨hne, havail⟩ := available_of_ok hreg
  obtain ⟨i, hplace, hlow, hrest⟩ := lowest_of_left hne (h.left_of_registering hc hlive hrefused)
  refine ⟨by rw [havail]; exact hrest, fun d m hd => ?_⟩
  by_cases hdc : d = c
  · subst hdc
    rw [Function.update_self] at hd
    exact ⟨i, hplace, (Option.some.inj hd).symm.trans hlow⟩
  · rw [Function.update_of_ne hdc] at hd
    exact h.placed d m hd

theorem isSome_update {f : Fin n → Option Word} {c d : Fin n} (m : Word)
    (h : d ≠ c → (f d).isSome = true) : (Function.update f c (some m) d).isSome = true := by
  by_cases hd : d = c
  · subst hd
    rw [Function.update_self]
    rfl
  · rw [Function.update_of_ne hd]
    exact h hd

theorem refused_update (h : DeploymentInv mask s) {c d : Fin n}
    (hc : s.bench.client c = .registering) (hd : Function.update s.refused c true d = true) :
    s.bench.client d = .registering := by
  by_cases hdc : d = c
  · rwa [hdc]
  · rw [Function.update_of_ne hdc] at hd
    exact h.refused d hd

/-- The next client after a registration is the one with the next number. -/
theorem next_of_registered (h : DeploymentInv mask s) {c : Fin n} {o : Option (Thread n)}
    (hc : s.bench.client c = .registering) {d : Fin n}
    (hd : ((s.bench.move c .locking o).client d).registered = false)
    (hlower : ∀ e, e < d → ((s.bench.move c .locking o).client e).registered = true) :
    d.val = c.val + 1 := by
  have hcount := h.bench.registering hc
  have hne : d ≠ c := by
    rintro rfl
    rw [State.move_self] at hd
    cases hd
  rw [State.move_of_ne hne] at hd
  have hge : ¬d < c := fun hlt => by
    rw [h.bench.registered_of_lt hc hlt] at hd
    cases hd
  have hle : ¬c.val + 1 < d.val := fun hlt => by
    -- the client in between would have been started too early
    have hbetween := hlower ⟨c.val + 1, hlt.trans d.isLt⟩ hlt
    rw [State.move_of_ne (Fin.ne_of_val_ne (Nat.succ_ne_self c.val))] at hbetween
    have horder := h.bench.order _ (ClientPc.started_of_registered hbetween)
    simp only at horder
    omega
  have hval : d.val ≠ c.val := fun hval => hne (Fin.ext hval)
  have hge' : ¬d.val < c.val := hge
  omega

/-- **Step.** -/
theorem step (h : DeploymentInv mask s) {e : Event n} (hstep : DeploymentStep P s e s') :
    DeploymentInv mask s' := by
  cases hstep with
  | @thread t b hnext ht =>
      have hreg := registered_step h.bench hnext.2 ht
      refine ⟨h.bench.step hnext.2, h.placed, fun c hc => ?_, fun c hc => ?_, fun _ hall c hc hlower => ?_⟩
      · exact h.registered c ((hreg c).symm.trans hc)
      · have hregistering := h.refused c hc
        rcases client_step h.bench hnext.2 ht c with hsame | ⟨htrue, -⟩ | ⟨hidle, -⟩
        · exact hsame.trans hregistering
        · rw [hregistering] at htrue
          cases htrue
        · cases hidle.symm.trans hregistering
      · exact h.left hnext.1 hall c ((hreg c).symm.trans hc) fun d hd =>
          (hreg d).symm.trans (hlower d hd)
  | @register c env r cpus o b hc hrefused hreg hnext =>
      obtain ⟨hleft, hplaced⟩ := h.place hc hnext.1 hrefused hreg
      obtain rfl := eq_move_of_registering hc hnext.2
      refine ⟨h.bench.step hnext.2, hplaced, fun d hd => ?_, fun d hd => ?_, fun _ _ d hd hlower => ?_⟩
      · refine isSome_update _ fun hne => h.registered d ?_
        rwa [State.move_of_ne hne] at hd
      · have hne : d ≠ c := by
          rintro rfl
          rw [hrefused] at hd
          cases hd
        exact (State.move_of_ne hne).trans (h.refused d hd)
      · rw [h.next_of_registered hc hd hlower]
        exact hleft
  | @refuse c env e cpus o hc _ hrefused hreg =>
      refine ⟨h.bench, h.placed, h.registered, fun d hd => h.refused_update hc hd, ?_⟩
      intro _ hall
      have hnot : Function.update s.refused c true c = false := hall c
      rw [Function.update_self] at hnot
      cases hnot
  | @createFails c env r cpus o hc hlive hrefused hreg =>
      obtain ⟨-, hplaced⟩ := h.place hc hlive hrefused hreg
      refine ⟨h.bench, hplaced, fun d hd => isSome_update _ fun _ => h.registered d hd,
        fun d hd => h.refused_update hc hd, ?_⟩
      intro _ hall
      have hnot : Function.update s.refused c true c = false := hall c
      rw [Function.update_self] at hnot
      cases hnot
  | @deleted c m hended hm hmem =>
      refine ⟨h.bench, h.placed, h.registered, h.refused, ?_⟩
      intro hlive hall d hd _
      -- who has ended here got past the barrier, so nobody is missing
      rcases hended with hfin | href | hexit
      · have hcount := h.bench.released c (by rw [hfin]; rfl)
        have hreg := ClientPc.registered_of_counted
          ((h.bench.counted d).mpr (d.isLt.trans_eq hcount.symm))
        cases hd.symm.trans hreg
      · cases (hall c).symm.trans href
      · exact absurd hexit hlive

end DeploymentInv

/-- **Runs.** -/
theorem deploymentInv_run {P : Platform} {mask : Word} {ls : List (Event n)} {s : Deployment n}
    (hrun : Run (DeploymentStep P) (.start n mask) ls s) : DeploymentInv mask s :=
  hrun.inv (I := fun _ s => DeploymentInv mask s) (DeploymentInv.start n mask) fun h hstep =>
    h.step hstep

theorem cpuList_length (mask : Word) : (cpuList mask).length = (bits mask).card :=
  Finset.length_sort _

/-- What the serialization of the clients is for.  The manager has just started and has no other
clients.  In every interleaving of the benchmark's threads with the registrations and deletion
handlers of the manager, and wherever registrations fail, a client that gets a CPU gets the one of its own number: with `k` clients before it, the
`k`-th lowest of the machine.  So no two get the same, a client beyond the number of CPUs never
gets past its registration, and with more clients than CPUs nobody ever measures. -/
theorem cpus_in_order {P : Platform} {mask : Word} {ls : List (Event n)} {s : Deployment n}
    (hrun : Run (DeploymentStep P) (.start n mask) ls s) :
    (∀ c m, s.cpuOf c = some m → ∃ i, (cpuList mask)[c.val]? = some i ∧ m = oneAt 64 i) ∧
    (∀ c d m, s.cpuOf c = some m → s.cpuOf d = some m → c = d) ∧
    (∀ c, (s.bench.client c).registered = true → c.val < (bits mask).card) ∧
    ((∃ c, s.bench.client c = .measuring) → n ≤ (bits mask).card) := by
  have h := deploymentInv_run hrun
  have hlt : ∀ c, (s.bench.client c).registered = true → c.val < (bits mask).card := by
    intro c hc
    obtain ⟨m, hm⟩ := Option.isSome_iff_exists.mp (h.registered c hc)
    obtain ⟨i, hi, -⟩ := h.placed c m hm
    rw [← cpuList_length]
    exact (List.getElem?_eq_some_iff.mp hi).1
  refine ⟨h.placed, fun c d m hc hd => ?_, hlt, fun ⟨c, hc⟩ => ?_⟩
  · obtain ⟨i, hi, rfl⟩ := h.placed c m hc
    obtain ⟨j, hj, hij⟩ := h.placed d _ hd
    have hsmall : ∀ {k k'}, (cpuList mask)[k]? = some k' → k' < 64 := fun hk =>
      lt_of_mem_bits ((Finset.mem_sort _).mp (List.mem_of_getElem? hk))
    obtain rfl := oneAt_injective (hsmall hi) (hsmall hj) hij
    have hplace : c.val < (cpuList mask).length := (List.getElem?_eq_some_iff.mp hi).1
    exact Fin.ext ((List.getElem?_inj hplace (Finset.sort_nodup _ _)).mp (hi.trans hj.symm))
  · have hcount := h.bench.released c (by rw [hc]; rfl)
    by_contra hmore
    have hpos : 0 < n := Nat.lt_of_le_of_lt (Nat.zero_le _) c.isLt
    have hlast : (bits mask).card < n := Nat.lt_of_not_le hmore
    have hreg := ClientPc.registered_of_counted
      ((h.bench.counted ⟨_, hlast⟩).mpr (hlast.trans_eq hcount.symm))
    exact Nat.lt_irrefl _ (hlt _ hreg)

/-- Two clients on a machine whose CPUs 1 and 2 are given away. -/
theorem cpus_in_order_two : ∃ s : Deployment 2, s.cpuOf 1 = some 4 ∧
    ∃ i, (cpuList 6)[1]? = some i ∧ (4 : Word) = oneAt 64 i := by
  have hreg₀ : opRegisterClient platform₀ {} { available := 6 } =
      ⟨.ok 0, { available := 4, clients := [2] }, []⟩ := rfl
  have hreg₁ : opRegisterClient platform₀ {} { available := 4, clients := [2] } =
      ⟨.ok 0, { available := 0, clients := [4, 2] }, []⟩ := rfl
  have hrun : ∃ (ls : List (Event 2)) (s : Deployment 2),
      Run (DeploymentStep platform₀) (.start 2 6) ls s ∧ s.cpuOf 1 = some 4 := by
    refine ⟨_, _, Run.snoc (Run.snoc (Run.snoc (Run.snoc (Run.snoc (Run.snoc (Run.snoc (Run.snoc
      (Run.snoc (Run.snoc (Run.snoc (Run.snoc (Run.snoc (Run.snoc (Run.snoc .nil
      (.thread ⟨by decide, .mainLock rfl rfl⟩ (fun _ h => by cases h)))
      (.thread ⟨by decide, .mainPass rfl rfl⟩ (fun _ h => by cases h)))
      (.thread ⟨by decide, .mainUnlock rfl⟩ (fun _ h => by cases h)))
      (.thread ⟨by decide, .start (c := 0) rfl⟩ (fun _ h => by cases h)))
      (.register (c := 0) rfl rfl hreg₀ ⟨by decide, .register rfl⟩))
      (.thread ⟨by decide, .lock (c := 0) rfl rfl⟩ (fun _ h => by cases h; decide)))
      (.thread ⟨by decide, .count (c := 0) rfl⟩ (fun _ h => by cases h; decide)))
      (.thread ⟨by decide, .notifyMain (c := 0) rfl⟩ (fun _ h => by cases h; decide)))
      (.thread ⟨by decide, .fail (c := 0) rfl (by decide)⟩ (fun _ h => by cases h; decide)))
      (.thread ⟨by decide, .park (c := 0) rfl⟩ (fun _ h => by cases h; decide)))
      (.thread ⟨by decide, .mainLock rfl rfl⟩ (fun _ h => by cases h)))
      (.thread ⟨by decide, .mainPass rfl rfl⟩ (fun _ h => by cases h)))
      (.thread ⟨by decide, .mainUnlock rfl⟩ (fun _ h => by cases h)))
      (.thread ⟨by decide, .start (c := 1) rfl⟩ (fun _ h => by cases h)))
      (.register (c := 1) rfl rfl hreg₁ ⟨by decide, .register rfl⟩), rfl⟩
  obtain ⟨ls, s, hrun, hcpu⟩ := hrun
  exact ⟨s, hcpu, (cpus_in_order hrun).1 1 4 hcpu⟩

end MettEagle.Benchmark
