/-
# `MettEagle.CpuRace` — `available_cpus` under concurrency

The registry thread selects CPUs; the thread of each client frees its own when
the client disconnects.  Nothing serialises these calls.  Here every load and
every store of `available_cpus` is a step of its own:

    select   check     load, `none ()`         free   freeLoad    load of `|=`
             choose    load, `to_ullong ()`           freeStore   store of `|=`
             load      load of `&=`
             assign    store of `&=`

**Proved here.**  If every store finds the word its own call has loaded, the calls
have a serial order: a selection takes effect when it chooses its CPU, a free
when it stores.  Between the choice and the store of a selection the word still
shows the chosen CPU, so what the serial order has is the word without it.
-/
import MettEagle.Cpus

namespace MettEagle

/-! ## The machine -/

/-- Where the registry thread is in `select_client_cpu`. -/
inductive RegPc where
  | idle
  | checked
  | chosen (selected : Word)
  | storing (selected loaded : Word)
deriving DecidableEq

/-- A client thread: registered, or in `free_client_cpu` before or after its load. -/
inductive ClientPc where
  | live (m : Word)
  | freeing (m : Word)
  | storing (m loaded : Word)
deriving DecidableEq

/-- The bitmap the client's deletion handler has captured. -/
def ClientPc.mask : ClientPc → Word
  | .live m | .freeing m | .storing m _ => m

structure Race where
  word : Word
  reg : RegPc := .idle
  threads : List ClientPc := []
deriving DecidableEq

/-- The atomic steps.  `assign` and `freeStore` are the stores; `k` is the position of the
thread. -/
inductive CpuEvent where
  | check
  | fail
  | choose
  | load
  | assign (selected : Word)
  | disconnect
  | freeLoad
  | freeStore (k : ℕ) (m : Word)
deriving DecidableEq

inductive RaceStep : Race → CpuEvent → Race → Prop
  | check {s : Race} : s.reg = .idle → s.word ≠ 0 → RaceStep s .check { s with reg := .checked }
  | fail {s : Race} : s.reg = .idle → s.word = 0 → RaceStep s .fail s
  | choose {s : Race} : s.reg = .checked →
      RaceStep s .choose { s with reg := .chosen (lowestCpu s.word) }
  | load {s : Race} {sel : Word} : s.reg = .chosen sel →
      RaceStep s .load { s with reg := .storing sel s.word }
  | assign {s : Race} {sel x : Word} : s.reg = .storing sel x →
      RaceStep s (.assign sel)
        { word := x &&& ~~~sel, reg := .idle, threads := .live sel :: s.threads }
  | disconnect {s : Race} (l₁ : List ClientPc) {l₂ : List ClientPc} {m : Word} :
      s.threads = l₁ ++ .live m :: l₂ →
      RaceStep s .disconnect { s with threads := l₁ ++ .freeing m :: l₂ }
  | freeLoad {s : Race} (l₁ : List ClientPc) {l₂ : List ClientPc} {m : Word} :
      s.threads = l₁ ++ .freeing m :: l₂ →
      RaceStep s .freeLoad { s with threads := l₁ ++ .storing m s.word :: l₂ }
  | freeStore {s : Race} (l₁ : List ClientPc) {l₂ : List ClientPc} {m x : Word} :
      s.threads = l₁ ++ .storing m x :: l₂ →
      RaceStep s (.freeStore l₁.length m) { s with word := x ||| m, threads := l₁ ++ l₂ }

/-- A store finds the word that its own call has loaded. -/
def Unraced (s : Race) : CpuEvent → Prop
  | .assign sel => s.reg = .storing sel s.word
  | .freeStore k m => s.threads[k]? = some (.storing m s.word)
  | _ => True

/-! ## Calls -/

/-- The call an event completes, with what it returned. -/
def CpuEvent.call? : CpuEvent → Option CpuCall
  | .fail => some (.select none)
  | .assign sel => some (.select (some sel))
  | .freeStore _ m => some (.free m)
  | _ => none

/-- The calls completed along a run, in the order of their completion. -/
def calls (es : List CpuEvent) : List CpuCall := es.filterMap CpuEvent.call?

theorem calls_snoc (es : List CpuEvent) (e : CpuEvent) :
    calls (es ++ [e]) = calls es ++ e.call?.toList := by
  rw [calls, List.filterMap_append]
  cases h : e.call? with
  | none => simp [calls, h]
  | some c => simp [calls, h]

/-- The CPU a selection has chosen and not yet taken out of the word. -/
def RegPc.pending : RegPc → List Word
  | .chosen sel | .storing sel _ => [sel]
  | .idle | .checked => []

/-- The word without that CPU. -/
def RegPc.settle (word : Word) : RegPc → Word
  | .chosen sel | .storing sel _ => word &&& ~~~sel
  | .idle | .checked => word

/-- Some order of the completed calls, run one after the other, returns what they returned and
leaves the word and the clients as they are. -/
def Serialised (mask : Word) (es : List CpuEvent) (s : Race) : Prop :=
  ∃ cs a, cs.Perm (calls es) ∧ Run Serial { available := mask } cs a ∧ a.available = s.word ∧
    a.clients = s.threads.map ClientPc.mask

/-- The serial run that goes with a state of the machine: its calls are the completed ones and
the selection that has chosen, if there is one. -/
structure Linearised (mask : Word) (es : List CpuEvent) (s : Race) (cs : List CpuCall)
    (a : Cpus) : Prop where
  run : Run Serial { available := mask } cs a
  perm : cs.Perm (calls es ++ s.reg.pending.map fun sel => .select (some sel))
  clients : a.clients = s.reg.pending ++ s.threads.map ClientPc.mask
  available : a.available = s.reg.settle s.word
  nonzero : s.reg = .checked → s.word ≠ 0

/-! ## Disjointness -/

/-- Two clients hold different CPUs. -/
theorem Held.pairwise {mask : Word} {cpus : List ℕ} {s : Cpus} (h : Held mask cpus s) :
    s.clients.Pairwise fun x y => Disjoint (bits x) (bits y) := by
  rw [h.clients, List.pairwise_map]
  refine h.nodup.imp_of_mem fun {i j} hi hj hne => ?_
  rw [bits_oneAt (h.small i hi), bits_oneAt (h.small j hj), Finset.disjoint_singleton]
  exact hne

/-- Putting a CPU back commutes with taking another one out. -/
theorem settle_or {reg : RegPc} {word m : Word}
    (h : ∀ sel ∈ reg.pending, Disjoint (bits sel) (bits m)) :
    reg.settle (word ||| m) = reg.settle word ||| m := by
  have hcomm : ∀ sel, Disjoint (bits sel) (bits m) →
      (word ||| m) &&& ~~~sel = (word &&& ~~~sel) ||| m := by
    intro sel hdisj
    refine bits_injective ?_
    rw [bits_and_not, bits_or, bits_or, bits_and_not, Finset.union_sdiff_distrib,
      Finset.sdiff_eq_self_of_disjoint hdisj.symm]
  cases reg with
  | idle => rfl
  | checked => rfl
  | chosen sel => exact hcomm sel (h sel List.mem_cons_self)
  | storing sel x => exact hcomm sel (h sel List.mem_cons_self)

/-! ## Linearisation -/

namespace Linearised
variable {mask : Word} {es : List CpuEvent} {s s' : Race} {cs : List CpuCall} {a : Cpus}

/-- A step that completes no call and moves no CPU: the serial run stays as it is. -/
theorem stutter (h : Linearised mask es s cs a) {e : CpuEvent} (he : e.call? = none)
    (hpending : s'.reg.pending = s.reg.pending) (hword : s'.word = s.word)
    (hsettle : s'.reg.settle s.word = s.reg.settle s.word)
    (hthreads : s'.threads.map ClientPc.mask = s.threads.map ClientPc.mask)
    (hnonzero : s'.reg = .checked → s.word ≠ 0) : Linearised mask (es ++ [e]) s' cs a where
  run := h.run
  perm := by
    rw [calls_snoc, he, hpending]
    simpa using h.perm
  clients := by rw [hpending, hthreads, h.clients]
  available := by rw [hword, hsettle, h.available]
  nonzero := hword ▸ hnonzero

/-- The selection that finds nothing. -/
theorem fail (h : Linearised mask es s cs a) (hreg : s.reg = .idle) (hzero : s.word = 0) :
    Linearised mask (es ++ [.fail]) s (cs ++ [.select none]) a where
  run := by
    have havail : a.available = 0 := by rw [h.available, hreg, ← hzero]; rfl
    have hsel := selectClientCpu_apply a
    rw [if_pos havail] at hsel
    exact h.run.snoc (.fail hsel)
  perm := by
    have hperm := h.perm
    rw [hreg] at hperm ⊢
    rw [calls_snoc]
    simpa [RegPc.pending, CpuEvent.call?] using hperm.append_right [.select none]
  clients := h.clients
  available := h.available
  nonzero := h.nonzero

/-- A selection takes effect when it chooses. -/
theorem choose (h : Linearised mask es s cs a) (hreg : s.reg = .checked) :
    ∃ cs' a', Linearised mask (es ++ [.choose])
      { s with reg := .chosen (lowestCpu s.word) } cs' a' := by
  have havail : a.available = s.word := by rw [h.available, hreg]; rfl
  have hsel := selectClientCpu_apply a
  rw [if_neg (havail ▸ h.nonzero hreg), havail] at hsel
  refine ⟨_, _, h.run.snoc (.select hsel), ?_, ?_, ?_, fun hc => nomatch hc⟩
  · have hperm := h.perm
    rw [hreg] at hperm
    rw [calls_snoc]
    simpa [RegPc.pending, CpuEvent.call?] using hperm.append_right [.select (some _)]
  · have hclients := h.clients
    rw [hreg] at hclients
    simpa [RegPc.pending] using hclients
  · rfl

/-- Its store makes the word agree again. -/
theorem assign (h : Linearised mask es s cs a) {sel : Word} (hreg : s.reg = .storing sel s.word) :
    Linearised mask (es ++ [.assign sel])
      { word := s.word &&& ~~~sel, reg := .idle, threads := .live sel :: s.threads } cs a where
  run := h.run
  perm := by
    have hperm := h.perm
    rw [hreg] at hperm
    rw [calls_snoc]
    simpa [RegPc.pending, CpuEvent.call?] using hperm
  clients := by rw [h.clients, hreg]; rfl
  available := by rw [h.available, hreg]; rfl
  nonzero := fun hc => nomatch hc

/-- A free takes effect when it stores. -/
theorem freeStore (h : Linearised mask es s cs a) {l₁ l₂ : List ClientPc} {m : Word}
    (hthreads : s.threads = l₁ ++ .storing m s.word :: l₂) :
    ∃ cs' a', Linearised mask (es ++ [.freeStore l₁.length m])
      { s with word := s.word ||| m, threads := l₁ ++ l₂ } cs' a' := by
  have hclients : a.clients =
      (s.reg.pending ++ l₁.map ClientPc.mask) ++ m :: l₂.map ClientPc.mask := by
    rw [h.clients, hthreads, List.map_append, List.map_cons, List.append_assoc]
    rfl
  -- the CPU a selection has chosen is not the one given back
  have hdisj : ∀ sel ∈ s.reg.pending, Disjoint (bits sel) (bits m) := by
    obtain ⟨cpus, hheld⟩ := Serial.held h.run
    have hpair := hheld.pairwise
    rw [hclients, List.append_assoc, List.pairwise_append] at hpair
    intro sel hsel
    exact hpair.2.2 sel hsel m (List.mem_append_right _ List.mem_cons_self)
  refine ⟨_, _, h.run.snoc (.free hclients rfl), ?_, ?_, ?_, ?_⟩
  · rw [calls_snoc]
    have hperm := h.perm.append_right [.free m]
    rw [List.append_assoc] at hperm
    refine hperm.trans ?_
    rw [List.append_assoc]
    exact List.perm_append_comm.append_left _
  · rw [List.map_append, ← List.append_assoc]
  · show a.available ||| m = _
    rw [h.available, settle_or hdisj]
  · intro hc hzero
    refine h.nonzero hc ?_
    have hor : s.word ||| m = 0 := hzero
    have hbits : bits s.word ∪ bits m = ∅ := by rw [← bits_or, hor, bits_zero]
    exact bits_eq_empty.mp (Finset.union_eq_empty.mp hbits).1

/-- **Step.**  Every step whose store finds what was loaded keeps a serial run at hand. -/
theorem step (h : Linearised mask es s cs a) {e : CpuEvent} (hun : Unraced s e)
    (hstep : RaceStep s e s') : ∃ cs' a', Linearised mask (es ++ [e]) s' cs' a' := by
  cases hstep with
  | check hreg hne =>
      exact ⟨cs, a, h.stutter rfl (by rw [hreg]; rfl) rfl (by rw [hreg]; rfl) rfl fun _ => hne⟩
  | fail hreg hzero => exact ⟨_, _, h.fail hreg hzero⟩
  | choose hreg => exact h.choose hreg
  | load hreg =>
      exact ⟨cs, a, h.stutter rfl (by rw [hreg]; rfl) rfl (by rw [hreg]; rfl) rfl
        fun hc => nomatch hc⟩
  | assign hreg =>
      have hload := hreg.symm.trans hun
      cases hload
      exact ⟨cs, a, h.assign hreg⟩
  | disconnect l₁ hthreads =>
      refine ⟨cs, a, h.stutter rfl rfl rfl rfl ?_ h.nonzero⟩
      rw [hthreads, List.map_append, List.map_append]
      rfl
  | freeLoad l₁ hthreads =>
      refine ⟨cs, a, h.stutter rfl rfl rfl rfl ?_ h.nonzero⟩
      rw [hthreads, List.map_append, List.map_append]
      rfl
  | freeStore l₁ hthreads =>
      have hload : s.threads[l₁.length]? = some (.storing _ s.word) := hun
      rw [hthreads, List.getElem?_append_right (le_refl _), Nat.sub_self] at hload
      cases hload
      exact h.freeStore hthreads

end Linearised

/-- **Runs.**  If no store overwrites another call's, then whenever the registry thread is not
selecting, the completed calls have a serial order, no CPU is lost and none is held twice. -/
theorem calls_serialisable {mask : Word} {es : List CpuEvent} {s : Race}
    (hrun : Run (fun s e s' => Unraced s e ∧ RaceStep s e s') { word := mask } es s)
    (hidle : s.reg = .idle) :
    Serialised mask es s ∧
      ∃ cpus, Held mask cpus { available := s.word, clients := s.threads.map ClientPc.mask } := by
  obtain ⟨cs, a, h⟩ := hrun.inv (I := fun es s => ∃ cs a, Linearised mask es s cs a)
    ⟨[], { available := mask }, .nil, .nil, rfl, rfl, fun hc => nomatch hc⟩
    fun ⟨_, _, h⟩ hstep => h.step hstep.1 hstep.2
  have havail : a.available = s.word := by rw [h.available, hidle]; rfl
  have hclients : a.clients = s.threads.map ClientPc.mask := by rw [h.clients, hidle]; rfl
  refine ⟨⟨cs, a, ?_, h.run, havail, hclients⟩, ?_⟩
  · have hperm := h.perm
    rw [hidle] at hperm
    simpa [RegPc.pending] using hperm
  · rw [← havail, ← hclients]
    exact Serial.held h.run

/-- One client comes and goes, up to the store of its `free_client_cpu`. -/
theorem oneClient_run :
    Run (fun s e s' => Unraced s e ∧ RaceStep s e s') { word := 3 }
      [.check, .choose, .load, .assign 1, .disconnect, .freeLoad]
      { word := 2, threads := [.storing 1 2] } := by
  have hcheck : RaceStep { word := 3 } .check { word := 3, reg := .checked } :=
    .check rfl (by decide)
  have hchoose : RaceStep { word := 3, reg := .checked } .choose
      { word := 3, reg := .chosen 1 } := .choose rfl
  have hload : RaceStep { word := 3, reg := .chosen 1 } .load
      { word := 3, reg := .storing 1 3 } := .load rfl
  have hassign : RaceStep { word := 3, reg := .storing 1 3 } (.assign 1)
      { word := 2, threads := [.live 1] } := .assign (x := 3) rfl
  have hdisconnect : RaceStep { word := 2, threads := [.live 1] } .disconnect
      { word := 2, threads := [.freeing 1] } := .disconnect [] rfl
  have hfree : RaceStep { word := 2, threads := [.freeing 1] } .freeLoad
      { word := 2, threads := [.storing 1 2] } := .freeLoad [] rfl
  exact .snoc (.snoc (.snoc (.snoc (.snoc (.snoc .nil ⟨trivial, hcheck⟩) ⟨trivial, hchoose⟩)
    ⟨trivial, hload⟩) ⟨rfl, hassign⟩) ⟨trivial, hdisconnect⟩) ⟨trivial, hfree⟩

/-- A client comes and goes. -/
theorem calls_serialisable_alone :
    Serialised 3 [.check, .choose, .load, .assign 1, .disconnect, .freeLoad, .freeStore 0 1]
        { word := 3 } ∧
      ∃ cpus, Held 3 cpus { available := 3 } := by
  have hstore : RaceStep { word := 2, threads := [.storing 1 2] } (.freeStore 0 1)
      { word := 3 } := .freeStore [] (x := 2) rfl
  exact calls_serialisable (oneClient_run.snoc ⟨rfl, hstore⟩) rfl

/-- Two CPUs.  The client of CPU 0 disconnects and its thread loads the word; meanwhile CPU 1
is given to a new client; then the old client's store makes CPU 1 available again. -/
def lostUpdate : List CpuEvent :=
  [.check, .choose, .load, .assign 1, .disconnect, .freeLoad,
    .check, .choose, .load, .assign 2, .freeStore 1 1]

theorem lostUpdate_run :
    Run RaceStep { word := 3 } lostUpdate { word := 3, threads := [.live 2] } := by
  have hone := oneClient_run.imp fun h => h.2
  have hcheck : RaceStep { word := 2, threads := [.storing 1 2] } .check
      { word := 2, reg := .checked, threads := [.storing 1 2] } := .check rfl (by decide)
  have hchoose : RaceStep { word := 2, reg := .checked, threads := [.storing 1 2] } .choose
      { word := 2, reg := .chosen 2, threads := [.storing 1 2] } := .choose rfl
  have hload : RaceStep { word := 2, reg := .chosen 2, threads := [.storing 1 2] } .load
      { word := 2, reg := .storing 2 2, threads := [.storing 1 2] } := .load rfl
  have hassign : RaceStep { word := 2, reg := .storing 2 2, threads := [.storing 1 2] } (.assign 2)
      { word := 0, threads := [.live 2, .storing 1 2] } := .assign (x := 2) rfl
  have hstore : RaceStep { word := 0, threads := [.live 2, .storing 1 2] } (.freeStore 1 1)
      { word := 3, threads := [.live 2] } := .freeStore [.live 2] (x := 2) rfl
  exact ((((hone.snoc hcheck).snoc hchoose).snoc hload).snoc hassign).snoc hstore

theorem calls_serialisable_fails :
    ¬∀ (mask : Word) (es : List CpuEvent) (s : Race), Run RaceStep { word := mask } es s →
      s.reg = .idle → Serialised mask es s := by
  intro h
  obtain ⟨cs, a, _, hrun, havail, hclients⟩ := h 3 lostUpdate _ lostUpdate_run rfl
  -- in a serial run the CPU of the live client is not available
  obtain ⟨cpus, hheld⟩ := Serial.held hrun
  have hmissing := hheld.card_missing
  rw [havail, hclients] at hmissing
  exact absurd hmissing (by decide)

end MettEagle
