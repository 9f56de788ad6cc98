/-
# `MettEagle.Benchmark` — the start barrier of the benchmark client

The benchmark starts its clients one after the other and lets them measure
together.  Two condition variables and one counter, `waiting_count`, do both:

    serialize_clients    main waits before it starts client `i` until the
                         counter is `i`; a client that has registered adds one
                         and notifies
    sync_clients         a client waits until the counter is `THREAD_NUM`, and
                         when it got past it notifies ONE other

Main and the clients are threads of one machine, a step is what a thread does
between two points at which another may run: an operation on the mutex or on a
condition variable, an update or a test of the counter.  A wait is split where
its predicate was false and the thread has not blocked yet (`parking`): only the
mutex keeps the counter from changing there.

`notify_one` wakes one of the threads that wait, any of them, and nobody if none
waits; a waiting thread may also wake up by itself.
-/
import MettEagle.Lib.Run
import Mathlib.Data.Fin.Basic
import Mathlib.Logic.Function.Basic

namespace MettEagle.Benchmark

/-! ## The threads -/

/-- Where a client is in `benchmark`. -/
inductive ClientPc where
  | notStarted
  /-- `getManager`, `action_create` -/
  | registering
  /-- `unique_lock lk (mutex)` -/
  | locking
  /-- `waiting_count++` -/
  | counting
  /-- `serialize_clients.notify_one ()` -/
  | notifyMain
  /-- `sync_clients.wait`: the predicate, false and not blocked yet, blocked, and woken -/
  | testing
  | parking
  | waiting
  | woken
  /-- `lk.unlock ()` -/
  | unlocking
  /-- `sync_clients.notify_one ()` -/
  | notifyNext
  /-- the measurement loop -/
  | measuring
  | finished
deriving DecidableEq

/-- Where `main` is; `i` is the loop variable. -/
inductive MainPc where
  | locking (i : ℕ)
  | testing (i : ℕ)
  | parking (i : ℕ)
  | waiting (i : ℕ)
  | woken (i : ℕ)
  | unlocking (i : ℕ)
  /-- `pthread_create`, `run_thread` -/
  | starting (i : ℕ)
  /-- `pthread_join` -/
  | joining (i : ℕ)
  /-- the process has ended -/
  | exited
deriving DecidableEq

inductive Thread (n : ℕ) where
  | main
  | client (c : Fin n)
deriving DecidableEq

/-- `THREAD_NUM` is `n`. -/
structure State (n : ℕ) where
  main : MainPc
  client : Fin n → ClientPc
  /-- who has the mutex -/
  owner : Option (Thread n) := none
  /-- `waiting_count` -/
  count : ℕ := 0

/-- The head of the loop that starts the clients. -/
def loop (n i : ℕ) : MainPc := if i < n then .locking i else .joining 0

theorem loop_cases (n i : ℕ) :
    (i < n ∧ loop n i = .locking i) ∨ (n ≤ i ∧ loop n i = .joining 0) := by
  by_cases h : i < n
  · exact Or.inl ⟨h, if_pos h⟩
  · exact Or.inr ⟨Nat.le_of_not_lt h, if_neg h⟩

def init (n : ℕ) : State n where
  main := loop n 0
  client := fun _ => .notStarted

variable {n : ℕ}

namespace State

def moveMain (s : State n) (pc : MainPc) (o : Option (Thread n)) : State n :=
  { s with main := pc, owner := o }

def move (s : State n) (c : Fin n) (pc : ClientPc) (o : Option (Thread n)) : State n :=
  { s with client := Function.update s.client c pc, owner := o }

/-- `waiting_count++`. -/
def increment (s : State n) : State n := { s with count := s.count + 1 }

/-- `serialize_clients.notify_one ()`: only main waits there. -/
def wakeMain (s : State n) : State n :=
  match s.main with
  | .waiting i => s.moveMain (.woken i) s.owner
  | _ => s

end State

/-- One step of a thread. -/
inductive Step : State n → Thread n → State n → Prop
  | register {s : State n} {c : Fin n} : s.client c = .registering →
      Step s (.client c) (s.move c .locking s.owner)
  | lock {s : State n} {c : Fin n} : s.client c = .locking → s.owner = none →
      Step s (.client c) (s.move c .counting (some (.client c)))
  | count {s : State n} {c : Fin n} : s.client c = .counting →
      Step s (.client c) (s.move c .notifyMain s.owner).increment
  | notifyMain {s : State n} {c : Fin n} : s.client c = .notifyMain →
      Step s (.client c) (s.wakeMain.move c .testing s.owner)
  | pass {s : State n} {c : Fin n} : s.client c = .testing → s.count = n →
      Step s (.client c) (s.move c .unlocking s.owner)
  | fail {s : State n} {c : Fin n} : s.client c = .testing → s.count ≠ n →
      Step s (.client c) (s.move c .parking s.owner)
  | park {s : State n} {c : Fin n} : s.client c = .parking →
      Step s (.client c) (s.move c .waiting none)
  | spurious {s : State n} {c : Fin n} : s.client c = .waiting →
      Step s (.client c) (s.move c .woken s.owner)
  | relock {s : State n} {c : Fin n} : s.client c = .woken → s.owner = none →
      Step s (.client c) (s.move c .testing (some (.client c)))
  | unlock {s : State n} {c : Fin n} : s.client c = .unlocking →
      Step s (.client c) (s.move c .notifyNext none)
  | notifyNext {s : State n} {c d : Fin n} : s.client c = .notifyNext → s.client d = .waiting →
      Step s (.client c) ((s.move d .woken s.owner).move c .measuring s.owner)
  | notifyNobody {s : State n} {c : Fin n} : s.client c = .notifyNext →
      (∀ d, s.client d ≠ .waiting) → Step s (.client c) (s.move c .measuring s.owner)
  | measured {s : State n} {c : Fin n} : s.client c = .measuring →
      Step s (.client c) (s.move c .finished s.owner)
  | mainLock {s : State n} {i : ℕ} : s.main = .locking i → s.owner = none →
      Step s .main (s.moveMain (.testing i) (some .main))
  | mainPass {s : State n} {i : ℕ} : s.main = .testing i → s.count = i →
      Step s .main (s.moveMain (.unlocking i) s.owner)
  | mainFail {s : State n} {i : ℕ} : s.main = .testing i → s.count ≠ i →
      Step s .main (s.moveMain (.parking i) s.owner)
  | mainPark {s : State n} {i : ℕ} : s.main = .parking i →
      Step s .main (s.moveMain (.waiting i) none)
  | mainSpurious {s : State n} {i : ℕ} : s.main = .waiting i →
      Step s .main (s.moveMain (.woken i) s.owner)
  | mainRelock {s : State n} {i : ℕ} : s.main = .woken i → s.owner = none →
      Step s .main (s.moveMain (.testing i) (some .main))
  | mainUnlock {s : State n} {i : ℕ} : s.main = .unlocking i →
      Step s .main (s.moveMain (.starting i) none)
  | start {s : State n} {c : Fin n} : s.main = .starting c →
      Step s .main ((s.move c .registering s.owner).moveMain (loop n (c + 1)) s.owner)
  | startFails {s : State n} {i : ℕ} : s.main = .starting i →
      Step s .main (s.moveMain .exited s.owner)
  | join {s : State n} {c : Fin n} : s.main = .joining c → s.client c = .finished →
      Step s .main (s.moveMain (.joining (c + 1)) s.owner)
  | exit {s : State n} : s.main = .joining n → Step s .main (s.moveMain .exited s.owner)

/-- The steps of the process: it ends with main. -/
def Next (s : State n) (t : Thread n) (s' : State n) : Prop := s.main ≠ .exited ∧ Step s t s'

/-! ## What is asked of it -/

/-- The client has registered and created its action. -/
def ClientPc.registered : ClientPc → Bool
  | .notStarted | .registering => false
  | _ => true

/-- A thread that was started and has not ended. -/
def Unfinished (s : State n) : Thread n → Prop
  | .main => s.main ≠ .exited
  | .client c => s.main ≠ .exited ∧ s.client c ≠ .notStarted ∧ s.client c ≠ .finished

/-- A thread that cannot go on by itself: it waits on a condition variable, for the mutex, or for
a client that has not finished. -/
inductive Blocked (s : State n) : Thread n → Prop
  | wait {c : Fin n} : s.client c = .waiting → Blocked s (.client c)
  | mutex {c : Fin n} : s.client c = .locking ∨ s.client c = .woken → s.owner ≠ none →
      Blocked s (.client c)
  | mainWait {i : ℕ} : s.main = .waiting i → Blocked s .main
  | mainMutex {i : ℕ} : s.main = .locking i ∨ s.main = .woken i → s.owner ≠ none → Blocked s .main
  | join {c : Fin n} : s.main = .joining c → s.client c ≠ .finished → Blocked s .main

/-- Somebody has not finished, and nobody who has not can go on. -/
def Deadlock (s : State n) : Prop :=
  (∃ t, Unfinished s t) ∧ ∀ t, Unfinished s t → Blocked s t

/-! ## The invariant -/

namespace ClientPc

def started : ClientPc → Bool
  | .notStarted => false
  | _ => true

/-- Its `waiting_count++` is done. -/
def counted : ClientPc → Bool
  | .notStarted | .registering | .locking | .counting => false
  | _ => true

/-- It got past the barrier. -/
def released : ClientPc → Bool
  | .unlocking | .notifyNext | .measuring | .finished => true
  | _ => false

/-- It was counted, does not wait and has not notified anybody yet. -/
def carries : ClientPc → Bool
  | .notifyMain | .testing | .woken | .unlocking | .notifyNext => true
  | _ => false

/-- It has the mutex. -/
def holds : ClientPc → Bool
  | .counting | .notifyMain | .testing | .parking | .unlocking => true
  | _ => false

end ClientPc

namespace MainPc

/-- The loop variable, while clients are being started. -/
def index : MainPc → Option ℕ
  | .locking i | .testing i | .parking i | .waiting i | .woken i | .unlocking i | .starting i =>
      some i
  | .joining _ | .exited => none

/-- It got past the wait for client `i - 1`. -/
def passed : MainPc → Option ℕ
  | .unlocking i | .starting i => some i
  | _ => none

def holds : MainPc → Bool
  | .testing _ | .parking _ | .unlocking _ => true
  | _ => false

end MainPc

theorem loop_quiet (n i : ℕ) : (loop n i).holds = false ∧ (loop n i).passed = none ∧
    (∀ j, loop n i ≠ .parking j) ∧ ∀ j, loop n i ≠ .waiting j := by
  rcases loop_cases n i with ⟨-, h⟩ | ⟨-, h⟩ <;> rw [h] <;> exact ⟨rfl, rfl, nofun, nofun⟩

def State.holds (s : State n) : Thread n → Bool
  | .main => s.main.holds
  | .client c => (s.client c).holds

/-- Clients are started and counted in their order, main and the clients stand where the counter
allows it, and whoever waits although the counter is there will be notified: main by the client
that counted last, a client by a chain of clients each of which notifies the next. -/
structure Inv (s : State n) : Prop where
  mutex : ∀ t, s.owner = some t ↔ s.holds t = true
  count_le : s.count ≤ n
  order : ∀ c, (s.client c).started = true → c.val ≤ s.count
  counted : ∀ c, (s.client c).counted = true ↔ c.val < s.count
  released : ∀ c, (s.client c).released = true → s.count = n
  parking : ∀ c, s.client c = .parking → s.count ≠ n
  index : ∀ i, s.main.index = some i → i < n ∧ ∀ c, (s.client c).started = true ↔ c.val < i
  passed : ∀ i, s.main.passed = some i → s.count = i
  mainParking : ∀ i, s.main = .parking i → s.count ≠ i
  joining : ∀ i, s.main = .joining i → i ≤ n ∧ ∀ c, (s.client c).started = true
  wake : ∀ i, s.main = .waiting i → s.count = i → ∃ c, s.client c = .notifyMain
  chain : s.count = n → ∀ c, s.client c = .waiting → ∃ d, (s.client d).carries = true

theorem ClientPc.started_of_counted {pc : ClientPc} (h : pc.counted = true) : pc.started = true := by
  cases pc <;> first | rfl | cases h

/-! ## Deadlock freedom -/

/-- Who has the mutex can go on. -/
theorem State.not_blocked_of_holds {s : State n} {t : Thread n} (h : s.holds t = true) :
    ¬Blocked s t := by
  intro hb
  cases hb with
  | wait hc => simp [State.holds, hc, ClientPc.holds] at h
  | mutex hc _ => rcases hc with hc | hc <;> simp [State.holds, hc, ClientPc.holds] at h
  | mainWait hm => simp [State.holds, hm, MainPc.holds] at h
  | mainMutex hm _ => rcases hm with hm | hm <;> simp [State.holds, hm, MainPc.holds] at h
  | join hm _ => simp [State.holds, hm, MainPc.holds] at h

theorem State.unfinished_of_holds {s : State n} {t : Thread n} (hlive : s.main ≠ .exited)
    (h : s.holds t = true) : Unfinished s t := by
  cases t with
  | main => exact hlive
  | client c =>
      refine ⟨hlive, fun hc => ?_, fun hc => ?_⟩ <;> simp [State.holds, hc, ClientPc.holds] at h

namespace Inv

variable {s : State n}

/-- If every client that was started is counted, then all that were started are. -/
theorem count_eq (h : Inv s) {k : ℕ} (hk : k ≤ n)
    (hstarted : ∀ c, (s.client c).started = true ↔ c.val < k)
    (hall : ∀ c, (s.client c).started = true → (s.client c).counted = true) : s.count = k := by
  rcases Nat.lt_trichotomy s.count k with hlt | heq | hgt
  · have hc := hall ⟨s.count, hlt.trans_le hk⟩ ((hstarted _).mpr hlt)
    exact absurd ((h.counted _).mp hc) (Nat.lt_irrefl _)
  · exact heq
  · have hc := (h.counted ⟨k, hgt.trans_le h.count_le⟩).mpr hgt
    exact absurd ((hstarted _).mp (ClientPc.started_of_counted hc)) (Nat.lt_irrefl _)

/-- If everybody were blocked, nobody would have the mutex, and every client would wait at the
barrier or have finished.  Then the counter is what main or the clients wait for, and who was to
notify them is none of these. -/
theorem not_deadlock (h : Inv s) : ¬Deadlock s := by
  rintro ⟨⟨t, ht⟩, hall⟩
  have hlive : s.main ≠ .exited := by
    cases t with
    | main => exact ht
    | client c => exact ht.1
  have hfree : s.owner = none := by
    by_contra hne
    obtain ⟨t, ht⟩ := Option.ne_none_iff_exists'.mp hne
    have hholds := (h.mutex t).mp ht
    exact State.not_blocked_of_holds hholds (hall t (State.unfinished_of_holds hlive hholds))
  have hclient : ∀ c, (s.client c).started = true →
      s.client c = .waiting ∨ s.client c = .finished := by
    intro c hc
    by_cases hfin : s.client c = .finished
    · exact Or.inr hfin
    · have hne : s.client c ≠ .notStarted := fun h0 => by simp [h0, ClientPc.started] at hc
      cases hall (.client c) ⟨hlive, hne, hfin⟩ with
      | wait hw => exact Or.inl hw
      | mutex _ howner => exact absurd hfree howner
  have hcounted : ∀ c, (s.client c).started = true → (s.client c).counted = true := by
    intro c hc
    rcases hclient c hc with hw | hw <;> rw [hw] <;> rfl
  cases hall .main hlive with
  | @mainWait i hm =>
      obtain ⟨hi, hstarted⟩ := h.index i (by rw [hm]; rfl)
      obtain ⟨c, hc⟩ := h.wake i hm (h.count_eq hi.le hstarted hcounted)
      rcases hclient c (by rw [hc]; rfl) with hw | hw <;> rw [hc] at hw <;> cases hw
  | mainMutex _ howner => exact howner hfree
  | @join c hm hfin =>
      have hstarted := (h.joining c hm).2
      have hcount : s.count = n :=
        h.count_eq le_rfl (fun d => iff_of_true (hstarted d) d.isLt) hcounted
      have hwait := (hclient c (hstarted c)).resolve_right hfin
      obtain ⟨d, hd⟩ := h.chain hcount c hwait
      rcases hclient d (hstarted d) with hw | hw <;> rw [hw] at hd <;> cases hd

end Inv

/-! ## One step -/

/-- What a thread does to the mutex: nothing, take it, or give it back. -/
inductive Locking (t : Thread n) : Option (Thread n) → Option (Thread n) → Bool → Bool → Prop
  | keep {o : Option (Thread n)} {b : Bool} : Locking t o o b b
  | acquire {b : Bool} : Locking t none (some t) b true
  | release {o : Option (Thread n)} : Locking t o none true false

theorem mutex_step {s s' : State n} {t : Thread n} (h : ∀ u, s.owner = some u ↔ s.holds u = true)
    (hother : ∀ u ≠ t, s'.holds u = s.holds u)
    (hl : Locking t s.owner s'.owner (s.holds t) (s'.holds t)) :
    ∀ u, s'.owner = some u ↔ s'.holds u = true := by
  intro u
  by_cases hu : u = t
  · subst hu
    generalize s'.owner = o', s'.holds u = b', hb : s.holds u = b, ho : s.owner = o at hl
    cases hl with
    | keep => rw [← ho, ← hb]; exact h u
    | acquire => exact iff_of_true rfl rfl
    | release => exact iff_of_false nofun nofun
  · rw [hother u hu, ← h u]
    generalize s'.owner = o', s'.holds t = b', hb : s.holds t = b, ho : s.owner = o at hl ⊢
    cases hl with
    | keep => rfl
    | acquire => exact iff_of_false (fun he => hu (Option.some.inj he).symm) nofun
    | release =>
        -- only one thread has it
        have howner := (h t).mpr hb
        rw [← ho, howner]
        exact iff_of_false nofun fun he => hu (Option.some.inj he).symm

namespace State

variable {s : State n} {c : Fin n} {q : ClientPc} {o : Option (Thread n)}

theorem wakeMain_client : s.wakeMain.client = s.client := by
  unfold wakeMain
  split <;> rfl

theorem wakeMain_owner : s.wakeMain.owner = s.owner := by
  unfold wakeMain
  split <;> rfl

theorem wakeMain_main (i : ℕ) : s.wakeMain.main ≠ .waiting i := by
  unfold wakeMain
  split
  · exact nofun
  · rename_i hne
    exact hne i

@[simp] theorem move_self : (s.move c q o).client c = q := Function.update_self ..

theorem move_of_ne {d : Fin n} (h : d ≠ c) : (s.move c q o).client d = s.client d :=
  Function.update_of_ne h ..

theorem holds_move {u : Thread n} (h : u ≠ .client c) : (s.move c q o).holds u = s.holds u := by
  cases u with
  | main => rfl
  | client d =>
      have hne : d ≠ c := fun hd => h (hd ▸ rfl)
      exact congrArg ClientPc.holds (move_of_ne hne)

theorem holds_increment {u : Thread n} : s.increment.holds u = s.holds u := by
  cases u <;> rfl

theorem holds_moveMain {q : MainPc} {u : Thread n} (h : u ≠ .main) :
    (s.moveMain q o).holds u = s.holds u := by
  cases u with
  | main => exact absurd rfl h
  | client d => rfl

end State

namespace Inv

variable {s : State n} {o : Option (Thread n)}

/-- A client goes on, and was neither started nor counted by that. -/
theorem move (h : Inv s) {c : Fin n} {p q : ClientPc} (hp : s.client c = p)
    (hl : Locking (.client c) s.owner o p.holds q.holds)
    (hstarted : q.started = p.started) (hcounted : q.counted = p.counted)
    (hreleased : q.released = true → s.count = n) (hparking : q = .parking → s.count ≠ n)
    (hwaiting : q = .waiting → s.count ≠ n) (hwake : p = .notifyMain → ∀ i, s.main ≠ .waiting i)
    (hchain : p.carries = true → q.carries = true ∨ s.count ≠ n ∨
      (∃ d, d ≠ c ∧ (s.client d).carries = true) ∨ ∀ d, s.client d ≠ .waiting) :
    Inv (s.move c q o) := by
  subst hp
  have hstarted' : ∀ d, ((s.move c q o).client d).started = (s.client d).started :=
    (Function.forall_update_iff s.client fun d pc => pc.started = (s.client d).started).mpr
      ⟨hstarted, fun _ _ => rfl⟩
  have hcounted' : ∀ d, ((s.move c q o).client d).counted = (s.client d).counted :=
    (Function.forall_update_iff s.client fun d pc => pc.counted = (s.client d).counted).mpr
      ⟨hcounted, fun _ _ => rfl⟩
  refine ⟨mutex_step h.mutex (t := .client c) (fun u hu => State.holds_move hu) ?_, h.count_le,
    fun d hd => h.order d (hstarted' d ▸ hd), fun d => ?_, ?_, ?_, fun i hi => ?_, h.passed,
    h.mainParking, fun i hi => ⟨(h.joining i hi).1, fun d => ?_⟩, fun i hi hcount => ?_,
    fun hcount d hd => ?_⟩
  · show Locking _ s.owner o (s.client c).holds ((s.move c q o).client c).holds
    rwa [State.move_self]
  · rw [hcounted' d]
    exact h.counted d
  · exact (Function.forall_update_iff s.client fun _ pc => pc.released = true → s.count = n).mpr
      ⟨hreleased, fun d _ => h.released d⟩
  · exact (Function.forall_update_iff s.client fun _ pc => pc = .parking → s.count ≠ n).mpr
      ⟨hparking, fun d _ => h.parking d⟩
  · refine ⟨(h.index i hi).1, fun d => ?_⟩
    rw [hstarted' d]
    exact (h.index i hi).2 d
  · rw [hstarted' d]
    exact (h.joining i hi).2 d
  · obtain ⟨d, hd⟩ := h.wake i hi hcount
    have hne : d ≠ c := fun hdc => hwake (hdc ▸ hd) i hi
    exact ⟨d, (State.move_of_ne hne).trans hd⟩
  · have hdc : d ≠ c := by
      rintro rfl
      rw [State.move_self] at hd
      exact hwaiting hd hcount
    rw [State.move_of_ne hdc] at hd
    obtain ⟨e, he⟩ := h.chain hcount d hd
    by_cases hec : e = c
    · subst hec
      rcases hchain he with hq | hne | ⟨e', hne, he'⟩ | hnone
      · exact ⟨e, by rwa [State.move_self]⟩
      · exact absurd hcount hne
      · exact ⟨e', by rwa [State.move_of_ne hne]⟩
      · exact absurd hd (hnone d)
    · exact ⟨e, by rwa [State.move_of_ne hec]⟩

/-- Main goes on, and no client was started by that. -/
theorem moveMain (h : Inv s) {p q : MainPc} (hp : s.main = p)
    (hl : Locking .main s.owner o p.holds q.holds)
    (hindex : ∀ i, q.index = some i → p.index = some i)
    (hpassed : ∀ i, q.passed = some i → s.count = i) (hparking : ∀ i, q = .parking i → s.count ≠ i)
    (hwaiting : ∀ i, q = .waiting i → s.count ≠ i)
    (hjoining : ∀ i, q = .joining i → i ≤ n ∧ ∃ j, p = .joining j) : Inv (s.moveMain q o) where
  mutex := by
    subst hp
    exact mutex_step h.mutex (t := .main) (fun u hu => State.holds_moveMain hu) hl
  count_le := h.count_le
  order := h.order
  counted := h.counted
  released := h.released
  parking := h.parking
  index i hi := h.index i (hp ▸ hindex i hi)
  passed := hpassed
  mainParking := hparking
  joining i hi := by
    obtain ⟨hle, j, hj⟩ := hjoining i hi
    exact ⟨hle, (h.joining j (hp.trans hj)).2⟩
  wake i hi hcount := absurd hcount (hwaiting i hi)
  chain := h.chain

/-- A client that counts is the one the counter stands at. -/
theorem val_eq_count (h : Inv s) {c : Fin n} (hc : s.client c = .counting) : c.val = s.count := by
  have hle := h.order c (by rw [hc]; rfl)
  have hge : ¬c.val < s.count := fun hlt => by
    have hcounted := (h.counted c).mpr hlt
    rw [hc] at hcounted
    cases hcounted
  omega

/-- `waiting_count++`.  The client has the mutex, so nobody stands between a test of the counter
and its wait. -/
theorem count (h : Inv s) {c : Fin n} (hc : s.client c = .counting) :
    Inv (s.move c .notifyMain s.owner).increment := by
  have hval := h.val_eq_count hc
  have hlt : s.count < n := hval ▸ c.isLt
  have hholds : s.holds (.client c) = true := by
    show (s.client c).holds = true
    rw [hc]
    rfl
  have hself : ∀ t, s.holds t = true → t = .client c := fun t ht =>
    Option.some.inj (((h.mutex t).mpr ht).symm.trans ((h.mutex _).mpr hholds))
  have hpassed : ∀ i, s.main.passed ≠ some i := by
    intro i hi
    have hindex : s.main.index = some i := by
      cases hm : s.main <;> rw [hm] at hi <;> first | exact hi | cases hi
    have hstarted := ((h.index i hindex).2 c).mp (by rw [hc]; rfl)
    exact absurd (h.passed i hi) (by omega)
  have hstarted : ∀ d, ((s.move c .notifyMain s.owner).client d).started = (s.client d).started :=
    (Function.forall_update_iff s.client fun d pc => pc.started = (s.client d).started).mpr
      ⟨by rw [hc]; rfl, fun _ _ => rfl⟩
  have hcounted : ∀ d, ((s.move c .notifyMain s.owner).client d).counted = true ↔
      d.val < s.count + 1 := by
    refine (Function.forall_update_iff s.client fun d pc => pc.counted = true ↔
      d.val < s.count + 1).mpr ⟨iff_of_true rfl (by omega), fun d hd => ?_⟩
    have hne : d.val ≠ s.count := fun hdc => hd (Fin.ext (hdc.trans hval.symm))
    rw [h.counted d]
    omega
  have hnotify : (s.move c .notifyMain s.owner).client c = .notifyMain := State.move_self
  constructor
  case mutex =>
    refine mutex_step h.mutex (t := .client c)
      (fun u hu => State.holds_increment.trans (State.holds_move hu)) ?_
    show Locking _ s.owner s.owner (s.client c).holds
      ((s.move c .notifyMain s.owner).client c).holds
    rw [hnotify, hc]
    exact .keep
  case count_le => exact hlt
  case order => exact fun d hd => (h.order d (hstarted d ▸ hd)).trans (Nat.le_succ _)
  case counted => exact hcounted
  case released =>
    refine (Function.forall_update_iff s.client fun _ pc => pc.released = true →
      s.count + 1 = n).mpr ⟨nofun, fun d _ hd => ?_⟩
    exact absurd (h.released d hd) hlt.ne
  case parking =>
    refine (Function.forall_update_iff s.client fun _ pc => pc = .parking →
      s.count + 1 ≠ n).mpr ⟨nofun, fun d hne hd => ?_⟩
    have hd' := hself (.client d) (by show (s.client d).holds = true; rw [hd]; rfl)
    cases hd'
    exact absurd rfl hne
  case index =>
    intro i hi
    refine ⟨(h.index i hi).1, fun d => ?_⟩
    exact (iff_of_eq (congrArg (· = true) (hstarted d))).trans ((h.index i hi).2 d)
  case passed => exact fun i hi => absurd hi (hpassed i)
  case mainParking =>
    intro i hi
    have hmain := hself .main (by show s.main.holds = true; rw [show s.main = _ from hi]; rfl)
    cases hmain
  case joining =>
    exact fun i hi => ⟨(h.joining i hi).1, fun d => (hstarted d).trans ((h.joining i hi).2 d)⟩
  case wake => exact fun i _ _ => ⟨c, hnotify⟩
  case chain => exact fun _ _ _ => ⟨c, congrArg ClientPc.carries hnotify⟩

/-- Main starts the client the counter stands at. -/
theorem start (h : Inv s) {c : Fin n} (hm : s.main = .starting c) :
    Inv ((s.move c .registering s.owner).moveMain (loop n (c + 1)) s.owner) := by
  obtain ⟨hlt, hindex⟩ := h.index c (by rw [hm]; rfl)
  have hcount : s.count = c := h.passed c (by rw [hm]; rfl)
  have hfresh : s.client c = .notStarted := by
    have hnot : ¬(s.client c).started = true := fun hc => Nat.lt_irrefl _ ((hindex c).mp hc)
    cases hpc : s.client c <;> rw [hpc] at hnot <;> first | rfl | exact absurd rfl hnot
  have hstarted : ∀ d, ((s.move c .registering s.owner).client d).started = true ↔
      d.val < c.val + 1 := by
    refine (Function.forall_update_iff s.client fun d pc => pc.started = true ↔
      d.val < c.val + 1).mpr ⟨iff_of_true rfl (Nat.lt_succ_self _), fun d hd => ?_⟩
    have hne : d.val ≠ c.val := fun hdc => hd (Fin.ext hdc)
    rw [hindex d]
    omega
  have hregistering : (s.move c .registering s.owner).client c = .registering := State.move_self
  have hquiet : ∀ b : ClientPc → Bool, b .registering = b .notStarted →
      ∀ d, b ((s.move c .registering s.owner).client d) = b (s.client d) := fun b hb =>
    (Function.forall_update_iff s.client fun d pc => b pc = b (s.client d)).mpr
      ⟨by rw [hfresh, hb], fun _ _ => rfl⟩
  obtain ⟨hholds, hpassed, hparking, hwaiting⟩ := loop_quiet n (c + 1)
  constructor
  case mutex =>
    have hmove := mutex_step (t := .client c) h.mutex (fun u hu => State.holds_move hu)
      (show Locking _ s.owner s.owner (s.client c).holds
        ((s.move c .registering s.owner).client c).holds by rw [hregistering, hfresh]; exact .keep)
    refine mutex_step (t := .main) hmove (fun u hu => State.holds_moveMain hu) ?_
    show Locking _ s.owner s.owner s.main.holds (loop n (c + 1)).holds
    rw [hm, hholds]
    exact .keep
  case count_le => exact h.count_le
  case order => exact fun d hd => (Nat.le_of_lt_succ ((hstarted d).mp hd)).trans_eq hcount.symm
  case counted =>
    intro d
    exact (iff_of_eq (congrArg (· = true) (hquiet ClientPc.counted rfl d))).trans (h.counted d)
  case released => exact fun d hd => h.released d (hquiet ClientPc.released rfl d ▸ hd)
  case parking => exact fun _ _ => (hcount.trans_lt hlt).ne
  case index =>
    intro i hi
    rcases loop_cases n (c + 1) with ⟨hnext, hloop⟩ | ⟨-, hloop⟩
    · obtain rfl : c.val + 1 = i := by
        have hi' : (loop n (c + 1)).index = some i := hi
        rw [hloop] at hi'
        exact Option.some.inj hi'
      exact ⟨hnext, hstarted⟩
    · have hi' : (loop n (c + 1)).index = some i := hi
      rw [hloop] at hi'
      cases hi'
  case passed => exact fun i hi => by cases hpassed.symm.trans hi
  case mainParking => exact fun i hi => absurd hi (hparking i)
  case joining =>
    intro i hi
    rcases loop_cases n (c + 1) with ⟨-, hloop⟩ | ⟨hall, hloop⟩
    · cases hloop.symm.trans hi
    · cases hloop.symm.trans hi
      exact ⟨Nat.zero_le n, fun d => (hstarted d).mpr (by omega)⟩
  case wake => exact fun i hi => absurd hi (hwaiting i)
  case chain => exact fun hn => absurd hn (hcount.trans_lt hlt).ne

/-- Before the loop nobody was started. -/
theorem init (n : ℕ) : Inv (Benchmark.init n) := by
  obtain ⟨hholds, hpassed, hparking, hwaiting⟩ := loop_quiet n 0
  constructor
  case mutex =>
    intro t
    refine iff_of_false nofun fun ht => ?_
    cases t with
    | main => cases hholds.symm.trans ht
    | client c => cases ht
  case count_le => exact Nat.zero_le n
  case order => exact fun _ hd => by cases hd
  case counted => exact fun c => iff_of_false nofun (Nat.not_lt_zero c)
  case released => exact fun _ hd => by cases hd
  case parking => exact fun _ hd => by cases hd
  case index =>
    intro i hi
    have hi' : (loop n 0).index = some i := hi
    rcases loop_cases n 0 with ⟨hn, hloop⟩ | ⟨-, hloop⟩ <;> rw [hloop] at hi' <;> cases hi'
    exact ⟨hn, fun c => iff_of_false nofun (Nat.not_lt_zero c)⟩
  case passed => exact fun i hi => by cases hpassed.symm.trans hi
  case mainParking => exact fun i hi => absurd hi (hparking i)
  case joining =>
    intro i hi
    rcases loop_cases n 0 with ⟨-, hloop⟩ | ⟨hn, hloop⟩
    · cases hloop.symm.trans hi
    · cases hloop.symm.trans hi
      exact ⟨Nat.zero_le n, fun c => absurd c.isLt (by omega)⟩
  case wake => exact fun i hi => absurd hi (hwaiting i)
  case chain => exact fun _ _ hd => by cases hd

/-- The notification of main. -/
theorem wakeMain (h : Inv s) : Inv s.wakeMain := by
  cases hm : s.main with
  | waiting i =>
      simp only [State.wakeMain, hm]
      exact h.moveMain hm .keep (fun _ hi => hi) nofun nofun nofun nofun
  | _ =>
      simp only [State.wakeMain, hm]
      exact h

/-- The client main starts was not started before. -/
theorem idle_of_starting (h : Inv s) {i : ℕ} (hm : s.main = .starting i) :
    ∃ c : Fin n, c.val = i ∧ s.client c = .notStarted := by
  obtain ⟨hi, hstarted⟩ := h.index i (by rw [hm]; rfl)
  have hnot : (s.client ⟨i, hi⟩).started ≠ true := mt (hstarted ⟨i, hi⟩).mp (Nat.lt_irrefl i)
  refine ⟨⟨i, hi⟩, rfl, ?_⟩
  cases hc : s.client ⟨i, hi⟩ <;> first | rfl | (rw [hc] at hnot; exact absurd rfl hnot)

/-- **Step.** -/
theorem step (h : Inv s) {t : Thread n} {s' : State n} (hstep : Step s t s') : Inv s' := by
  cases hstep with
  | register hc => exact h.move hc .keep rfl rfl nofun nofun nofun nofun nofun
  | lock hc howner => exact h.move hc (howner ▸ .acquire) rfl rfl nofun nofun nofun nofun nofun
  | count hc => exact h.count hc
  | @notifyMain c hc =>
      have hc' : s.wakeMain.client c = .notifyMain := by rwa [State.wakeMain_client]
      rw [← State.wakeMain_owner]
      exact h.wakeMain.move hc' .keep rfl rfl nofun nofun nofun (fun _ => State.wakeMain_main)
        (fun _ => Or.inl rfl)
  | pass hc hcount =>
      exact h.move hc .keep rfl rfl (fun _ => hcount) nofun nofun nofun (fun _ => Or.inl rfl)
  | fail hc hcount =>
      exact h.move hc .keep rfl rfl nofun (fun _ => hcount) nofun nofun
        (fun _ => Or.inr (Or.inl hcount))
  | @park c hc =>
      exact h.move hc .release rfl rfl nofun nofun (fun _ => h.parking c hc) nofun nofun
  | spurious hc => exact h.move hc .keep rfl rfl nofun nofun nofun nofun nofun
  | relock hc howner =>
      exact h.move hc (howner ▸ .acquire) rfl rfl nofun nofun nofun nofun (fun _ => Or.inl rfl)
  | @unlock c hc =>
      exact h.move hc .release rfl rfl (fun _ => h.released c (by rw [hc]; rfl)) nofun nofun nofun
        (fun _ => Or.inl rfl)
  | @notifyNext c d hc hd =>
      -- the client that was woken carries the notification on
      have hne : c ≠ d := by
        rintro rfl
        cases hc.symm.trans hd
      have hwoken : Inv (s.move d .woken s.owner) :=
        h.move hd .keep rfl rfl nofun nofun nofun nofun nofun
      have hc' : (s.move d .woken s.owner).client c = .notifyNext :=
        (State.move_of_ne hne).trans hc
      exact hwoken.move hc' .keep rfl rfl (fun _ => h.released c (by rw [hc]; rfl)) nofun nofun nofun
        (fun _ => Or.inr (Or.inr (Or.inl ⟨d, hne.symm, by rw [State.move_self]; rfl⟩)))
  | @notifyNobody c hc hnone =>
      exact h.move hc .keep rfl rfl (fun _ => h.released c (by rw [hc]; rfl)) nofun nofun nofun
        (fun _ => Or.inr (Or.inr (Or.inr hnone)))
  | @measured c hc =>
      exact h.move hc .keep rfl rfl (fun _ => h.released c (by rw [hc]; rfl)) nofun nofun nofun
        nofun
  | mainLock hm howner =>
      exact h.moveMain hm (howner ▸ .acquire) (fun _ hi => hi) nofun nofun nofun nofun
  | mainPass hm hcount =>
      refine h.moveMain hm .keep (fun _ hi => hi) (fun j hj => ?_) nofun nofun nofun
      cases hj
      exact hcount
  | mainFail hm hcount =>
      refine h.moveMain hm .keep (fun _ hi => hi) nofun (fun j hj => ?_) nofun nofun
      cases hj
      exact hcount
  | @mainPark i hm =>
      refine h.moveMain hm .release (fun _ hi => hi) nofun nofun (fun j hj => ?_) nofun
      cases hj
      exact h.mainParking i hm
  | mainSpurious hm => exact h.moveMain hm .keep (fun _ hi => hi) nofun nofun nofun nofun
  | mainRelock hm howner =>
      exact h.moveMain hm (howner ▸ .acquire) (fun _ hi => hi) nofun nofun nofun nofun
  | @mainUnlock i hm =>
      refine h.moveMain hm .release (fun _ hi => hi) (fun j hj => ?_) nofun nofun nofun
      cases hj
      exact h.passed i (by rw [hm]; rfl)
  | start hm => exact h.start hm
  | startFails hm => exact h.moveMain hm .keep nofun nofun nofun nofun nofun
  | @join c hm _ =>
      refine h.moveMain hm .keep nofun nofun nofun nofun (fun i hi => ?_)
      cases hi
      exact ⟨c.isLt, _, rfl⟩
  | exit hm => exact h.moveMain hm .keep nofun nofun nofun nofun nofun

end Inv

/-- **Runs.** -/
theorem inv_run {ls : List (Thread n)} {s : State n} (hrun : Run Next (init n) ls s) : Inv s :=
  hrun.inv (I := fun _ s => Inv s) (Inv.init n) fun h hstep => h.step hstep.2

/-! ## The barrier -/

/-- Who has not finished and is not blocked has a step. -/
theorem Inv.exists_step {s : State n} (h : Inv s) {t : Thread n} (ht : Unfinished s t)
    (hfree : ¬Blocked s t) : ∃ s', Step s t s' := by
  cases t with
  | client c =>
      have howner : s.client c = .locking ∨ s.client c = .woken → s.owner = none := fun hc =>
        not_not.mp fun hne => hfree (.mutex hc hne)
      cases hc : s.client c with
      | notStarted => exact absurd hc ht.2.1
      | registering => exact ⟨_, .register hc⟩
      | locking => exact ⟨_, .lock hc (howner (Or.inl hc))⟩
      | counting => exact ⟨_, .count hc⟩
      | notifyMain => exact ⟨_, .notifyMain hc⟩
      | testing =>
          by_cases hcount : s.count = n
          · exact ⟨_, .pass hc hcount⟩
          · exact ⟨_, .fail hc hcount⟩
      | parking => exact ⟨_, .park hc⟩
      | waiting => exact absurd (.wait hc) hfree
      | woken => exact ⟨_, .relock hc (howner (Or.inr hc))⟩
      | unlocking => exact ⟨_, .unlock hc⟩
      | notifyNext =>
          by_cases hd : ∃ d, s.client d = .waiting
          · obtain ⟨d, hd⟩ := hd
            exact ⟨_, .notifyNext hc hd⟩
          · exact ⟨_, .notifyNobody hc fun d hd' => hd ⟨d, hd'⟩⟩
      | measuring => exact ⟨_, .measured hc⟩
      | finished => exact absurd hc ht.2.2
  | main =>
      have howner : ∀ {i}, s.main = .locking i ∨ s.main = .woken i → s.owner = none := fun hm =>
        not_not.mp fun hne => hfree (.mainMutex hm hne)
      cases hm : s.main with
      | locking i => exact ⟨_, .mainLock hm (howner (Or.inl hm))⟩
      | testing i =>
          by_cases hcount : s.count = i
          · exact ⟨_, .mainPass hm hcount⟩
          · exact ⟨_, .mainFail hm hcount⟩
      | parking i => exact ⟨_, .mainPark hm⟩
      | waiting i => exact absurd (.mainWait hm) hfree
      | woken i => exact ⟨_, .mainRelock hm (howner (Or.inr hm))⟩
      | unlocking i => exact ⟨_, .mainUnlock hm⟩
      | starting i => exact ⟨_, .startFails hm⟩
      | joining i =>
          rcases (h.joining i hm).1.lt_or_eq with hi | rfl
          · have hfin : s.client ⟨i, hi⟩ = .finished :=
              not_not.mp fun hne => hfree (.join (c := ⟨i, hi⟩) hm hne)
            exact ⟨_, .join (c := ⟨i, hi⟩) hm hfin⟩
          · exact ⟨_, .exit hm⟩
      | exited => exact absurd hm ht

theorem ClientPc.registered_of_counted {pc : ClientPc} (h : pc.counted = true) :
    pc.registered = true := by
  cases pc <;> first | rfl | cases h

/-- In every order of steps: a client is started after the one before it has registered, nobody
measures before all have, and the threads never all wait for each other. -/
theorem start_barrier {ls : List (Thread n)} {s : State n} (hrun : Run Next (init n) ls s) :
    (∀ c d : Fin n, d.val = c.val + 1 → s.client d ≠ .notStarted →
      (s.client c).registered = true) ∧
    (∀ c, s.client c = .measuring → ∀ d, (s.client d).registered = true) ∧ ¬Deadlock s := by
  have h := inv_run hrun
  refine ⟨fun c d hcd hd => ?_, fun c hc d => ?_, h.not_deadlock⟩
  · have hstarted : (s.client d).started = true := by
      cases hpc : s.client d <;> first | rfl | exact absurd hpc hd
    have hle := h.order d hstarted
    exact ClientPc.registered_of_counted ((h.counted c).mpr (by omega))
  · have hcount := h.released c (by rw [hc]; rfl)
    exact ClientPc.registered_of_counted ((h.counted d).mpr (d.isLt.trans_eq hcount.symm))

/-- Two clients, up to where main waits for the first. -/
theorem start_barrier_example :
    ∃ s : State 2, s.main = .waiting 1 ∧ s.client 0 = .registering ∧ ¬Deadlock s := by
  have hrun : ∃ s : State 2, Run Next (init 2) _ s ∧ s.main = .waiting 1 ∧
      s.client 0 = .registering :=
    ⟨_, ((((((Run.nil.snoc ⟨by decide, .mainLock rfl rfl⟩).snoc ⟨by decide, .mainPass rfl rfl⟩).snoc
      ⟨by decide, .mainUnlock rfl⟩).snoc ⟨by decide, .start (c := 0) rfl⟩).snoc
      ⟨by decide, .mainLock rfl rfl⟩).snoc ⟨by decide, .mainFail rfl (by decide)⟩).snoc
      ⟨by decide, .mainPark rfl⟩, rfl, rfl⟩
  obtain ⟨s, hrun, hm, hc⟩ := hrun
  exact ⟨s, hm, hc, (start_barrier hrun).2.2⟩

end MettEagle.Benchmark
