/-
# `MettEagle.BenchmarkEnds` — the benchmark comes to its end

`start_barrier` says that the threads of the benchmark never all wait for each other.  Here:
they cannot go on forever either.  `cost` is what is still to be done, and every step lowers
it but one: a thread that wakes up although nobody notified it may have to test, park and
sleep once more.

    cost, a client     falls from `notStarted` to `finished`; while the counter is not there
                       yet, a test costs more, since it leads back to the wait
    cost, main         the same in each turn of its loop, and one for each join

Who notifies pays for who is woken.  A run is then bounded by the number of spurious
wake-ups, and where no step is left the process has ended.
-/
import MettEagle.Benchmark
import Mathlib.Algebra.BigOperators.Group.Finset.Piecewise
import Mathlib.Algebra.Order.BigOperators.Group.Finset

namespace MettEagle.Benchmark

variable {n : ℕ}

/-! ## Steps of a sleeper -/

/-- It is blocked in a wait; if it takes a step, it woke up by itself. -/
def State.asleep (s : State n) : Thread n → Bool
  | .main => match s.main with
    | .waiting _ => true
    | _ => false
  | .client c => s.client c = .waiting

/-- A step, and whether it is a spurious wake-up. -/
def Marked (s : State n) (l : Thread n × Bool) (s' : State n) : Prop :=
  Next s l.1 s' ∧ l.2 = s.asleep l.1

theorem Next.marked {s s' : State n} {t : Thread n} (h : Next s t s') :
    Marked s (t, s.asleep t) s' := ⟨h, rfl⟩

/-! ## What is still to be done -/

/-- `there`: the counter is `THREAD_NUM`. -/
def ClientPc.cost (there : Bool) : ClientPc → ℕ
  | .notStarted => 16
  | .registering => 15
  | .locking => 14
  | .counting => 13
  | .notifyMain => cond there 8 12
  | .woken => cond there 5 9
  | .testing => cond there 4 8
  | .parking => 7
  | .waiting => 6
  | .unlocking => 3
  | .notifyNext => 2
  | .measuring => 1
  | .finished => 0

/-- One turn of the loop; `there`: the counter is `i`. -/
def MainPc.turn (there : Bool) : MainPc → ℕ
  | .locking _ | .woken _ => cond there 4 8
  | .testing _ => cond there 3 7
  | .parking _ => 6
  | .waiting _ => 5
  | .unlocking _ => 2
  | .starting _ => 1
  | .joining _ | .exited => 0

def MainPc.cost (n count : ℕ) (pc : MainPc) : ℕ :=
  match pc with
  | .locking i | .testing i | .parking i | .waiting i | .woken i | .unlocking i | .starting i =>
      pc.turn (count = i) + 8 * (n - i - 1) + (n + 1)
  | .joining k => n - k + 1
  | .exited => 0

def State.cost (s : State n) : ℕ :=
  s.main.cost n s.count + ∑ c, (s.client c).cost (s.count = n)

theorem ClientPc.cost_le (there : Bool) (pc : ClientPc) : pc.cost there ≤ pc.cost false := by
  cases there <;> cases pc <;> decide

theorem MainPc.turn_le (there : Bool) (pc : MainPc) : pc.turn there ≤ pc.turn false := by
  cases there <;> cases pc <;> simp [turn]

theorem MainPc.cost_of_index {count i : ℕ} {pc : MainPc} (h : pc.index = some i) :
    pc.cost n count = pc.turn (count = i) + 8 * (n - i - 1) + (n + 1) := by
  cases pc <;> first | (cases h; rfl) | cases h

theorem cost_init (n : ℕ) : (init n).cost ≤ 25 * n + 1 := by
  have hclients : ∑ _c : Fin n, ClientPc.cost ((0 : ℕ) = n) .notStarted = n * 16 := by
    simp [ClientPc.cost]
  have hmain : (loop n 0).cost n 0 ≤ 9 * n + 1 := by
    rcases loop_cases n 0 with ⟨hn, h⟩ | ⟨hn, h⟩
    · rw [h, MainPc.cost_of_index (i := 0) rfl]
      have hturn := (MainPc.locking 0).turn_le ((0 : ℕ) = 0)
      have hfalse : (MainPc.locking 0).turn false = 8 := rfl
      omega
    · rw [h]
      show n - 0 + 1 ≤ _
      omega
  show (loop n 0).cost n 0 + ∑ _c : Fin n, ClientPc.cost ((0 : ℕ) = n) .notStarted ≤ _
  omega

/-! ## One step -/

section
variable {s : State n} {c : Fin n} {p q : ClientPc} {o : Option (Thread n)} {k j : ℕ}

/-- One client goes on, and the sum changes by what it does. -/
theorem sum_move (f : ClientPc → ℕ) (hp : s.client c = p) :
    ∑ d, f ((s.move c q o).client d) + f p = ∑ d, f (s.client d) + f q := by
  have hupdate : (fun d => f ((s.move c q o).client d)) =
      Function.update (fun d => f (s.client d)) c (f q) :=
    Function.comp_update f s.client c q
  rw [hupdate, Finset.sum_update_of_mem (Finset.mem_univ c),
    Finset.sum_eq_add_sum_sdiff_singleton_of_mem (Finset.mem_univ c) fun d => f (s.client d), hp]
  omega

theorem cost_move (hp : s.client c = p)
    (h : q.cost (s.count = n) + k ≤ p.cost (s.count = n) + j) :
    (s.move c q o).cost + k ≤ s.cost + j := by
  have hsum := sum_move (q := q) (o := o) (ClientPc.cost (s.count = n)) hp
  have hmove : (s.move c q o).cost =
      s.main.cost n s.count + ∑ d, ((s.move c q o).client d).cost (s.count = n) := rfl
  rw [hmove, State.cost]
  omega

theorem cost_moveMain {pc pc' : MainPc} (hpc : s.main = pc)
    (h : pc'.cost n s.count + k ≤ pc.cost n s.count + j) :
    (s.moveMain pc' o).cost + k ≤ s.cost + j := by
  have hmove : (s.moveMain pc' o).cost =
      pc'.cost n s.count + ∑ d, (s.client d).cost (s.count = n) := rfl
  rw [hmove, State.cost, hpc]
  omega

/-- Within a turn of the loop only the place in it counts. -/
theorem cost_turn {pc pc' : MainPc} {i : ℕ} (hpc : s.main = pc) (hi : pc.index = some i)
    (hi' : pc'.index = some i)
    (h : pc'.turn (s.count = i) + k ≤ pc.turn (s.count = i) + j) :
    (s.moveMain pc' o).cost + k ≤ s.cost + j := by
  refine cost_moveMain hpc ?_
  rw [MainPc.cost_of_index hi, MainPc.cost_of_index hi']
  omega

end

/-- The next turn, or the joins, are less than the rest of this one. -/
theorem cost_loop {i : ℕ} (hi : i < n) (count : ℕ) :
    (loop n (i + 1)).cost n count + 0 ≤ (MainPc.starting i).cost n count + 0 := by
  rcases loop_cases n (i + 1) with ⟨hnext, h⟩ | ⟨hall, h⟩
  · have hturn := (MainPc.locking (i + 1)).turn_le (count = i + 1)
    have hfalse : (MainPc.locking (i + 1)).turn false = 8 := rfl
    have hone : (MainPc.starting i).turn (count = i) = 1 := rfl
    rw [h, MainPc.cost_of_index (i := i + 1) rfl, MainPc.cost_of_index (i := i) rfl, hone]
    omega
  · have hone : (MainPc.starting i).turn (count = i) = 1 := rfl
    have hcost : (MainPc.starting i).cost n count = _ := MainPc.cost_of_index rfl
    rw [h, hcost, hone]
    show n - 0 + 1 + 0 ≤ _
    omega

theorem cost_wakeMain (s : State n) : s.wakeMain.cost ≤ s.cost + 3 := by
  cases hm : s.main with
  | waiting i =>
      simp only [State.wakeMain, hm]
      refine cost_turn (k := 0) hm rfl rfl ?_
      cases decide (s.count = i) <;> exact Nat.le_of_ble_eq_true rfl
  | _ =>
      simp only [State.wakeMain, hm]
      exact Nat.le_add_right _ _

/-- The counter only moves towards what main and the clients wait for. -/
theorem cost_increment {s : State n} (hlt : s.count < n)
    (hmain : ∀ i, s.main.index = some i → s.count < i) : s.increment.cost ≤ s.cost := by
  have hclients : ∑ c, (s.client c).cost (s.count + 1 = n) ≤
      ∑ c, (s.client c).cost (s.count = n) := by
    refine Finset.sum_le_sum fun c _ => ?_
    rw [decide_eq_false hlt.ne]
    exact ClientPc.cost_le _ _
  have hturn : s.main.cost n (s.count + 1) ≤ s.main.cost n s.count := by
    cases hi : s.main.index with
    | none =>
        cases hm : s.main <;> rw [hm] at hi <;> first | exact le_rfl | cases hi
    | some i =>
        have hle := s.main.turn_le (s.count + 1 = i)
        rw [MainPc.cost_of_index hi, MainPc.cost_of_index hi, decide_eq_false (hmain i hi).ne]
        omega
  exact Nat.add_le_add hturn hclients

namespace Inv

variable {s : State n}

/-- **Step.** -/
theorem cost_step (h : Inv s) {t : Thread n} {s' : State n} (hstep : Step s t s') :
    s'.cost + 1 ≤ s.cost + 4 * (s.asleep t).toNat := by
  have hawake : s'.cost + 1 ≤ s.cost → s'.cost + 1 ≤ s.cost + 4 * (s.asleep t).toNat :=
    fun hle => hle.trans (Nat.le_add_right _ _)
  cases hstep with
  | register hc | lock hc _ | park hc | unlock hc | notifyNobody hc _ | measured hc =>
      exact hawake (cost_move (j := 0) hc (Nat.le_of_ble_eq_true rfl))
  | relock hc _ =>
      refine hawake (cost_move (j := 0) hc ?_)
      cases decide (s.count = n) <;> exact Nat.le_of_ble_eq_true rfl
  | pass hc hcount =>
      refine hawake (cost_move (j := 0) hc ?_)
      rw [decide_eq_true hcount]
      exact Nat.le_of_ble_eq_true rfl
  | fail hc hcount =>
      refine hawake (cost_move (j := 0) hc ?_)
      rw [decide_eq_false hcount]
      exact Nat.le_of_ble_eq_true rfl
  | @spurious c hc =>
      have hasleep : s.asleep (.client c) = true := decide_eq_true hc
      rw [hasleep]
      refine cost_move hc ?_
      cases decide (s.count = n) <;> exact Nat.le_of_ble_eq_true rfl
  | @count c hc =>
      have hval := h.val_eq_count hc
      have hlt : s.count < n := hval ▸ c.isLt
      have hmain : ∀ i, s.main.index = some i → s.count < i := by
        intro i hi
        have hstarted := ((h.index i hi).2 c).mp (by rw [hc]; rfl)
        omega
      have hincrement := cost_increment (s := s.move c .notifyMain s.owner) hlt hmain
      have hmove := cost_move (o := s.owner) (q := .notifyMain) (k := 1) (j := 0) hc
        (by cases decide (s.count = n) <;> exact Nat.le_of_ble_eq_true rfl)
      exact hawake ((Nat.add_le_add_right hincrement 1).trans hmove)
  | @notifyMain c hc =>
      -- the client pays for main, which may have to test once more
      have hc' : s.wakeMain.client c = .notifyMain := by rwa [State.wakeMain_client]
      have hmove := cost_move (o := s.owner) (q := .testing) (k := 4) (j := 0) hc'
        (by cases decide (s.wakeMain.count = n) <;> exact Nat.le_of_ble_eq_true rfl)
      have hwake := cost_wakeMain s
      exact hawake (by omega)
  | @notifyNext c d hc hd =>
      -- the counter is there, so who is woken gets through
      have hcount := h.released c (by rw [hc]; rfl)
      have hne : c ≠ d := by
        rintro rfl
        cases hc.symm.trans hd
      have hc' : (s.move d .woken s.owner).client c = .notifyNext :=
        (State.move_of_ne hne).trans hc
      have hwoken := cost_move (o := s.owner) (q := .woken) (k := 1) (j := 0) hd
        (by rw [decide_eq_true hcount]; exact Nat.le_of_ble_eq_true rfl)
      have hmove := cost_move (o := s.owner) (q := .measuring) (k := 1) (j := 0) hc'
        (Nat.le_of_ble_eq_true rfl)
      exact hawake (by omega)
  | @mainLock i hm _ | @mainRelock i hm _ =>
      refine hawake (cost_turn (j := 0) hm rfl rfl ?_)
      cases decide (s.count = i) <;> exact Nat.le_of_ble_eq_true rfl
  | mainPass hm hcount =>
      refine hawake (cost_turn (j := 0) hm rfl rfl ?_)
      rw [decide_eq_true hcount]
      exact Nat.le_of_ble_eq_true rfl
  | mainFail hm hcount =>
      refine hawake (cost_turn (j := 0) hm rfl rfl ?_)
      rw [decide_eq_false hcount]
      exact Nat.le_of_ble_eq_true rfl
  | mainPark hm | mainUnlock hm =>
      exact hawake (cost_turn (j := 0) hm rfl rfl (Nat.le_of_ble_eq_true rfl))
  | @mainSpurious i hm =>
      have hasleep : s.asleep .main = true := by rw [State.asleep, hm]
      rw [hasleep]
      refine cost_turn hm rfl rfl ?_
      cases decide (s.count = i) <;> exact Nat.le_of_ble_eq_true rfl
  | @start c hm =>
      obtain ⟨c', hc', hidle⟩ := h.idle_of_starting hm
      obtain rfl := Fin.ext hc'
      have hmove := cost_move (o := s.owner) (q := .registering) (k := 1) (j := 0) hidle
        (Nat.le_of_ble_eq_true rfl)
      have hloop : ((s.move c' .registering s.owner).moveMain (loop n (c' + 1)) s.owner).cost + 0 ≤
          (s.move c' .registering s.owner).cost + 0 :=
        cost_moveMain hm (cost_loop c'.isLt _)
      exact hawake (by omega)
  | @startFails i hm =>
      have hcost : (MainPc.starting i).cost n s.count = _ := MainPc.cost_of_index rfl
      refine hawake (cost_moveMain (j := 0) hm ?_)
      rw [hcost]
      show 0 + 1 ≤ _
      omega
  | @join c hm _ =>
      refine hawake (cost_moveMain (j := 0) hm ?_)
      have hlt := c.isLt
      show n - (c + 1) + 1 + 1 ≤ n - c + 1 + 0
      omega
  | exit hm =>
      refine hawake (cost_moveMain (j := 0) hm ?_)
      show 0 + 1 ≤ n - n + 1 + 0
      omega

end Inv

/-! ## The end -/

/-- Main joins the clients in their order, and ends when it has joined all, or could not start
one. -/
structure Ends (s : State n) : Prop where
  joined : ∀ k, s.main = .joining k → ∀ c : Fin n, c.val < k → s.client c = .finished
  exited : s.main = .exited → (∀ c, s.client c = .finished) ∨ ∃ c, s.client c = .notStarted

/-- Nobody is joined while clients are still started. -/
theorem Ends.of_loop {s : State n} {i : ℕ} (h : s.main = loop n i) : Ends s := by
  rcases loop_cases n i with ⟨-, hloop⟩ | ⟨-, hloop⟩
  · refine ⟨fun _ hk => ?_, fun hx => ?_⟩
    · cases (h.trans hloop).symm.trans hk
    · cases (h.trans hloop).symm.trans hx
  · refine ⟨fun k hk c hc => ?_, fun hx => ?_⟩
    · cases (h.trans hloop).symm.trans hk
      exact absurd hc (Nat.not_lt_zero _)
    · cases (h.trans hloop).symm.trans hx

/-- Who has finished does not move. -/
theorem finished_step {s s' : State n} {t : Thread n} (h : Inv s) (hstep : Step s t s') {c : Fin n}
    (hc : s.client c = .finished) : s'.client c = .finished := by
  have hmove : ∀ {d : Fin n} {p q : ClientPc} {o : Option (Thread n)} {s : State n},
      s.client c = .finished → s.client d = p → p ≠ .finished →
        (s.move d q o).client c = .finished := by
    intro d p q o s hc hd hp
    have hne : c ≠ d := by
      rintro rfl
      exact hp (hd.symm.trans hc)
    exact (State.move_of_ne hne).trans hc
  cases hstep with
  | register hd | lock hd _ | pass hd _ | fail hd _ | park hd | spurious hd | relock hd _
  | unlock hd | notifyNobody hd _ | measured hd => exact hmove hc hd fun heq => by cases heq
  | count hd => exact hmove (o := s.owner) hc hd fun heq => by cases heq
  | notifyMain hd =>
      have hc' : s.wakeMain.client c = .finished := by rwa [State.wakeMain_client]
      have hd' := congrFun (State.wakeMain_client (s := s)) _ |>.trans hd
      exact hmove hc' hd' fun heq => by cases heq
  | @notifyNext d e hd he =>
      have hne : d ≠ e := by
        rintro rfl
        cases hd.symm.trans he
      have hd' : (s.move e .woken s.owner).client d = .notifyNext := (State.move_of_ne hne).trans hd
      exact hmove (hmove hc he fun heq => by cases heq) hd' fun heq => by cases heq
  | start hm =>
      obtain ⟨d, hd, hidle⟩ := h.idle_of_starting hm
      obtain rfl := Fin.ext hd
      exact hmove (o := s.owner) hc hidle fun heq => by cases heq
  | _ => exact hc

/-- Only main gets to the joins, and to its end. -/
theorem main_step {s s' : State n} {d : Fin n} (hstep : Step s (.client d) s') :
    s'.main = s.main ∨ ∃ i, s'.main = .woken i := by
  cases hstep with
  | notifyMain _ =>
      cases hm : s.main with
      | waiting i =>
          refine Or.inr ⟨i, ?_⟩
          simp only [State.move, State.wakeMain, hm, State.moveMain]
      | _ => exact Or.inl (by simp only [State.move, State.wakeMain, hm])
  | _ => exact Or.inl rfl

/-- **Step.** -/
theorem Ends.step {s s' : State n} {t : Thread n} (h : Ends s) (hinv : Inv s) (hstep : Next s t s') :
    Ends s' := by
  obtain ⟨hlive, hstep⟩ := hstep
  have hfinished := fun c => finished_step hinv hstep (c := c)
  cases t with
  | client d =>
      rcases main_step hstep with hm | ⟨i, hm⟩
      · exact ⟨fun k hk c hc => hfinished c (h.joined k (hm.symm.trans hk) c hc),
          fun hx => absurd (hm.symm.trans hx) hlive⟩
      · refine ⟨fun _ hk => ?_, fun hx => ?_⟩
        · cases hm.symm.trans hk
        · cases hm.symm.trans hx
  | main =>
      cases hstep with
      | @start c _ => exact .of_loop (i := c + 1) rfl
      | startFails hm =>
          obtain ⟨c, -, hc⟩ := hinv.idle_of_starting hm
          refine ⟨fun _ hk => ?_, fun _ => Or.inr ⟨c, hc⟩⟩
          cases hk
      | @join d hm hd =>
          refine ⟨fun k hk c hc => ?_, fun hx => ?_⟩
          · cases hk
            rcases Nat.lt_succ_iff_lt_or_eq.mp hc with hlt | heq
            · exact h.joined d hm c hlt
            · rwa [Fin.ext heq]
          · cases hx
      | exit hm =>
          refine ⟨fun _ hk => ?_, fun _ => Or.inl fun c => h.joined n hm c c.isLt⟩
          cases hk
      | _ =>
          refine ⟨fun _ hk => ?_, fun hx => ?_⟩
          · cases hk
          · cases hx

/-- **Runs.** -/
theorem ends_run {ls : List (Thread n × Bool)} {s : State n} (hrun : Run Marked (init n) ls s) :
    Inv s ∧ Ends s ∧ ls.length + s.cost ≤ 25 * n + 1 + 4 * ls.countP (·.2) := by
  refine hrun.inv (I := fun ls s => Inv s ∧ Ends s ∧
    ls.length + s.cost ≤ 25 * n + 1 + 4 * ls.countP (·.2)) ?_ ?_
  · exact ⟨Inv.init n, .of_loop rfl, (Nat.zero_add _).trans_le (cost_init n)⟩
  · rintro ls s ⟨t, asleep⟩ s' ⟨hinv, hends, hcost⟩ ⟨hnext, hasleep⟩
    have hpay : s'.cost + 1 ≤ s.cost + 4 * (s.asleep t).toNat := hinv.cost_step hnext.2
    have hone : [(t, asleep)].countP (·.2) = (s.asleep t).toNat := by
      rw [List.countP_singleton, hasleep]
      cases s.asleep t <;> rfl
    refine ⟨hinv.step hnext.2, hends.step hinv hnext, ?_⟩
    rw [List.length_append, List.length_singleton, List.countP_append, hone]
    omega

theorem blocked_of_asleep {s : State n} {t : Thread n} (h : s.asleep t = true) : Blocked s t := by
  cases t with
  | client c => exact .wait (of_decide_eq_true h)
  | main =>
      cases hm : s.main with
      | waiting i => exact .mainWait hm
      | _ =>
          rw [State.asleep, hm] at h
          cases h

/-- The end of the process is the last join, or a thread that could not be created. -/
theorem exited_step {s s' : State n} {t : Thread n} (hlive : s.main ≠ .exited)
    (hstep : Step s t s') (hx : s'.main = .exited) :
    s.main = .joining n ∨ ∃ i, s.main = .starting i := by
  cases t with
  | client d =>
      rcases main_step hstep with hm | ⟨i, hm⟩
      · exact absurd (hm.symm.trans hx) hlive
      · cases hm.symm.trans hx
  | main =>
      cases hstep with
      | start hm | startFails hm => exact Or.inr ⟨_, hm⟩
      | exit hm => exact Or.inl hm
      | _ => cases hx

/-- Somebody can go on without being woken, and main need not fail. -/
theorem Inv.exists_awake {s : State n} (h : Inv s) (hlive : s.main ≠ .exited) :
    ∃ t s', Marked s (t, false) s' ∧ (s'.main = .exited → s.main = .joining n) := by
  obtain ⟨t, ht, hfree⟩ : ∃ t, Unfinished s t ∧ ¬Blocked s t := by
    by_contra hnone
    refine h.not_deadlock ⟨⟨.main, hlive⟩, fun t ht => ?_⟩
    by_contra hfree
    exact hnone ⟨t, ht, hfree⟩
  by_cases hstarting : ∃ i, s.main = .starting i
  · obtain ⟨i, hm⟩ := hstarting
    obtain ⟨c, rfl, -⟩ := h.idle_of_starting hm
    refine ⟨.main, _, ⟨⟨hlive, .start hm⟩, by rw [State.asleep, hm]⟩, fun hx => ?_⟩
    rcases loop_cases n (c + 1) with ⟨-, hloop⟩ | ⟨-, hloop⟩
    · cases hloop.symm.trans hx
    · cases hloop.symm.trans hx
  · obtain ⟨s', hstep⟩ := h.exists_step ht hfree
    have hawake : s.asleep t = false := Bool.eq_false_iff.mpr fun hasleep =>
      hfree (blocked_of_asleep hasleep)
    refine ⟨t, s', ⟨⟨hlive, hstep⟩, hawake.symm⟩, fun hx => ?_⟩
    exact (exited_step hlive hstep hx).resolve_right hstarting

/-- The benchmark ends, in every order of steps: but for spurious wake-ups, a run has at most
`25 * n + 1` steps, and each of these costs at most four more.  As long as main has not ended,
somebody has a step without one; and it ends only when all clients have measured, unless a thread
could not be created. -/
theorem benchmark_ends {ls : List (Thread n × Bool)} {s : State n}
    (hrun : Run Marked (init n) ls s) :
    ls.length ≤ 25 * n + 1 + 4 * ls.countP (·.2) ∧
    (s.main ≠ .exited →
      ∃ t s', Marked s (t, false) s' ∧ (s'.main = .exited → s.main = .joining n)) ∧
    (s.main = .exited → (∀ c, s.client c = .finished) ∨ ∃ c, s.client c = .notStarted) := by
  obtain ⟨hinv, hends, hcost⟩ := ends_run hrun
  exact ⟨(Nat.le_add_right _ _).trans hcost, hinv.exists_awake, hends.exited⟩

/-- One client, up to where main waits for its end. -/
theorem benchmark_ends_one : ∃ (ls : List (Thread 1 × Bool)) (s : State 1),
    s.main = .joining 0 ∧ ls.length ≤ 25 * 1 + 1 + 4 * ls.countP (·.2) ∧
      ∃ t s', Marked s (t, false) s' ∧ (s'.main = .exited → s.main = .joining 1) := by
  have hrun : ∃ (ls : List (Thread 1 × Bool)) (s : State 1), Run Marked (init 1) ls s ∧
      s.main = .joining 0 :=
    ⟨_, _, Run.snoc (Run.snoc (Run.snoc (Run.snoc .nil
      (Next.marked ⟨by decide, .mainLock rfl rfl⟩))
      (Next.marked ⟨by decide, .mainPass rfl rfl⟩))
      (Next.marked ⟨by decide, .mainUnlock rfl⟩))
      (Next.marked ⟨by decide, .start (c := 0) rfl⟩), rfl⟩
  obtain ⟨ls, s, hrun, hm⟩ := hrun
  have hends := benchmark_ends hrun
  exact ⟨ls, s, hm, hends.1, hends.2.1 fun hx => by cases hm.symm.trans hx⟩

end MettEagle.Benchmark
