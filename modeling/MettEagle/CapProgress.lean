/-
# `MettEagle.CapProgress` — calls of the allocator come to an end

A call goes through the loop of its compare-exchange again when the exchange fails,
and a strong exchange fails only if the counter is not what was read last.  So a
thread repeats itself only because another one succeeded:

    alloc     one round over the slots, however many exchanges fail
    others    one more try for each time another thread changes the counter

`cost` is what a call still needs if nobody interferes; a change of its counter by
somebody else puts at most one step on top.

`alloc` looks at each slot once and at a different time.  What it can say of the slots
when it fails is that each was in use when it was looked at.
-/
import MettEagle.CapAlone

namespace MettEagle.CapAlloc

variable {n w : ℕ}

/-! ## Who is in whose way -/

/-- The slot a call is about. -/
def Op.slot (bias : ℤ) : Op → Option (Fin n)
  | .alloc => none
  | .take cap => rangeCheckAndGetIdx n bias cap
  | .free u | .release u => rangeCheckAndGetIdx n bias u.cap

/-- The slot whose counter a thread reads and exchanges. -/
def Pc.slot : Pc n w → Option (Fin n)
  | .takeLoad c | .takeCas c _ | .freeLoad c _ | .freeCas c _ _ | .freeUnmap c _ | .freeReset c
  | .releaseLoad c _ | .releaseCas c _ _ | .releaseUnmap c _ | .releaseReset c => some c
  | .idle | .allocLoad | .allocTry _ _ | .allocLast _ | .ret _ => none

/-- The action stores to this slot. -/
def Action.writes (c : Option (Fin n)) : Action n → Bool
  | .acquired i | .taken i | .released i _ | .freed i | .reset i => c = some i
  | .call _ | .quiet | .unmapped _ _ | .ret _ => false

def Action.isCall : Action n → Bool
  | .call _ => true
  | _ => false

theorem set_items_of_not {m : Mem n w} {i c : Fin n} {v : BitVec w}
    (h : decide (some c = some i) = false) : (m.set i v).items c = m.items c :=
  Function.update_of_ne (fun heq => of_decide_eq_false h (congrArg some heq)) _ _

/-- Counters change only where the action says so. -/
theorem items_of_not_writes {m m' : Mem n w} {pc pc' : Pc n w} {a : Action n} {c : Fin n}
    (h : exec m pc = some (a, m', pc')) (ha : a.writes (some c) = false) :
    m'.items c = m.items c := by
  cases pc with
  | idle => cases h
  | allocLoad | allocLast _ | takeLoad _ | freeLoad _ _ | freeUnmap _ _ | releaseLoad _ _
  | releaseUnmap _ _ | ret _ =>
      cases h
      rfl
  | freeReset _ | releaseReset _ =>
      cases h
      exact set_items_of_not ha
  | allocTry _ i =>
      simp only [exec] at h
      split at h <;> cases h
      · exact set_items_of_not ha
      · rfl
  | takeCas _ _ =>
      simp only [exec] at h
      split at h <;> cases h
      · exact set_items_of_not ha
      · rfl
  | freeCas _ _ _ =>
      simp only [exec] at h
      split at h <;> cases h
      · exact set_items_of_not ha
      · rfl
  | releaseCas _ _ _ =>
      simp only [exec] at h
      split at h
      · split at h <;> cases h <;> exact set_items_of_not ha
      · cases h
        rfl

/-! ## What a call still needs -/

/-- How many slots `alloc` has not looked at, this one included. -/
def slotsLeft (startEnd i : Fin n) : ℕ := (startEnd + n - i - 1) % n + 1

/-- An upper bound on the steps to the end of the call, the return included. -/
def cost (m : Mem n w) : Pc n w → ℕ
  | .idle => 0
  | .allocLoad => n + 2
  | .allocTry startEnd i => slotsLeft startEnd i + 2
  | .allocLast _ => 2
  | .takeLoad _ => 3
  | .takeCas c current => if m.items c = current then 2 else 3
  | .freeLoad _ _ | .releaseLoad _ _ => 5
  | .freeCas c _ current | .releaseCas c _ current => if m.items c = current then 4 else 5
  | .freeUnmap _ _ | .releaseUnmap _ _ => 3
  | .freeReset _ | .releaseReset _ => 2
  | .ret _ => 1

theorem slotsLeft_le (startEnd i : Fin n) : slotsLeft startEnd i ≤ n := Nat.mod_lt _ i.pos

theorem slotsLeft_next {startEnd i : Fin n} (h : nextSlot i ≠ startEnd) :
    slotsLeft startEnd (nextSlot i) + 1 = slotsLeft startEnd i := by
  have hs := startEnd.isLt
  have hlt := i.isLt
  have hne : (i + 1) % n ≠ startEnd := fun heq => h (Fin.ext heq)
  simp only [slotsLeft, nextSlot]
  by_cases hwrap : (i : ℕ) + 1 = n
  · rw [hwrap, Nat.mod_self] at hne ⊢
    rw [Nat.mod_eq_sub_mod (by omega), Nat.mod_eq_of_lt (by omega), Nat.mod_eq_of_lt (by omega)]
    omega
  · rw [Nat.mod_eq_of_lt (a := i + 1) (by omega)] at hne ⊢
    by_cases hle : (startEnd : ℕ) ≤ i
    · rw [Nat.mod_eq_of_lt (by omega), Nat.mod_eq_of_lt (by omega)]
      omega
    · rw [Nat.mod_eq_sub_mod (by omega), Nat.mod_eq_of_lt (by omega),
        Nat.mod_eq_sub_mod (by omega), Nat.mod_eq_of_lt (by omega)]
      omega

section
variable {m m' : Mem n w} {pc pc' : Pc n w} {a : Action n} {c : Fin n} {u : Unmap}

theorem cost_allocLoop (startEnd i : Fin n) :
    cost m (allocLoop startEnd (nextSlot i)) < slotsLeft startEnd i + 2 := by
  rw [allocLoop]
  split
  · exact Nat.lt_add_left _ (Nat.lt_succ_self 1)
  · rename_i hnext
    have hleft := slotsLeft_next hnext
    simp only [cost]
    omega

/-- What a failed exchange read is what the next one expects. -/
theorem cost_freeLoop : cost m (freeLoop c u (m.items c)) ≤ 4 := by
  rw [freeLoop]
  split
  · exact Nat.le_of_ble_eq_true rfl
  · exact (if_pos rfl).le

theorem cost_releaseLoop : cost m (releaseLoop c u (m.items c)) ≤ 4 := by
  rw [releaseLoop]
  split
  · exact Nat.le_of_ble_eq_true rfl
  · exact (if_pos rfl).le

/-- One step of the call pays for itself, failed exchanges included. -/
theorem cost_exec (h : exec m pc = some (a, m', pc')) : cost m' pc' < cost m pc := by
  cases pc with
  | idle => cases h
  | allocLoad =>
      cases h
      exact (cost_allocLoop _ _).trans_le (Nat.add_le_add_right (slotsLeft_le _ _) 2)
  | allocTry startEnd i =>
      simp only [exec] at h
      split at h <;> cases h
      · exact Nat.lt_add_of_pos_left (Nat.succ_pos _)
      · exact cost_allocLoop startEnd i
  | allocLast _ | freeUnmap _ _ | releaseUnmap _ _ | freeReset _ | releaseReset _ | ret _ =>
      cases h
      exact Nat.lt_succ_self _
  | takeLoad c =>
      cases h
      exact (if_pos rfl).trans_lt (Nat.lt_succ_self 2)
  | takeCas c current =>
      simp only [exec] at h
      split at h
      · rename_i heq
        cases h
        exact (Nat.lt_succ_self 1).trans_eq (if_pos heq).symm
      · rename_i hne
        cases h
        exact ((if_pos rfl).trans_lt (Nat.lt_succ_self 2)).trans_eq (if_neg hne).symm
  | freeLoad c u =>
      cases h
      exact Nat.lt_succ_of_le cost_freeLoop
  | releaseLoad c u =>
      cases h
      exact Nat.lt_succ_of_le cost_releaseLoop
  | freeCas c u current =>
      simp only [exec] at h
      split at h
      · rename_i heq
        cases h
        rw [show cost m (.freeCas c u current) = 4 from if_pos heq]
        split <;> simp [cost]
      · rename_i hne
        cases h
        exact (Nat.lt_succ_of_le cost_freeLoop).trans_eq (if_neg hne).symm
  | releaseCas c u current =>
      simp only [exec] at h
      split at h
      · rename_i heq
        rw [show cost m (.releaseCas c u current) = 4 from if_pos heq]
        split at h <;> cases h
        · split <;> simp [cost]
        · simp [cost]
      · rename_i hne
        cases h
        exact (Nat.lt_succ_of_le cost_releaseLoop).trans_eq (if_neg hne).symm

/-- A step of another thread costs at most one more try, and only if it changes the counter. -/
theorem cost_le_of_other (pc₂ : Pc n w) (h : exec m pc = some (a, m', pc')) :
    cost m' pc₂ ≤ cost m pc₂ + (a.writes pc₂.slot).toNat := by
  cases pc₂ with
  | takeCas c current | freeCas c _ current | releaseCas c _ current =>
      simp only [Pc.slot, cost]
      cases ha : a.writes (some c) with
      | true => split <;> split <;> simp
      | false =>
          rw [items_of_not_writes h ha]
          exact Nat.le_add_right _ _
  | _ => exact Nat.le_add_right _ _

end

theorem slot_freeLoop (c : Fin n) (u : Unmap) (current : BitVec w) :
    (freeLoop c u current).slot = some c ∨ (freeLoop c u current).slot = none := by
  rw [freeLoop]
  split
  · exact Or.inr rfl
  · exact Or.inl rfl

theorem slot_releaseLoop (c : Fin n) (u : Unmap) (current : BitVec w) :
    (releaseLoop c u current).slot = some c ∨ (releaseLoop c u current).slot = none := by
  rw [releaseLoop]
  split
  · exact Or.inr rfl
  · exact Or.inl rfl

/-- A call stays with its slot. -/
theorem slot_exec {m m' : Mem n w} {pc pc' : Pc n w} {a : Action n}
    (h : exec m pc = some (a, m', pc')) : pc'.slot = pc.slot ∨ pc'.slot = none := by
  cases pc with
  | idle => cases h
  | allocLoad =>
      cases h
      rw [allocLoop]
      split <;> exact Or.inr rfl
  | allocTry _ _ =>
      simp only [exec] at h
      split at h <;> cases h
      · exact Or.inr rfl
      · rw [allocLoop]
        split <;> exact Or.inr rfl
  | allocLast _ | freeReset _ | releaseReset _ | ret _ =>
      cases h
      exact Or.inr rfl
  | takeLoad _ | freeUnmap _ _ | releaseUnmap _ _ =>
      cases h
      exact Or.inl rfl
  | takeCas _ _ =>
      simp only [exec] at h
      split at h <;> cases h
      · exact Or.inr rfl
      · exact Or.inl rfl
  | freeLoad _ _ =>
      cases h
      exact slot_freeLoop _ _ _
  | releaseLoad _ _ =>
      cases h
      exact slot_releaseLoop _ _ _
  | freeCas _ _ _ =>
      simp only [exec] at h
      split at h <;> cases h
      · split <;> exact Or.inl rfl
      · exact slot_freeLoop _ _ _
  | releaseCas _ _ _ =>
      simp only [exec] at h
      split at h
      · split at h <;> cases h
        · split <;> exact Or.inl rfl
        · exact Or.inr rfl
      · cases h
        exact slot_releaseLoop _ _ _

theorem slot_entry {bias : ℤ} {op : Op} :
    (entry bias op : Pc n w).slot = op.slot bias := by
  cases op with
  | alloc => rfl
  | take cap =>
      simp only [entry, Op.slot]
      split
      · rename_i hcap
        exact hcap.symm
      · rename_i hcap
        exact hcap.symm
  | free u | release u =>
      simp only [entry, Op.slot]
      split
      · rename_i hcap
        exact hcap.symm
      · rename_i hcap
        exact hcap.symm

/-! ## Runs -/

section
variable {T : Type*} [DecidableEq T] {bias : ℤ} {s s' : Threads T n w} {ls : List (T × Action n)}
  {t : T}

/-- The steps of a thread. -/
def stepsOf (t : T) (ls : List (T × Action n)) : ℕ := ls.countP (·.1 = t)

/-- The stores of other threads to a slot. -/
def interference (t : T) (c : Option (Fin n)) (ls : List (T × Action n)) : ℕ :=
  ls.countP fun l => l.1 ≠ t && l.2.writes c

theorem writes_none (a : Action n) : a.writes none = false := by
  cases a <;> rfl

/-- **Step.** -/
theorem cost_step {l : T × Action n} {c : Option (Fin n)} (hl : l.1 = t → l.2.isCall = false)
    (hslot : (s.pc t).slot = c ∨ (s.pc t).slot = none) (hstep : Step bias s l s') :
    ((s'.pc t).slot = c ∨ (s'.pc t).slot = none) ∧
      (decide (l.1 = t)).toNat + cost s'.mem (s'.pc t) ≤
        cost s.mem (s.pc t) + (decide (l.1 ≠ t) && l.2.writes c).toNat := by
  cases hstep with
  | @call u op hidle =>
      have hne : t ≠ u := by
        rintro rfl
        cases hl rfl
      simp only [Function.update_of_ne hne, decide_eq_false hne.symm]
      exact ⟨hslot, by simp⟩
  | @exec u a m pc hexec =>
      by_cases hu : u = t
      · subst hu
        simp only [Function.update_self]
        refine ⟨?_, ?_⟩
        · rcases slot_exec hexec with h | h
          · rwa [h]
          · exact Or.inr h
        · have hlt := cost_exec hexec
          simp
          omega
      · simp only [Function.update_of_ne (Ne.symm hu), decide_eq_false hu]
        refine ⟨hslot, ?_⟩
        have hle := cost_le_of_other (s.pc t) hexec
        rcases hslot with h | h
        · rw [h] at hle
          simpa [hu] using hle
        · rw [h, writes_none] at hle
          simp only [Bool.toNat_false] at hle ⊢
          omega

/-- **Runs.** -/
theorem steps_add_cost_le {c : Option (Fin n)} (hrun : Run (Step bias) s ls s')
    (hcalls : ∀ l ∈ ls, l.1 = t → l.2.isCall = false)
    (hslot : (s.pc t).slot = c ∨ (s.pc t).slot = none) :
    stepsOf t ls + cost s'.mem (s'.pc t) ≤ cost s.mem (s.pc t) + interference t c ls :=
  (hrun.charge hcalls hslot fun hl hs hstep => cost_step hl hs hstep).2

theorem cost_entry_le (bias : ℤ) (m : Mem n w) {op : Op} (hop : op ≠ .alloc) :
    ((op.slot bias : Option (Fin n)) = none → cost m (entry bias op : Pc n w) ≤ 1) ∧
      cost m (entry bias op : Pc n w) ≤ 5 := by
  cases op with
  | alloc => exact absurd rfl hop
  | take cap | free u | release u =>
      simp only [entry, Op.slot]
      split
      · exact ⟨fun _ => le_rfl, Nat.le_of_ble_eq_true rfl⟩
      · rename_i hcap
        rw [hcap]
        exact ⟨fun h => absurd h (Option.some_ne_none _), by simp [cost]⟩

theorem exists_exec {m : Mem n w} {pc : Pc n w} (h : pc ≠ .idle) :
    ∃ a m' pc', exec m pc = some (a, m', pc') ∧ a.isCall = false := by
  cases pc with
  | idle => exact absurd rfl h
  | allocTry _ _ | takeCas _ _ | freeCas _ _ _ =>
      simp only [exec]
      split <;> exact ⟨_, _, _, rfl, rfl⟩
  | releaseCas _ _ _ =>
      simp only [exec]
      split
      · split <;> exact ⟨_, _, _, rfl, rfl⟩
      · exact ⟨_, _, _, rfl, rfl⟩
  | _ => exact ⟨_, _, _, rfl, rfl⟩

/-- **Calls come to an end.**  From its entry on, whatever the other threads do: `alloc` returns
within `n + 2` of its steps, and any other call within five and one more for each time another
thread changes the counter of its slot; a capability out of range is refused at once.  No call
ever waits for another thread. -/
theorem call_steps_le {op : Op} (hentry : s.pc t = entry bias op)
    (hrun : Run (Step bias) s ls s') (hcalls : ∀ l ∈ ls, l.1 = t → l.2.isCall = false) :
    (op = .alloc → stepsOf t ls ≤ n + 2) ∧
    (∀ c, op.slot bias = some c → stepsOf t ls ≤ 5 + interference t (some c) ls) ∧
    (op ≠ .alloc → op.slot bias = (none : Option (Fin n)) → stepsOf t ls ≤ 1) ∧
    (s'.pc t ≠ .idle → ∃ a s'', Step bias s' (t, a) s'' ∧ a.isCall = false) := by
  have hslot : (s.pc t).slot = op.slot bias := by rw [hentry, slot_entry]
  have hle := steps_add_cost_le hrun hcalls (Or.inl hslot)
  rw [hentry] at hle
  have hnone : interference t (none : Option (Fin n)) ls = 0 := by
    refine List.countP_eq_zero.mpr fun l _ => ?_
    rw [writes_none, Bool.and_false]
    exact Bool.false_ne_true
  refine ⟨?_, fun c hc => ?_, fun hop hc => ?_, fun hidle => ?_⟩
  · rintro rfl
    have hzero : interference t (Op.alloc.slot bias : Option (Fin n)) ls = 0 := hnone
    rw [hzero] at hle
    exact (Nat.le_add_right _ _).trans hle
  · have hop : op ≠ .alloc := by
      rintro rfl
      cases hc
    have hcost := (cost_entry_le bias s.mem hop).2
    rw [hc] at hle
    omega
  · have hcost := (cost_entry_le bias s.mem hop).1 hc
    rw [hc, hnone] at hle
    omega
  · obtain ⟨a, m', pc', hexec, ha⟩ := exists_exec (m := s'.mem) hidle
    exact ⟨a, _, .exec hexec, ha⟩

/-- Two threads take the same capability; the exchange of the first fails once. -/
theorem call_steps_le_two : ∃ ls : List (Bool × Action 1), stepsOf true ls = 3 ∧
    interference true (some ⟨0, Nat.one_pos⟩) ls = 1 ∧
    stepsOf true ls ≤ 5 + interference true (some ⟨0, Nat.one_pos⟩) ls := by
  have hload : Run (Step (T := Bool) (w := 8) 1)
      { mem := ⟨fun _ => fUsed 8 + 1, ⟨0, Nat.one_pos⟩⟩,
        pc := fun _ => entry 1 (.take (capOf 1 ⟨0, Nat.one_pos⟩)) } [(true, .quiet)] _ :=
    .snoc .nil (.exec rfl)
  have hload' := hload.snoc (.exec (t := false) (a := .quiet) rfl)
  have htaken := hload'.snoc (.exec (t := false) (a := .taken ⟨0, Nat.one_pos⟩) rfl)
  have hretry := htaken.snoc (.exec (t := true) (a := .quiet) rfl)
  have htaken' := hretry.snoc (.exec (t := true) (a := .taken ⟨0, Nat.one_pos⟩) rfl)
  have hop : (Op.take (capOf 1 (⟨0, Nat.one_pos⟩ : Fin 1))).slot 1 = some ⟨0, Nat.one_pos⟩ := rfl
  exact ⟨_, rfl, rfl, (call_steps_le (t := true) rfl htaken' (by decide)).2.1 _ hop⟩

/-! ## What `alloc` has seen -/

/-- In some state of the run the slot was not free. -/
def SeenInUse (bias : ℤ) (s : Threads T n w) (ls : List (T × Action n)) (i : Fin n) : Prop :=
  ∃ ls₁ s₁ ls₂, ls = ls₁ ++ ls₂ ∧ Run (Step bias) s ls₁ s₁ ∧ s₁.mem.items i ≠ 0

/-- The thread has stored to no counter. -/
def Untouched (t : T) (ls : List (T × Action n)) : Prop :=
  ∀ c, ∀ l ∈ ls, l.1 = t → l.2.writes (some c) = false

/-- The thread took the slot in a state in which it was free. -/
def TakenFree (bias : ℤ) (s : Threads T n w) (t : T) (ls : List (T × Action n)) (i : Fin n) :
    Prop :=
  ∃ ls₁ s₁ ls₂, ls = ls₁ ++ (t, .acquired i) :: ls₂ ∧ Run (Step bias) s ls₁ s₁ ∧
    s₁.mem.items i = 0 ∧ Untouched t (ls₁ ++ ls₂)

/-- What a call of `alloc` has found out so far. -/
inductive AllocSearch (bias : ℤ) (s : Threads T n w) (t : T) (ls : List (T × Action n)) :
    Pc n w → Prop
  | load : Untouched t ls → AllocSearch bias s t ls .allocLoad
  | look {startEnd : Fin n} {e : ℕ} : e + 1 < n → Untouched t ls →
      (∀ d < e, SeenInUse bias s ls (slotAfter startEnd d)) →
      AllocSearch bias s t ls (.allocTry startEnd (slotAfter startEnd e))
  | failed (last : Fin n) : Untouched t ls → (∀ i, i ≠ last → SeenInUse bias s ls i) →
      AllocSearch bias s t ls (.ret .invalid)
  | took {i : Fin n} {pc : Pc n w} : TakenFree bias s t ls i →
      pc = .allocLast i ∨ pc = .ret (.allocated i) → AllocSearch bias s t ls pc

theorem SeenInUse.snoc {i : Fin n} (h : SeenInUse bias s ls i) (l : T × Action n) :
    SeenInUse bias s (ls ++ [l]) i := by
  obtain ⟨ls₁, s₁, ls₂, rfl, hrun, hne⟩ := h
  exact ⟨ls₁, s₁, ls₂ ++ [l], List.append_assoc .., hrun, hne⟩

omit [DecidableEq T] in
theorem Untouched.snoc (h : Untouched t ls) {l : T × Action n}
    (hl : l.1 = t → ∀ c, l.2.writes (some c) = false) : Untouched t (ls ++ [l]) := by
  intro c l' hl' ht
  rcases List.mem_append.mp hl' with hmem | hmem
  · exact h c l' hmem ht
  · rw [List.mem_singleton] at hmem
    subst hmem
    exact hl ht c

theorem TakenFree.snoc {i : Fin n} (h : TakenFree bias s t ls i) {l : T × Action n}
    (hl : l.1 = t → ∀ c, l.2.writes (some c) = false) : TakenFree bias s t (ls ++ [l]) i := by
  obtain ⟨ls₁, s₁, ls₂, rfl, hrun, hzero, hun⟩ := h
  refine ⟨ls₁, s₁, ls₂ ++ [l], by simp, hrun, hzero, ?_⟩
  rw [← List.append_assoc]
  exact hun.snoc hl

/-- A step that stores nothing, and that the thread does not take or is at its end with. -/
theorem AllocSearch.snoc {pc : Pc n w} (h : AllocSearch bias s t ls pc) {l : T × Action n}
    (hl : l.1 = t → ∀ c, l.2.writes (some c) = false) : AllocSearch bias s t (ls ++ [l]) pc := by
  cases h with
  | load hun => exact .load (hun.snoc hl)
  | look he hun hseen => exact .look he (hun.snoc hl) fun d hd => (hseen d hd).snoc l
  | failed last hun hseen => exact .failed last (hun.snoc hl) fun i hi => (hseen i hi).snoc l
  | took htook hpc => exact .took (htook.snoc hl) hpc

theorem AllocSearch.loop {startEnd : Fin n} {e : ℕ} (he : e < n) (hun : Untouched t ls)
    (hseen : ∀ d < e, SeenInUse bias s ls (slotAfter startEnd d)) :
    AllocSearch bias s t ls (allocLoop startEnd (slotAfter startEnd e)) := by
  rw [allocLoop]
  split
  · rename_i hback
    have hlast : e + 1 = n := (slotAfter_eq_last he).mp hback
    refine .failed startEnd hun fun i hi => ?_
    obtain ⟨d, hd, rfl⟩ := exists_slotAfter startEnd i
    have hne : d + 1 ≠ n := fun hd' => hi ((slotAfter_eq_last hd).mpr hd')
    exact hseen d (by omega)
  · rename_i hgo
    have hne : e + 1 ≠ n := fun hlast => hgo ((slotAfter_eq_last he).mpr hlast)
    exact .look (by omega) hun hseen

/-- **Step.**  The thread itself. -/
theorem AllocSearch.exec {pc pc' : Pc n w} {m : Mem n w} {a : Action n} (h : AllocSearch bias s t ls pc)
    (hrun : Run (Step bias) s ls s') (hexec : CapAlloc.exec s'.mem pc = some (a, m, pc')) :
    AllocSearch bias s t (ls ++ [(t, a)]) pc' ∨ pc' = .idle := by
  cases h with
  | load hun =>
      cases hexec
      have hslot : nextSlot s'.mem.last = slotAfter s'.mem.last 0 := rfl
      rw [hslot]
      exact Or.inl (.loop s'.mem.last.pos (hun.snoc fun _ _ => rfl) fun d hd =>
        absurd hd (Nat.not_lt_zero d))
  | @look startEnd e he hun hseen =>
      simp only [CapAlloc.exec] at hexec
      split at hexec
      · rename_i hzero
        cases hexec
        refine Or.inl (.took ⟨ls, s', [], rfl, hrun, hzero, ?_⟩ (Or.inl rfl))
        rwa [List.append_nil]
      · rename_i hne
        cases hexec
        rw [nextSlot_slotAfter]
        refine Or.inl (.loop he (hun.snoc fun _ _ => rfl) fun d hd => ?_)
        rcases Nat.lt_succ_iff_lt_or_eq.mp hd with hd | rfl
        · exact (hseen d hd).snoc _
        · exact ⟨ls, s', [(t, .quiet)], rfl, hrun, hne⟩
  | failed _ _ _ =>
      cases hexec
      exact Or.inr rfl
  | took htook hpc =>
      rcases hpc with rfl | rfl
      · cases hexec
        exact Or.inl (.took (htook.snoc fun _ _ => rfl) (Or.inr rfl))
      · cases hexec
        exact Or.inr rfl

/-- **Runs.** -/
theorem search_of_run (hentry : s.pc t = entry bias .alloc) (hrun : Run (Step bias) s ls s')
    (hcalls : ∀ l ∈ ls, l.1 = t → l.2.isCall = false) :
    AllocSearch bias s t ls (s'.pc t) ∨ s'.pc t = .idle := by
  induction hrun with
  | nil =>
      rw [hentry]
      exact Or.inl (.load fun _ _ hl => absurd hl List.not_mem_nil)
  | @snoc ls s₁ s₂ l hrun hstep ih =>
      have hI := ih fun l hl => hcalls l (List.mem_append_left _ hl)
      have hl := hcalls l (List.mem_append_right _ (List.mem_singleton_self l))
      cases hstep with
      | @call u op hidle =>
          have hne : u ≠ t := fun heq => by cases hl heq
          simp only [Function.update_of_ne hne.symm]
          exact hI.imp_left fun h => h.snoc fun heq => absurd heq hne
      | @exec u a m pc hexec =>
          by_cases hu : u = t
          · subst hu
            simp only [Function.update_self]
            rcases hI with h | h
            · exact h.exec hrun hexec
            · rw [h] at hexec
              cases hexec
          · simp only [Function.update_of_ne (Ne.symm hu)]
            exact hI.imp_left fun h => h.snoc fun heq => absurd heq hu

/-- **What `alloc` returns under interference.**  Whatever other threads do during a call of
`alloc`, a slot it returns was free when the call took it, and that is the only counter the call
stores to.  It returns no slot only if every slot but one was in use at some time during the
call; it stores to no counter then. -/
theorem alloc_interfered {r : Ret n} (hentry : s.pc t = entry bias .alloc)
    (hrun : Run (Step bias) s ls s') (hcalls : ∀ l ∈ ls, l.1 = t → l.2.isCall = false)
    (hret : s'.pc t = .ret r) :
    (∃ i, r = .allocated i ∧ TakenFree bias s t ls i) ∨
      (r = .invalid ∧ Untouched t ls ∧ ∃ last, ∀ i, i ≠ last → SeenInUse bias s ls i) := by
  rcases search_of_run hentry hrun hcalls with h | h
  · rw [hret] at h
    cases h with
    | failed _ hun hseen => exact Or.inr ⟨rfl, hun, _, hseen⟩
    | took htook hpc =>
        rcases hpc with hpc | hpc
        · cases hpc
        · cases hpc
          exact Or.inl ⟨_, rfl, htook⟩
  · rw [hret] at h
    cases h

/-- Two slots; another thread takes the one that is looked at, the other stays free. -/
theorem alloc_interfered_two : ∃ (s : Threads Bool 2 8) (ls : List (Bool × Action 2)),
    Untouched true ls ∧ ∃ last, ∀ i, i ≠ last → SeenInUse 1 s ls i := by
  have hload : Run (Step (T := Bool) (w := 8) 1)
      { mem := ⟨fun _ => 0, ⟨0, Nat.two_pos⟩⟩, pc := fun _ => entry 1 .alloc } [(true, .quiet)] _ :=
    .snoc .nil (.exec rfl)
  have hload' := hload.snoc (.exec (t := false) (a := .quiet) rfl)
  have htaken := hload'.snoc (.exec (t := false) (a := .acquired ⟨1, Nat.one_lt_two⟩) rfl)
  have hfails := htaken.snoc (.exec (t := true) (a := .quiet) rfl)
  rcases alloc_interfered (t := true) (r := .invalid) rfl hfails (by decide) rfl with ⟨i, hi, -⟩ | ⟨-, h⟩
  · cases hi
  · exact ⟨_, _, h⟩

end

end MettEagle.CapAlloc
