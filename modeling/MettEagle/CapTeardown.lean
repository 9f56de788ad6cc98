/-
# `MettEagle.CapTeardown` — the threads race

What the threads of the allocator do, watched at one slot that nobody takes or
allocates meanwhile, is a run of the race of `MettEagle.CapRaces`.  An action does not
always say which call it belongs to, so the watch keeps the call every thread is in:

    call free, release       the call begins, if its capability is that of the slot
    exchange, unmap, store   as they are, if they are on the slot
    return of true           tells of a teardown, if the call is a release of the slot
-/
import MettEagle.CapRaces

namespace MettEagle.CapAlloc

variable {T : Type*} {n w : ℕ}

/-! ## The watch -/

section watch
variable (bias : ℤ) (c : Fin n)

/-- The call is a release of the slot. -/
def isRelease : Option Op → Bool
  | some (.release u) => rangeCheckAndGetIdx n bias u.cap = some c
  | _ => false

/-- Whether a teardown by the call unmaps: `free` asks for a valid task, `release` for one that is
not `L4_INVALID_CAP`. -/
def asksUnmap : Option Op → Bool
  | some (.free u) => l4IsValidCap u.task
  | some (.release u) => u.task ≠ l4InvalidCap
  | _ => false

/-- What is seen of an action of a thread in a call. -/
def event (op : Option Op) : Action n → RaceEvent
  | .call (.free u) => if rangeCheckAndGetIdx n bias u.cap = some c then .freeCall else .other
  | .call (.release u) => if rangeCheckAndGetIdx n bias u.cap = some c then .releaseCall else .other
  | .released d true => if d = c then .releasedLast (asksUnmap op) else .other
  | .released d false => if d = c then .released else .other
  | .freed d => if d = c then .freed (asksUnmap op) else .other
  | .unmapped d _ => if d = c then .unmapped else .other
  | .reset d => if d = c then .reset else .other
  | .ret (.bool true) => if isRelease bias c op then .returnedTrue else .other
  | _ => .other

/-- The events seen, and the call every thread is in. -/
structure Watch (T : Type*) where
  events : List (T × RaceEvent) := []
  op : T → Option Op := fun _ => none

/-- A thread that calls is in the call from then on. -/
def callsAfter [DecidableEq T] (op : T → Option Op) (t : T) : Action n → T → Option Op
  | .call o => Function.update op t (some o)
  | _ => op

def Watch.see [DecidableEq T] (b : Watch T) (l : T × Action n) : Watch T where
  events := b.events ++ [(l.1, event bias c (callsAfter b.op l.1 l.2 l.1) l.2)]
  op := callsAfter b.op l.1 l.2

def watch [DecidableEq T] (ls : List (T × Action n)) : Watch T :=
  ls.foldl (Watch.see bias c) {}

theorem watch_snoc [DecidableEq T] (ls : List (T × Action n)) (l : T × Action n) :
    watch bias c (ls ++ [l]) = (watch bias c ls).see bias c l := by
  rw [watch, List.foldl_append]
  rfl

/-- Nobody takes the slot or is given it. -/
def LeavesAlone : Action n → Prop
  | .call (.take cap) => rangeCheckAndGetIdx n bias cap ≠ some c
  | .acquired i => i ≠ c
  | _ => True

/-- The part of a thread. -/
def part (op : Option Op) : Pc n w → Part
  | .freeLoad d _ => if d = c then .freeing else .out
  | .freeCas d _ _ => if d = c then .freeing else .out
  | .freeUnmap d _ => if d = c then .tearing false true else .out
  | .freeReset d => if d = c then .tearing false false else .out
  | .releaseLoad d _ => if d = c then .releasing else .out
  | .releaseCas d _ _ => if d = c then .releasing else .out
  | .releaseUnmap d _ => if d = c then .tearing true true else .out
  | .releaseReset d => if d = c then .tearing true false else .out
  | .ret (.bool true) => if isRelease bias c op then .told else .out
  | _ => .out

/-- The threads as a race for the slot. -/
def race (s : Threads T n w) (op : T → Option Op) : Race T w where
  word := s.mem.items c
  part := fun t => part bias c (op t) (s.pc t)

end watch

/-! ## One step -/

section steps
variable {bias : ℤ} {c : Fin n}

/-- What a thread carries from one position to the next: a `take` is of another slot, an exchange
is tried on a value that is in use, and the position belongs to the call. -/
def InCall (bias : ℤ) (c : Fin n) (op : Option Op) : Pc n w → Prop
  | .takeLoad d => d ≠ c
  | .takeCas d _ => d ≠ c
  | .freeLoad _ u => op = some (.free u)
  | .freeCas _ u v => op = some (.free u) ∧ unused v = false
  | .releaseLoad d u => op = some (.release u) ∧ rangeCheckAndGetIdx n bias u.cap = some d
  | .releaseCas d u v =>
      op = some (.release u) ∧ rangeCheckAndGetIdx n bias u.cap = some d ∧ unused v = false
  | .releaseUnmap d _ => ∃ u, op = some (.release u) ∧ rangeCheckAndGetIdx n bias u.cap = some d
  | .releaseReset d => ∃ u, op = some (.release u) ∧ rangeCheckAndGetIdx n bias u.cap = some d
  | _ => True

/-- What is seen of one step of a thread, and what it carries on. -/
structure Raced (bias : ℤ) (c : Fin n) (op : Option Op) (m : Mem n w) (pc : Pc n w) (a : Action n)
    (m' : Mem n w) (pc' : Pc n w) : Prop where
  race : LocalStep (m.items c) (part bias c op pc) (event bias c op a) (m'.items c)
    (part bias c op pc')
  inCall : InCall bias c op pc'

variable {op : Option Op} {m : Mem n w} {d : Fin n} {u : Unmap}

theorem set_items_self (v : BitVec w) : (m.set c v).items c = v := Function.update_self ..

theorem set_items_of_ne (hd : d ≠ c) (v : BitVec w) : (m.set d v).items c = m.items c :=
  Function.update_of_ne (Ne.symm hd) ..

/-- `alloc` moves on to the next slot, or is through. -/
theorem allocLoop_raced {pc : Pc n w} (hpc : part bias c op pc = .out) (startEnd i : Fin n) :
    Raced bias c op m pc .quiet m (allocLoop startEnd i) := by
  have hout : part bias c op (allocLoop startEnd i : Pc n w) = .out ∧
      InCall bias c op (allocLoop startEnd i : Pc n w) := by
    rw [allocLoop]
    split
    · exact ⟨rfl, trivial⟩
    · exact ⟨rfl, trivial⟩
  refine ⟨?_, hout.2⟩
  rw [hpc, hout.1]
  exact .other

/-- A loop that gives up on a slot out of use, or tries its exchange. -/
theorem loop_raced {pc cas : Pc n w} {r : Ret n} {p : Part} (hp : p = .freeing ∨ p = .releasing)
    (hpc : part bias c op pc = if d = c then p else .out)
    (hret : part bias c op (.ret r : Pc n w) = .out)
    (hcas : part bias c op cas = if d = c then p else .out)
    (hin : unused (m.items d) = false → InCall bias c op cas) :
    Raced bias c op m pc .quiet m (if unused (m.items d) then .ret r else cas) := by
  cases hunused : unused (m.items d) with
  | true =>
      refine ⟨?_, trivial⟩
      rw [hpc, if_pos rfl, hret]
      split
      · rename_i hd
        subst hd
        exact .giveUp hp hunused
      · exact .other
  | false =>
      refine ⟨?_, hin hunused⟩
      rw [hpc, if_neg Bool.false_ne_true, hcas]
      exact .other

theorem freeLoop_raced {pc : Pc n w} (hpc : part bias c op pc = if d = c then .freeing else .out)
    (hop : op = some (.free u)) :
    Raced bias c op m pc .quiet m (freeLoop d u (m.items d)) :=
  loop_raced (Or.inl rfl) hpc rfl rfl fun hused => ⟨hop, hused⟩

theorem releaseLoop_raced {pc : Pc n w}
    (hpc : part bias c op pc = if d = c then .releasing else .out) (hop : op = some (.release u))
    (hcap : rangeCheckAndGetIdx n bias u.cap = some d) :
    Raced bias c op m pc .quiet m (releaseLoop d u (m.items d)) :=
  loop_raced (Or.inr rfl) hpc rfl rfl fun hused => ⟨hop, hcap, hused⟩

/-- A store to a slot is a step of the race for it, and of no other one. -/
theorem store_raced {pc pc' : Pc n w} {a : Action n} {p p' : Part} {e : RaceEvent} {v : BitVec w}
    (hpc : part bias c op pc = if d = c then p else .out)
    (ha : event bias c op a = if d = c then e else .other)
    (hpc' : part bias c op pc' = if d = c then p' else .out)
    (hlocal : LocalStep (m.items d) p e v p') (hin : InCall bias c op pc') :
    Raced bias c op m pc a (m.set d v) pc' := by
  refine ⟨?_, hin⟩
  rw [hpc, ha, hpc']
  by_cases hd : d = c
  · subst hd
    simp only [if_true, set_items_self]
    exact hlocal
  · simp only [if_neg hd, set_items_of_ne hd]
    exact .other

/-- The exchange of `free`. -/
theorem freed_raced (hop : op = some (.free u)) (hused : unused (m.items d) = false) :
    Raced bias c op m (.freeCas d u (m.items d)) (.freed d) (m.set d (fUsed w))
      (if l4IsValidCap u.task then .freeUnmap d u else .freeReset d) := by
  have hpart : part bias c op
      (if l4IsValidCap u.task then .freeUnmap d u else .freeReset d : Pc n w) =
      if d = c then .tearing false (asksUnmap op) else .out := by
    rw [hop]
    cases hv : l4IsValidCap u.task with
    | true => simp only [part, asksUnmap, hv, if_true]
    | false => simp only [part, asksUnmap, hv, Bool.false_eq_true, if_false]
  refine store_raced rfl rfl hpart (.freed hused) ?_
  split
  · trivial
  · trivial

/-- The exchange of `release` that gives up one of several references. -/
theorem released_raced (hused : unused (m.items d) = false)
    (hmore : m.items d &&& ~~~fUsed w ≠ 1) :
    Raced bias c op m (.releaseCas d u (m.items d)) (.released d false)
      (m.set d (m.items d - 1)) (.ret (.bool false)) :=
  store_raced rfl rfl (ite_self _).symm (.released hused hmore) trivial

/-- The exchange of `release` that gives up the last reference. -/
theorem releasedLast_raced (hop : op = some (.release u))
    (hcap : rangeCheckAndGetIdx n bias u.cap = some d) (hused : unused (m.items d) = false)
    (hlast : m.items d &&& ~~~fUsed w = 1) :
    Raced bias c op m (.releaseCas d u (m.items d)) (.released d true)
      (m.set d (m.items d - 1))
      (if u.task ≠ l4InvalidCap then .releaseUnmap d u else .releaseReset d) := by
  have hpart : part bias c op
      (if u.task ≠ l4InvalidCap then .releaseUnmap d u else .releaseReset d : Pc n w) =
      if d = c then .tearing true (asksUnmap op) else .out := by
    rw [hop]
    by_cases hv : u.task ≠ l4InvalidCap
    · simp only [part, asksUnmap, if_pos hv, decide_eq_true hv]
    · simp only [part, asksUnmap, if_neg hv, decide_eq_false hv]
  refine store_raced rfl rfl hpart (.releasedLast hused hlast) ?_
  split
  · exact ⟨u, hop, hcap⟩
  · exact ⟨u, hop, hcap⟩

/-- The unmap of a teardown. -/
theorem unmapped_raced {pc pc' : Pc n w} (release : Bool)
    (hpc : part bias c op pc = if d = c then .tearing release true else .out)
    (hpc' : part bias c op pc' = if d = c then .tearing release false else .out)
    (hin : InCall bias c op pc') : Raced bias c op m pc (.unmapped d u) m pc' := by
  refine ⟨?_, hin⟩
  rw [hpc, hpc']
  by_cases hd : d = c
  · simp only [event, if_pos hd]
    exact .unmapped
  · simp only [event, if_neg hd]
    exact .other

/-- The store of 0; a release tells of it. -/
theorem reset_raced {pc : Pc n w} {r : Ret n} (release : Bool)
    (hpc : part bias c op pc = if d = c then .tearing release false else .out)
    (hret : part bias c op (.ret r : Pc n w) =
      if d = c then (if release then .told else .out) else .out) :
    Raced bias c op m pc (.reset d) (m.set d 0) (.ret r) :=
  store_raced hpc rfl hret .reset trivial

/-- A call returns. -/
theorem ret_raced (r : Ret n) : Raced bias c op m (.ret r) (.ret r) m .idle := by
  refine ⟨?_, trivial⟩
  match r with
  | .allocated i => exact .other
  | .invalid => exact .other
  | .void => exact .other
  | .bool false => exact .other
  | .bool true =>
      simp only [part, event]
      split
      · exact .returnedTrue
      · exact .other

/-- **Step.**  Every step of `exec` that leaves the slot to the race is a step of it. -/
theorem exec_raced {m' : Mem n w} {pc pc' : Pc n w} {a : Action n}
    (h : exec m pc = some (a, m', pc')) (hin : InCall bias c op pc) (ha : LeavesAlone bias c a) :
    Raced bias c op m pc a m' pc' := by
  cases pc with
  | idle => cases h
  | allocLoad =>
      cases h
      exact allocLoop_raced rfl _ _
  | allocTry startEnd i =>
      simp only [exec] at h
      split at h
      · cases h
        refine ⟨?_, trivial⟩
        rw [set_items_of_ne ha]
        exact .other
      · cases h
        exact allocLoop_raced rfl _ _
  | allocLast i =>
      cases h
      exact ⟨.other, trivial⟩
  | takeLoad d =>
      cases h
      exact ⟨.other, hin⟩
  | takeCas d current =>
      simp only [exec] at h
      split at h
      · cases h
        refine ⟨?_, trivial⟩
        rw [set_items_of_ne hin]
        exact .other
      · cases h
        exact ⟨.other, hin⟩
  | freeLoad d u =>
      cases h
      exact freeLoop_raced rfl hin
  | freeCas d u current =>
      obtain ⟨hop, hused⟩ := hin
      simp only [exec] at h
      split at h
      · rename_i hcur
        cases h
        subst hcur
        exact freed_raced hop hused
      · cases h
        exact freeLoop_raced rfl hop
  | freeUnmap d u =>
      cases h
      exact unmapped_raced false rfl rfl trivial
  | freeReset d =>
      cases h
      exact reset_raced false rfl (ite_self _).symm
  | releaseLoad d u =>
      cases h
      exact releaseLoop_raced rfl hin.1 hin.2
  | releaseCas d u current =>
      obtain ⟨hop, hcap, hused⟩ := hin
      simp only [exec] at h
      split at h
      · rename_i hcur
        subst hcur
        split at h
        · rename_i hlast
          cases h
          exact releasedLast_raced hop hcap hused hlast
        · rename_i hmore
          cases h
          exact released_raced hused hmore
      · cases h
        exact releaseLoop_raced rfl hop hcap
  | releaseUnmap d u =>
      cases h
      exact unmapped_raced true rfl rfl hin
  | releaseReset d =>
      cases h
      obtain ⟨u, hop, hcap⟩ := hin
      refine reset_raced true rfl ?_
      rw [hop]
      simp [part, isRelease, hcap]
  | ret r =>
      cases h
      exact ret_raced r

/-- **Step.**  A call begins. -/
theorem entry_raced {v : BitVec w} (op : Op) (ha : LeavesAlone bias c (.call op)) :
    LocalStep v .out (event bias c (some op) (.call op)) v
        (part bias c (some op) (entry bias op : Pc n w)) ∧
      InCall bias c (some op) (entry bias op : Pc n w) := by
  cases op with
  | alloc => exact ⟨.other, trivial⟩
  | take cap =>
      cases hcap : rangeCheckAndGetIdx n bias cap with
      | none =>
          simp only [entry, hcap]
          exact ⟨.other, trivial⟩
      | some d =>
          simp only [entry, hcap]
          refine ⟨.other, ?_⟩
          rintro rfl
          exact ha hcap
  | free u =>
      cases hcap : rangeCheckAndGetIdx n bias u.cap with
      | none =>
          simp only [entry, event, hcap]
          exact ⟨.other, trivial⟩
      | some d =>
          simp only [entry, event, hcap, part, Option.some.injEq]
          refine ⟨?_, rfl⟩
          split
          · exact .freeCall
          · exact .other
  | release u =>
      cases hcap : rangeCheckAndGetIdx n bias u.cap with
      | none =>
          simp only [entry, event, hcap]
          exact ⟨.other, trivial⟩
      | some d =>
          simp only [entry, event, hcap, part, Option.some.injEq]
          refine ⟨?_, rfl, hcap⟩
          split
          · exact .releaseCall
          · exact .other

end steps

/-! ## Runs -/

section runs
variable [DecidableEq T] {bias : ℤ} {c : Fin n}

/-- Only a call changes the call a thread is in. -/
theorem callsAfter_exec {m m' : Mem n w} {pc pc' : Pc n w} {a : Action n}
    (h : exec m pc = some (a, m', pc')) (op : T → Option Op) (t : T) : callsAfter op t a = op := by
  cases a with
  | call o =>
      have heff := exec_effect h
      generalize pc.role = r, pc'.role = r', m.items = v, m'.items = v' at heff
      cases heff with
      | leave _ ha => rcases ha with ha | ⟨x, ha⟩ <;> cases ha
  | _ => rfl

/-- The threads with the calls they are in run the race with the events seen. -/
structure Watched (bias : ℤ) (c : Fin n) (r : Race T w) (b : Watch T) (s : Threads T n w) :
    Prop where
  run : Run RaceStep r b.events (race bias c s b.op)
  inCall : ∀ t, InCall bias c (b.op t) (s.pc t)

/-- What one thread does changes its part. -/
theorem race_update (s : Threads T n w) (op : T → Option Op) (t : T) (m : Mem n w) (pc : Pc n w)
    (o : Option Op) :
    race bias c { mem := m, pc := Function.update s.pc t pc } (Function.update op t o) =
      { word := m.items c
        part := Function.update (race bias c s op).part t (part bias c o pc) } := by
  refine congrArg (Race.mk (m.items c)) (funext fun u => ?_)
  by_cases hu : u = t
  · subst hu
    simp only [Function.update_self]
  · simp only [race, Function.update_of_ne hu]

theorem inCall_update {s : Threads T n w} {op : T → Option Op} {t : T} {pc : Pc n w} {o : Option Op}
    (h : ∀ t, InCall bias c (op t) (s.pc t)) (hin : InCall bias c o pc) :
    ∀ u, InCall bias c (Function.update op t o u) (Function.update s.pc t pc u) := by
  intro u
  by_cases hu : u = t
  · subst hu
    simpa only [Function.update_self] using hin
  · simpa only [Function.update_of_ne hu] using h u

/-- **Step.** -/
theorem Watched.step {r : Race T w} {b : Watch T} {s s' : Threads T n w} {l : T × Action n}
    (h : Watched bias c r b s) (hstep : Step bias s l s') (ha : LeavesAlone bias c l.2) :
    Watched bias c r (b.see bias c l) s' := by
  cases hstep with
  | @call t op hidle =>
      obtain ⟨hlocal, hin⟩ := entry_raced (w := w) (v := s.mem.items c) op ha
      have hout : (race bias c s b.op).part t = .out := by
        show part bias c (b.op t) (s.pc t) = .out
        rw [hidle]
        rfl
      refine ⟨?_, inCall_update h.inCall hin⟩
      have hrun := h.run.snoc (.mk (hout ▸ hlocal))
      rw [← race_update] at hrun
      show Run RaceStep r (b.events ++ [(t, event bias c (Function.update b.op t (some op) t) _)]) _
      rw [Function.update_self]
      exact hrun
  | @exec t a m pc hexec =>
      obtain ⟨hlocal, hin⟩ := exec_raced hexec (h.inCall t) ha
      have hsame : callsAfter b.op t a = Function.update b.op t (b.op t) := by
        rw [callsAfter_exec hexec, Function.update_eq_self]
      show Watched bias c r { events := b.events ++ [(t, event bias c (callsAfter b.op t a t) a)],
                              op := callsAfter b.op t a } _
      rw [hsame, Function.update_self]
      refine ⟨?_, inCall_update h.inCall hin⟩
      rw [race_update]
      exact h.run.snoc (.mk hlocal)

/-- **Runs.** -/
theorem watched_run {s₀ s : Threads T n w} {ls : List (T × Action n)}
    (hrun : Run (Step bias) s₀ ls s) (hidle : ∀ t, s₀.pc t = .idle)
    (ha : ∀ l ∈ ls, LeavesAlone bias c l.2) :
    Watched bias c (race bias c s₀ fun _ => none) (watch bias c ls) s := by
  induction hrun with
  | nil =>
      refine ⟨.nil, fun t => ?_⟩
      rw [hidle t]
      trivial
  | snoc _ hl ih =>
      rw [watch_snoc]
      exact (ih fun l hmem => ha l (List.mem_append_left _ hmem)).step hl
        (ha _ (List.mem_append_right _ (List.mem_singleton_self _)))

omit [DecidableEq T] in
/-- Nobody who is idle has a part in the race. -/
theorem race_idle {s : Threads T n w} (hidle : ∀ t, s.pc t = .idle) (op : T → Option Op) (t : T) :
    (race bias c s op).part t = .out := by
  show part bias c (op t) (s.pc t) = .out
  rw [hidle t]
  rfl

/-- **Runs.**  Calls of `free` and `release` on a slot in use that nobody takes or allocates
meanwhile have one outcome, whatever the threads, the memory elsewhere and the interleaving. -/
theorem torn_down_once {s₀ s : Threads T n w} {ls : List (T × Action n)}
    (hused : unused (s₀.mem.items c) = false) (hstart : ∀ t, s₀.pc t = .idle)
    (hrun : Run (Step bias) s₀ ls s) (ha : ∀ l ∈ ls, LeavesAlone bias c l.2)
    (hend : ∀ t, s.pc t = .idle) :
    Outcome (s₀.mem.items c &&& ~~~fUsed w).toNat (watch bias c ls).events (s.mem.items c) := by
  obtain ⟨hword, hpos, hroom⟩ := flagged_of_used hused
  have hwatched := (watched_run hrun hstart ha).run
  have hfresh : race bias c s₀ (fun _ => none) =
      Race.start T w (s₀.mem.items c &&& ~~~fUsed w).toNat :=
    congrArg₂ Race.mk hword (funext fun t => race_idle hstart (fun _ => none) t)
  rw [hfresh] at hwatched
  exact race_outcome hpos hroom hwatched (race_idle hend _)

end runs

/-! ## A free and a release -/

/-- A slot with two references. -/
def twice : Threads Bool 1 8 where
  mem := { items := fun _ => flagged 8 2, last := ⟨0, Nat.one_pos⟩ }
  pc := fun _ => .idle

def cap₂ : Word := capOf 1 (⟨0, Nat.one_pos⟩ : Fin 1)

/-- The release loads, the free tears the slot down, and the release gives up. -/
theorem torn_down_once_free :
    ∃ (ls : List (Bool × Action 1)) (s : Threads Bool 1 8),
      Run (Step 1) twice ls s ∧ Due 2 (watch 1 0 ls).events ∧
        Outcome 2 (watch 1 0 ls).events (s.mem.items 0) := by
  have hrelease : Run (Step 1) twice
      [(false, .call (.release { cap := cap₂, unmapFlags := 0 }))] _ := .snoc .nil (.call rfl)
  have hload := hrelease.snoc (.exec (t := false) (a := .quiet) rfl)
  have hfree := hload.snoc
    (l := (true, .call (.free { cap := cap₂, unmapFlags := 0 }))) (.call rfl)
  have hload' := hfree.snoc (.exec (t := true) (a := .quiet) rfl)
  have hfreed := hload'.snoc (.exec (t := true) (a := .freed 0) rfl)
  have hgiveUp := hfreed.snoc (.exec (t := false) (a := .quiet) rfl)
  have hreset := hgiveUp.snoc (.exec (t := true) (a := .reset 0) rfl)
  have hfalse := hreset.snoc (.exec (t := false) (a := .ret (.bool false)) rfl)
  have hvoid := hfalse.snoc (.exec (t := true) (a := .ret .void) rfl)
  have htwo : (twice.mem.items 0 &&& ~~~fUsed 8).toNat = 2 := by decide
  have hout := torn_down_once (c := 0) (by decide) (fun _ => rfl) hvoid ?_ ?_
  · rw [htwo] at hout
    exact ⟨_, _, hvoid, Or.inl (by decide), hout⟩
  · intro l hl
    simp only [List.mem_append, List.mem_singleton] at hl
    rcases hl with (((((((rfl | rfl) | rfl) | rfl) | rfl) | rfl) | rfl) | rfl) | rfl <;> trivial
  · intro t
    cases t <;> rfl

end MettEagle.CapAlloc
