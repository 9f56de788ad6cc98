/-
# `MettEagle.CapAlloc` — the thread-safe capability allocator

`Safe_counting_cap_alloc` keeps one counter per slot: the top bit says that the
slot is used, the bits below count its references.  `alloc`, `take`, `free` and
`release` are loops around a compare-exchange on one counter.  Here a call is a
walk through the positions `Pc`, and `exec` takes one atomic step from a position,
together with the local computation up to the next atomic one:

    alloc     allocLoad     `_last.load ()`            allocTry      compare_exchange 0 → F_USED + 1
              allocLast     `_last = i`
    take      takeLoad      `_items[c].load ()`        takeCas       compare_exchange, count + 1
    free      freeLoad      `_items[c].load ()`        freeCas       compare_exchange → F_USED
              freeUnmap     `l4_task_unmap`            freeReset     `_items[c] = 0`
    release   releaseLoad   `_items[c].load ()`        releaseCas    compare_exchange, count - 1
              releaseUnmap  `l4_task_unmap`            releaseReset  `_items[c] = 0`

Any number of threads interleave their steps (`Step`).  `Effect` says what a step
can do to the counters, and `exec_effect` that `exec` does nothing else.
-/
import MettEagle.L4
import MettEagle.Lib.FlagCount

namespace MettEagle.CapAlloc

/-! ## Counters -/

section counter
variable {w : ℕ}

/-- `F_USED`. -/
abbrev fUsed (w : ℕ) : BitVec w := flag w

/-- The guard of `free` and `release`: not in use, or its count is already 0. -/
def unused (current : BitVec w) : Bool :=
  current &&& fUsed w = 0 || current &&& ~~~fUsed w = 0

@[simp] theorem unused_zero : unused (0 : BitVec w) = true := by
  have hand : (0 : BitVec w) &&& fUsed w = 0 := BitVec.zero_and
  rw [unused, decide_eq_true hand, Bool.true_or]

/-- During a teardown the count is 0. -/
@[simp] theorem unused_fUsed : unused (fUsed w) = true := by
  have hand : fUsed w &&& ~~~fUsed w = 0 := BitVec.and_not_self _
  rw [unused, decide_eq_true hand, Bool.or_true]

theorem unused_flagged {k : ℕ} (hw : 0 < w) (hk : k < 2 ^ (w - 1)) (hpos : 0 < k) :
    unused (flagged w k) = false := by
  have hflag : flagged w k &&& fUsed w ≠ 0 := by
    rw [flagged_and_flag hw hk]
    exact flag_ne_zero hw
  have hcount : flagged w k &&& ~~~fUsed w ≠ 0 := fun h0 => by
    have hzero := (toNat_count hw hk).symm.trans (congrArg BitVec.toNat h0)
    rw [hzero] at hpos
    exact lt_irrefl 0 hpos
  rw [unused, decide_eq_false hflag, decide_eq_false hcount, Bool.or_self]

/-- A word that is in use has a count below the flag, and not 0. -/
theorem flagged_of_used {v : BitVec w} (h : unused v = false) :
    v = flagged w (v &&& ~~~fUsed w).toNat ∧ 0 < (v &&& ~~~fUsed w).toNat ∧
      (v &&& ~~~fUsed w).toNat < 2 ^ (w - 1) := by
  rw [unused, Bool.or_eq_false_iff, decide_eq_false_iff_not, decide_eq_false_iff_not] at h
  obtain ⟨hflag, hcount⟩ := h
  have hw : 0 < w := Nat.pos_of_ne_zero fun h0 => by
    subst h0
    exact hflag BitVec.of_length_zero
  refine ⟨eq_flagged v hflag, Nat.pos_of_ne_zero fun h0 => hcount ?_, toNat_count_lt hw v⟩
  exact BitVec.eq_of_toNat_eq h0

end counter

/-! ## Slots and capabilities -/

variable {n w : ℕ}

/-- `range_check_and_get_idx`. -/
def rangeCheckAndGetIdx (n : ℕ) (bias : ℤ) (cap : Word) : Option (Fin n) :=
  let c : ℤ := (cap >>> l4CapShift).toNat
  if c < bias then none
  else if h : (c - bias).toNat < n then some ⟨(c - bias).toNat, h⟩ else none

/-- The capability of a slot, `(i + _bias) << L4_CAP_SHIFT`. -/
def capOf (bias : ℤ) (i : Fin n) : Word := BitVec.ofInt 64 (i + bias) <<< l4CapShift

/-- What `free` and `release` hand to `l4_task_unmap`. -/
structure Unmap where
  cap : Word
  task : Word := l4InvalidCap
  unmapFlags : BitVec 32
deriving DecidableEq

/-- `_items` and `_last`. -/
structure Mem (n w : ℕ) where
  items : Fin n → BitVec w
  last : Fin n

def Mem.set (m : Mem n w) (i : Fin n) (v : BitVec w) : Mem n w :=
  { m with items := Function.update m.items i v }

/-! ## Calls -/

inductive Op where
  | alloc
  | take (cap : Word)
  | free (u : Unmap)
  | release (u : Unmap)
deriving DecidableEq

/-- What a call returns; `allocated i` stands for the capability of slot `i`. -/
inductive Ret (n : ℕ) where
  | allocated (i : Fin n)
  | invalid
  | void
  | bool (b : Bool)
deriving DecidableEq

/-- Where a thread is. -/
inductive Pc (n w : ℕ) where
  | idle
  | allocLoad
  | allocTry (startEnd i : Fin n)
  | allocLast (i : Fin n)
  | takeLoad (c : Fin n)
  | takeCas (c : Fin n) (current : BitVec w)
  | freeLoad (c : Fin n) (u : Unmap)
  | freeCas (c : Fin n) (u : Unmap) (current : BitVec w)
  | freeUnmap (c : Fin n) (u : Unmap)
  | freeReset (c : Fin n)
  | releaseLoad (c : Fin n) (u : Unmap)
  | releaseCas (c : Fin n) (u : Unmap) (current : BitVec w)
  | releaseUnmap (c : Fin n) (u : Unmap)
  | releaseReset (c : Fin n)
  | ret (r : Ret n)
deriving DecidableEq

/-- What a step does, seen from outside: `released` and `freed` are the successful exchanges of
`release` and `free`; `quiet` are the loads, the failing exchanges and the store of `_last`. -/
inductive Action (n : ℕ) where
  | call (op : Op)
  | quiet
  | acquired (i : Fin n)
  | taken (c : Fin n)
  | released (c : Fin n) (last : Bool)
  | freed (c : Fin n)
  | unmapped (c : Fin n) (u : Unmap)
  | reset (c : Fin n)
  | ret (r : Ret n)
deriving DecidableEq

/-- The range check a call starts with. -/
def entry (bias : ℤ) : Op → Pc n w
  | .alloc => .allocLoad
  | .take cap =>
      match rangeCheckAndGetIdx n bias cap with
      | none => .ret .void
      | some c => .takeLoad c
  | .free u =>
      match rangeCheckAndGetIdx n bias u.cap with
      | none => .ret .void
      | some c => .freeLoad c u
  | .release u =>
      match rangeCheckAndGetIdx n bias u.cap with
      | none => .ret (.bool false)
      | some c => .releaseLoad c u

/-- `(i + 1) % CAPACITY`. -/
def nextSlot (i : Fin n) : Fin n := ⟨(i + 1) % n, Nat.mod_lt _ i.pos⟩

/-- The head of the loop of `alloc`. -/
def allocLoop (startEnd i : Fin n) : Pc n w :=
  if i = startEnd then .ret .invalid else .allocTry startEnd i

/-- The head of the loop of `free`. -/
def freeLoop (c : Fin n) (u : Unmap) (current : BitVec w) : Pc n w :=
  if unused current then .ret .void else .freeCas c u current

/-- The head of the loop of `release`. -/
def releaseLoop (c : Fin n) (u : Unmap) (current : BitVec w) : Pc n w :=
  if unused current then .ret (.bool false) else .releaseCas c u current

/-- One atomic step: what is seen of it, the memory and the position after it. -/
def exec (m : Mem n w) : Pc n w → Option (Action n × Mem n w × Pc n w)
  | .idle => none
  | .allocLoad => some (.quiet, m, allocLoop m.last (nextSlot m.last))
  | .allocTry startEnd i =>
      if m.items i = 0 then some (.acquired i, m.set i (fUsed w + 1), .allocLast i)
      else some (.quiet, m, allocLoop startEnd (nextSlot i))
  | .allocLast i => some (.quiet, { m with last := i }, .ret (.allocated i))
  | .takeLoad c => some (.quiet, m, .takeCas c (m.items c))
  | .takeCas c current =>
      if m.items c = current then some (.taken c, m.set c ((current ||| fUsed w) + 1), .ret .void)
      else some (.quiet, m, .takeCas c (m.items c))
  | .freeLoad c u => some (.quiet, m, freeLoop c u (m.items c))
  | .freeCas c u current =>
      if m.items c = current then
        some (.freed c, m.set c (fUsed w),
          if l4IsValidCap u.task then .freeUnmap c u else .freeReset c)
      else some (.quiet, m, freeLoop c u (m.items c))
  | .freeUnmap c u => some (.unmapped c u, m, .freeReset c)
  | .freeReset c => some (.reset c, m.set c 0, .ret .void)
  | .releaseLoad c u => some (.quiet, m, releaseLoop c u (m.items c))
  | .releaseCas c u current =>
      if m.items c = current then
        if current &&& ~~~fUsed w = 1 then
          some (.released c true, m.set c (current - 1),
            if u.task ≠ l4InvalidCap then .releaseUnmap c u else .releaseReset c)
        else some (.released c false, m.set c (current - 1), .ret (.bool false))
      else some (.quiet, m, releaseLoop c u (m.items c))
  | .releaseUnmap c u => some (.unmapped c u, m, .releaseReset c)
  | .releaseReset c => some (.reset c, m.set c 0, .ret (.bool true))
  | .ret r => some (.ret r, m, .idle)

/-! ## Threads -/

/-- The allocator and the threads that use it. -/
structure Threads (T : Type*) (n w : ℕ) where
  mem : Mem n w
  pc : T → Pc n w

/-- One step of one thread: it starts a call, or goes on with the one it is in. -/
inductive Step {T : Type*} [DecidableEq T] (bias : ℤ) :
    Threads T n w → T × Action n → Threads T n w → Prop
  | call {s : Threads T n w} {t : T} {op : Op} : s.pc t = .idle →
      Step bias s (t, .call op) { s with pc := Function.update s.pc t (entry bias op) }
  | exec {s : Threads T n w} {t : T} {a : Action n} {m : Mem n w} {pc : Pc n w} :
      exec s.mem (s.pc t) = some (a, m, pc) →
      Step bias s (t, a) { mem := m, pc := Function.update s.pc t pc }

/-! ## What a step can do -/

/-- What a thread relies on for a slot: that it is referenced, that the thread has the only
reference, or that nobody else has and the thread is tearing it down (the unmap still to come
or not). -/
inductive Role where
  | user
  | sole
  | tearing (pending : Bool)
deriving DecidableEq

def Pc.role : Pc n w → Option (Role × Fin n)
  | .takeLoad c | .takeCas c _ | .releaseLoad c _ | .releaseCas c _ _ => some (.user, c)
  | .freeLoad c _ | .freeCas c _ _ | .allocLast c | .ret (.allocated c) => some (.sole, c)
  | .freeUnmap c _ | .releaseUnmap c _ => some (.tearing true, c)
  | .freeReset c | .releaseReset c => some (.tearing false, c)
  | _ => none

/-- The effect of an atomic step on the counters, and on what its thread relies on.  Consequences
of `exec`, not a second definition of it: the values exchanged are those found. -/
inductive Effect (v : Fin n → BitVec w) :
    Option (Role × Fin n) → Action n → (Fin n → BitVec w) → Option (Role × Fin n) → Prop
  | quiet {r : Option (Role × Fin n)} : (∀ p c, r ≠ some (.tearing p, c)) → Effect v r .quiet v r
  | leave {r : Option (Role × Fin n)} {a : Action n} : (∀ p c, r ≠ some (.tearing p, c)) →
      a = .quiet ∨ (∃ x, a = .ret x) → Effect v r a v none
  | acquired {i : Fin n} : v i = 0 →
      Effect v none (.acquired i) (Function.update v i (fUsed w + 1)) (some (.sole, i))
  | taken {c : Fin n} : Effect v (some (.user, c)) (.taken c)
      (Function.update v c ((v c ||| fUsed w) + 1)) none
  | released {c : Fin n} : v c &&& ~~~fUsed w ≠ 1 →
      Effect v (some (.user, c)) (.released c false) (Function.update v c (v c - 1)) none
  | releasedLast {c : Fin n} (pending : Bool) : v c &&& ~~~fUsed w = 1 →
      Effect v (some (.user, c)) (.released c true) (Function.update v c (v c - 1))
        (some (.tearing pending, c))
  | freed {c : Fin n} (pending : Bool) : Effect v (some (.sole, c)) (.freed c)
      (Function.update v c (fUsed w)) (some (.tearing pending, c))
  | unmapped {c : Fin n} {u : Unmap} :
      Effect v (some (.tearing true, c)) (.unmapped c u) v (some (.tearing false, c))
  | reset {c : Fin n} :
      Effect v (some (.tearing false, c)) (.reset c) (Function.update v c 0) none

theorem Effect.acquired_free {v v' : Fin n → BitVec w} {r r' : Option (Role × Fin n)} {i : Fin n}
    (h : Effect v r (.acquired i) v' r') : v i = 0 := by
  cases h with
  | acquired hzero => exact hzero
  | leave _ hleave => obtain hleave | ⟨x, hleave⟩ := hleave <;> cases hleave

theorem role_allocLoop (startEnd i : Fin n) : (allocLoop (w := w) startEnd i).role = none := by
  rw [allocLoop]
  split <;> rfl

theorem role_freeLoop (c : Fin n) (u : Unmap) (current : BitVec w) :
    (freeLoop c u current).role = some (.sole, c) ∨ (freeLoop c u current).role = none := by
  rw [freeLoop]
  split
  · exact Or.inr rfl
  · exact Or.inl rfl

theorem role_releaseLoop (c : Fin n) (u : Unmap) (current : BitVec w) :
    (releaseLoop c u current).role = some (.user, c) ∨ (releaseLoop c u current).role = none := by
  rw [releaseLoop]
  split
  · exact Or.inr rfl
  · exact Or.inl rfl

/-- A step that changes no counter and keeps to the slot or leaves it. -/
theorem Effect.of_quiet {v : Fin n → BitVec w} {r r' : Option (Role × Fin n)}
    (hr : ∀ p c, r ≠ some (.tearing p, c)) (h : r' = r ∨ r' = none) : Effect v r .quiet v r' := by
  obtain rfl | rfl := h
  · exact .quiet hr
  · exact .leave hr (Or.inl rfl)

theorem exec_effect {m m' : Mem n w} {pc pc' : Pc n w} {a : Action n}
    (h : exec m pc = some (a, m', pc')) : Effect m.items pc.role a m'.items pc'.role := by
  cases pc with
  | idle => cases h
  | allocLoad =>
      cases h
      exact .of_quiet (fun _ _ => nofun) (Or.inr (role_allocLoop _ _))
  | allocTry startEnd i =>
      simp only [exec] at h
      split at h
      · rename_i hzero
        cases h
        exact .acquired hzero
      · cases h
        exact .of_quiet (fun _ _ => nofun) (Or.inr (role_allocLoop _ _))
  | allocLast i =>
      cases h
      exact .of_quiet (fun _ _ => nofun) (Or.inl rfl)
  | takeLoad c =>
      cases h
      exact .of_quiet (fun _ _ => nofun) (Or.inl rfl)
  | takeCas c current =>
      simp only [exec] at h
      split at h
      · rename_i hcur
        cases h
        rw [← hcur]
        exact .taken
      · cases h
        exact .of_quiet (fun _ _ => nofun) (Or.inl rfl)
  | freeLoad c u =>
      cases h
      exact .of_quiet (fun _ _ => nofun) (role_freeLoop _ _ _)
  | freeCas c u current =>
      simp only [exec] at h
      split at h
      · cases h
        split
        · exact .freed true
        · exact .freed false
      · cases h
        exact .of_quiet (fun _ _ => nofun) (role_freeLoop _ _ _)
  | freeUnmap c u =>
      cases h
      exact .unmapped
  | freeReset c =>
      cases h
      exact .reset
  | releaseLoad c u =>
      cases h
      exact .of_quiet (fun _ _ => nofun) (role_releaseLoop _ _ _)
  | releaseCas c u current =>
      simp only [exec] at h
      split at h
      · rename_i hcur
        subst hcur
        split at h
        · rename_i hlast
          cases h
          split
          · exact .releasedLast true hlast
          · exact .releasedLast false hlast
        · rename_i hmore
          cases h
          exact .released hmore
      · cases h
        exact .of_quiet (fun _ _ => nofun) (role_releaseLoop _ _ _)
  | releaseUnmap c u =>
      cases h
      exact .unmapped
  | releaseReset c =>
      cases h
      exact .reset
  | ret r =>
      cases h
      refine .leave (fun p c hc => ?_) (Or.inr ⟨r, rfl⟩)
      cases r <;> cases hc

/-- A call begins without relying on anything, or on the slot of its capability. -/
theorem entry_role {bias : ℤ} {op : Op} {r : Role} {c : Fin n}
    (h : (entry bias op : Pc n w).role = some (r, c)) :
    (r = .user ∧ ∃ cap, rangeCheckAndGetIdx n bias cap = some c ∧
        (op = .take cap ∨ ∃ u, op = .release u ∧ u.cap = cap)) ∨
      (r = .sole ∧ ∃ u, op = .free u ∧ rangeCheckAndGetIdx n bias u.cap = some c) := by
  cases op with
  | alloc => cases h
  | take cap =>
      simp only [entry] at h
      split at h
      · cases h
      · rename_i hcap
        cases h
        exact Or.inl ⟨rfl, cap, hcap, Or.inl rfl⟩
  | free u =>
      simp only [entry] at h
      split at h
      · cases h
      · rename_i hcap
        cases h
        exact Or.inr ⟨rfl, u, rfl, hcap⟩
  | release u =>
      simp only [entry] at h
      split at h
      · cases h
      · rename_i hcap
        cases h
        exact Or.inl ⟨rfl, u.cap, hcap, Or.inr ⟨u, rfl, rfl⟩⟩

end MettEagle.CapAlloc
