/-
# `MettEagle.CapAlone` — calls of the allocator without interference

A call that no other thread disturbs runs from its entry to its return, and what it
returns and leaves behind is a function of the memory it finds (`Ends.unique`).

    alloc      the first free slot going round from the one after `_last`;
               `_last` itself, which would come last, is not looked at
    take       the count plus one, the flag set
    release    the count minus one; 0, flag included, for the last reference

Two things follow that a caller would not expect: `alloc` can miss the only free
slot, and a slot with one reference too many is free.
-/
import MettEagle.CapAlloc
import MettEagle.Lib.Run

namespace MettEagle.CapAlloc

variable {n w : ℕ}

/-! ## Whole calls -/

/-- From this position the call returns `r` and leaves the memory `m'`, if nobody else
interferes. -/
inductive Ends : Mem n w → Pc n w → Ret n → Mem n w → Prop
  | ret {m : Mem n w} {r : Ret n} : Ends m (.ret r) r m
  | step {m m' m'' : Mem n w} {pc pc' : Pc n w} {a : Action n} {r : Ret n} :
      exec m pc = some (a, m', pc') → Ends m' pc' r m'' → Ends m pc r m''

theorem not_ends_idle {m m' : Mem n w} {r : Ret n} : ¬Ends m .idle r m' := by
  intro h
  cases h with
  | step hexec _ => cases hexec

/-- The outcome is determined. -/
theorem Ends.unique {m m₁ m₂ : Mem n w} {pc : Pc n w} {r₁ r₂ : Ret n} (h₁ : Ends m pc r₁ m₁)
    (h₂ : Ends m pc r₂ m₂) : r₁ = r₂ ∧ m₁ = m₂ := by
  induction h₁ with
  | ret =>
      cases h₂ with
      | ret => exact ⟨rfl, rfl⟩
      | step hexec hends =>
          cases hexec
          exact absurd hends not_ends_idle
  | step hexec hends ih =>
      cases h₂ with
      | ret =>
          cases hexec
          exact absurd hends not_ends_idle
      | step hexec' hends' =>
          rw [hexec] at hexec'
          cases hexec'
          exact ih hends'

/-! ## `alloc` -/

/-- The slot `alloc` looks at in round `e`, if it gets that far. -/
def slotAfter (last : Fin n) (e : ℕ) : Fin n := ⟨(last + 1 + e) % n, Nat.mod_lt _ last.pos⟩

theorem nextSlot_slotAfter (last : Fin n) (e : ℕ) :
    nextSlot (slotAfter last e) = slotAfter last (e + 1) := by
  simp only [nextSlot, slotAfter, Nat.mod_add_mod, Nat.add_assoc]

/-- The search comes back to where it started in round `n - 1`. -/
theorem slotAfter_eq_last {last : Fin n} {e : ℕ} (he : e < n) :
    slotAfter last e = last ↔ e + 1 = n := by
  have hlast := last.isLt
  rw [Fin.ext_iff]
  show (last + 1 + e) % n = last ↔ _
  by_cases hwrap : last + 1 + e < n
  · rw [Nat.mod_eq_of_lt hwrap]
    omega
  · rw [Nat.mod_eq_sub_mod (by omega), Nat.mod_eq_of_lt (by omega)]
    omega

/-- Every slot is passed in one round. -/
theorem exists_slotAfter (last i : Fin n) : ∃ e < n, slotAfter last e = i := by
  have hlast := last.isLt
  have hi := i.isLt
  by_cases hle : last + 1 ≤ (i : ℕ)
  · refine ⟨i - (last + 1), by omega, Fin.ext ?_⟩
    show (last + 1 + (i - (last + 1))) % n = i
    rw [Nat.mod_eq_of_lt (by omega)]
    omega
  · refine ⟨i + n - (last + 1), by omega, Fin.ext ?_⟩
    show (last + 1 + (i + n - (last + 1))) % n = i
    rw [show last + 1 + (i + n - (last + 1)) = i + n by omega, Nat.add_mod_right,
      Nat.mod_eq_of_lt hi]

/-- The first free slot, going round from the one after `_last`. -/
def FirstFree (m : Mem n w) (i : Fin n) : Prop :=
  ∃ e < n, slotAfter m.last e = i ∧ m.items i = 0 ∧ ∀ d < e, m.items (slotAfter m.last d) ≠ 0

theorem FirstFree.free {m : Mem n w} {i : Fin n} (h : FirstFree m i) : m.items i = 0 := by
  obtain ⟨-, -, -, hzero, -⟩ := h
  exact hzero

theorem FirstFree.unique {m : Mem n w} {i j : Fin n} (hi : FirstFree m i) (hj : FirstFree m j) :
    i = j := by
  obtain ⟨e, -, rfl, hfree, hbefore⟩ := hi
  obtain ⟨e', -, rfl, hfree', hbefore'⟩ := hj
  rcases lt_trichotomy e e' with hlt | rfl | hlt
  · exact absurd hfree (hbefore' e hlt)
  · rfl
  · exact absurd hfree' (hbefore e' hlt)

theorem exists_firstFree {m : Mem n w} {i : Fin n} (h : m.items i = 0) : ∃ j, FirstFree m j := by
  have hex : ∃ e, e < n ∧ m.items (slotAfter m.last e) = 0 := by
    obtain ⟨e, he, hi⟩ := exists_slotAfter m.last i
    exact ⟨e, he, hi ▸ h⟩
  classical
  obtain ⟨hlt, hzero⟩ := Nat.find_spec hex
  refine ⟨_, Nat.find hex, hlt, rfl, hzero, fun d hd hfree => ?_⟩
  exact Nat.find_min hex hd ⟨hd.trans hlt, hfree⟩

/-- The memory after slot `i` was allocated. -/
def Mem.allocated (m : Mem n w) (i : Fin n) : Mem n w := { m.set i (fUsed w + 1) with last := i }

theorem ends_allocTry {m : Mem n w} (startEnd : Fin n) {i : Fin n} (h : m.items i = 0) :
    Ends m (.allocTry startEnd i) (.allocated i) (m.allocated i) :=
  .step (if_pos h) (.step rfl .ret)

/-- The rounds from `e` on, `k` of which are left: the first free slot among them, if there is
one, is found. -/
theorem ends_allocLoop (m : Mem n w) (startEnd : Fin n) {k e : ℕ} (hk : e + k + 1 = n) :
    (∃ d, e ≤ d ∧ d + 1 < n ∧ m.items (slotAfter startEnd d) = 0 ∧
        (∀ d', e ≤ d' → d' < d → m.items (slotAfter startEnd d') ≠ 0) ∧
        Ends m (allocLoop startEnd (slotAfter startEnd e)) (.allocated (slotAfter startEnd d))
          (m.allocated (slotAfter startEnd d))) ∨
      (∀ d, e ≤ d → d + 1 < n → m.items (slotAfter startEnd d) ≠ 0) ∧
        Ends m (allocLoop startEnd (slotAfter startEnd e)) .invalid m := by
  induction k generalizing e with
  | zero =>
      have hback : slotAfter startEnd e = startEnd := (slotAfter_eq_last (by omega)).mpr hk
      rw [allocLoop, if_pos hback]
      exact Or.inr ⟨fun d hd hdn => by omega, .ret⟩
  | succ k ih =>
      have hgo : slotAfter startEnd e ≠ startEnd := fun hback => by
        have := (slotAfter_eq_last (by omega)).mp hback
        omega
      rw [allocLoop, if_neg hgo]
      by_cases hfree : m.items (slotAfter startEnd e) = 0
      · refine Or.inl ⟨e, le_refl e, by omega, hfree, fun d' hle hlt => by omega, ?_⟩
        exact ends_allocTry startEnd hfree
      · have hnext : exec m (.allocTry startEnd (slotAfter startEnd e)) =
            some (.quiet, m, allocLoop startEnd (slotAfter startEnd (e + 1))) := by
          rw [← nextSlot_slotAfter]
          exact if_neg hfree
        rcases ih (e := e + 1) (by omega) with ⟨d, hle, hdn, hd, hbefore, hends⟩ | ⟨hnone, hends⟩
        · refine Or.inl ⟨d, by omega, hdn, hd, fun d' hle' hlt => ?_, .step hnext hends⟩
          rcases Nat.eq_or_lt_of_le hle' with rfl | hlt'
          · exact hfree
          · exact hbefore d' hlt' hlt
        · refine Or.inr ⟨fun d hle hdn => ?_, .step hnext hends⟩
          rcases Nat.eq_or_lt_of_le hle with rfl | hlt'
          · exact hfree
          · exact hnone d hlt' hdn

/-- **`alloc` alone.**  It returns the first free slot, if that is not `_last`; and it returns an
invalid capability if no slot but `_last` is free. -/
theorem ends_alloc (m : Mem n w) :
    (∃ i, FirstFree m i ∧ i ≠ m.last ∧ Ends m .allocLoad (.allocated i) (m.allocated i)) ∨
      (∀ i, m.items i = 0 → i = m.last) ∧ Ends m .allocLoad .invalid m := by
  have hn := m.last.pos
  have hstart : exec m .allocLoad =
      some (.quiet, m, allocLoop m.last (slotAfter m.last 0)) := rfl
  rcases ends_allocLoop m m.last (k := n - 1) (e := 0) (by omega) with
    ⟨d, -, hdn, hfree, hbefore, hends⟩ | ⟨hnone, hends⟩
  · refine Or.inl ⟨_, ⟨d, by omega, rfl, hfree, fun d' hlt => hbefore d' (Nat.zero_le _) hlt⟩,
      fun hback => ?_, .step hstart hends⟩
    have := (slotAfter_eq_last (by omega)).mp hback
    omega
  · refine Or.inr ⟨fun i hi => ?_, .step hstart hends⟩
    obtain ⟨e, he, rfl⟩ := exists_slotAfter m.last i
    by_contra hne
    exact hnone e (Nat.zero_le _) (Nat.lt_of_le_of_ne he fun heq => hne
      ((slotAfter_eq_last he).mpr heq)) hi

/-! ## Completeness of `alloc` -/

/-- `first ()`. -/
def firstCap (bias : ℤ) : ℤ := bias

/-- `last ()`. -/
def lastCap (n : ℕ) (bias : ℤ) : ℤ := n + bias - 1

/-- A capability of a slot is valid: the bit of `L4_INVALID_CAP` is below its index. -/
theorem valid_capOf (bias : ℤ) (i : Fin n) : l4IsValidCap (capOf bias i) = true := by
  refine decide_eq_true (BitVec.eq_of_getLsbD_eq fun j hj => ?_)
  simp only [capOf, l4CapShift, BitVec.getLsbD_and, BitVec.getLsbD_shiftLeft]
  by_cases hlow : j < 12
  · simp [hlow]
  · have hone : (1#64).getLsbD (j - 11) = false := by
      rw [BitVec.getLsbD_one]
      simp
      omega
    simp [hone]

/-- The range check finds the slot of a capability again, if its index is one. -/
theorem rangeCheck_capOf {bias : ℤ} {i : Fin n} :
    rangeCheckAndGetIdx n bias (capOf bias i) = some i ↔
      0 ≤ (i : ℤ) + bias ∧ (i : ℤ) + bias < 2 ^ 52 := by
  have hi := i.isLt
  have hidx : (((capOf bias i) >>> l4CapShift).toNat : ℤ) = ((i : ℤ) + bias) % 2 ^ 52 := by
    simp only [capOf, l4CapShift, BitVec.toNat_ushiftRight, BitVec.toNat_shiftLeft,
      BitVec.toNat_ofInt, Nat.shiftRight_eq_div_pow, Nat.shiftLeft_eq]
    omega
  constructor
  · intro h
    simp only [rangeCheckAndGetIdx, hidx] at h
    split at h
    · cases h
    · split at h
      · have hval := congrArg Fin.val (Option.some.inj h)
        simp only at hval
        omega
      · cases h
  · rintro ⟨hlow, hhigh⟩
    have hexact := hidx.trans (Int.emod_eq_of_lt hlow hhigh)
    have hsub : ((i : ℤ) + bias - bias).toNat = i := by omega
    simp only [rangeCheckAndGetIdx, hexact]
    rw [if_neg (by omega), dif_pos (by omega)]
    exact congrArg some (Fin.ext hsub)

/-- What a caller of `alloc` should get: a valid capability exactly if a slot is free, and then
a slot of this allocator that was free, is used with one reference, is found again by the range
check, and is the only one to change. -/
structure AllocComplete (bias : ℤ) (m : Mem n w) (r : Ret n) (m' : Mem n w) : Prop where
  found : (∃ i, r = .allocated i ∧ l4IsValidCap (capOf bias i) = true) ↔ ∃ i, m.items i = 0
  within : ∀ i, r = .allocated i →
    firstCap bias ≤ (i : ℤ) + bias ∧ (i : ℤ) + bias ≤ lastCap n bias
  changed : ∀ i, r = .allocated i →
    m.items i = 0 ∧ m'.items = Function.update m.items i (fUsed w + 1)
  unchanged : (∀ i, r ≠ .allocated i) → m'.items = m.items
  back : ∀ i, r = .allocated i → rangeCheckAndGetIdx n bias (capOf bias i) = some i

/-- A slot that was free is returned as it should be, if its capability comes back to it. -/
theorem allocComplete_allocated {bias : ℤ} {m : Mem n w} {i : Fin n} (hfree : m.items i = 0)
    (hback : rangeCheckAndGetIdx n bias (capOf bias i) = some i) :
    AllocComplete bias m (.allocated i) (m.allocated i) where
  found := iff_of_true ⟨i, rfl, valid_capOf bias i⟩ ⟨i, hfree⟩
  within := by
    intro j hj
    cases hj
    have hi := i.isLt
    simp only [firstCap, lastCap]
    omega
  changed := by
    intro j hj
    cases hj
    exact ⟨hfree, rfl⟩
  unchanged := fun h => absurd rfl (h i)
  back := by
    intro j hj
    cases hj
    exact hback

theorem allocComplete_invalid {bias : ℤ} {m : Mem n w} (hfull : ∀ i, m.items i ≠ 0) :
    AllocComplete bias m .invalid m where
  found := iff_of_false (fun ⟨_, hi, _⟩ => by cases hi) fun ⟨i, hi⟩ => hfull i hi
  within := fun _ hi => by cases hi
  changed := fun _ hi => by cases hi
  unchanged := fun _ => rfl
  back := fun _ hi => by cases hi

/-- **Completeness.**  Without interference `alloc` ends as it should exactly if the first free
slot going round from the one after `_last`, if there is one, is not `_last` itself, and its
capability has an index of 52 bits. -/
theorem alloc_complete_iff (bias : ℤ) (m : Mem n w) :
    (∃ r m', Ends m (entry bias .alloc) r m' ∧ AllocComplete bias m r m') ↔
      ∀ i, FirstFree m i → i ≠ m.last ∧ 0 ≤ (i : ℤ) + bias ∧ (i : ℤ) + bias < 2 ^ 52 := by
  rcases ends_alloc m with ⟨i, hfirst, hne, hends⟩ | ⟨hnone, hends⟩
  · constructor
    · rintro ⟨r, m', hends', hcomplete⟩ j hj
      obtain ⟨rfl, rfl⟩ := hends'.unique hends
      obtain rfl := hj.unique hfirst
      exact ⟨hne, rangeCheck_capOf.mp (hcomplete.back j rfl)⟩
    · intro h
      exact ⟨_, _, hends,
        allocComplete_allocated hfirst.free (rangeCheck_capOf.mpr (h i hfirst).2)⟩
  · constructor
    · rintro ⟨r, m', hends', hcomplete⟩ j hj
      obtain ⟨rfl, rfl⟩ := hends'.unique hends
      obtain ⟨i, hi, -⟩ := hcomplete.found.mpr ⟨j, hj.free⟩
      cases hi
    · intro h
      have hfull : ∀ i, m.items i ≠ 0 := fun i hi => by
        obtain ⟨j, hj⟩ := exists_firstFree hi
        exact (h j hj).1 (hnone j hj.free)
      exact ⟨_, _, hends, allocComplete_invalid hfull⟩

/-- Slot 1 of two is the only free one, and the last one allocated. -/
def lastFreed : Mem 2 8 where
  items := fun i => if i = 1 then 0 else fUsed 8 + 1
  last := 1

/-- It is not found. -/
theorem alloc_complete_fails :
    ¬∀ (n w : ℕ) (bias : ℤ) (m : Mem n w),
      ∃ r m', Ends m (entry bias .alloc) r m' ∧ AllocComplete bias m r m' := by
  intro h
  obtain ⟨r, m', hends, hcomplete⟩ := h 2 8 1 lastFreed
  have hmiss : Ends lastFreed (entry 1 .alloc) .invalid lastFreed :=
    .step rfl (.step rfl .ret)
  obtain ⟨rfl, rfl⟩ := hends.unique hmiss
  obtain ⟨i, hi, -⟩ := hcomplete.found.mpr ⟨1, rfl⟩
  cases hi

/-! ## `take` and `release` -/

@[simp] theorem Mem.set_set (m : Mem n w) (c : Fin n) (v v' : BitVec w) :
    (m.set c v).set c v' = m.set c v' := by
  simp [Mem.set]

theorem ends_take (m : Mem n w) (c : Fin n) :
    Ends m (.takeLoad c) .void (m.set c ((m.items c ||| fUsed w) + 1)) :=
  .step rfl (.step (if_pos rfl) .ret)

theorem ends_release_unused {m : Mem n w} {c : Fin n} (u : Unmap) (h : unused (m.items c) = true) :
    Ends m (.releaseLoad c u) (.bool false) m := by
  have hload : exec m (.releaseLoad c u) = some (.quiet, m, .ret (.bool false)) :=
    congrArg (fun pc => some (Action.quiet, m, pc)) (if_pos h)
  exact .step hload .ret

theorem releaseLoad_of_used {m : Mem n w} {c : Fin n} (u : Unmap) (h : unused (m.items c) = false) :
    exec m (.releaseLoad c u) = some (.quiet, m, .releaseCas c u (m.items c)) :=
  congrArg (fun pc => some (Action.quiet, m, pc)) (if_neg (Bool.not_eq_true _ ▸ h))

theorem ends_release_more {m : Mem n w} {c : Fin n} (u : Unmap) (h : unused (m.items c) = false)
    (hcount : m.items c &&& ~~~fUsed w ≠ 1) :
    Ends m (.releaseLoad c u) (.bool false) (m.set c (m.items c - 1)) :=
  .step (releaseLoad_of_used u h) (.step ((if_pos rfl).trans (if_neg hcount)) .ret)

/-- The last reference; with or without an unmap. -/
theorem ends_release_last {m : Mem n w} {c : Fin n} (u : Unmap) (h : unused (m.items c) = false)
    (hcount : m.items c &&& ~~~fUsed w = 1) :
    Ends m (.releaseLoad c u) (.bool true) (m.set c 0) := by
  have hreset : Ends (m.set c (m.items c - 1)) (.releaseReset c) (.bool true) (m.set c 0) := by
    rw [← Mem.set_set m c (m.items c - 1) 0]
    exact .step rfl .ret
  refine .step (releaseLoad_of_used u h) (.step ((if_pos rfl).trans (if_pos hcount)) ?_)
  split
  · exact .step rfl hreset
  · exact hreset

/-! ## Counting references

`Counted` adds to the memory how many references are outstanding on each slot: one from
each `alloc` or `take` of it that no `release` has given back.  No code reads it. -/

structure Counted (n w : ℕ) where
  mem : Mem n w
  out : Fin n → ℕ

/-- A new allocator. -/
def Counted.init (n w : ℕ) [NeZero n] : Counted n w where
  mem := { items := fun _ => 0, last := 0 }
  out := fun _ => 0

/-- Count at the slot of a capability, if it is one of this allocator. -/
def countAt (bias : ℤ) (cap : Word) (f : ℕ → ℕ) (out : Fin n → ℕ) : Fin n → ℕ :=
  match rangeCheckAndGetIdx n bias cap with
  | some c => Function.update out c (f (out c))
  | none => out

/-- The references after a call that returned `r`. -/
def outstanding (bias : ℤ) (out : Fin n → ℕ) : Op → Ret n → Fin n → ℕ
  | .alloc, .allocated i => Function.update out i (out i + 1)
  | .alloc, _ => out
  | .take cap, _ => countAt bias cap (· + 1) out
  | .release u, _ => countAt bias u.cap (· - 1) out
  | .free _, _ => out

section
variable {bias : ℤ} {cap : Word} {f : ℕ → ℕ} {out : Fin n → ℕ} {c : Fin n}

theorem countAt_none (h : rangeCheckAndGetIdx n bias cap = none) :
    countAt bias cap f out = out := by
  rw [countAt, h]

theorem countAt_some (h : rangeCheckAndGetIdx n bias cap = some c) :
    countAt bias cap f out = Function.update out c (f (out c)) := by
  rw [countAt, h]

end

/-- The calls that count; `free` gives up whatever there is. -/
def Op.counts : Op → Bool
  | .alloc | .take _ | .release _ => true
  | .free _ => false

/-- One whole call, and what it returned. -/
inductive CallStep (bias : ℤ) : Counted n w → Op × Ret n → Counted n w → Prop
  | mk {s : Counted n w} {op : Op} {r : Ret n} {m : Mem n w} : op.counts = true →
      Ends s.mem (entry bias op) r m →
      CallStep bias s (op, r) { mem := m, out := outstanding bias s.out op r }

/-- The slot is marked used, with this count. -/
def UsedWith (m : Mem n w) (c : Fin n) (k : ℕ) : Prop :=
  m.items c &&& fUsed w ≠ 0 ∧ (m.items c &&& ~~~fUsed w).toNat = k

/-- What a call should be to who counts references: `alloc` hands out no slot with references,
`take` of a used slot adds one to its count, and the slots with references are marked used with
as many. -/
structure Counts (bias : ℤ) (s : Counted n w) (call : Op × Ret n) (s' : Counted n w) : Prop where
  fresh : ∀ i, call.2 = .allocated i → s.out i = 0
  take : ∀ cap c k, call.1 = .take cap → rangeCheckAndGetIdx n bias cap = some c →
    UsedWith s.mem c k → UsedWith s'.mem c (k + 1)
  used : ∀ c, 0 < s'.out c → UsedWith s'.mem c (s'.out c)

/-- No slot has more references than fit below the flag. -/
def Room (s : Counted n w) : Prop := ∀ c, s.out c ≤ 2 ^ (w - 1) - 1

/-- The counters tell the references. -/
def Told (s : Counted n w) : Prop :=
  ∀ c, s.mem.items c = if s.out c = 0 then 0 else flagged w (s.out c)

section told
variable {s s' : Counted n w} {c : Fin n}

theorem Told.of_zero (h : Told s) (hc : s.out c = 0) : s.mem.items c = 0 :=
  (h c).trans (if_pos hc)

theorem Told.of_pos (h : Told s) (hroom : Room s) (hc : 0 < s.out c) :
    s.mem.items c = flagged w (s.out c) ∧ 0 < w ∧ s.out c < 2 ^ (w - 1) := by
  have hne : s.out c ≠ 0 := by omega
  obtain ⟨k, hk⟩ := Nat.exists_eq_succ_of_ne_zero hne
  obtain ⟨hw, hlt⟩ := lt_of_room (hk ▸ hroom c)
  exact ⟨(h c).trans (if_neg hne), hw, hk ▸ hlt⟩

theorem Told.usedWith (h : Told s) (hroom : Room s) (hc : 0 < s.out c) :
    UsedWith s.mem c (s.out c) := by
  obtain ⟨hitem, hw, hlt⟩ := h.of_pos hroom hc
  rw [UsedWith, hitem, flagged_and_flag hw hlt]
  exact ⟨flag_ne_zero hw, toNat_count hw hlt⟩

/-- A slot that is marked used has references, and no other count than theirs. -/
theorem Told.of_usedWith (h : Told s) (hroom : Room s) {k : ℕ} (hused : UsedWith s.mem c k) :
    s.out c = k := by
  by_cases hc : s.out c = 0
  · have hflag := hused.1
    rw [h.of_zero hc] at hflag
    exact absurd BitVec.zero_and hflag
  · obtain ⟨hitem, hw, hlt⟩ := h.of_pos hroom (Nat.pos_of_ne_zero hc)
    have hcount := hused.2
    rwa [hitem, toNat_count hw hlt] at hcount

theorem Told.free (h : Told s) (hroom : Room s) (hitem : s.mem.items c = 0) : s.out c = 0 := by
  by_contra hc
  obtain ⟨hflag, hw, hlt⟩ := h.of_pos hroom (Nat.pos_of_ne_zero hc)
  exact flagged_ne_zero hw hlt (hflag.symm.trans hitem)

theorem Told.unused (h : Told s) (hc : s.out c = 0) :
    CapAlloc.unused (s.mem.items c) = true := by
  rw [h.of_zero hc]
  exact unused_zero

theorem Told.not_unused (h : Told s) (hroom : Room s) (hc : 0 < s.out c) :
    CapAlloc.unused (s.mem.items c) = false := by
  obtain ⟨hitem, hw, hlt⟩ := h.of_pos hroom hc
  rw [hitem]
  exact unused_flagged hw hlt hc

/-- A call that writes one counter, and tells the truth there. -/
theorem Told.write (h : Told s) {m : Mem n w} {v : BitVec w} {k : ℕ}
    (hm : m.items = Function.update s.mem.items c v) (hv : v = if k = 0 then 0 else flagged w k) :
    Told { mem := m, out := Function.update s.out c k } := by
  intro d
  show m.items d = if Function.update s.out c k d = 0 then 0
    else flagged w (Function.update s.out c k d)
  rw [hm]
  by_cases hd : d = c
  · subst hd
    rw [Function.update_self, Function.update_self, hv]
  · rw [Function.update_of_ne hd, Function.update_of_ne hd]
    exact h d

theorem Told.take (h : Told s) (hroom : Room s) {m : Mem n w}
    (hm : m.items = Function.update s.mem.items c ((s.mem.items c ||| fUsed w) + 1)) :
    Told { mem := m, out := Function.update s.out c (s.out c + 1) } := by
  refine h.write hm ?_
  rw [if_neg (Nat.succ_ne_zero _)]
  by_cases hc : s.out c = 0
  · have hor : (0 : BitVec w) ||| fUsed w = fUsed w := BitVec.zero_or
    rw [h.of_zero hc, hc, hor, ← flagged_succ, flagged_zero]
  · obtain ⟨hitem, hw, hlt⟩ := h.of_pos hroom (Nat.pos_of_ne_zero hc)
    rw [hitem, flagged_or_flag hw hlt, flagged_succ]

/-- `alloc` returns no slot with references, and adds the first one. -/
theorem Told.alloc (h : Told s) (hroom : Room s) (bias : ℤ) {r : Ret n} {m : Mem n w}
    (hends : Ends s.mem .allocLoad r m) :
    Told { mem := m, out := outstanding bias s.out .alloc r } ∧
      ∀ i, r = .allocated i → s.out i = 0 := by
  rcases ends_alloc s.mem with ⟨i, hfirst, -, hends'⟩ | ⟨-, hends'⟩
  · obtain ⟨rfl, rfl⟩ := hends.unique hends'
    have hzero := h.free hroom hfirst.free
    refine ⟨h.write rfl ?_, fun j hj => by cases hj; exact hzero⟩
    rw [if_neg (Nat.succ_ne_zero _), hzero, ← flagged_succ, flagged_zero]
  · obtain ⟨rfl, rfl⟩ := hends.unique hends'
    exact ⟨h, fun _ hi => by cases hi⟩

/-- `release` takes one reference off, if there is one. -/
theorem Told.release (h : Told s) (hroom : Room s) {u : Unmap} {r : Ret n} {m : Mem n w}
    (hends : Ends s.mem (.releaseLoad c u) r m) :
    Told { mem := m, out := Function.update s.out c (s.out c - 1) } ∧ ∀ i, r ≠ .allocated i := by
  by_cases hc : s.out c = 0
  · obtain ⟨rfl, rfl⟩ := hends.unique (ends_release_unused u (h.unused hc))
    rw [Function.update_eq_self_iff.mpr (show s.out c - 1 = s.out c by omega)]
    exact ⟨h, fun _ hi => by cases hi⟩
  · have hpos := Nat.pos_of_ne_zero hc
    have hused := h.not_unused hroom hpos
    obtain ⟨hitem, hw, hlt⟩ := h.of_pos hroom hpos
    have hone : s.mem.items c &&& ~~~fUsed w = 1 ↔ s.out c = 1 := by
      rw [hitem]
      exact flagged_count_eq_one hw hlt
    by_cases hlast : s.out c = 1
    · obtain ⟨rfl, rfl⟩ := hends.unique (ends_release_last u hused (hone.mpr hlast))
      exact ⟨h.write rfl (by rw [hlast, if_pos rfl]), fun _ hi => by cases hi⟩
    · obtain ⟨rfl, rfl⟩ := hends.unique (ends_release_more u hused fun h1 => hlast (hone.mp h1))
      refine ⟨h.write rfl ?_, fun _ hi => by cases hi⟩
      obtain ⟨k, hk⟩ := Nat.exists_eq_succ_of_ne_zero hc
      rw [hitem, hk, flagged_sub_one, Nat.succ_sub_one, if_neg (by omega)]

end told

/-- **Step.**  As long as there is room, a call keeps the counters telling the references, and
`alloc` returns no slot that has some. -/
theorem CallStep.told {bias : ℤ} {s s' : Counted n w} {call : Op × Ret n}
    (hcall : CallStep bias s call s') (h : Told s) (hroom : Room s) :
    Told s' ∧ ∀ i, call.2 = .allocated i → s.out i = 0 := by
  cases hcall with
  | @mk op r m hcounts hends =>
      cases op with
      | alloc => exact h.alloc hroom bias hends
      | take cap =>
          cases hcap : rangeCheckAndGetIdx n bias cap with
          | none =>
              rw [entry, hcap] at hends
              obtain ⟨rfl, rfl⟩ := hends.unique .ret
              rw [outstanding, countAt_none hcap]
              exact ⟨h, fun _ hi => by cases hi⟩
          | some c =>
              rw [entry, hcap] at hends
              obtain ⟨rfl, rfl⟩ := hends.unique (ends_take s.mem c)
              rw [outstanding, countAt_some hcap]
              exact ⟨h.take hroom rfl, fun _ hi => by cases hi⟩
      | free u => cases hcounts
      | release u =>
          cases hcap : rangeCheckAndGetIdx n bias u.cap with
          | none =>
              rw [entry, hcap] at hends
              obtain ⟨rfl, rfl⟩ := hends.unique .ret
              rw [outstanding, countAt_none hcap]
              exact ⟨h, fun _ hi => by cases hi⟩
          | some c =>
              rw [entry, hcap] at hends
              rw [outstanding, countAt_some hcap]
              obtain ⟨htold, hnone⟩ := h.release hroom hends
              exact ⟨htold, fun i hi => absurd hi (hnone i)⟩

theorem Told.init [NeZero n] : Told (Counted.init n w) := fun _ => (if_pos rfl).symm

theorem Room.init [NeZero n] : Room (Counted.init n w) := fun _ => Nat.zero_le _

/-- `take` adds a reference. -/
theorem CallStep.out_take {bias : ℤ} {s s' : Counted n w} {cap : Word} {r : Ret n} {c : Fin n}
    (hcall : CallStep bias s (.take cap, r) s') (hcap : rangeCheckAndGetIdx n bias cap = some c) :
    s'.out c = s.out c + 1 := by
  cases hcall with
  | mk _ _ =>
      show outstanding bias s.out (.take cap) r c = _
      rw [outstanding, countAt_some hcap, Function.update_self]

theorem CallStep.counts {bias : ℤ} {s s' : Counted n w} {call : Op × Ret n}
    (hcall : CallStep bias s call s') (h : Told s) (hroom : Room s) (hroom' : Room s') :
    Counts bias s call s' := by
  obtain ⟨htold', hfresh⟩ := hcall.told h hroom
  refine ⟨hfresh, ?_, fun c hc => htold'.usedWith hroom' hc⟩
  intro cap c k hop hcap hused
  obtain ⟨op, r⟩ := call
  obtain rfl : op = .take cap := hop
  have hout := hcall.out_take hcap
  have hk := h.of_usedWith hroom hused
  have hused' := htold'.usedWith hroom' (c := c) (by omega)
  rwa [hout, hk] at hused'

/-- A counter that tells the references has room for them. -/
theorem Counts.room {bias : ℤ} {s s' : Counted n w} {call : Op × Ret n}
    (h : Counts bias s call s') : Room s' := by
  intro c
  by_cases hc : s'.out c = 0
  · omega
  · have hcount := (h.used c (Nat.pos_of_ne_zero hc)).2
    rcases Nat.eq_zero_or_pos w with rfl | hw
    · rw [BitVec.of_length_zero (x := s'.mem.items c &&& ~~~fUsed 0)] at hcount
      exact absurd hcount.symm hc
    · exact Nat.le_sub_one_of_lt (hcount ▸ toNat_count_lt hw (s'.mem.items c))

/-- **Reference counts.**  Whatever the width of the counters: a sequence of calls on a new
allocator counts as it should all along exactly if no slot ever has more than
`2 ^ (w - 1) - 1` references. -/
theorem counts_iff [NeZero n] (bias : ℤ) (calls : List (Op × Ret n)) (s : Counted n w) :
    Run (fun s call s' => CallStep bias s call s' ∧ Counts bias s call s') (.init n w) calls s ↔
      Run (fun s call s' => CallStep bias s call s' ∧ Room s') (.init n w) calls s := by
  constructor
  · intro hrun
    exact hrun.imp fun ⟨hcall, hcounts⟩ => ⟨hcall, hcounts.room⟩
  · intro hrun
    have hinv := hrun.inv
      (I := fun calls s => Told s ∧ Room s ∧
        Run (fun s call s' => CallStep bias s call s' ∧ Counts bias s call s') (.init n w) calls s)
      ⟨.init, .init, .nil⟩ fun ⟨htold, hroom, hrun'⟩ ⟨hcall, hroom'⟩ =>
        ⟨(hcall.told htold hroom).1, hroom',
          hrun'.snoc ⟨hcall, hcall.counts htold hroom hroom'⟩⟩
    exact hinv.2.2

/-- A slot can be taken any number of times. -/
theorem exists_run_takes {bias : ℤ} {cap : Word} {c : Fin n}
    (hcap : rangeCheckAndGetIdx n bias cap = some c) {calls : List (Op × Ret n)}
    {s₀ s : Counted n w} (hrun : Run (CallStep bias) s₀ calls s) (k : ℕ) :
    ∃ calls' s', Run (CallStep bias) s₀ calls' s' ∧ s'.out c = s.out c + k := by
  induction k with
  | zero => exact ⟨calls, s, hrun, rfl⟩
  | succ k ih =>
      obtain ⟨calls', s', hrun', hout⟩ := ih
      have hends : Ends s'.mem (entry bias (.take cap)) .void
          (s'.mem.set c ((s'.mem.items c ||| fUsed w) + 1)) := by
        rw [entry, hcap]
        exact ends_take s'.mem c
      have hcall : CallStep bias s' (.take cap, .void) _ := .mk rfl hends
      exact ⟨_, _, hrun'.snoc hcall, by rw [hcall.out_take hcap, hout, Nat.add_assoc]⟩

/-- One `alloc`, one `take`. -/
theorem counts_iff_two :
    ∃ s : Counted 2 8, s.out 1 = 2 ∧
      Run (fun s call s' => CallStep 1 s call s' ∧ Counts 1 s call s') (.init 2 8)
        [(.alloc, .allocated 1), (.take (capOf 1 (1 : Fin 2)), .void)] s := by
  have halloc : Run (fun s call s' => CallStep 1 s call s' ∧ Room s') (.init 2 8)
      [(.alloc, .allocated 1)] _ :=
    .snoc .nil ⟨.mk rfl (.step rfl (ends_allocTry 0 rfl)), show ∀ c : Fin 2, _ by decide⟩
  have htake := halloc.snoc (l := (.take (capOf 1 (1 : Fin 2)), .void))
    ⟨.mk rfl (ends_take _ 1), show ∀ c : Fin 2, _ by decide⟩
  exact ⟨_, by decide, (counts_iff 1 _ _).mpr htake⟩

/-- A counter of 8 bits: one `alloc` of the slot and 127 `take`s of it. -/
theorem counts_fails :
    ¬∀ (n w : ℕ) [NeZero n] (bias : ℤ) (calls : List (Op × Ret n)) (s : Counted n w),
      Run (CallStep bias) (.init n w) calls s →
      Run (fun s call s' => CallStep bias s call s' ∧ Counts bias s call s')
        (.init n w) calls s := by
  intro h
  have halloc : Run (CallStep 1) (.init 2 8) [(.alloc, .allocated 1)] _ :=
    .snoc .nil (.mk rfl (.step rfl (ends_allocTry 0 rfl)))
  have hcap : rangeCheckAndGetIdx 2 1 (capOf 1 (1 : Fin 2)) = some 1 := by decide
  obtain ⟨calls, s, hrun, hout⟩ := exists_run_takes hcap halloc 127
  have hroom : Room s := (h 2 8 1 calls s hrun).inv (I := fun _ s => Room s) .init
    fun _ hstep => hstep.2.room
  have hmany : s.out 1 = 128 := hout
  have hle := hroom 1
  omega

end MettEagle.CapAlloc
