/-
# `MettEagle.CapTake` — a `take` and the teardowns around it

A `take` records a reference for its caller.  Whether that reference keeps the slot
in use depends on where its exchange falls:

    while the slot is used       the count goes up, and stays up until somebody
                                 gives up a reference that is not his
    during a teardown            the count goes from 0 to 1, and the store of 0
                                 that ends the teardown wipes it out

`Taker` adds to the threads the references one of them, the taker, has recorded on one
slot.  `Spares` is what a step must not do to them; the code does not check it.
-/
import MettEagle.CapAlloc
import MettEagle.Lib.Run

namespace MettEagle.CapAlloc

variable {T : Type*} {n w : ℕ}

/-- The threads, and the references the taker has recorded and not given up. -/
structure Taker (T : Type*) (n w : ℕ) extends Threads T n w where
  recorded : ℕ := 0

namespace Taker

/-- The count of a slot. -/
def count (s : Taker T n w) (c : Fin n) : ℕ := (s.mem.items c &&& ~~~fUsed w).toNat

/-- Somebody is tearing the slot down. -/
def Tearing (s : Taker T n w) (c : Fin n) : Prop := ∃ t p, (s.pc t).role = some (.tearing p, c)

end Taker

section steps
variable [DecidableEq T]

/-- The taker records a reference with each `take`, and gives up one with a `release` and all of
them with a `free`. -/
def record (b : T) (c : Fin n) (r : ℕ) (t : T) : Action n → ℕ
  | .taken d => if t = b ∧ d = c then r + 1 else r
  | .released d _ => if t = b ∧ d = c then r - 1 else r
  | .freed d => if t = b ∧ d = c then 0 else r
  | _ => r

theorem record_of_ne {b t : T} {c : Fin n} {r : ℕ} (h : t ≠ b) (a : Action n) :
    record b c r t a = r := by
  cases a with
  | taken d => exact if_neg fun hb => h hb.1
  | released d last => exact if_neg fun hb => h hb.1
  | freed d => exact if_neg fun hb => h hb.1
  | _ => rfl

@[simp] theorem record_taken {b : T} {c : Fin n} {r : ℕ} : record b c r b (.taken c) = r + 1 :=
  if_pos ⟨rfl, rfl⟩

@[simp] theorem record_released {b : T} {c : Fin n} {r : ℕ} {last : Bool} :
    record b c r b (.released c last) = r - 1 := if_pos ⟨rfl, rfl⟩

@[simp] theorem record_freed {b : T} {c : Fin n} {r : ℕ} : record b c r b (.freed c) = 0 :=
  if_pos ⟨rfl, rfl⟩

/-- One step of one thread. -/
inductive TakerStep (bias : ℤ) (b : T) (c : Fin n) :
    Taker T n w → T × Action n → Taker T n w → Prop
  | mk {s : Taker T n w} {t : T} {a : Action n} {s' : Threads T n w} :
      Step bias s.toThreads (t, a) s' →
      TakerStep bias b c s (t, a) { toThreads := s', recorded := record b c s.recorded t a }

/-- The step leaves the taker's references alone: a `take` has room for one more, the taker's own
one is not during a teardown, and no other thread gives up what the taker has recorded. -/
structure Spares (b : T) (c : Fin n) (s : Taker T n w) (l : T × Action n) : Prop where
  room : l.2 = .taken c → s.count c + 1 < 2 ^ (w - 1)
  calm : l = (b, .taken c) → ¬s.Tearing c
  release : ∀ last, l.2 = .released c last → l.1 ≠ b → s.recorded = 0 ∨ s.recorded < s.count c
  free : l.2 = .freed c → l.1 ≠ b → s.recorded = 0

end steps

/-! ## The invariant -/

/-- The recorded references are in the count, and nobody is tearing the slot down. -/
structure Kept (c : Fin n) (s : Taker T n w) : Prop where
  width : 0 < w
  item : ∃ k, s.mem.items c = flagged w k ∧ s.recorded ≤ k ∧ k < 2 ^ (w - 1)
  calm : ¬s.Tearing c

section kept
variable [DecidableEq T] {b : T} {c : Fin n} {s : Taker T n w}

/-- A thread that is not in a teardown of the slot does not make it one. -/
theorem Taker.not_tearing_update (h : ¬s.Tearing c) {t : T} {m : Mem n w} {pc : Pc n w} {r : ℕ}
    (hrole : ∀ p, pc.role ≠ some (.tearing p, c)) :
    ¬Taker.Tearing { mem := m, pc := Function.update s.pc t pc, recorded := r } c := by
  have hall : ∀ u p, (Function.update s.pc t pc u).role ≠ some (.tearing p, c) :=
    (Function.forall_update_iff s.pc fun _ x => ∀ p, x.role ≠ some (.tearing p, c)).mpr
      ⟨hrole, fun u _ p hu => h ⟨u, p, hu⟩⟩
  rintro ⟨u, p, hu⟩
  exact hall u p hu

/-- The count has moved, to no less than what is recorded. -/
theorem Kept.move (h : Kept c s) {t : T} {m : Mem n w} {pc : Pc n w} {r k : ℕ}
    (hrole : ∀ p, pc.role ≠ some (.tearing p, c)) (hitem : m.items c = flagged w k) (hr : r ≤ k)
    (hk : k < 2 ^ (w - 1)) : Kept c { mem := m, pc := Function.update s.pc t pc, recorded := r } :=
  ⟨h.width, ⟨k, hitem, hr, hk⟩, Taker.not_tearing_update h.calm hrole⟩

/-- A step elsewhere. -/
theorem Kept.frame (h : Kept c s) {t : T} {m : Mem n w} {pc : Pc n w}
    (hrole : ∀ p, pc.role ≠ some (.tearing p, c)) (hitem : m.items c = s.mem.items c) :
    Kept c { mem := m, pc := Function.update s.pc t pc, recorded := s.recorded } := by
  obtain ⟨k, hitem', hr, hk⟩ := h.item
  exact h.move hrole (hitem.trans hitem') hr hk

/-- A step on another slot. -/
theorem Kept.elsewhere (h : Kept c s) {t : T} {m : Mem n w} {pc : Pc n w} {a : Action n}
    {d : Fin n} {v : BitVec w} (hd : d ≠ c) (hrole : ∀ p, pc.role ≠ some (.tearing p, c))
    (hm : m.items = Function.update s.mem.items d v)
    (hsame : record b c s.recorded t a = s.recorded) :
    Kept c { mem := m, pc := Function.update s.pc t pc,
             recorded := record b c s.recorded t a } := by
  rw [hsame]
  refine h.frame hrole ?_
  rw [hm, Function.update_of_ne (Ne.symm hd)]

omit [DecidableEq T] in
theorem Kept.count (h : Kept c s) :
    s.mem.items c = flagged w (s.count c) ∧ s.recorded ≤ s.count c ∧ s.count c < 2 ^ (w - 1) := by
  obtain ⟨k, hitem, hr, hk⟩ := h.item
  have hcount : s.count c = k := by rw [Taker.count, hitem, toNat_count h.width hk]
  exact ⟨hcount ▸ hitem, hcount ▸ hr, hcount ▸ hk⟩

/-- A `take` of the slot, by the taker or by somebody else. -/
theorem kept_taken (h : 0 < s.recorded → Kept c s) {t : T} (hsp : Spares b c s (t, .taken c))
    {m : Mem n w} {pc : Pc n w} (hrole : ∀ p, pc.role ≠ some (.tearing p, c))
    (hitem : m.items c = (s.mem.items c ||| fUsed w) + 1)
    (hpos : 0 < record b c s.recorded t (.taken c)) :
    Kept c { mem := m, pc := Function.update s.pc t pc,
             recorded := record b c s.recorded t (.taken c) } := by
  have hroom := hsp.room rfl
  have hw : 0 < w := Nat.pos_of_ne_zero fun h0 => by
    subst h0
    simp at hroom
  have hcalm : ¬s.Tearing c := by
    by_cases htb : t = b
    · exact hsp.calm (by rw [htb])
    · refine (h ?_).calm
      rwa [record_of_ne htb] at hpos
  have hle : s.recorded ≤ s.count c := by
    rcases Nat.eq_zero_or_pos s.recorded with h0 | hr
    · omega
    · exact (h hr).count.2.1
  refine ⟨hw, ⟨s.count c + 1, ?_, ?_, hroom⟩, Taker.not_tearing_update hcalm hrole⟩
  · rw [← flagged_succ, Taker.count, ← or_flag_eq]
    exact hitem
  · show record b c s.recorded t (.taken c) ≤ s.count c + 1
    by_cases htb : t = b
    · rw [htb, record_taken]
      omega
    · rw [record_of_ne htb]
      omega

/-- A `release` of the slot that leaves it in use. -/
theorem Kept.released (h : Kept c s) {t : T} (hsp : Spares b c s (t, .released c false))
    {m : Mem n w} {pc : Pc n w} (hrole : ∀ p, pc.role ≠ some (.tearing p, c))
    (hitem : m.items c = s.mem.items c - 1) (hpos : 0 < s.recorded) :
    Kept c { mem := m, pc := Function.update s.pc t pc,
             recorded := record b c s.recorded t (.released c false) } := by
  obtain ⟨hcount, hle, hlt⟩ := h.count
  obtain ⟨k, hk⟩ : ∃ k, s.count c = k + 1 := ⟨s.count c - 1, by omega⟩
  rw [hk] at hcount hle hlt
  refine h.move hrole (k := k) (by rw [hitem, hcount, flagged_sub_one]) ?_ (by omega)
  by_cases htb : t = b
  · rw [htb, record_released]
    omega
  · have hspare := hsp.release false rfl htb
    rw [record_of_ne htb]
    omega

/-- Nobody but the taker can tear the slot down. -/
theorem Kept.not_torn (h : Kept c s) {t : T} {a : Action n} (hsp : Spares b c s (t, a))
    (ha : a = .freed c ∨ (a = .released c true ∧ s.mem.items c &&& ~~~fUsed w = 1))
    (hpos : 0 < s.recorded) : record b c s.recorded t a = 0 := by
  by_cases htb : t = b
  · subst htb
    rcases ha with rfl | ⟨rfl, hlast⟩
    · exact record_freed
    · obtain ⟨hcount, hle, hlt⟩ := h.count
      rw [hcount, flagged_count_eq_one h.width hlt] at hlast
      rw [record_released]
      omega
  · rw [record_of_ne htb]
    rcases ha with rfl | ⟨rfl, hlast⟩
    · exact hsp.free rfl htb
    · obtain ⟨hcount, hle, hlt⟩ := h.count
      rw [hcount, flagged_count_eq_one h.width hlt] at hlast
      have hspare := hsp.release true rfl htb
      omega

end kept

/-! ## Runs -/

section runs
variable [DecidableEq T] {bias : ℤ} {b : T} {c : Fin n}

theorem record_pos {r : ℕ} {t : T} {a : Action n} (h : 0 < record b c r t a)
    (ha : a ≠ .taken c) : 0 < r := by
  by_contra h0
  obtain rfl : r = 0 := by omega
  cases a with
  | taken d =>
      have hd : ¬(t = b ∧ d = c) := fun hb => ha (hb.2 ▸ rfl)
      rw [record, if_neg hd] at h
      exact lt_irrefl 0 h
  | released d last =>
      simp [record] at h
  | freed d =>
      simp [record] at h
  | _ => exact lt_irrefl 0 h

/-- **Step.**  Every step of `exec` that spares what is recorded keeps it. -/
theorem kept_exec {s : Taker T n w} (h : 0 < s.recorded → Kept c s) {t : T} {a : Action n}
    {m : Mem n w} {pc : Pc n w} (hexec : exec s.mem (s.pc t) = some (a, m, pc))
    (hsp : Spares b c s (t, a)) (hpos : 0 < record b c s.recorded t a) :
    Kept c { mem := m, pc := Function.update s.pc t pc,
             recorded := record b c s.recorded t a } := by
  have heff := exec_effect hexec
  generalize hr : (s.pc t).role = r at heff
  generalize hr' : pc.role = r' at heff
  generalize hv : m.items = v at heff
  have hrole : (∀ p, r' ≠ some (.tearing p, c)) → ∀ p, pc.role ≠ some (.tearing p, c) :=
    fun hne p => hr' ▸ hne p
  cases heff with
  | quiet hq => exact (h hpos).frame (hrole fun p => hq p c) (congrFun hv c)
  | leave _ ha =>
      have hsame : record b c s.recorded t a = s.recorded := by
        rcases ha with rfl | ⟨x, rfl⟩ <;> rfl
      rw [hsame] at hpos ⊢
      exact (h hpos).frame (hrole fun p => nofun) (congrFun hv c)
  | acquired hzero =>
      rename_i i
      have hkept := h hpos
      have hd : i ≠ c := by
        rintro rfl
        obtain ⟨hcount, -, hlt⟩ := hkept.count
        exact flagged_ne_zero hkept.width hlt (hcount ▸ hzero)
      exact hkept.elsewhere hd (hrole fun p => nofun) hv rfl
  | taken =>
      rename_i d
      by_cases hd : d = c
      · subst hd
        refine kept_taken h hsp (hrole fun p => nofun) ?_ hpos
        rw [hv, Function.update_self]
      · have hsame : record b c s.recorded t (.taken d) = s.recorded := if_neg fun hb => hd hb.2
        exact (h (hsame ▸ hpos)).elsewhere hd (hrole fun p => nofun) hv hsame
  | released =>
      rename_i d _
      have hkept := h (record_pos hpos nofun)
      by_cases hd : d = c
      · subst hd
        refine hkept.released hsp (hrole fun p => nofun) ?_ (record_pos hpos nofun)
        rw [hv, Function.update_self]
      · exact hkept.elsewhere hd (hrole fun p => nofun) hv (if_neg fun hb => hd hb.2)
  | releasedLast p hlast =>
      rename_i d
      have hkept := h (record_pos hpos nofun)
      by_cases hd : d = c
      · subst hd
        have hnone := hkept.not_torn hsp (Or.inr ⟨rfl, hlast⟩) (record_pos hpos nofun)
        omega
      · refine hkept.elsewhere hd (hrole fun q hq => hd ?_) hv (if_neg fun hb => hd hb.2)
        cases hq
        rfl
  | freed p =>
      rename_i d
      have hkept := h (record_pos hpos nofun)
      by_cases hd : d = c
      · subst hd
        have hnone := hkept.not_torn hsp (Or.inl rfl) (record_pos hpos nofun)
        omega
      · refine hkept.elsewhere hd (hrole fun q hq => hd ?_) hv (if_neg fun hb => hd hb.2)
        cases hq
        rfl
  | unmapped =>
      rename_i d u
      have hkept := h hpos
      have hd : d ≠ c := fun hd => hkept.calm ⟨t, true, by rw [hr, hd]⟩
      refine hkept.frame (hrole fun q hq => hd ?_) (congrFun hv c)
      cases hq
      rfl
  | reset =>
      rename_i d
      have hkept := h hpos
      have hd : d ≠ c := fun hd => hkept.calm ⟨t, false, by rw [hr, hd]⟩
      exact hkept.elsewhere hd (hrole fun q => nofun) hv rfl

theorem kept_step {s s' : Taker T n w} {l : T × Action n} (h : 0 < s.recorded → Kept c s)
    (hstep : TakerStep bias b c s l s') (hsp : Spares b c s l) (hpos : 0 < s'.recorded) :
    Kept c s' := by
  cases hstep with
  | mk hstep =>
      cases hstep with
      | exec hexec => exact kept_exec h hexec hsp hpos
      | call hidle =>
          refine (h hpos).frame (fun p hp => ?_) rfl
          rcases entry_role hp with ⟨hrole, -⟩ | ⟨hrole, -⟩
          · cases hrole
          · cases hrole

/-- The slot is used, with a count of at least one, and nobody is about to reset it. -/
structure InUse (c : Fin n) (s : Taker T n w) : Prop where
  used : unused (s.mem.items c) = false
  calm : ¬s.Tearing c

omit [DecidableEq T] in
theorem Kept.inUse {s : Taker T n w} (h : Kept c s) (hpos : 0 < s.recorded) : InUse c s := by
  obtain ⟨hcount, hle, hlt⟩ := h.count
  refine ⟨?_, h.calm⟩
  rw [hcount]
  exact unused_flagged h.width hlt (by omega)

/-- **Runs.**  Whatever the memory, the threads and their interleaving: if every step spares what
the taker has recorded, the slot is in use as long as the taker has something recorded. -/
theorem recorded_kept {s₀ s : Taker T n w} {ls : List (T × Action n)} (h₀ : s₀.recorded = 0)
    (hrun : Run (fun s l s' => TakerStep bias b c s l s' ∧ Spares b c s l) s₀ ls s)
    (hpos : 0 < s.recorded) : InUse c s :=
  have hinv : 0 < s.recorded → Kept c s :=
    hrun.inv (I := fun _ s => 0 < s.recorded → Kept c s) (fun h => by omega)
      fun h hstep hpos => kept_step h hstep.1 hstep.2 hpos
  (hinv hpos).inUse hpos

end runs

/-! ## Two threads, one slot with one reference -/

/-- The capability of the only slot. -/
def cap₀ : Word := capOf 1 (0 : Fin 1)

def slot₀ : Taker Bool 1 8 where
  mem := { items := fun _ => fUsed 8 + 1, last := 0 }
  pc := fun _ => .idle

/-- One thread takes, the others release and free. -/
def TakesOrGivesUp (b t : Bool) : Action 1 → Prop
  | .call (.take _) => t = b
  | .call (.release _) | .call (.free _) => t ≠ b
  | .call .alloc => False
  | _ => True

/-- One thread releases, the other one takes before the store of 0. -/
theorem recorded_kept_fails :
    ¬∀ (ls : List (Bool × Action 1)) (s : Taker Bool 1 8),
      Run (fun s l s' => TakerStep 1 true 0 s l s' ∧ TakesOrGivesUp true l.1 l.2) slot₀ ls s →
      0 < s.recorded → InUse 0 s := by
  intro h
  have hcall : Run (fun s l s' => TakerStep 1 true 0 s l s' ∧ TakesOrGivesUp true l.1 l.2) slot₀
      [(false, .call (.release { cap := cap₀, unmapFlags := 0 }))] _ :=
    .snoc .nil ⟨.mk (.call rfl), nofun⟩
  have hload := hcall.snoc ⟨.mk (t := false) (a := .quiet) (.exec rfl), trivial⟩
  have hcas := hload.snoc ⟨.mk (t := false) (a := .released 0 true) (.exec rfl), trivial⟩
  have hcall' := hcas.snoc ⟨.mk (t := true) (a := .call (.take cap₀)) (.call rfl), rfl⟩
  have hload' := hcall'.snoc ⟨.mk (t := true) (a := .quiet) (.exec rfl), trivial⟩
  have htaken := hload'.snoc ⟨.mk (t := true) (a := .taken 0) (.exec rfl), trivial⟩
  have hreset := htaken.snoc ⟨.mk (t := false) (a := .reset 0) (.exec rfl), trivial⟩
  exact absurd (h _ _ hreset (by decide)).used (by decide)

/-- The take comes first; the release leaves its reference. -/
theorem recorded_kept_first :
    ∃ s : Taker Bool 1 8, s.recorded = 1 ∧ s.mem.items 0 = fUsed 8 + 1 ∧ InUse 0 s := by
  have hcall : Run (fun s l s' => TakerStep 1 true 0 s l s' ∧ Spares true 0 s l) slot₀
      [(true, .call (.take cap₀))] _ :=
    .snoc .nil ⟨.mk (.call rfl), nofun, nofun, nofun, nofun⟩
  have hload := hcall.snoc
    ⟨.mk (t := true) (a := .quiet) (.exec rfl), nofun, nofun, nofun, nofun⟩
  have hcall' := hload.snoc
    ⟨.mk (t := false) (a := .call (.release { cap := cap₀, unmapFlags := 0 })) (.call rfl),
      nofun, nofun, nofun, nofun⟩
  have hload' := hcall'.snoc
    ⟨.mk (t := false) (a := .quiet) (.exec rfl), nofun, nofun, nofun, nofun⟩
  have htaken := hload'.snoc
    ⟨.mk (t := true) (a := .taken 0) (.exec rfl), fun _ => by decide,
      fun _ ⟨t, _, ht⟩ => (by cases t <;> cases ht), nofun, nofun⟩
  have hretry := htaken.snoc
    ⟨.mk (t := false) (a := .quiet) (.exec rfl), nofun, nofun, nofun, nofun⟩
  have hreleased := hretry.snoc
    ⟨.mk (t := false) (a := .released 0 false) (.exec rfl), nofun, nofun,
      fun _ _ _ => Or.inr (by decide), nofun⟩
  exact ⟨_, rfl, by decide, recorded_kept rfl hreleased (by decide)⟩

end MettEagle.CapAlloc
