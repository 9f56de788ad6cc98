/-
# `MettEagle.CapSafety` — disciplined use of the allocator is safe

What the counter of a slot is for: a slot is free, used with some references, or
being torn down, and it goes through these in order.

    free  --alloc-->  used  --take, release-->  used  --teardown-->  tearing
      ^                                                                 |
      +------------------------------reset------------------------------+

`PhaseStep` is this life of one slot.  `Owned` adds to the threads which of them
holds how many references on what; no code reads it.  `OwnedStep` are the steps of
threads that use the allocator as they should: they take and release only what they
hold, free only what they alone hold, and may pass references on.

**Proved here.**  Under every interleaving of such threads each slot lives this
life, and its counter says where in it the slot is.
-/
import MettEagle.CapAlloc
import MettEagle.Lib.Run
import MettEagle.Lib.Shares

namespace MettEagle.CapAlloc

open Shares

/-! ## The life of a slot -/

/-- `used k` has `k + 1` references; `tearing` tells whether the unmap is still to come. -/
inductive Phase where
  | free
  | used (k : ℕ)
  | tearing (pending : Bool)
deriving DecidableEq

namespace Phase

/-- The references on the slot. -/
def refs : Phase → ℕ
  | .used k => k + 1
  | .free | .tearing _ => 0

/-- The counter of the slot. -/
def word (w : ℕ) : Phase → BitVec w
  | .free => 0
  | .used k => flagged w (k + 1)
  | .tearing _ => fUsed w

theorem refs_pos {φ : Phase} (h : 0 < φ.refs) : ∃ k, φ = .used k := by
  cases φ with
  | used k => exact ⟨k, rfl⟩
  | free => exact absurd h (lt_irrefl _)
  | tearing p => exact absurd h (lt_irrefl _)

end Phase

inductive SlotEvent where
  | alloc
  | take
  | release
  | teardown
  | unmap
  | reset
deriving DecidableEq

inductive PhaseStep : Phase → SlotEvent → Phase → Prop
  | alloc : PhaseStep .free .alloc (.used 0)
  | take {k : ℕ} : PhaseStep (.used k) .take (.used (k + 1))
  | release {k : ℕ} : PhaseStep (.used (k + 1)) .release (.used k)
  | teardown {p : Bool} : PhaseStep (.used 0) .teardown (.tearing p)
  | unmap : PhaseStep (.tearing true) .unmap (.tearing false)
  | reset : PhaseStep (.tearing false) .reset .free

/-- What begins and ends something, as opposed to counting. -/
def SlotEvent.isMilestone : SlotEvent → Bool
  | .take | .release => false
  | .alloc | .teardown | .unmap | .reset => true

/-- An allocation period: one teardown, with or without an unmap, then the store of 0. -/
def period (unmaps : Bool) : List SlotEvent :=
  [.alloc, .teardown] ++ (if unmaps then [.unmap] else []) ++ [.reset]

/-- What has happened of the current period. -/
inductive Sofar : Phase → List SlotEvent → Prop
  | free : Sofar .free []
  | used {k : ℕ} : Sofar (.used k) [.alloc]
  | tearing {p : Bool} : Sofar (.tearing p) [.alloc, .teardown]
  | unmapped : Sofar (.tearing false) [.alloc, .teardown, .unmap]

theorem Sofar.within {φ : Phase} {o : List SlotEvent} (h : Sofar φ o) : ∃ p, o <+: period p := by
  cases h with
  | free => exact ⟨true, by decide⟩
  | used => exact ⟨true, by decide⟩
  | tearing => exact ⟨true, by decide⟩
  | unmapped => exact ⟨true, by decide⟩

/-- One step of a slot, after periods that are over. -/
theorem Sofar.step {φ φ' : Phase} {e : SlotEvent} {o : List SlotEvent} (h : Sofar φ o)
    (hstep : PhaseStep φ e φ') :
    ∃ (ps : List Bool) (o' : List SlotEvent),
      o ++ [e].filter SlotEvent.isMilestone = (ps.map period).flatten ++ o' ∧ Sofar φ' o' := by
  cases hstep with
  | alloc =>
      cases h
      exact ⟨[], _, rfl, .used⟩
  | take =>
      cases h
      exact ⟨[], _, rfl, .used⟩
  | release =>
      cases h
      exact ⟨[], _, rfl, .used⟩
  | teardown =>
      cases h
      exact ⟨[], _, rfl, .tearing⟩
  | unmap =>
      cases h
      exact ⟨[], _, rfl, .unmapped⟩
  | reset =>
      cases h with
      | tearing => exact ⟨[false], [], rfl, .free⟩
      | unmapped => exact ⟨[true], [], rfl, .free⟩

/-- The milestones of a slot are periods, one after the other, the last one not yet over. -/
theorem periods_of_run {es : List SlotEvent} {φ : Phase} (h : Run PhaseStep .free es φ) :
    ∃ ps : List Bool, es.filter SlotEvent.isMilestone <+: (ps.map period).flatten := by
  obtain ⟨ps, o, heq, hsofar⟩ := h.inv
    (I := fun es φ => ∃ (ps : List Bool) (o : List SlotEvent),
      es.filter SlotEvent.isMilestone = (ps.map period).flatten ++ o ∧ Sofar φ o)
    ⟨[], [], rfl, .free⟩ fun ⟨ps, o, heq, hsofar⟩ hstep => by
      obtain ⟨qs, o', heq', hsofar'⟩ := hsofar.step hstep
      refine ⟨ps ++ qs, o', ?_, hsofar'⟩
      rw [List.filter_append, heq, List.append_assoc, heq', List.map_append, List.flatten_append,
        List.append_assoc]
  obtain ⟨p, hp⟩ := hsofar.within
  refine ⟨ps ++ [p], ?_⟩
  rw [heq, List.map_append, List.flatten_append, List.map_singleton, List.flatten_singleton]
  exact (List.prefix_append_right_inj _).mpr hp

/-! ## Disciplined threads -/

/-- The threads and who holds how many references on what. -/
structure Owned (T : Type*) (n w : ℕ) extends Threads T n w where
  held : T → Fin n → ℕ

variable {T : Type*} {n w : ℕ}

namespace Owned

/-- A new allocator; nobody uses it yet. -/
def init (T : Type*) (n w : ℕ) [NeZero n] : Owned T n w where
  mem := { items := fun _ => 0, last := 0 }
  pc := fun _ => .idle
  held := fun _ _ => 0

/-- The counter of a slot. -/
def item (s : Owned T n w) (i : Fin n) : BitVec w := s.mem.items i

def role (s : Owned T n w) (t : T) : Option (Role × Fin n) := (s.pc t).role

/-- Somebody is tearing the slot down: the count is 0 and the store of 0 is still to come. -/
def Tearing (s : Owned T n w) (i : Fin n) : Prop := ∃ t p, s.role t = some (.tearing p, i)

end Owned

/-- `take` and `release` start only on what the thread holds, `free` only on what it alone
holds. -/
def Disciplined (bias : ℤ) (s : Owned T n w) (t : T) : Action n → Prop
  | .call (.take cap) => ∀ c, rangeCheckAndGetIdx n bias cap = some c → 0 < s.held t c
  | .call (.release u) => ∀ c, rangeCheckAndGetIdx n bias u.cap = some c → 0 < s.held t c
  | .call (.free u) => ∀ c, rangeCheckAndGetIdx n bias u.cap = some c → Sole s.held t c
  | _ => True

/-- What a step does to a slot. -/
def Action.slot : Action n → Option (Fin n × SlotEvent)
  | .acquired i => some (i, .alloc)
  | .taken c => some (c, .take)
  | .released c false => some (c, .release)
  | .released c true | .freed c => some (c, .teardown)
  | .unmapped c _ => some (c, .unmap)
  | .reset c => some (c, .reset)
  | .call _ | .quiet | .ret _ => none

/-- What happens: a thread takes a step of the allocator, or passes a reference on. -/
inductive Event (T : Type*) (n : ℕ) where
  | code (t : T) (a : Action n)
  | give (t u : T) (i : Fin n)

def Event.on (i : Fin n) : Event T n → Option SlotEvent
  | .code _ a =>
      match a.slot with
      | some (j, e) => if j = i then some e else none
      | none => none
  | .give _ _ _ => none

theorem Event.on_code {i : Fin n} {t : T} {a : Action n} {ev : SlotEvent}
    (ha : a.slot = some (i, ev)) :
    (Event.code t a).on i = some ev := by
  simp [Event.on, ha]

theorem Event.on_code_none {i : Fin n} {t : T} {a : Action n}
    (ha : ∀ ev, a.slot ≠ some (i, ev)) :
    (Event.code t a).on i = none := by
  simp only [Event.on]
  split
  · rename_i j ev hslot
    rw [if_neg]
    rintro rfl
    exact ha ev hslot
  · rfl

/-- What has happened to a slot. -/
def history (i : Fin n) (es : List (Event T n)) : List SlotEvent := es.filterMap (Event.on i)

theorem history_snoc (i : Fin n) (es : List (Event T n)) (e : Event T n) :
    history i (es ++ [e]) = history i es ++ (e.on i).toList := by
  rw [history, List.filterMap_append]
  cases h : e.on i with
  | none => simp [history, h]
  | some c => simp [history, h]

section steps
variable [DecidableEq T]

/-- The references after a step: gained by `alloc` and `take`, given up by `release` and
`free`. -/
def own (held : T → Fin n → ℕ) (t : T) : Action n → T → Fin n → ℕ
  | .acquired i | .taken i => gain held t i
  | .released i _ | .freed i => lose held t i
  | _ => held

theorem own_of_ne {held : T → Fin n → ℕ} {t u : T} {a : Action n} {c : Fin n} (hu : u ≠ t) :
    own held t a u c = held u c := by
  cases a with
  | acquired j => exact gain_of_ne (Or.inl hu)
  | taken j => exact gain_of_ne (Or.inl hu)
  | released j last => exact lose_of_ne (Or.inl hu)
  | freed j => exact lose_of_ne (Or.inl hu)
  | _ => rfl

theorem total_own_frame [Fintype T] {held : T → Fin n → ℕ} {t : T} {a : Action n} {i : Fin n}
    (ha : ∀ ev, a.slot ≠ some (i, ev)) : total (own held t a) i = total held i := by
  cases a with
  | acquired j => exact total_gain_of_ne fun heq => ha .alloc (heq ▸ rfl)
  | taken c => exact total_gain_of_ne fun heq => ha .take (heq ▸ rfl)
  | released c last =>
      refine total_lose_of_ne fun heq => ?_
      cases last with
      | false => exact ha .release (heq ▸ rfl)
      | true => exact ha .teardown (heq ▸ rfl)
  | freed c => exact total_lose_of_ne fun heq => ha .teardown (heq ▸ rfl)
  | _ => rfl

/-- The disciplined steps; a counter has room for `2 ^ (w - 1) - 1` references. -/
inductive OwnedStep [Fintype T] (bias : ℤ) : Owned T n w → Event T n → Owned T n w → Prop
  | code {s : Owned T n w} {t : T} {a : Action n} {s' : Threads T n w} : Disciplined bias s t a →
      Step bias s.toThreads (t, a) s' → (∀ i, total (own s.held t a) i ≤ 2 ^ (w - 1) - 1) →
      OwnedStep bias s (.code t a) { toThreads := s', held := own s.held t a }
  | give {s : Owned T n w} {t u : T} {i : Fin n} : s.pc t = .idle → 0 < s.held t i →
      OwnedStep bias s (.give t u i) { s with held := gain (lose s.held t i) u i }

end steps

/-! ## The invariant -/

/-- The slot is in the phase, and so says its counter. -/
structure InPhase [Fintype T] (es : List (Event T n)) (s : Owned T n w) (i : Fin n) (φ : Phase) :
    Prop where
  run : Run PhaseStep .free (history i es) φ
  item : s.item i = φ.word w
  refs : total s.held i = φ.refs
  tearing : ∀ t p, s.role t = some (.tearing p, i) → φ = .tearing p
  one : ∀ t p u q, s.role t = some (.tearing p, i) → s.role u = some (.tearing q, i) → u = t
  torn : ∀ p, φ = .tearing p → ∃ t, s.role t = some (.tearing p, i)
  width : φ ≠ .free → 0 < w

/-- Every thread has the references it relies on. -/
structure Duties (s : Owned T n w) : Prop where
  user : ∀ t c, s.role t = some (.user, c) → 0 < s.held t c
  sole : ∀ t c, s.role t = some (.sole, c) → Sole s.held t c

structure SafeInv [Fintype T] (es : List (Event T n)) (s : Owned T n w) : Prop where
  phase : ∀ i, ∃ φ, InPhase es s i φ
  duties : Duties s
  bound : ∀ i, total s.held i ≤ 2 ^ (w - 1) - 1

section inv
variable [Fintype T] {es : List (Event T n)} {s : Owned T n w} {i : Fin n} {φ φ' : Phase}

namespace InPhase

/-- A slot somebody holds is used, and its counter tells by how many. -/
theorem used_of_held (h : InPhase es s i φ) (hbound : total s.held i ≤ 2 ^ (w - 1) - 1) {t : T}
    (ht : 0 < s.held t i) :
    ∃ k, φ = .used k ∧ s.mem.items i = flagged w (k + 1) ∧ 0 < w ∧ k + 1 < 2 ^ (w - 1) := by
  obtain ⟨k, rfl⟩ := Phase.refs_pos (h.refs ▸ pos_total ht)
  obtain ⟨hw, hk⟩ := lt_of_room (h.refs ▸ hbound)
  exact ⟨k, rfl, h.item, hw, hk⟩

theorem used_of_sole (h : InPhase es s i φ) {t : T} (ht : Sole s.held t i) : φ = .used 0 := by
  have hone := h.refs ▸ ht.total
  obtain ⟨k, rfl⟩ := Phase.refs_pos (hone ▸ Nat.one_pos)
  have hk : k + 1 = 1 := hone
  obtain rfl : k = 0 := by omega
  rfl

theorem free_of_item (h : InPhase es s i φ) (hbound : total s.held i ≤ 2 ^ (w - 1) - 1)
    (hzero : s.item i = 0) : φ = .free := by
  rw [h.item] at hzero
  rw [h.refs] at hbound
  cases φ with
  | free => rfl
  | used k =>
      obtain ⟨hw, hk⟩ := lt_of_room hbound
      exact absurd hzero (flagged_ne_zero hw hk)
  | tearing p =>
      have hw := h.width nofun
      have hne := flagged_ne_zero (k := 0) hw (Nat.two_pow_pos _)
      rw [flagged_zero] at hne
      exact absurd hzero hne

/-- A step elsewhere. -/
theorem frame (h : InPhase es s i φ) {e : Event T n} {s' : Owned T n w} (he : e.on i = none)
    (hitem : s'.item i = s.item i) (hrefs : total s'.held i = total s.held i)
    (hrole : ∀ t p, s'.role t = some (.tearing p, i) ↔ s.role t = some (.tearing p, i)) :
    InPhase (es ++ [e]) s' i φ where
  run := by
    rw [history_snoc, he]
    simpa using h.run
  item := hitem.trans h.item
  refs := hrefs.trans h.refs
  tearing := fun t p ht => h.tearing t p ((hrole t p).mp ht)
  one := fun t p u q ht hu => h.one t p u q ((hrole t p).mp ht) ((hrole u q).mp hu)
  torn := fun p hp => by
    obtain ⟨t, ht⟩ := h.torn p hp
    exact ⟨t, (hrole t p).mpr ht⟩
  width := h.width

/-- The slot's own step, by thread `t`; no other thread is tearing the slot down. -/
theorem advance (h : InPhase es s i φ) {e : Event T n} {s' : Owned T n w} {ev : SlotEvent} {t : T}
    (he : e.on i = some ev) (hstep : PhaseStep φ ev φ') (hitem : s'.item i = φ'.word w)
    (hrefs : total s'.held i = φ'.refs) (hw : 0 < w)
    (hothers : ∀ u p, u ≠ t → s'.role u ≠ some (.tearing p, i))
    (hself : ∀ p, s'.role t = some (.tearing p, i) ↔ φ' = .tearing p) :
    InPhase (es ++ [e]) s' i φ' := by
  have honly : ∀ u p, s'.role u = some (.tearing p, i) → u = t := fun u p hu =>
    not_not.mp fun hne => hothers u p hne hu
  exact {
    run := by
      rw [history_snoc, he]
      exact h.run.snoc hstep
    item := hitem
    refs := hrefs
    tearing := fun u p hu => (hself p).mp (honly u p hu ▸ hu)
    one := fun u p v q hu hv => (honly v q hv).trans (honly u p hu).symm
    torn := fun p hp => ⟨t, (hself p).mpr hp⟩
    width := fun _ => hw }

end InPhase

namespace SafeInv

theorem init [NeZero n] : SafeInv [] (Owned.init T n w) where
  phase := fun _ => ⟨.free, .nil, rfl, Finset.sum_const_zero, nofun, nofun, nofun, nofun⟩
  duties := ⟨nofun, nofun⟩
  bound := fun i => by
    have hzero : total (Owned.init T n w).held i = 0 := Finset.sum_const_zero
    rw [hzero]
    exact Nat.zero_le _

/-- What `alloc` takes is free. -/
theorem free_of_item (h : SafeInv es s) (hzero : s.item i = 0) : InPhase es s i .free := by
  obtain ⟨φ, hphase⟩ := h.phase i
  obtain rfl := hphase.free_of_item (h.bound i) hzero
  exact hphase

end SafeInv

/-! ## One step -/

variable [DecidableEq T]

/-- Thread `t` has taken a step of the allocator. -/
structure Moved (s s' : Owned T n w) (t : T) (a : Action n) (r : Option (Role × Fin n))
    (v' : Fin n → BitVec w) (r' : Option (Role × Fin n)) : Prop where
  effect : Effect s.mem.items r a v' r'
  before : s.role t = r
  items : s'.mem.items = v'
  after : s'.role t = r'
  others : ∀ u, u ≠ t → s'.role u = s.role u
  held : s'.held = own s.held t a

/-- A slot that the action does not name is left alone. -/
theorem Effect.frame {v v' : Fin n → BitVec w} {r r' : Option (Role × Fin n)} {a : Action n}
    (h : Effect v r a v' r') (ha : ∀ ev, a.slot ≠ some (i, ev)) :
    v' i = v i ∧ ∀ p, r' = some (.tearing p, i) ↔ r = some (.tearing p, i) := by
  cases h with
  | quiet hr => exact ⟨rfl, fun _ => Iff.rfl⟩
  | leave hr _ => exact ⟨rfl, fun p => ⟨nofun, fun hp => absurd hp (hr p i)⟩⟩
  | @acquired j _ =>
      have hne : i ≠ j := fun heq => ha .alloc (heq ▸ rfl)
      exact ⟨Function.update_of_ne hne _ _, fun p => by simp⟩
  | @taken c =>
      have hne : i ≠ c := fun heq => ha .take (heq ▸ rfl)
      exact ⟨Function.update_of_ne hne _ _, fun p => by simp⟩
  | @released c _ =>
      have hne : i ≠ c := fun heq => ha .release (heq ▸ rfl)
      exact ⟨Function.update_of_ne hne _ _, fun p => by simp⟩
  | @releasedLast c q _ =>
      have hne : i ≠ c := fun heq => ha .teardown (heq ▸ rfl)
      exact ⟨Function.update_of_ne hne _ _, fun p => by simp [hne.symm]⟩
  | @freed c q =>
      have hne : i ≠ c := fun heq => ha .teardown (heq ▸ rfl)
      exact ⟨Function.update_of_ne hne _ _, fun p => by simp [hne.symm]⟩
  | @unmapped c u =>
      have hne : i ≠ c := fun heq => ha .unmap (heq ▸ rfl)
      exact ⟨rfl, fun p => by simp [hne.symm]⟩
  | @reset c =>
      have hne : i ≠ c := fun heq => ha .reset (heq ▸ rfl)
      exact ⟨Function.update_of_ne hne _ _, fun p => by simp [hne.symm]⟩

namespace Moved
variable {s' : Owned T n w} {t : T} {a : Action n} {r r' : Option (Role × Fin n)}
  {v' : Fin n → BitVec w}

theorem untouched (h : Moved s s' t a r v' r') (hphase : InPhase es s i φ)
    (ha : ∀ ev, a.slot ≠ some (i, ev)) : InPhase (es ++ [.code t a]) s' i φ := by
  obtain ⟨hitem, hrole⟩ := h.effect.frame ha
  refine hphase.frame (Event.on_code_none ha) ?_ ?_ fun u p => ?_
  · rw [Owned.item, h.items, hitem]
    rfl
  · rw [h.held, total_own_frame ha]
  · by_cases hu : u = t
    · rw [hu, h.after, h.before, hrole]
    · rw [h.others u hu]

/-- The slot of a step goes on in its life; if it was being torn down, then by this thread. -/
theorem advance (h : Moved s s' t a r v' r') (hphase : InPhase es s i φ) {ev : SlotEvent}
    (ha : a.slot = some (i, ev)) (hstep : PhaseStep φ ev φ') (hw : 0 < w)
    (hword : v' i = φ'.word w) (hrefs : total (own s.held t a) i = φ'.refs)
    (hr : ∀ p, φ = .tearing p → r = some (.tearing p, i))
    (hr' : ∀ p, r' = some (.tearing p, i) ↔ φ' = .tearing p) :
    InPhase (es ++ [.code t a]) s' i φ' := by
  refine hphase.advance (t := t) (Event.on_code ha) hstep ?_ ?_ hw (fun u p hu hrole => ?_)
    fun p => ?_
  · rw [Owned.item, h.items, hword]
  · rw [h.held, hrefs]
  · rw [h.others u hu] at hrole
    have hself := h.before.trans (hr p (hphase.tearing u p hrole))
    exact hu (hphase.one t p u p hself hrole)
  · rw [h.after, hr']

/-- A reference is gained. -/
theorem gained (h : Moved s s' t a r v' r') (hphase : InPhase es s i φ)
    (ha : a = .acquired i ∨ a = .taken i) (hduties : Duties s)
    (hbound : total s.held i ≤ 2 ^ (w - 1) - 1) (hbound' : total s'.held i ≤ 2 ^ (w - 1) - 1) :
    ∃ φ', InPhase (es ++ [.code t a]) s' i φ' := by
  have hgain : total (own s.held t a) i = φ.refs + 1 := by
    obtain rfl | rfl := ha
    · exact total_gain.trans (congrArg (· + 1) hphase.refs)
    · exact total_gain.trans (congrArg (· + 1) hphase.refs)
  have hw : 0 < w := (lt_of_room (k := φ.refs) (hgain ▸ h.held ▸ hbound')).1
  have heffect := h.effect
  obtain rfl | rfl := ha
  · cases heffect with
    | leave _ hleave => obtain hleave | ⟨x, hleave⟩ := hleave <;> cases hleave
    | acquired hzero =>
        obtain rfl := hphase.free_of_item hbound hzero
        refine ⟨.used 0, h.advance hphase rfl .alloc hw ?_ hgain nofun fun p => by simp⟩
        rw [Function.update_self, Phase.word, ← flagged_succ, flagged_zero]
  · cases heffect with
    | leave _ hleave => obtain hleave | ⟨x, hleave⟩ := hleave <;> cases hleave
    | taken =>
        obtain ⟨k, rfl, hword, _, hk⟩ := hphase.used_of_held hbound (hduties.user t i h.before)
        refine ⟨.used (k + 1), h.advance hphase rfl .take hw ?_ hgain nofun fun p => by simp⟩
        rw [Function.update_self, hword, flagged_or_flag hw hk, flagged_succ, Phase.word]

/-- A reference is given up, the last one or not. -/
theorem released (h : Moved s s' t a r v' r') (hphase : InPhase es s i φ) {last : Bool}
    (ha : a = .released i last) (hduties : Duties s)
    (hbound : total s.held i ≤ 2 ^ (w - 1) - 1) : ∃ φ', InPhase (es ++ [.code t a]) s' i φ' := by
  subst ha
  have heffect := h.effect
  cases heffect with
  | leave _ hleave => obtain hleave | ⟨x, hleave⟩ := hleave <;> cases hleave
  | released hmore =>
      have hpos := hduties.user t i h.before
      obtain ⟨k, rfl, hword, hw, hk⟩ := hphase.used_of_held hbound hpos
      rw [hword, Ne, flagged_count_eq_one hw hk] at hmore
      obtain ⟨k, rfl⟩ := Nat.exists_eq_succ_of_ne_zero (show k ≠ 0 by omega)
      refine ⟨.used k, h.advance hphase rfl .release hw ?_ (total_lose hpos hphase.refs) nofun
        fun p => by simp⟩
      rw [Function.update_self, hword, flagged_sub_one, Phase.word]
  | releasedLast pending hlast =>
      have hpos := hduties.user t i h.before
      obtain ⟨k, rfl, hword, hw, hk⟩ := hphase.used_of_held hbound hpos
      rw [hword, flagged_count_eq_one hw hk] at hlast
      obtain rfl : k = 0 := by omega
      refine ⟨.tearing pending, h.advance hphase rfl .teardown hw ?_ (total_lose hpos hphase.refs)
        nofun fun p => by simp⟩
      rw [Function.update_self, hword, flagged_sub_one, flagged_zero, Phase.word]

/-- The slot an action names goes on in its life. -/
theorem touched (h : Moved s s' t a r v' r') (hphase : InPhase es s i φ) (hduties : Duties s)
    (hbound : total s.held i ≤ 2 ^ (w - 1) - 1) (hbound' : total s'.held i ≤ 2 ^ (w - 1) - 1)
    {ev : SlotEvent} (ha : a.slot = some (i, ev)) : ∃ φ', InPhase (es ++ [.code t a]) s' i φ' := by
  have heffect := h.effect
  cases heffect with
  | quiet => cases ha
  | leave _ hleave => obtain rfl | ⟨x, rfl⟩ := hleave <;> cases ha
  | acquired _ =>
      cases ha
      exact h.gained hphase (Or.inl rfl) hduties hbound hbound'
  | taken =>
      cases ha
      exact h.gained hphase (Or.inr rfl) hduties hbound hbound'
  | released _ =>
      cases ha
      exact h.released hphase rfl hduties hbound
  | releasedLast _ _ =>
      cases ha
      exact h.released hphase rfl hduties hbound
  | freed pending =>
      cases ha
      have hsole := hduties.sole t i h.before
      obtain rfl := hphase.used_of_sole hsole
      exact ⟨.tearing pending, h.advance hphase rfl .teardown (hphase.width nofun)
        (Function.update_self _ _ _) (total_lose (hsole.1 ▸ Nat.one_pos) hphase.refs) nofun
        fun p => by simp⟩
  | unmapped =>
      cases ha
      obtain rfl := hphase.tearing t true h.before
      exact ⟨.tearing false, h.advance hphase rfl .unmap (hphase.width nofun) hphase.item
        hphase.refs (fun p hp => by cases hp; rfl) fun p => by simp [eq_comm]⟩
  | reset =>
      cases ha
      obtain rfl := hphase.tearing t false h.before
      exact ⟨.free, h.advance hphase rfl .reset (hphase.width nofun) (Function.update_self _ _ _)
        hphase.refs (fun p hp => by cases hp; rfl) fun p => by simp⟩

/-- Who holds the only reference on a slot keeps it when another thread moves. -/
theorem sole_other (h : Moved s s' t a r v' r') (hduties : Duties s)
    (hfree : ∀ j, a = .acquired j → total s.held j = 0) {u : T} {c : Fin n} (hu : u ≠ t)
    (hsole : Sole s.held u c) : Sole s'.held u c := by
  obtain ⟨heffect, hbefore, _, _, _, hheld⟩ := h
  rw [hheld]
  cases heffect with
  | quiet => exact hsole
  | leave _ hleave =>
      obtain rfl | ⟨x, rfl⟩ := hleave
      · exact hsole
      · exact hsole
  | acquired _ =>
      refine hsole.gain fun heq => ?_
      have hone := hsole.total
      rw [heq, hfree _ rfl] at hone
      cases hone
  | taken =>
      refine hsole.gain fun heq => hu ?_
      exact (hsole.eq (heq ▸ hduties.user t _ hbefore)).symm
  | released _ => exact hsole.lose (Or.inl hu)
  | releasedLast _ _ => exact hsole.lose (Or.inl hu)
  | freed _ => exact hsole.lose (Or.inl hu)
  | unmapped => exact hsole
  | reset => exact hsole

theorem duties (h : Moved s s' t a r v' r') (hduties : Duties s)
    (hfree : ∀ j, a = .acquired j → total s.held j = 0) : Duties s' := by
  constructor
  · intro u c hrole
    by_cases hu : u = t
    · subst hu
      obtain ⟨heffect, hbefore, _, hafter, _, hheld⟩ := h
      rw [hafter] at hrole
      cases heffect with
      | quiet =>
          rw [hheld]
          exact hduties.user u c (hbefore.trans hrole)
      | _ => cases hrole
    · rw [h.others u hu] at hrole
      rw [h.held, own_of_ne hu]
      exact hduties.user u c hrole
  · intro u c hrole
    by_cases hu : u = t
    · subst hu
      obtain ⟨heffect, hbefore, _, hafter, _, hheld⟩ := h
      rw [hafter] at hrole
      rw [hheld]
      cases heffect with
      | quiet => exact hduties.sole u c (hbefore.trans hrole)
      | acquired _ =>
          cases hrole
          exact sole_gain (hfree c rfl)
      | _ => cases hrole
    · rw [h.others u hu] at hrole
      exact h.sole_other hduties hfree hu (hduties.sole u c hrole)

end Moved

namespace SafeInv
variable {s' : Owned T n w} {t : T} {a : Action n}

theorem moved (h : SafeInv es s) {r r' : Option (Role × Fin n)} {v' : Fin n → BitVec w}
    (hmoved : Moved s s' t a r v' r') (hbound : ∀ i, total s'.held i ≤ 2 ^ (w - 1) - 1) :
    SafeInv (es ++ [.code t a]) s' := by
  refine ⟨fun i => ?_, hmoved.duties h.duties fun i ha => ?_, hbound⟩
  · obtain ⟨φ, hphase⟩ := h.phase i
    by_cases ha : ∃ ev, a.slot = some (i, ev)
    · obtain ⟨ev, ha⟩ := ha
      exact hmoved.touched hphase h.duties (h.bound i) (hbound i) ha
    · exact ⟨φ, hmoved.untouched hphase fun ev hev => ha ⟨ev, hev⟩⟩
  · subst ha
    exact (h.free_of_item hmoved.effect.acquired_free).refs

/-- A thread that is in no call starts one, as it may. -/
theorem called {bias : ℤ} {op : Op} (h : SafeInv es s) (hidle : s.pc t = .idle)
    (hdisc : Disciplined bias s t (.call op)) :
    SafeInv (es ++ [.code t (.call op)])
      { s with pc := Function.update s.pc t (entry bias op) } := by
  have hrole : ∀ u, (Function.update s.pc t (entry bias op) u).role =
      if u = t then (entry bias op : Pc n w).role else s.role u := by
    intro u
    rw [Function.update_apply]
    split <;> rfl
  have hnone : s.role t = none := by rw [Owned.role, hidle]; rfl
  refine ⟨fun i => ?_, ⟨fun u c hu => ?_, fun u c hu => ?_⟩, h.bound⟩
  · obtain ⟨φ, hphase⟩ := h.phase i
    refine ⟨φ, hphase.frame rfl rfl rfl fun u p => ?_⟩
    rw [Owned.role, hrole]
    split
    · rename_i heq
      rw [heq, hnone]
      refine ⟨fun hentry => ?_, nofun⟩
      obtain ⟨hr, _⟩ | ⟨hr, _⟩ := entry_role hentry <;> cases hr
    · rfl
  · rw [Owned.role, hrole] at hu
    split at hu
    · rename_i heq
      subst heq
      obtain ⟨_, cap, hcap, rfl | ⟨v, rfl, rfl⟩⟩ | ⟨hr, _⟩ := entry_role hu
      · exact hdisc c hcap
      · exact hdisc c hcap
      · cases hr
    · exact h.duties.user u c hu
  · rw [Owned.role, hrole] at hu
    split at hu
    · rename_i heq
      subst heq
      obtain ⟨hr, _⟩ | ⟨_, v, rfl, hcap⟩ := entry_role hu
      · cases hr
      · exact hdisc c hcap
    · exact h.duties.sole u c hu

/-- A thread that is in no call passes a reference on. -/
theorem given {u : T} {j : Fin n} (h : SafeInv es s) (hidle : s.pc t = .idle)
    (hpos : 0 < s.held t j) :
    SafeInv (es ++ [.give t u j]) { s with held := gain (lose s.held t j) u j } := by
  have htotal : ∀ i, total (gain (lose s.held t j) u j) i = total s.held i := by
    intro i
    by_cases hi : i = j
    · subst hi
      obtain ⟨k, hk⟩ := Nat.exists_eq_succ_of_ne_zero (pos_total hpos).ne'
      rw [total_gain, total_lose hpos hk, hk]
    · rw [total_gain_of_ne hi, total_lose_of_ne hi]
  have hnone : s.role t = none := by rw [Owned.role, hidle]; rfl
  have hne : ∀ v r c, s.role v = some (r, c) → v ≠ t := fun v r c hv heq => by
    rw [heq, hnone] at hv
    cases hv
  refine ⟨fun i => ?_, ⟨fun v c hv => ?_, fun v c hv => ?_⟩, fun i => htotal i ▸ h.bound i⟩
  · obtain ⟨φ, hphase⟩ := h.phase i
    exact ⟨φ, hphase.frame rfl rfl (htotal i) fun _ _ => Iff.rfl⟩
  · refine lt_of_lt_of_le (h.duties.user v c hv) (le_trans ?_ (le_gain v c))
    exact (lose_of_ne (Or.inl (hne v _ c hv))).ge
  · have hsole := h.duties.sole v c hv
    refine (hsole.lose (Or.inl (hne v _ c hv))).gain fun heq => hne v _ c hv ?_
    exact (hsole.eq (heq ▸ hpos)).symm

/-- **Step.**  Every disciplined step keeps the invariant. -/
theorem step {bias : ℤ} {e : Event T n} (h : SafeInv es s) (hstep : OwnedStep bias s e s') :
    SafeInv (es ++ [e]) s' := by
  cases hstep with
  | code hdisc hcode hbound =>
      cases hcode with
      | call hidle => exact h.called hidle hdisc
      | exec hexec =>
          refine h.moved ⟨exec_effect hexec, rfl, rfl, ?_, fun u hu => ?_, rfl⟩ hbound
          · exact congrArg Pc.role (Function.update_self _ _ _)
          · exact congrArg Pc.role (Function.update_of_ne hu _ _)
  | give hidle hpos => exact h.given hidle hpos

end SafeInv

end inv

/-! ## Safety -/

/-- What disciplined threads can rely on.  `acquires` is about the exchange of `alloc`, `returns`
and `distinct` about the capability it is about to return. -/
structure CapSafe [Fintype T] [DecidableEq T] (bias : ℤ) (es : List (Event T n))
    (s : Owned T n w) : Prop where
  free : ∀ i, total s.held i = 0 → ¬s.Tearing i → s.item i = 0
  used : ∀ i, 0 < total s.held i → s.item i = fUsed w + BitVec.ofNat w (total s.held i)
  tearing : ∀ i, s.Tearing i → total s.held i = 0 ∧ s.item i = fUsed w
  acquires : ∀ t i s', Step bias s.toThreads (t, .acquired i) s' →
    total s.held i = 0 ∧ ¬s.Tearing i
  returns : ∀ t i, s.pc t = .ret (.allocated i) → Sole s.held t i ∧ ¬s.Tearing i
  distinct : ∀ t u i, s.pc t = .ret (.allocated i) → s.pc u = .ret (.allocated i) → u = t
  periods : ∀ i, ∃ ps : List Bool,
    (history i es).filter SlotEvent.isMilestone <+: (ps.map period).flatten

section safe
variable [Fintype T] {es : List (Event T n)} {s : Owned T n w} {i : Fin n} {φ : Phase}

/-- A slot nobody is tearing down is free or used. -/
theorem InPhase.tearing_iff (h : InPhase es s i φ) : s.Tearing i ↔ ∃ p, φ = .tearing p :=
  ⟨fun ⟨t, p, hrole⟩ => ⟨p, h.tearing t p hrole⟩, fun ⟨p, hp⟩ =>
    (h.torn p hp).elim fun t ht => ⟨t, p, ht⟩⟩

theorem InPhase.not_tearing (h : InPhase es s i φ) (hφ : ∀ p, φ ≠ .tearing p) : ¬s.Tearing i :=
  fun htear => (h.tearing_iff.mp htear).elim hφ

variable [DecidableEq T]

theorem SafeInv.capSafe (bias : ℤ) (h : SafeInv es s) : CapSafe bias es s where
  free := fun i hzero htear => by
    obtain ⟨φ, hphase⟩ := h.phase i
    cases φ with
    | free => exact hphase.item
    | used k => exact absurd (hphase.refs.symm.trans hzero) (Nat.succ_ne_zero k)
    | tearing p => exact absurd (hphase.tearing_iff.mpr ⟨p, rfl⟩) htear
  used := fun i hpos => by
    obtain ⟨φ, hphase⟩ := h.phase i
    obtain ⟨k, rfl⟩ := Phase.refs_pos (hphase.refs ▸ hpos)
    rw [hphase.item, hphase.refs]
    rfl
  tearing := fun i htear => by
    obtain ⟨φ, hphase⟩ := h.phase i
    obtain ⟨p, rfl⟩ := hphase.tearing_iff.mp htear
    exact ⟨hphase.refs, hphase.item⟩
  acquires := fun t i s' hstep => by
    cases hstep with
    | exec hexec =>
        have hphase := h.free_of_item (exec_effect hexec).acquired_free
        exact ⟨hphase.refs, hphase.not_tearing nofun⟩
  returns := fun t i hret => by
    have hsole := h.duties.sole t i (by rw [Owned.role, hret]; rfl)
    obtain ⟨φ, hphase⟩ := h.phase i
    obtain rfl := hphase.used_of_sole hsole
    exact ⟨hsole, hphase.not_tearing nofun⟩
  distinct := fun t u i ht hu => by
    have hsole := h.duties.sole t i (by rw [Owned.role, ht]; rfl)
    have hother := h.duties.sole u i (by rw [Owned.role, hu]; rfl)
    exact hsole.eq (hother.1 ▸ Nat.one_pos)
  periods := fun i => by
    obtain ⟨φ, hphase⟩ := h.phase i
    exact periods_of_run hphase.run

/-- **Runs.**  Whatever the capacity, the width of the counters, the threads and their
interleaving: in every state disciplined threads can reach, the counters tell the references,
`alloc` gives out only what is free, and no slot is given out again before its teardown is
over. -/
theorem disciplined_use_safe [NeZero n] {bias : ℤ}
    (hrun : Run (OwnedStep bias) (Owned.init T n w) es s) : CapSafe bias es s :=
  SafeInv.capSafe bias (hrun.inv (I := SafeInv) .init fun h hstep => h.step hstep)

end safe

/-- Two threads, two slots.  One thread allocates, passes its reference on, and the other one
releases it. -/
theorem disciplined_use_safe_once :
    ∃ s : Owned (Fin 2) 2 8, total s.held 1 = 0 ∧ s.item 1 = 0 ∧
      CapSafe 1 [.code 0 (.call .alloc), .code 0 .quiet, .code 0 (.acquired 1), .code 0 .quiet,
        .code 0 (.ret (.allocated 1)), .give 0 1 1,
        .code 1 (.call (.release { cap := capOf 1 (1 : Fin 2), unmapFlags := 0 })),
        .code 1 .quiet, .code 1 (.released 1 true), .code 1 (.reset 1)] s := by
  have hcall : Run (OwnedStep 1) (Owned.init (Fin 2) 2 8) [.code 0 (.call .alloc)] _ :=
    .snoc .nil (.code trivial (.call rfl) (by decide))
  have hload := hcall.snoc (.code (t := 0) (a := .quiet) trivial (.exec rfl) (by decide))
  have hcas := hload.snoc (.code (t := 0) (a := .acquired 1) trivial (.exec rfl) (by decide))
  have hlast := hcas.snoc (.code (t := 0) (a := .quiet) trivial (.exec rfl) (by decide))
  have hret := hlast.snoc
    (.code (t := 0) (a := .ret (.allocated 1)) trivial (.exec rfl) (by decide))
  have hgive := hret.snoc (.give (t := 0) (u := 1) (i := 1) rfl (by decide))
  have hrelease := hgive.snoc
    (.code (t := 1) (a := .call (.release { cap := capOf 1 (1 : Fin 2), unmapFlags := 0 }))
      (fun c hc => by revert c; decide) (.call rfl) (by decide))
  have hload' := hrelease.snoc (.code (t := 1) (a := .quiet) trivial (.exec rfl) (by decide))
  have hcas' := hload'.snoc
    (.code (t := 1) (a := .released 1 true) trivial (.exec rfl) (by decide))
  have hreset := hcas'.snoc (.code (t := 1) (a := .reset 1) trivial (.exec rfl) (by decide))
  exact ⟨_, by decide, by decide, disciplined_use_safe hreset⟩

end MettEagle.CapAlloc
