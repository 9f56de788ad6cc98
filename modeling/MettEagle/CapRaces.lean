/-
# `MettEagle.CapRaces` — `free` and `release` racing for one slot

While nobody allocates or takes a slot, the calls of `free` and `release` on it are a
race to the teardown, and which call gets there does not matter for the outcome:

    live       nobody has torn it down; the count is the first one less the releases
    tearing    one call has taken the count to 0, and nobody else's exchange succeeds
    done       the counter is 0; what is still under way gives up

`Race` is the slot as the calls see it, with one `Part` for each thread, and `LocalStep`
what a step can do there.  `MettEagle.CapTeardown` watches the threads of the allocator run
such a race.
-/
import MettEagle.CapAlloc
import MettEagle.Lib.Run
import MettEagle.Lib.Tally

namespace MettEagle.CapAlloc

variable {T : Type*} {n w : ℕ}

/-! ## The race for a slot -/

/-- What a thread is doing to the slot: nothing, trying to give up one reference, trying to give
up all of them, tearing the slot down (in a release or in a free, the unmap still to come or
not), or about to tell that it did. -/
inductive Part where
  | out
  | releasing
  | freeing
  | tearing (release pending : Bool)
  | told
deriving DecidableEq

/-- What is seen of the slot.  The exchange that begins a teardown says whether the call asked
for an unmap. -/
inductive RaceEvent where
  | freeCall
  | releaseCall
  | released
  | releasedLast (unmaps : Bool)
  | freed (unmaps : Bool)
  | unmapped
  | reset
  | returnedTrue
  | other
deriving DecidableEq

/-- The counter, and the parts of the threads. -/
structure Race (T : Type*) (w : ℕ) where
  word : BitVec w
  part : T → Part

/-- What one thread can do. -/
inductive LocalStep : BitVec w → Part → RaceEvent → BitVec w → Part → Prop
  | other {v : BitVec w} {p : Part} : LocalStep v p .other v p
  | freeCall {v : BitVec w} : LocalStep v .out .freeCall v .freeing
  | releaseCall {v : BitVec w} : LocalStep v .out .releaseCall v .releasing
  | giveUp {v : BitVec w} {p : Part} : p = .freeing ∨ p = .releasing → unused v = true →
      LocalStep v p .other v .out
  | released {v : BitVec w} : unused v = false → v &&& ~~~fUsed w ≠ 1 →
      LocalStep v .releasing .released (v - 1) .out
  | releasedLast {v : BitVec w} {unmaps : Bool} : unused v = false → v &&& ~~~fUsed w = 1 →
      LocalStep v .releasing (.releasedLast unmaps) (v - 1) (.tearing true unmaps)
  | freed {v : BitVec w} {unmaps : Bool} : unused v = false →
      LocalStep v .freeing (.freed unmaps) (fUsed w) (.tearing false unmaps)
  | unmapped {v : BitVec w} {release : Bool} :
      LocalStep v (.tearing release true) .unmapped v (.tearing release false)
  | reset {v : BitVec w} {release : Bool} :
      LocalStep v (.tearing release false) .reset 0 (if release then .told else .out)
  | returnedTrue {v : BitVec w} : LocalStep v .told .returnedTrue v .out

inductive RaceStep [DecidableEq T] : Race T w → T × RaceEvent → Race T w → Prop
  | mk {r : Race T w} {t : T} {e : RaceEvent} {v : BitVec w} {p : Part} :
      LocalStep r.word (r.part t) e v p →
      RaceStep r (t, e) { word := v, part := Function.update r.part t p }

/-! ## What is counted -/

section counting

/-- The milestones of a teardown. -/
def RaceEvent.isMilestone : RaceEvent → Bool
  | .releasedLast _ | .freed _ | .unmapped | .reset => true
  | _ => false

/-- An event that is neither part of a teardown nor tells of one. -/
def RaceEvent.Minor (e : RaceEvent) : Prop := e.isMilestone = false ∧ e ≠ .returnedTrue

def milestones (es : List (T × RaceEvent)) : List (T × RaceEvent) :=
  es.filter fun x => x.2.isMilestone

theorem milestones_snoc (es : List (T × RaceEvent)) (x : T × RaceEvent) :
    milestones (es ++ [x]) = milestones es ++ if x.2.isMilestone then [x] else [] := by
  rw [milestones, List.filter_append]
  split
  · rename_i h
    simp [milestones, h]
  · rename_i h
    simp [milestones, h]

theorem milestones_snoc_of_not {x : T × RaceEvent} (h : x.2.isMilestone = false)
    (es : List (T × RaceEvent)) : milestones (es ++ [x]) = milestones es := by
  rw [milestones_snoc, h]
  exact List.append_nil _

/-- How thread `t` begins a teardown. -/
def begun (t : T) (release unmaps : Bool) : T × RaceEvent :=
  (t, if release then .releasedLast unmaps else .freed unmaps)

/-- One whole teardown, by one thread: the exchange, the unmap if the call asked for it, and the
store of 0. -/
def teardown (t : T) (release unmaps : Bool) : List (T × RaceEvent) :=
  if unmaps then [begun t release unmaps, (t, .unmapped), (t, .reset)]
  else [begun t release unmaps, (t, .reset)]

end counting

/-! ## The stages of a race -/

/-- There was reason enough to tear the slot down. -/
def Due (k : ℕ) (es : List (T × RaceEvent)) : Prop :=
  0 < (who .freeCall es).length ∨ k ≤ (who .releaseCall es).length

theorem Due.snoc {k : ℕ} {es : List (T × RaceEvent)} (h : Due k es) (x : T × RaceEvent) :
    Due k (es ++ [x]) := by
  rw [Due, who_snoc, who_snoc, List.length_append, List.length_append]
  rcases h with h | h
  · exact Or.inl (by omega)
  · exact Or.inr (by omega)

/-- The thread has not torn the slot down. -/
def Part.Waiting (p : Part) : Prop := p = .out ∨ p = .releasing ∨ p = .freeing

theorem Part.not_waiting_tearing {release pending : Bool} :
    ¬(Part.tearing release pending).Waiting := by
  rintro (h | h | h) <;> cases h

theorem Part.not_waiting_told : ¬Part.told.Waiting := by
  rintro (h | h | h) <;> cases h

section stages
variable [DecidableEq T]

/-- Nobody has torn the slot down. -/
structure Live (k : ℕ) (es : List (T × RaceEvent)) (r : Race T w) : Prop where
  word : r.word = flagged w (k - (who .released es).length)
  left : (who .released es).length < k
  releases : ∀ t, (who .releaseCall es).count t =
    (who .released es).count t + if r.part t = .releasing then 1 else 0
  frees : ∀ t, (who .freeCall es).count t = if r.part t = .freeing then 1 else 0
  parts : ∀ t, (r.part t).Waiting
  milestones : milestones es = []
  returned : who .returnedTrue es = []

/-- Thread `t` is tearing the slot down. -/
structure TearingDown (k : ℕ) (t : T) (release unmaps pending : Bool) (es : List (T × RaceEvent))
    (r : Race T w) : Prop where
  word : r.word = fUsed w
  due : Due k es
  part : r.part t = .tearing release pending
  parts : ∀ u, u ≠ t → (r.part u).Waiting
  milestones : pending = unmaps ∧ milestones es = [begun t release unmaps] ∨
    pending = false ∧ unmaps = true ∧ milestones es = [begun t release unmaps, (t, .unmapped)]
  returned : who .returnedTrue es = []

/-- The teardown is over; the thread that did it may still have to tell. -/
structure Done (k : ℕ) (t : T) (release unmaps : Bool) (es : List (T × RaceEvent))
    (r : Race T w) : Prop where
  word : r.word = 0
  due : Due k es
  parts : ∀ u, (r.part u).Waiting ∨ u = t ∧ r.part u = .told ∧ who .returnedTrue es = []
  milestones : milestones es = teardown t release unmaps
  returned : who .returnedTrue es = [] ∨ who .returnedTrue es = [t]

inductive Stage (k : ℕ) (es : List (T × RaceEvent)) (r : Race T w) : Prop
  | live : Live k es r → Stage k es r
  | tearing (t : T) (release unmaps pending : Bool) :
      TearingDown k t release unmaps pending es r → Stage k es r
  | done (t : T) (release unmaps : Bool) : Done k t release unmaps es r → Stage k es r

variable {k : ℕ} {es : List (T × RaceEvent)} {r : Race T w} {t : T} {e : RaceEvent} {v : BitVec w}
  {p : Part}

/-! ### Live -/

namespace Live

theorem not_unused (h : Live k es r) (hw : 0 < w) (hk : k < 2 ^ (w - 1)) :
    unused r.word = false := by
  have hleft := h.left
  rw [h.word]
  exact unused_flagged hw (by omega) (by omega)

/-- The count of a live slot. -/
theorem count_eq_one (h : Live k es r) (hw : 0 < w) (hk : k < 2 ^ (w - 1)) :
    r.word &&& ~~~fUsed w = 1 ↔ (who .released es).length + 1 = k := by
  have hleft := h.left
  rw [h.word, flagged_count_eq_one hw (by omega)]
  omega

/-- **Frame.**  Short of a teardown, the books of the other threads stay as they are; what is left
to show is about the counter and about `t`. -/
theorem moved (h : Live k es r) (he : e.Minor) (hp : p.Waiting)
    (hword : v = flagged w (k - (who .released (es ++ [(t, e)])).length))
    (hleft : (who .released (es ++ [(t, e)])).length < k)
    (hreleases : (who .releaseCall (es ++ [(t, e)])).count t =
      (who .released (es ++ [(t, e)])).count t + if p = .releasing then 1 else 0)
    (hfrees : (who .freeCall (es ++ [(t, e)])).count t = if p = .freeing then 1 else 0) :
    Live k (es ++ [(t, e)]) { word := v, part := Function.update r.part t p } where
  word := hword
  left := hleft
  releases := by
    refine (Function.forall_update_iff r.part fun u p =>
      (who .releaseCall (es ++ [(t, e)])).count u =
        (who .released (es ++ [(t, e)])).count u + if p = .releasing then 1 else 0).mpr
      ⟨hreleases, ?_⟩
    intro u hu
    rw [count_who_snoc_of_ne (Ne.symm hu), count_who_snoc_of_ne (Ne.symm hu)]
    exact h.releases u
  frees := by
    refine (Function.forall_update_iff r.part fun u p =>
      (who .freeCall (es ++ [(t, e)])).count u = if p = .freeing then 1 else 0).mpr ⟨hfrees, ?_⟩
    intro u hu
    rw [count_who_snoc_of_ne (Ne.symm hu)]
    exact h.frees u
  parts := (Function.forall_update_iff r.part fun _ p => p.Waiting).mpr ⟨hp, fun u _ => h.parts u⟩
  milestones := by rw [milestones_snoc_of_not he.1, h.milestones]
  returned := by rw [who_snoc_of_ne he.2, h.returned]

/-- Nothing happens to the counter. -/
theorem quiet (h : Live k es r) (he : e.Minor) (hne : e ≠ .released) (hp : p.Waiting)
    (hreleases : (who .releaseCall (es ++ [(t, e)])).count t =
      (who .released es).count t + if p = .releasing then 1 else 0)
    (hfrees : (who .freeCall (es ++ [(t, e)])).count t = if p = .freeing then 1 else 0) :
    Live k (es ++ [(t, e)]) { word := r.word, part := Function.update r.part t p } := by
  have hsame : who .released (es ++ [(t, e)]) = who .released es := who_snoc_of_ne hne es t
  refine h.moved he hp ?_ ?_ ?_ hfrees
  · rw [hsame]
    exact h.word
  · rw [hsame]
    exact h.left
  · rw [hsame]
    exact hreleases

/-- A call begins. -/
theorem freeCall (h : Live k es r) (ht : r.part t = .out) :
    Live k (es ++ [(t, .freeCall)])
      { word := r.word, part := Function.update r.part t .freeing } := by
  refine h.quiet ⟨rfl, nofun⟩ nofun (Or.inr (Or.inr rfl)) ?_ ?_
  · rw [who_snoc_of_ne (by decide), h.releases t, ht]
    rfl
  · rw [count_who_snoc_self, h.frees t, ht]
    rfl

theorem releaseCall (h : Live k es r) (ht : r.part t = .out) :
    Live k (es ++ [(t, .releaseCall)])
      { word := r.word, part := Function.update r.part t .releasing } := by
  refine h.quiet ⟨rfl, nofun⟩ nofun (Or.inr (Or.inl rfl)) ?_ ?_
  · rw [count_who_snoc_self, h.releases t, ht]
    rfl
  · rw [who_snoc_of_ne (by decide), h.frees t, ht]
    rfl

theorem other (h : Live k es r) (t : T) : Live k (es ++ [(t, .other)]) r := by
  have hmoved : Live k (es ++ [(t, .other)])
      { word := r.word, part := Function.update r.part t (r.part t) } := by
    refine h.quiet ⟨rfl, nofun⟩ nofun (h.parts t) ?_ ?_
    · rw [who_snoc_of_ne (by decide)]
      exact h.releases t
    · rw [who_snoc_of_ne (by decide)]
      exact h.frees t
  rwa [Function.update_eq_self] at hmoved

/-- A reference is given up, and is not the last one. -/
theorem released (h : Live k es r) (hw : 0 < w) (hk : k < 2 ^ (w - 1))
    (ht : r.part t = .releasing) (hmore : r.word &&& ~~~fUsed w ≠ 1) :
    Live k (es ++ [(t, .released)])
      { word := r.word - 1, part := Function.update r.part t .out } := by
  have hleft := h.left
  have hne : (who .released es).length + 1 ≠ k := fun heq => hmore ((h.count_eq_one hw hk).mpr heq)
  have hlength : (who .released (es ++ [(t, .released)])).length =
      (who .released es).length + 1 := by
    rw [who_snoc_self, List.length_append, List.length_singleton]
  refine h.moved ⟨rfl, nofun⟩ (Or.inl rfl) ?_ (by omega) ?_ ?_
  · rw [h.word, hlength,
      show k - (who .released es).length = k - ((who .released es).length + 1) + 1 by omega,
      flagged_sub_one]
  · rw [who_snoc_of_ne (by decide), count_who_snoc_self, h.releases t, ht]
    rfl
  · rw [who_snoc_of_ne (by decide), h.frees t, ht]
    rfl

/-- The last reference is given up. -/
theorem releasedLast (h : Live k es r) (hw : 0 < w) (hk : k < 2 ^ (w - 1))
    (ht : r.part t = .releasing) (hlast : r.word &&& ~~~fUsed w = 1) (unmaps : Bool) :
    TearingDown k t true unmaps unmaps (es ++ [(t, .releasedLast unmaps)])
      { word := r.word - 1, part := Function.update r.part t (.tearing true unmaps) } where
  word := by
    have hone := (h.count_eq_one hw hk).mp hlast
    show r.word - 1 = _
    rw [h.word, show k - (who .released es).length = 0 + 1 by omega, flagged_sub_one, flagged_zero]
  due := by
    have hone := (h.count_eq_one hw hk).mp hlast
    -- every release there was has a call, and this one is not among them
    have hle : (who .released es ++ [t]).length ≤ (who .releaseCall es).length := by
      refine length_le_of_count_le fun u => ?_
      rw [List.count_append, h.releases u]
      by_cases hu : u = t
      · subst hu
        rw [ht]
        simp
      · simp [Ne.symm hu]
    rw [List.length_append, List.length_singleton] at hle
    refine Due.snoc (Or.inr ?_) _
    omega
  part := Function.update_self ..
  parts := (Function.forall_update_iff r.part fun u p => u ≠ t → p.Waiting).mpr
    ⟨fun hne => absurd rfl hne, fun u _ _ => h.parts u⟩
  milestones := Or.inl ⟨rfl, by rw [milestones_snoc, h.milestones]; rfl⟩
  returned := by rw [who_snoc_of_ne (fun hc => by cases hc)]; exact h.returned

/-- All references are given up. -/
theorem freed (h : Live k es r) (ht : r.part t = .freeing) (unmaps : Bool) :
    TearingDown k t false unmaps unmaps (es ++ [(t, .freed unmaps)])
      { word := fUsed w, part := Function.update r.part t (.tearing false unmaps) } where
  word := rfl
  due := by
    have hcall : (who .freeCall es).count t = 1 := by rw [h.frees t, if_pos ht]
    have hle := (who .freeCall es).count_le_length (a := t)
    exact Due.snoc (Or.inl (by omega)) _
  part := Function.update_self ..
  parts := (Function.forall_update_iff r.part fun u p => u ≠ t → p.Waiting).mpr
    ⟨fun hne => absurd rfl hne, fun u _ _ => h.parts u⟩
  milestones := Or.inl ⟨rfl, by rw [milestones_snoc, h.milestones]; rfl⟩
  returned := by rw [who_snoc_of_ne (fun hc => by cases hc)]; exact h.returned

/-- **Step.**  A live slot stays live until one exchange takes its count to 0. -/
theorem step (h : Live k es r) (hw : 0 < w) (hk : k < 2 ^ (w - 1))
    (hstep : LocalStep r.word (r.part t) e v p) :
    Stage k (es ++ [(t, e)]) { word := v, part := Function.update r.part t p } := by
  have hused := h.not_unused hw hk
  have hwait := h.parts t
  generalize hq : r.part t = q at hstep hwait
  generalize hx : r.word = x at hstep hused
  cases hstep with
  | other =>
      rw [← hq, Function.update_eq_self, ← hx]
      exact .live (h.other t)
  | freeCall => exact hx ▸ .live (h.freeCall hq)
  | releaseCall => exact hx ▸ .live (h.releaseCall hq)
  | giveUp _ hunused =>
      rw [hused] at hunused
      cases hunused
  | released _ hmore => exact hx ▸ .live (h.released hw hk hq (hx ▸ hmore))
  | releasedLast _ hlast =>
      exact hx ▸ .tearing t true _ _ (h.releasedLast hw hk hq (hx ▸ hlast) _)
  | freed _ => exact .tearing t false _ _ (h.freed hq _)
  | unmapped => exact absurd hwait Part.not_waiting_tearing
  | reset => exact absurd hwait Part.not_waiting_tearing
  | returnedTrue => exact absurd hwait Part.not_waiting_told

end Live

/-! ### Tearing down, and afterwards -/

namespace TearingDown
variable {t₀ : T} {release unmaps pending : Bool}

/-- Another thread begins a call, or gives up. -/
theorem minor (h : TearingDown k t₀ release unmaps pending es r) (ht : t ≠ t₀) (he : e.Minor)
    (hp : p.Waiting) : TearingDown k t₀ release unmaps pending (es ++ [(t, e)])
      { word := r.word, part := Function.update r.part t p } where
  word := h.word
  due := h.due.snoc _
  part := (Function.update_of_ne (Ne.symm ht) ..).trans h.part
  parts := (Function.forall_update_iff r.part fun u p => u ≠ t₀ → p.Waiting).mpr
    ⟨fun _ => hp, fun u _ => h.parts u⟩
  milestones := by
    rw [milestones_snoc_of_not he.1]
    exact h.milestones
  returned := by rw [who_snoc_of_ne he.2]; exact h.returned

omit [DecidableEq T] in
theorem other (h : TearingDown k t₀ release unmaps pending es r) (t : T) :
    TearingDown k t₀ release unmaps pending (es ++ [(t, .other)]) r where
  word := h.word
  due := h.due.snoc _
  part := h.part
  parts := h.parts
  milestones := by
    rw [milestones_snoc_of_not rfl]
    exact h.milestones
  returned := by rw [who_snoc_of_ne (by decide)]; exact h.returned

theorem unmapped (h : TearingDown k t₀ release unmaps true es r) :
    TearingDown k t₀ release unmaps false (es ++ [(t₀, .unmapped)])
      { word := r.word, part := Function.update r.part t₀ (.tearing release false) } where
  word := h.word
  due := h.due.snoc _
  part := Function.update_self ..
  parts := (Function.forall_update_iff r.part fun u p => u ≠ t₀ → p.Waiting).mpr
    ⟨fun hne => absurd rfl hne, fun u _ => h.parts u⟩
  milestones := by
    obtain ⟨hunmaps, hbegun⟩ := h.milestones.resolve_right fun hp => Bool.noConfusion hp.1
    exact Or.inr ⟨rfl, hunmaps.symm, by rw [milestones_snoc, hbegun]; rfl⟩
  returned := by rw [who_snoc_of_ne (by decide)]; exact h.returned

/-- The store of 0. -/
theorem reset (h : TearingDown k t₀ release unmaps false es r) :
    Done k t₀ release unmaps (es ++ [(t₀, .reset)])
      { word := (0 : BitVec w),
        part := Function.update r.part t₀ (if release then .told else .out) } := by
  have hreturned : who .returnedTrue (es ++ [(t₀, .reset)]) = [] := by
    rw [who_snoc_of_ne (by decide)]
    exact h.returned
  have hparts : ∀ u, (Function.update r.part t₀ (if release then .told else .out) u).Waiting ∨
      u = t₀ ∧ Function.update r.part t₀ (if release then .told else .out) u = .told ∧
        who .returnedTrue (es ++ [(t₀, .reset)]) = [] := by
    refine (Function.forall_update_iff r.part fun u p => p.Waiting ∨ u = t₀ ∧ p = .told ∧
      who .returnedTrue (es ++ [(t₀, .reset)]) = []).mpr ⟨?_, fun u hu => Or.inl (h.parts u hu)⟩
    cases release with
    | true => exact Or.inr ⟨rfl, rfl, hreturned⟩
    | false => exact Or.inl (Or.inl rfl)
  refine ⟨rfl, h.due.snoc _, hparts, ?_, Or.inl hreturned⟩
  rw [milestones_snoc]
  rcases h.milestones with ⟨rfl, hms⟩ | ⟨-, rfl, hms⟩
  · rw [hms]
    rfl
  · rw [hms]
    rfl

/-- **Step.**  Nobody else's exchange succeeds during a teardown. -/
theorem step (h : TearingDown k t₀ release unmaps pending es r)
    (hstep : LocalStep r.word (r.part t) e v p) :
    Stage k (es ++ [(t, e)]) { word := v, part := Function.update r.part t p } := by
  have hunused : unused r.word = true := by rw [h.word]; exact unused_fUsed
  have hother : (r.part t).Waiting → t ≠ t₀ := by
    rintro hwait rfl
    rw [h.part] at hwait
    exact Part.not_waiting_tearing hwait
  have hself : ¬(r.part t).Waiting → t = t₀ ∧ r.part t = .tearing release pending := fun hwait => by
    by_cases ht : t = t₀
    · exact ⟨ht, ht ▸ h.part⟩
    · exact absurd (h.parts t ht) hwait
  generalize hq : r.part t = q at hstep hother hself
  generalize hx : r.word = x at hstep hunused
  cases hstep with
  | other =>
      rw [← hq, Function.update_eq_self, ← hx]
      exact .tearing t₀ release unmaps pending (h.other t)
  | freeCall =>
      exact hx ▸ .tearing t₀ release unmaps pending
        (h.minor (hother (Or.inl rfl)) ⟨rfl, by decide⟩ (Or.inr (Or.inr rfl)))
  | releaseCall =>
      exact hx ▸ .tearing t₀ release unmaps pending
        (h.minor (hother (Or.inl rfl)) ⟨rfl, by decide⟩ (Or.inr (Or.inl rfl)))
  | giveUp hp _ =>
      have hwait : q.Waiting := hp.elim (fun h => Or.inr (Or.inr h)) fun h => Or.inr (Or.inl h)
      exact hx ▸ .tearing t₀ release unmaps pending
        (h.minor (hother hwait) ⟨rfl, by decide⟩ (Or.inl rfl))
  | released hused _ =>
      rw [hunused] at hused
      cases hused
  | releasedLast hused _ =>
      rw [hunused] at hused
      cases hused
  | freed hused =>
      rw [hunused] at hused
      cases hused
  | unmapped =>
      obtain ⟨rfl, htear⟩ := hself Part.not_waiting_tearing
      cases htear
      exact hx ▸ .tearing t release unmaps false h.unmapped
  | reset =>
      obtain ⟨rfl, htear⟩ := hself Part.not_waiting_tearing
      cases htear
      exact .done t release unmaps h.reset
  | returnedTrue =>
      obtain ⟨-, htear⟩ := hself Part.not_waiting_told
      cases htear

end TearingDown

namespace Done
variable {t₀ : T} {release unmaps : Bool}

/-- A thread begins a call, or gives up. -/
theorem minor (h : Done k t₀ release unmaps es r) (he : e.Minor) (hp : p.Waiting) :
    Done k t₀ release unmaps (es ++ [(t, e)])
      { word := r.word, part := Function.update r.part t p } where
  word := h.word
  due := h.due.snoc _
  parts := by
    rw [who_snoc_of_ne he.2]
    exact (Function.forall_update_iff r.part fun u p => p.Waiting ∨ u = t₀ ∧ p = .told ∧
      who .returnedTrue es = []).mpr ⟨Or.inl hp, fun u _ => h.parts u⟩
  milestones := by
    rw [milestones_snoc_of_not he.1]
    exact h.milestones
  returned := by rw [who_snoc_of_ne he.2]; exact h.returned

omit [DecidableEq T] in
theorem other (h : Done k t₀ release unmaps es r) (t : T) :
    Done k t₀ release unmaps (es ++ [(t, .other)]) r where
  word := h.word
  due := h.due.snoc _
  parts := by
    rw [who_snoc_of_ne (by decide)]
    exact h.parts
  milestones := by
    rw [milestones_snoc_of_not rfl]
    exact h.milestones
  returned := by rw [who_snoc_of_ne (by decide)]; exact h.returned

/-- The thread that did the teardown tells, once. -/
theorem returnedTrue (h : Done k t₀ release unmaps es r) (ht : r.part t = .told) :
    Done k t₀ release unmaps (es ++ [(t, .returnedTrue)])
      { word := r.word, part := Function.update r.part t .out } := by
  have htold : ∀ u, r.part u = .told → u = t₀ ∧ who .returnedTrue es = [] := by
    intro u hu
    rcases h.parts u with hwait | ⟨hut, -, hnone⟩
    · rw [hu] at hwait
      exact absurd hwait Part.not_waiting_told
    · exact ⟨hut, hnone⟩
  obtain ⟨rfl, hnone⟩ := htold t ht
  refine ⟨h.word, h.due.snoc _, ?_, ?_, Or.inr (by rw [who_snoc_self, hnone]; rfl)⟩
  · refine (Function.forall_update_iff r.part fun u p => p.Waiting ∨ u = t ∧ p = .told ∧
      who .returnedTrue (es ++ [(t, .returnedTrue)]) = []).mpr
      ⟨Or.inl (Or.inl rfl), fun u hu => ?_⟩
    exact Or.inl ((h.parts u).resolve_right fun hc => hu hc.1)
  · rw [milestones_snoc_of_not rfl]
    exact h.milestones

/-- **Step.**  After the teardown nothing happens to the counter. -/
theorem step (h : Done k t₀ release unmaps es r) (hstep : LocalStep r.word (r.part t) e v p) :
    Done k t₀ release unmaps (es ++ [(t, e)])
      { word := v, part := Function.update r.part t p } := by
  have hunused : unused r.word = true := by rw [h.word]; exact unused_zero
  have hpart : ∀ rel pend, r.part t ≠ .tearing rel pend := by
    intro rel pend hc
    rcases h.parts t with hwait | ⟨-, htold, -⟩
    · rw [hc] at hwait
      exact Part.not_waiting_tearing hwait
    · rw [hc] at htold
      cases htold
  generalize hq : r.part t = q at hstep hpart
  generalize hx : r.word = x at hstep hunused
  cases hstep with
  | other =>
      rw [← hq, Function.update_eq_self, ← hx]
      exact h.other t
  | freeCall => exact hx ▸ h.minor ⟨rfl, by decide⟩ (Or.inr (Or.inr rfl))
  | releaseCall => exact hx ▸ h.minor ⟨rfl, by decide⟩ (Or.inr (Or.inl rfl))
  | giveUp _ _ => exact hx ▸ h.minor ⟨rfl, by decide⟩ (Or.inl rfl)
  | released hused _ =>
      rw [hunused] at hused
      cases hused
  | releasedLast hused _ =>
      rw [hunused] at hused
      cases hused
  | freed hused =>
      rw [hunused] at hused
      cases hused
  | unmapped => exact absurd rfl (hpart _ _)
  | reset => exact absurd rfl (hpart _ _)
  | returnedTrue => exact hx ▸ h.returnedTrue hq

end Done

/-! ## Who tells -/

/-- What thread `t` did last to the slot. -/
def lastDeed (t : T) (es : List (T × RaceEvent)) : Option RaceEvent :=
  ((es.filter fun x => x.1 = t ∧ x.2 ≠ .other).map Prod.snd).getLast?

theorem lastDeed_snoc_self (he : e ≠ .other) : lastDeed t (es ++ [(t, e)]) = some e := by
  simp [lastDeed, List.filter_append, he]

theorem lastDeed_snoc_of_ne {u : T} (hu : u ≠ t) : lastDeed t (es ++ [(u, e)]) = lastDeed t es := by
  simp [lastDeed, List.filter_append, hu]

theorem lastDeed_snoc_other {u : T} : lastDeed t (es ++ [(u, .other)]) = lastDeed t es := by
  simp [lastDeed, List.filter_append]

/-- Whoever tells, or is about to, has just stored the 0. -/
structure Tells (es : List (T × RaceEvent)) (r : Race T w) : Prop where
  now : ∀ t, r.part t = .told → lastDeed t es = some .reset
  before : ∀ l₁ t l₂, es = l₁ ++ (t, .returnedTrue) :: l₂ → lastDeed t l₁ = some .reset

/-- **Step.** -/
theorem Tells.step {l : T × RaceEvent} {r' : Race T w} (h : Tells es r) (hstep : RaceStep r l r') :
    Tells (es ++ [l]) r' := by
  cases hstep with
  | @mk t e v p hlocal =>
      refine ⟨?_, fun l₁ u l₂ heq => ?_⟩
      · -- only the store of 0 makes a thread one that tells
        have hp : p = .told → lastDeed t (es ++ [(t, e)]) = some .reset := by
          intro htold
          generalize hq : r.part t = q at hlocal
          cases hlocal with
          | other =>
              rw [lastDeed_snoc_other]
              exact h.now t (hq.trans htold)
          | reset => exact lastDeed_snoc_self nofun
          | _ => cases htold
        refine (Function.forall_update_iff r.part fun u p => p = .told →
          lastDeed u (es ++ [(t, e)]) = some .reset).mpr ⟨hp, fun u hu htold => ?_⟩
        rw [lastDeed_snoc_of_ne (Ne.symm hu)]
        exact h.now u htold
      · rcases List.eq_nil_or_concat l₂ with rfl | ⟨l₂, x, rfl⟩
        · obtain ⟨rfl, hlast⟩ := List.append_inj' heq rfl
          cases hlast
          generalize hq : r.part t = q at hlocal
          cases hlocal with
          | returnedTrue => exact h.now t hq
        · have hsnoc : es ++ [(t, e)] = (l₁ ++ (u, .returnedTrue) :: l₂) ++ [x] := by
            rw [heq, List.concat_eq_append, List.append_assoc, List.cons_append]
          exact h.before l₁ u l₂ (List.append_inj' hsnoc rfl).1

/-! ## Runs -/

/-- **Step.** -/
theorem Stage.step {l : T × RaceEvent} {r' : Race T w} (h : Stage k es r) (hw : 0 < w)
    (hk : k < 2 ^ (w - 1)) (hstep : RaceStep r l r') : Stage k (es ++ [l]) r' := by
  cases hstep with
  | mk hlocal =>
      cases h with
      | live h => exact h.step hw hk hlocal
      | tearing t release unmaps pending h => exact h.step hlocal
      | done t release unmaps h => exact .done t release unmaps (h.step hlocal)

/-- A slot with `k` references that nobody is busy with. -/
def Race.start (T : Type*) (w k : ℕ) : Race T w := ⟨flagged w k, fun _ => .out⟩

theorem Stage.start (hk : 0 < k) : Stage k [] (Race.start T w k) :=
  .live {
    word := rfl
    left := hk
    releases := fun _ => rfl
    frees := fun _ => rfl
    parts := fun _ => Or.inl rfl
    milestones := rfl
    returned := rfl }

/-- How a race of calls on a slot with `k` references ends: with the counter at 0 after one
teardown, or with the releases taken off the count and no teardown. -/
structure Outcome (k : ℕ) (es : List (T × RaceEvent)) (word : BitVec w) : Prop where
  torn : Due k es → word = 0 ∧ ∃ t release unmaps, milestones es = teardown t release unmaps
  kept : ¬Due k es → word = flagged w (k - (who .releaseCall es).length) ∧ milestones es = []
  once : (who .returnedTrue es).length ≤ 1
  own : ∀ l₁ t l₂, es = l₁ ++ (t, .returnedTrue) :: l₂ → lastDeed t l₁ = some .reset

/-- Where nobody is busy with the slot any more, the race is decided. -/
theorem Stage.outcome (h : Stage k es r) (htells : Tells es r) (hout : ∀ t, r.part t = .out) :
    Outcome k es r.word := by
  cases h with
  | live h =>
      have hfrees : who .freeCall es = [] := by
        refine List.eq_nil_iff_forall_not_mem.mpr fun t ht => ?_
        have hcount := h.frees t
        rw [hout t] at hcount
        exact absurd ht (List.count_eq_zero.mp hcount)
      have hreleases : (who .releaseCall es).length = (who .released es).length := by
        refine length_eq_of_count_eq fun t => ?_
        rw [h.releases t, hout t]
        rfl
      have hleft := h.left
      have hnot : ¬Due k es := by
        rintro (hf | hr)
        · rw [hfrees] at hf
          exact lt_irrefl 0 hf
        · omega
      refine ⟨fun hdue => absurd hdue hnot, fun _ => ⟨?_, h.milestones⟩, ?_, htells.before⟩
      · rw [hreleases]
        exact h.word
      · rw [h.returned]
        exact Nat.zero_le 1
  | tearing t release unmaps pending h =>
      have hpart := h.part
      rw [hout t] at hpart
      cases hpart
  | done t release unmaps h =>
      refine ⟨fun _ => ⟨h.word, t, release, unmaps, h.milestones⟩,
        fun hnot => absurd h.due hnot, ?_, htells.before⟩
      rcases h.returned with hr | hr
      · rw [hr]
        exact Nat.zero_le 1
      · rw [hr]
        exact le_refl 1

/-- **Runs.**  A race that is over is decided, whatever the order of the steps. -/
theorem race_outcome (hpos : 0 < k) (hk : k < 2 ^ (w - 1))
    (hrun : Run RaceStep (Race.start T w k) es r) (hout : ∀ t, r.part t = .out) :
    Outcome k es r.word := by
  have hw : 0 < w := Nat.pos_of_ne_zero fun h0 => by
    subst h0
    simp at hk
    omega
  have hstage : Stage k es r := hrun.inv (Stage.start hpos) fun h hstep => h.step hw hk hstep
  have htells : Tells es r := hrun.inv (I := fun es r => Tells es r)
    ⟨fun _ => nofun,
      fun l₁ _ _ heq => absurd heq.symm (List.append_ne_nil_of_right_ne_nil l₁ nofun)⟩
    fun h hstep => h.step hstep
  exact hstage.outcome htells hout

end stages

end MettEagle.CapAlloc
