/-
# `MettEagle.Stack` — the pages of a stack and the page checked last

The stack of a program that is being loaded is written through a mapping in the
manager, from its top downwards.  The pages behind it have to be allocated
before they are touched: `check_access` is called with every access and asks the
dataspace for the pages of the access, unless the access BEGINS on the page
checked last.

    a page may be skipped because      everything on the page checked last that
                                       lies below the previous access is there

This is an invariant of downward accesses only, and it is about bytes below the
previous access: of a page that an access ended on, the rest above was never
asked for again.
-/
import MettEagle.AppModel
import MettEagle.Lib.Run
import Mathlib.Data.Set.Basic

namespace MettEagle

variable {w : ℕ}

/-! ## The code -/

/-- The pages of a dataspace that `n` bytes from `lo` on lie on. -/
def pagesOf (lo n : ℕ) : Set ℕ := { p | ∃ b, lo ≤ b ∧ b < lo + n ∧ b / l4PageSize = p }

/-- `Stack_base`: `_last_checked`, and the pages of `_stack_ds` that were allocated. -/
structure StackBase (w : ℕ) where
  lastChecked : BitVec w := 0
  allocated : Set ℕ := ∅

section
variable {ω : Type}

/-- `Stack::set_stack`: `_vma` and the local top; the size is an `unsigned`. -/
def setStack (rm : Rm w) (ds : Object) (size : BitVec 32) :
    Act (RegionMap w) ω Stop (BitVec w × BitVec w) := do
  let (err, vma) ← rmAttach rm (size.setWidth w) ds 0
  chksys err (lit "attaching stack vma")
  pure (vma, vma + size.setWidth w)

theorem setStack_of_attach {rm : Rm w} {ds : Object} {size : BitVec 32} {m m' : RegionMap w}
    {err : Int} {vma : BitVec w} (h : rm.attach m (size.setWidth w) ds 0 = (err, vma, m'))
    (herr : 0 ≤ err) : (setStack rm ds size m : Out (RegionMap w) ω Stop (BitVec w × BitVec w)) =
      ⟨.ok (vma, vma + size.setWidth w), m', []⟩ := by
  simp only [setStack]
  rw [rmAttach_bind h, chksys_of_nonneg herr]
  rfl

/-- `_stack_ds->allocate (offs, size)`, which answers `rc`; with no error the range is there. -/
def dsAllocate (rc : Int) (offs size : BitVec w) : Act (StackBase w) ω Stop Int := do
  Act.modify fun st =>
    if rc < 0 then st else { st with allocated := st.allocated ∪ pagesOf offs.toNat size.toNat }
  pure rc

/-- `Stack_base::check_access`; `rc` is what the dataspace answers if it is asked. -/
def checkAccess (vma : BitVec w) (rc : Int) (addr sz : BitVec w) :
    Act (StackBase w) ω Stop Unit := do
  let st ← Act.get
  if st.lastChecked ≠ l4TruncPage addr then do
    let offs := l4TruncPage (addr - vma)
    let stop := l4RoundPage (addr + sz - vma)
    let err ← dsAllocate rc offs (stop - offs)
    chksys err []
    Act.modify fun st => { st with lastChecked := l4TruncPage addr }
  else pure ()

end

/-- What one call can do: nothing, because the access begins on the page checked last; allocate
what was asked for; or throw, and leave everything as it was. -/
theorem checkAccess_cases {ω : Type} (vma : BitVec w) (rc : Int) (addr sz : BitVec w)
    (st : StackBase w) :
    let out : Out (StackBase w) ω Stop Unit := checkAccess vma rc addr sz st
    let offs := l4TruncPage (addr - vma)
    let stop := l4RoundPage (addr + sz - vma)
    (st.lastChecked = l4TruncPage addr ∧ out.st = st) ∨
    (out.st = ⟨l4TruncPage addr, st.allocated ∪ pagesOf offs.toNat (stop - offs).toNat⟩) ∨
    (out.st = st ∧ out.res = .error (.thrown (.runtimeError rc []))) := by
  intro out offs stop
  by_cases hskip : st.lastChecked = l4TruncPage addr
  · refine Or.inl ⟨hskip, ?_⟩
    simp only [out, checkAccess, Act.get_bind_apply]
    rw [if_neg (not_not_intro hskip)]
    rfl
  · have hbody : out = (dsAllocate rc offs (stop - offs) >>= fun err => chksys err [] >>=
        fun _ => Act.modify fun st => { st with lastChecked := l4TruncPage addr }) st := by
      simp only [out, checkAccess, Act.get_bind_apply]
      rw [if_pos hskip]
    have halloc : (dsAllocate rc offs (stop - offs) : Act (StackBase w) ω Stop Int) st =
        ⟨.ok rc, if rc < 0 then st else
          { st with allocated := st.allocated ∪ pagesOf offs.toNat (stop - offs).toNat }, []⟩ := rfl
    rw [Act.bind_of_ok halloc] at hbody
    by_cases hrc : rc < 0
    · refine Or.inr (Or.inr ?_)
      simp only [hbody, chksys, if_pos hrc]
      exact ⟨rfl, rfl⟩
    · refine Or.inr (Or.inl ?_)
      simp only [hbody, chksys, if_neg hrc]
      rfl

/-! ## Downward accesses -/

/-- An access, and what the dataspace answers if it is asked. -/
structure Access (w : ℕ) where
  addr : BitVec w
  sz : BitVec w
  rc : Int

/-- The pages of the stack's dataspace that an access overlaps. -/
def Access.pages (vma : BitVec w) (a : Access w) : Set ℕ :=
  pagesOf (a.addr.toNat - vma.toNat) a.sz.toNat

/-- One access of the sequence, inside the region and below the previous one, which began at
`prev`. -/
inductive StackStep (vma : BitVec w) :
    StackBase w × ℕ → Access w × Except Stop Unit → StackBase w × ℕ → Prop
  | access {st : StackBase w} {prev : ℕ} (a : Access w) :
      vma.toNat ≤ a.addr.toNat → a.addr.toNat + a.sz.toNat ≤ prev →
      StackStep vma (st, prev)
        (a, (checkAccess vma a.rc a.addr a.sz st : Out (StackBase w) Unit Stop Unit).res)
        ((checkAccess vma a.rc a.addr a.sz st : Out (StackBase w) Unit Stop Unit).st, a.addr.toNat)

/-! ## The arithmetic of one access -/

section
variable {vma addr sz : BitVec w} (hle : vma.toNat ≤ addr.toNat)
  (hfits : addr.toNat + sz.toNat ≤ 2 ^ w)
include hle

theorem toNat_sub_vma : (addr - vma).toNat = addr.toNat - vma.toNat :=
  BitVec.toNat_sub_of_le (BitVec.le_def.mpr hle)

/-- Two addresses of the region on one page are on one page of the dataspace. -/
theorem page_sub_vma (halign : PageAligned l4PageShift vma) {b : ℕ} (hb : vma.toNat ≤ b)
    (hpage : b / l4PageSize = addr.toNat / l4PageSize) :
    (b - vma.toNat) / l4PageSize = (addr.toNat - vma.toNat) / l4PageSize := by
  obtain ⟨q, hq⟩ := halign
  change vma.toNat = l4PageSize * q at hq
  rw [hq, Nat.sub_mul_div_of_le _ _ _ (hq ▸ hb), Nat.sub_mul_div_of_le _ _ _ (hq ▸ hle), hpage]

include hfits

/-- The end of the access within the region; the pointer itself may be the end of the address
space. -/
theorem toNat_end (hpos : l4PageSize ≤ vma.toNat) :
    (addr + sz - vma).toNat = addr.toNat - vma.toNat + sz.toNat := by
  have hswap : addr + sz - vma = addr - vma + sz := by
    rw [BitVec.sub_eq_add_neg, BitVec.sub_eq_add_neg, BitVec.add_assoc, BitVec.add_assoc,
      BitVec.add_comm sz]
  have hpage : 0 < l4PageSize := Nat.two_pow_pos _
  rw [hswap, BitVec.toNat_add_of_lt (by rw [toNat_sub_vma hle]; omega), toNat_sub_vma hle]

theorem end_bound (hpos : l4PageSize ≤ vma.toNat) :
    (addr + sz - vma).toNat + 2 ^ l4PageShift ≤ 2 ^ w := by
  have hpage : 2 ^ l4PageShift = l4PageSize := rfl
  rw [toNat_end hle hfits hpos]
  omega

/-- What is asked for begins at or before the access and ends at or after it. -/
theorem request_covers (hpos : l4PageSize ≤ vma.toNat) :
    let offs := l4TruncPage (addr - vma)
    let stop := l4RoundPage (addr + sz - vma)
    offs.toNat ≤ addr.toNat - vma.toNat ∧
      addr.toNat - vma.toNat + sz.toNat ≤ offs.toNat + (stop - offs).toNat := by
  intro offs stop
  have hoffs : offs.toNat ≤ addr.toNat - vma.toNat :=
    (truncPage_le _).trans (toNat_sub_vma hle).le
  have hstop : addr.toNat - vma.toNat + sz.toNat ≤ stop.toNat :=
    (toNat_end hle hfits hpos).ge.trans (le_roundPage (end_bound hle hfits hpos))
  have hsub : (stop - offs).toNat = stop.toNat - offs.toNat :=
    BitVec.toNat_sub_of_le (BitVec.le_def.mpr (by omega))
  exact ⟨hoffs, by omega⟩

end

/-! ## Soundness -/

/-- What the page checked last stands for: the previous access began on it or below, and the bytes
of the page that lie below that access are on allocated pages. -/
structure Cached (vma : BitVec w) (st : StackBase w) (prev : ℕ) : Prop where
  below : st.lastChecked ≠ 0 → prev < st.lastChecked.toNat + l4PageSize
  covered : ∀ b, vma.toNat ≤ b → b < prev → st.lastChecked.toNat ≤ b →
    st.lastChecked ≠ 0 → (b - vma.toNat) / l4PageSize ∈ st.allocated

/-- Every access that returned is covered, and the page checked last is sound. -/
structure StackInv (vma : BitVec w) (ls : List (Access w × Except Stop Unit))
    (s : StackBase w × ℕ) : Prop where
  accesses : ∀ a, (a, .ok ()) ∈ ls → a.pages vma ⊆ s.1.allocated
  prev_le : s.2 ≤ 2 ^ w
  cached : Cached vma s.1 s.2

section
variable {vma : BitVec w} {st : StackBase w} {prev : ℕ}

/-- Lower accesses need less. -/
theorem Cached.mono (h : Cached vma st prev) {prev' : ℕ} (hle : prev' ≤ prev) :
    Cached vma st prev' where
  below hne := hle.trans_lt (h.below hne)
  covered b hb hlt hpage hne := h.covered b hb (hlt.trans_le hle) hpage hne

/-- An access that is skipped is covered. -/
theorem Cached.pages_subset (h : Cached vma st prev) {a : Access w}
    (hvma : l4PageSize ≤ vma.toNat) (hlo : vma.toNat ≤ a.addr.toNat)
    (hhi : a.addr.toNat + a.sz.toNat ≤ prev) (hskip : st.lastChecked = l4TruncPage a.addr) :
    a.pages vma ⊆ st.allocated := by
  rintro p ⟨b, hb, hb', rfl⟩
  have hne : st.lastChecked ≠ 0 := by
    rw [hskip]
    exact truncPage_ne_zero (hvma.trans hlo)
  have hpage : st.lastChecked.toNat ≤ b + vma.toNat := by
    rw [hskip]
    exact (truncPage_le _).trans (by omega)
  have hmem := h.covered (b + vma.toNat) (Nat.le_add_left _ _) (by omega) hpage hne
  rwa [Nat.add_sub_cancel] at hmem

variable {addr sz : BitVec w} (halign : PageAligned l4PageShift vma)
  (hvma : l4PageSize ≤ vma.toNat) (hle : vma.toNat ≤ addr.toNat)
  (hfits : addr.toNat + sz.toNat ≤ 2 ^ w)
include halign hvma hle hfits

/-- An access that was checked leaves its page behind as the one checked last. -/
theorem Cached.of_allocated (alloc : Set ℕ) :
    Cached vma ⟨l4TruncPage addr, alloc ∪ pagesOf (l4TruncPage (addr - vma)).toNat
      (l4RoundPage (addr + sz - vma) - l4TruncPage (addr - vma)).toNat⟩ addr.toNat where
  below _ := lt_truncPage_add addr
  covered b hb hlt hpage _ := by
    obtain ⟨-, hend⟩ := request_covers hle hfits hvma
    have hsame : (l4TruncPage addr).toNat = addr.toNat / l4PageSize * l4PageSize :=
      toNat_truncPage addr
    have hdiv : b / l4PageSize = addr.toNat / l4PageSize :=
      le_antisymm (Nat.div_le_div_right hlt.le)
        ((Nat.le_div_iff_mul_le (Nat.two_pow_pos _)).mpr (hsame ▸ hpage))
    have hoffs : (l4TruncPage (addr - vma)).toNat ≤ b - vma.toNat := by
      refine (toNat_truncPage (addr - vma)).le.trans ?_
      rw [toNat_sub_vma hle]
      exact (congrArg (· * l4PageSize) (page_sub_vma hle halign hb hdiv)).ge.trans
        (Nat.div_mul_le_self _ _)
    exact Or.inr ⟨b - vma.toNat, hoffs, by omega, rfl⟩

end

section
variable {vma : BitVec w} {st : StackBase w} {prev : ℕ} {a : Access w}
  (halign : PageAligned l4PageShift vma) (hvma : l4PageSize ≤ vma.toNat)
  (h : Cached vma st prev) (hlo : vma.toNat ≤ a.addr.toNat)
  (hhi : a.addr.toNat + a.sz.toNat ≤ prev) (hprev : prev ≤ 2 ^ w)

/-- No page is lost. -/
theorem checkAccess_mono {ω : Type} (vma : BitVec w) (rc : Int) (addr sz : BitVec w)
    (st : StackBase w) :
    st.allocated ⊆ (checkAccess vma rc addr sz st : Out (StackBase w) ω Stop Unit).st.allocated := by
  rcases checkAccess_cases (ω := ω) vma rc addr sz st with ⟨-, hst⟩ | hst | ⟨hst, -⟩ <;> rw [hst]
  · exact Set.subset_union_left

include hvma h hlo hhi hprev

/-- An access that returns is covered. -/
theorem checkAccess_covers {ω : Type}
    (hok : (checkAccess vma a.rc a.addr a.sz st : Out (StackBase w) ω Stop Unit).res = .ok ()) :
    a.pages vma ⊆
      (checkAccess vma a.rc a.addr a.sz st : Out (StackBase w) ω Stop Unit).st.allocated := by
  rcases checkAccess_cases (ω := ω) vma a.rc a.addr a.sz st with
    ⟨hskip, hst⟩ | hst | ⟨-, hres⟩
  · rw [hst]
    exact h.pages_subset hvma hlo hhi hskip
  · rw [hst]
    obtain ⟨hbegin, hend⟩ := request_covers hlo (hhi.trans hprev) hvma
    rintro p ⟨b, hb, hb', rfl⟩
    exact Or.inr ⟨b, hbegin.trans hb, hb'.trans_le hend, rfl⟩
  · rw [hres] at hok
    cases hok

include halign

/-- The page checked last is sound after every access, whether it returned or not. -/
theorem checkAccess_cached {ω : Type} :
    Cached vma (checkAccess vma a.rc a.addr a.sz st : Out (StackBase w) ω Stop Unit).st
      a.addr.toNat := by
  have hdown : a.addr.toNat ≤ prev := (Nat.le_add_right _ _).trans hhi
  rcases checkAccess_cases (ω := ω) vma a.rc a.addr a.sz st with ⟨-, hst⟩ | hst | ⟨hst, -⟩ <;>
    rw [hst]
  · exact h.mono hdown
  · exact Cached.of_allocated halign hvma hlo (hhi.trans hprev) st.allocated
  · exact h.mono hdown

end

/-- **Step.** -/
theorem StackInv.step {vma : BitVec w} (halign : PageAligned l4PageShift vma)
    (hvma : l4PageSize ≤ vma.toNat) {ls : List (Access w × Except Stop Unit)}
    {s s' : StackBase w × ℕ} {l : Access w × Except Stop Unit} (h : StackInv vma ls s)
    (hstep : StackStep vma s l s') : StackInv vma (ls ++ [l]) s' := by
  obtain ⟨a, hlo, hhi⟩ := hstep
  refine ⟨fun a' ha' => ?_, ?_, checkAccess_cached halign hvma h.cached hlo hhi h.prev_le⟩
  · rcases List.mem_append.mp ha' with hold | hnew
    · exact (h.accesses a' hold).trans (checkAccess_mono ..)
    · obtain ⟨rfl, hok⟩ := Prod.mk.injEq .. ▸ List.mem_singleton.mp hnew
      exact checkAccess_covers hvma h.cached hlo hhi h.prev_le hok.symm
  · exact (Nat.le_add_right _ _).trans (hhi.trans h.prev_le)

/-- **Runs.** -/
theorem stackInv_run {vma : BitVec w} (halign : PageAligned l4PageShift vma)
    (hvma : l4PageSize ≤ vma.toNat) {top : ℕ} (htop : top ≤ 2 ^ w)
    {ls : List (Access w × Except Stop Unit)} {s : StackBase w × ℕ}
    (hrun : Run (StackStep vma) ({}, top) ls s) : StackInv vma ls s := by
  refine hrun.inv ⟨fun _ ha => absurd ha List.not_mem_nil, htop, ?_⟩ fun h => h.step halign hvma
  exact ⟨fun hne => absurd rfl hne, fun _ _ _ _ hne => absurd rfl hne⟩

theorem page_le_of_aligned {vma : BitVec w} (halign : PageAligned l4PageShift vma) (hne : vma ≠ 0) :
    l4PageSize ≤ vma.toNat := by
  have hpos : 0 < vma.toNat := Nat.pos_of_ne_zero fun h0 => hne (BitVec.eq_of_toNat_eq h0)
  exact Nat.le_of_dvd hpos halign

/-- The page cache is sound: in every sequence of downward accesses inside the region, whatever
their sizes and whichever calls of the dataspace fail, an access that returns is on allocated
pages. -/
theorem check_access_sound {vma : BitVec w} (halign : PageAligned l4PageShift vma) (hne : vma ≠ 0)
    {size : ℕ} (hfits : vma.toNat + size ≤ 2 ^ w) {ls : List (Access w × Except Stop Unit)}
    {s : StackBase w × ℕ} (hrun : Run (StackStep vma) ({}, vma.toNat + size) ls s) :
    ∀ a, (a, .ok ()) ∈ ls → a.pages vma ⊆ s.1.allocated :=
  (stackInv_run halign (page_le_of_aligned halign hne) hfits hrun).accesses

/-- A push over a page boundary, then one on the page checked last, which asks for nothing. -/
theorem check_access_sound_example :
    ∃ ls s, Run (StackStep (0x8000 : BitVec 64)) ({}, 0x8000 + 0x2000) ls s ∧
      (⟨0x8ff0, 8, -l4ENoMem⟩, .ok ()) ∈ ls ∧
      Access.pages (0x8000 : BitVec 64) ⟨0x8ff0, 8, -l4ENoMem⟩ ⊆ s.1.allocated := by
  have hrun : ∃ s, Run (StackStep (0x8000 : BitVec 64)) ({}, (0x8000 : BitVec 64).toNat + 0x2000)
      [(⟨0x8ff8, 0x18, 0⟩, .ok ()), (⟨0x8ff0, 8, -l4ENoMem⟩, .ok ())] s :=
    ⟨_, (Run.nil.snoc (.access ⟨0x8ff8, 0x18, 0⟩ (by decide) (by decide))).snoc
      (.access ⟨0x8ff0, 8, -l4ENoMem⟩ (by decide) (by decide))⟩
  obtain ⟨s, hrun⟩ := hrun
  have hmem := List.mem_append_right [(⟨0x8ff8, 0x18, 0⟩, .ok ())]
    (List.mem_singleton_self ((⟨0x8ff0, 8, -l4ENoMem⟩, .ok ()) : Access 64 × Except Stop Unit))
  exact ⟨_, s, hrun, hmem, check_access_sound (by decide) (by decide) (by decide) hrun _ hmem⟩

end MettEagle
