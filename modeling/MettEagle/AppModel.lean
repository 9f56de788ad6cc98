/-
# `MettEagle.AppModel` — temporary mappings of dataspaces

While it loads a program the manager looks into dataspaces: `local_attach_ds`
maps a part of one into the manager's own address space and `local_detach_ds`
takes the mapping away.  What is asked for need not begin or end at a page; what
the region manager maps does.

    request      attached                                    returned
    offset       offs   = offset rounded down
    size         size   = what reaches from there to the     start + (offset - offs)
                          end of what was asked, rounded up

The region manager is not part of the repository: it is a parameter, `Rm`, and
`Rm.Spec` is what is documented of it.  The place an `attach` with `Search_addr`
is given is its own choice.
-/
import MettEagle.Server

namespace MettEagle

variable {w : ℕ}

/-! ## The region map -/

/-- A region: `size` bytes of the address space from `start` on, which show the bytes of a
dataspace from `offs` on. -/
structure Region (w : ℕ) where
  start : BitVec w
  size : BitVec w
  ds : Object
  offs : BitVec w
  aligned : PageAligned l4PageShift start
  nonempty : 0 < size.toNat
  fits : start.toNat + size.toNat ≤ 2 ^ w

namespace Region

/-- The addresses of the region. -/
def Contains (r : Region w) (a : BitVec w) : Prop :=
  r.start.toNat ≤ a.toNat ∧ a.toNat < r.start.toNat + r.size.toNat

instance (r : Region w) (a : BitVec w) : Decidable (r.Contains a) :=
  inferInstanceAs (Decidable (_ ∧ _))

/-- Which byte of the dataspace the address shows. -/
def byteAt (r : Region w) (a : BitVec w) : ℕ := r.offs.toNat + (a.toNat - r.start.toNat)

/-- Regions without a common address. -/
def Apart (r r' : Region w) : Prop := ∀ a, r.Contains a → ¬r'.Contains a

theorem contains_start (r : Region w) : r.Contains r.start :=
  ⟨le_rfl, Nat.lt_add_of_pos_right r.nonempty⟩

end Region

/-- The regions of an address space. -/
structure RegionMap (w : ℕ) where
  regions : List (Region w)
  apart : regions.Pairwise Region.Apart

/-- A place for a region that is to be added; an attach of no bytes is refused. -/
structure Place (m : RegionMap w) (size : BitVec w) where
  start : BitVec w
  aligned : PageAligned l4PageShift start
  nonempty : 0 < size.toNat
  fits : start.toNat + size.toNat ≤ 2 ^ w
  free : ∀ r ∈ m.regions, ∀ a, r.Contains a →
    ¬(start.toNat ≤ a.toNat ∧ a.toNat < start.toNat + size.toNat)

/-- The region at a place. -/
def Place.region {m : RegionMap w} {size : BitVec w} (p : Place m size) (ds : Object)
    (offs : BitVec w) : Region w :=
  ⟨p.start, size, ds, offs, p.aligned, p.nonempty, p.fits⟩

namespace RegionMap

/-- The map with one more region. -/
def insert (m : RegionMap w) {size : BitVec w} (p : Place m size) (ds : Object) (offs : BitVec w) :
    RegionMap w where
  regions := p.region ds offs :: m.regions
  apart := List.pairwise_cons.mpr
    ⟨fun r hr a hp hra => p.free r hr a hra hp, m.apart⟩

/-- The map without the region at an address. -/
def remove (m : RegionMap w) (a : BitVec w) : RegionMap w where
  regions := m.regions.filter fun r => ¬r.Contains a
  apart := m.apart.filter _

end RegionMap

/-! ## The region manager -/

/-- The region manager: what it answers, and the regions it leaves behind. -/
structure Rm (w : ℕ) where
  /-- `attach (&vaddr, size, Search_addr, ds, offs)`: the error number, and `vaddr`. -/
  attach : RegionMap w → (size : BitVec w) → Object → (offs : BitVec w) →
    Int × BitVec w × RegionMap w
  /-- `detach (addr, 0)`: the error number. -/
  detach : RegionMap w → (addr : BitVec w) → Int × RegionMap w

/-- What is documented of the region manager. -/
structure Rm.Spec (rm : Rm w) : Prop where
  /-- An `attach` without an error has added a region, at a place that was free. -/
  attached : ∀ {m m' : RegionMap w} {size : BitVec w} {ds : Object} {offs : BitVec w} {err : Int}
    {vaddr : BitVec w}, rm.attach m size ds offs = (err, vaddr, m') → 0 ≤ err →
      ∃ p : Place m size, p.start = vaddr ∧ m' = m.insert p ds offs
  /-- The `detach` of an address of a region takes this region away. -/
  detached : ∀ {m : RegionMap w} {r : Region w} {addr : BitVec w}, r ∈ m.regions →
    r.Contains addr → ∃ err, rm.detach m addr = (err, m.remove addr) ∧ 0 ≤ err

/-! ## Attaching and detaching -/

section
variable {ω : Type} (rm : Rm w)

/-- `rm->attach (&vaddr, size, Search_addr | R, ds, offs)`: the error number and `vaddr`. -/
def rmAttach (size : BitVec w) (ds : Object) (offs : BitVec w) :
    Act (RegionMap w) ω Stop (Int × BitVec w) := fun m =>
  let (err, vaddr, m') := rm.attach m size ds offs
  ⟨.ok (err, vaddr), m', []⟩

/-- `rm->detach (addr, 0)`. -/
def rmDetach (addr : BitVec w) : Act (RegionMap w) ω Stop Int := fun m =>
  let (err, m') := rm.detach m addr
  ⟨.ok err, m', []⟩

/-- `App_model::local_attach_ds`. -/
def localAttachDs (ds : Object) (size offset : BitVec w) :
    Act (RegionMap w) ω Stop (BitVec w) := do
  let pgOffset := l4TruncPage offset
  let inPgOffset := offset - pgOffset
  let pgSize := l4RoundPage (size + inPgOffset)
  let (err, vaddr) ← rmAttach rm pgSize ds pgOffset
  chksys err (lit "attach temporary VMA")
  pure (vaddr + inPgOffset)

/-- `App_model::local_detach_ds`; the size is not used. -/
def localDetachDs (addr _size : BitVec w) : Act (RegionMap w) ω Stop Unit := do
  let pgAddr := l4TruncPage addr
  let err ← rmDetach rm pgAddr
  chksys err (lit "detach temporary VMA")

end

section
variable {ω α : Type} {rm : Rm w} {m m' : RegionMap w} {err : Int}

/-- Code goes on with what `attach` answers. -/
theorem rmAttach_bind {size : BitVec w} {ds : Object} {offs vaddr : BitVec w}
    (h : rm.attach m size ds offs = (err, vaddr, m'))
    (k : Int × BitVec w → Act (RegionMap w) ω Stop α) :
    (rmAttach rm size ds offs >>= k) m = k (err, vaddr) m' := by
  have hrm : (rmAttach rm size ds offs : Act (RegionMap w) ω Stop (Int × BitVec w)) m =
      ⟨.ok (err, vaddr), m', []⟩ := by
    simp only [rmAttach, h]
  exact Act.bind_of_ok hrm

theorem rmDetach_bind {addr : BitVec w} (h : rm.detach m addr = (err, m'))
    (k : Int → Act (RegionMap w) ω Stop α) : (rmDetach rm addr >>= k) m = k err m' := by
  have hrm : (rmDetach rm addr : Act (RegionMap w) ω Stop Int) m = ⟨.ok err, m', []⟩ := by
    simp only [rmDetach, h]
  exact Act.bind_of_ok hrm

end

/-! ## The arithmetic -/

section
variable {size offset : BitVec w} (hbound : offset.toNat + size.toNat + l4PageSize ≤ 2 ^ w)
include hbound

/-- `size + in_pg_offset` does not wrap. -/
theorem toNat_size_add : (size + (offset - l4TruncPage offset)).toNat =
    size.toNat + offset.toNat % l4PageSize := by
  have hin : (offset - l4TruncPage offset).toNat = offset.toNat % l4PageSize :=
    toNat_sub_truncPage offset
  have hle := Nat.mod_le offset.toNat l4PageSize
  have hpos : 0 < l4PageSize := Nat.two_pow_pos _
  rw [BitVec.toNat_add_of_lt (by omega), hin]

theorem size_add_bound : (size + (offset - l4TruncPage offset)).toNat + 2 ^ l4PageShift ≤ 2 ^ w := by
  have hle := Nat.mod_le offset.toNat l4PageSize
  have hpage : 2 ^ l4PageShift = l4PageSize := rfl
  rw [toNat_size_add hbound]
  omega

/-- What is asked for fits between the in-page offset and the end of the rounded size. -/
theorem size_le_round : size.toNat + offset.toNat % l4PageSize ≤
    (l4RoundPage (size + (offset - l4TruncPage offset))).toNat := by
  rw [← toNat_size_add hbound]
  exact le_roundPage (size_add_bound hbound)

end

/-! ## What a mapping shows -/

/-- `r` is the region that was attached for `size` bytes of `ds` from `offset` on, and `ret` the
address that was returned. -/
structure Attached (ds : Object) (size offset ret : BitVec w) (r : Region w) : Prop where
  ds : r.ds = ds
  wholePages : l4PageSize ∣ r.size.toNat
  pageOffset : PageAligned l4PageShift r.offs
  /-- `offset - pg_offset`, `size + in_pg_offset`, the rounding and `vaddr + in_pg_offset` are
  what they are without a bound on words. -/
  inPage : r.offs.toNat + (offset - r.offs).toNat = offset.toNat
  firstPage : (offset - r.offs).toNat < l4PageSize
  sum : (size + (offset - r.offs)).toNat = size.toNat + (offset - r.offs).toNat
  rounded : r.size.toNat =
    (size.toNat + (offset - r.offs).toNat + (l4PageSize - 1)) / l4PageSize * l4PageSize
  returned : ret.toNat = r.start.toNat + (offset - r.offs).toNat
  /-- byte by byte -/
  shows : ∀ k < size.toNat, (ret + BitVec.ofNat w k).toNat = ret.toNat + k ∧
    r.Contains (ret + BitVec.ofNat w k) ∧ r.byteAt (ret + BitVec.ofNat w k) = offset.toNat + k

/-- What `local_attach_ds` makes of the address the region manager has picked. -/
theorem localAttachDs_of_attach {ω : Type} {rm : Rm w} {ds : Object} {size offset vaddr : BitVec w}
    {m m' : RegionMap w} {err : Int}
    (h : rm.attach m (l4RoundPage (size + (offset - l4TruncPage offset))) ds (l4TruncPage offset) =
      (err, vaddr, m')) (herr : 0 ≤ err) :
    (localAttachDs rm ds size offset m : Out (RegionMap w) ω Stop (BitVec w)) =
      ⟨.ok (vaddr + (offset - l4TruncPage offset)), m', []⟩ := by
  simp only [localAttachDs]
  rw [rmAttach_bind h, chksys_of_nonneg herr]
  rfl

/-- The region at any place for what `local_attach_ds` asks for. -/
theorem attached_of_place {size offset : BitVec w}
    (hbound : offset.toNat + size.toNat + l4PageSize ≤ 2 ^ w) {m : RegionMap w} (ds : Object)
    (p : Place m (l4RoundPage (size + (offset - l4TruncPage offset)))) :
    Attached ds size offset (p.start + (offset - l4TruncPage offset))
      (p.region ds (l4TruncPage offset)) := by
  have hin : (offset - l4TruncPage offset).toNat = offset.toNat % l4PageSize :=
    toNat_sub_truncPage offset
  have htrunc : (l4TruncPage offset).toNat = offset.toNat / l4PageSize * l4PageSize :=
    toNat_truncPage offset
  have hsplit : (l4TruncPage offset).toNat + offset.toNat % l4PageSize = offset.toNat := by
    rw [htrunc, Nat.mul_comm]
    exact Nat.div_add_mod _ _
  have hround := size_le_round hbound
  have hfits := p.fits
  have hpos := p.nonempty
  have hsum := toNat_size_add hbound
  have hwhole : (l4RoundPage (size + (offset - l4TruncPage offset))).toNat =
      (size.toNat + offset.toNat % l4PageSize + (l4PageSize - 1)) / l4PageSize * l4PageSize := by
    rw [← hsum]
    exact toNat_roundPage (size_add_bound hbound)
  -- a region that is not empty has at least a page, so the returned address lies in it
  have hpage : offset.toNat % l4PageSize < l4PageSize := Nat.mod_lt _ (Nat.two_pow_pos _)
  have hsize : l4PageSize ≤ (l4RoundPage (size + (offset - l4TruncPage offset))).toNat :=
    Nat.le_of_dvd hpos (roundPage_aligned _)
  have hret : (p.start + (offset - l4TruncPage offset)).toNat =
      p.start.toNat + offset.toNat % l4PageSize := by
    rw [BitVec.toNat_add_of_lt (by omega), hin]
  refine ⟨rfl, roundPage_aligned _, truncPage_aligned _, ?_, ?_, ?_, ?_, ?_, fun k hk => ?_⟩
  · exact (congrArg _ hin).trans hsplit
  · exact hin.trans_lt hpage
  · exact hsum.trans (congrArg _ hin.symm)
  · exact hwhole.trans (by rw [← hin]; rfl)
  · exact hret.trans (congrArg _ hin.symm)
  · have hk' : (BitVec.ofNat w k).toNat = k := by
      rw [BitVec.toNat_ofNat, Nat.mod_eq_of_lt (hk.trans size.isLt)]
    have hadd : (p.start + (offset - l4TruncPage offset) + BitVec.ofNat w k).toNat =
        p.start.toNat + offset.toNat % l4PageSize + k := by
      rw [BitVec.toNat_add_of_lt (by omega), hret, hk']
    refine ⟨by rw [hadd, hret], ⟨?_, ?_⟩, ?_⟩
    · rw [hadd]
      exact (Nat.le_add_right _ _).trans (Nat.le_add_right _ _)
    · rw [hadd]
      show _ < p.start.toNat + (l4RoundPage (size + (offset - l4TruncPage offset))).toNat
      omega
    · show (l4TruncPage offset).toNat + (_ - p.start.toNat) = _
      rw [hadd]
      omega

/-- The address that was returned leads back to the region. -/
theorem Attached.truncPage {ds : Object} {size offset ret : BitVec w} {r : Region w}
    (h : Attached ds size offset ret r) : l4TruncPage ret = r.start :=
  truncPage_of_aligned r.aligned h.firstPage h.returned

/-! ## What a detach takes away -/

instance : Std.Symm (α := Region w) Region.Apart := ⟨fun _ _ h a h₂ h₁ => h a h₁ h₂⟩

/-- Regions that share an address are one region. -/
theorem RegionMap.eq_of_contains {m : RegionMap w} {r r' : Region w} (hr : r ∈ m.regions)
    (hr' : r' ∈ m.regions) {a : BitVec w} (ha : r.Contains a) (ha' : r'.Contains a) : r = r' := by
  by_contra hne
  exact m.apart.forall hr hr' hne a ha ha'

theorem RegionMap.mem_remove {m : RegionMap w} {r r' : Region w} (hr : r ∈ m.regions) :
    r' ∈ (m.remove r.start).regions ↔ r' ∈ m.regions ∧ r' ≠ r := by
  simp only [remove, List.mem_filter, decide_eq_true_eq]
  refine and_congr_right fun hr' => ⟨?_, ?_⟩
  · rintro hc rfl
    exact hc r'.contains_start
  · exact fun hne hc => hne (m.eq_of_contains hr' hr hc r.contains_start)

/-- Taking out what was put in. -/
theorem RegionMap.remove_insert {m : RegionMap w} {size : BitVec w} (p : Place m size) (ds : Object)
    (offs : BitVec w) : (m.insert p ds offs).remove p.start = m := by
  have hstart : (p.region ds offs).Contains p.start := (p.region ds offs).contains_start
  have hrest : m.regions.filter (fun r => ¬r.Contains p.start) = m.regions := by
    refine List.filter_eq_self.mpr fun r hr => ?_
    exact decide_eq_true fun hc => p.free r hr _ hc hstart
  cases m with
  | mk regions apart =>
      simp only [insert, remove, RegionMap.mk.injEq]
      rw [List.filter_cons_of_neg (by simpa using hstart)]
      exact hrest

theorem localDetachDs_of_mem {ω : Type} {rm : Rm w} (hspec : rm.Spec) {m : RegionMap w}
    {r : Region w} {addr : BitVec w} (sz : BitVec w) (hr : r ∈ m.regions)
    (haddr : l4TruncPage addr = r.start) :
    (localDetachDs rm addr sz m : Out (RegionMap w) ω Stop Unit) =
      ⟨.ok (), m.remove r.start, []⟩ := by
  obtain ⟨err, hdet, herr⟩ := hspec.detached hr r.contains_start
  simp only [localDetachDs, haddr]
  rw [rmDetach_bind hdet, chksys_of_nonneg herr]
  rfl

/-! ## The round trip -/

/-- A temporary mapping covers what was asked for, no sum on the way wraps, and the address it
is returned with detaches it and nothing else, at once or after other regions have come and
gone; `vaddr` is the address the region manager has picked. -/
theorem local_attach_detach {ω : Type} {rm : Rm w} (hspec : rm.Spec) {ds : Object}
    {size offset : BitVec w} (hbound : offset.toNat + size.toNat + l4PageSize ≤ 2 ^ w)
    {m m' : RegionMap w} {err : Int} {vaddr : BitVec w}
    (hattach : rm.attach m (l4RoundPage (size + (offset - l4TruncPage offset))) ds
      (l4TruncPage offset) = (err, vaddr, m')) (herr : 0 ≤ err) :
    let ret := vaddr + (offset - l4TruncPage offset)
    (localAttachDs rm ds size offset m : Out (RegionMap w) ω Stop (BitVec w)) =
      ⟨.ok ret, m', []⟩ ∧
    ∃ r, m'.regions = r :: m.regions ∧ r.start = vaddr ∧ Attached ds size offset ret r ∧
      (∀ sz, (localDetachDs rm ret sz m' : Out (RegionMap w) ω Stop Unit) = ⟨.ok (), m, []⟩) ∧
      ∀ (m₁ : RegionMap w) (sz : BitVec w), r ∈ m₁.regions →
        ∃ m₂, (localDetachDs rm ret sz m₁ : Out (RegionMap w) ω Stop Unit) = ⟨.ok (), m₂, []⟩ ∧
          ∀ r', r' ∈ m₂.regions ↔ r' ∈ m₁.regions ∧ r' ≠ r := by
  intro ret
  obtain ⟨p, rfl, rfl⟩ := hspec.attached hattach herr
  have hatt := attached_of_place hbound ds p
  refine ⟨localAttachDs_of_attach hattach herr, p.region ds (l4TruncPage offset), rfl, rfl, hatt,
    fun sz => ?_, fun m₁ sz hr => ?_⟩
  · rw [localDetachDs_of_mem hspec sz (List.mem_cons_self ..) hatt.truncPage]
    exact congrArg (fun m => (⟨.ok (), m, []⟩ : Out _ _ _ _)) (m.remove_insert p ds _)
  · exact ⟨_, localDetachDs_of_mem hspec sz hr hatt.truncPage, fun r' => m₁.mem_remove hr⟩

/-- A region manager that puts the first region at a given page, and has room for one. -/
def oneRegion (start : BitVec w) (haligned : PageAligned l4PageShift start) : Rm w where
  attach m size ds offs :=
    if h : m.regions = [] ∧ 0 < size.toNat ∧ start.toNat + size.toNat ≤ 2 ^ w then
      (0, start, m.insert
        ⟨start, haligned, h.2.1, h.2.2, fun r hr => absurd (h.1 ▸ hr) List.not_mem_nil⟩ ds offs)
    else (-l4ENoMem, 0, m)
  detach m addr :=
    if ∃ r ∈ m.regions, r.Contains addr then (0, m.remove addr) else (-l4ENoEnt, m)

theorem oneRegion_spec (start : BitVec w) (haligned : PageAligned l4PageShift start) :
    (oneRegion start haligned).Spec where
  attached := by
    intro m m' size ds offs err vaddr h herr
    simp only [oneRegion] at h
    by_cases hroom : m.regions = [] ∧ 0 < size.toNat ∧ start.toNat + size.toNat ≤ 2 ^ w
    · rw [dif_pos hroom] at h
      cases h
      exact ⟨_, rfl, rfl⟩
    · rw [dif_neg hroom] at h
      cases h
      exact absurd herr (by decide)
  detached := fun hr haddr => ⟨0, if_pos ⟨_, hr, haddr⟩, Int.le_refl 0⟩

theorem local_attach_detach_example :
    ∃ (rm : Rm 64) (r : Region 64), rm.Spec ∧ Attached 7 300 9000 4904 r ∧
      (localAttachDs rm 7 300 9000 ⟨[], .nil⟩ : Out (RegionMap 64) Unit Stop (BitVec 64)) =
        ⟨.ok 4904, ⟨[r], List.pairwise_singleton _ _⟩, []⟩ ∧
      (localDetachDs rm 4904 300 ⟨[r], List.pairwise_singleton _ _⟩ :
        Out (RegionMap 64) Unit Stop Unit) = ⟨.ok (), ⟨[], .nil⟩, []⟩ := by
  have hspec := oneRegion_spec (4096 : BitVec 64) (by decide)
  have h : ∃ m', (oneRegion (4096 : BitVec 64) (by decide)).attach ⟨[], .nil⟩ 4096 7 8192 =
      (0, 4096, m') := ⟨_, rfl⟩
  obtain ⟨⟨regions, apart⟩, h⟩ := h
  obtain ⟨hrun, r, hr, -, hatt, hdet, -⟩ :=
    @local_attach_detach 64 Unit _ hspec 7 300 9000 (by decide) _ _ _ _ h (Int.le_refl 0)
  cases hr
  exact ⟨_, r, hspec, hatt, hrun, hdet 300⟩

end MettEagle
