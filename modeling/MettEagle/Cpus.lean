/-
# `MettEagle.Cpus` — the CPUs of the manager and who holds them

`available_cpus` is a bitmap of the CPUs that are not assigned to clients.
`select_client_cpu` takes the lowest one out, `free_client_cpu` puts a client's
bitmap back when its deletion handler runs.  `Cpus` adds to the bitmap what the
deletion handlers of the live clients have captured.

    Held mask cpus s    the clients of `s` hold the CPUs `cpus`, one each, and these
                        and the available ones make up `mask` without overlap
    Serial              whole calls, one after the other; `Held` survives them
-/
import MettEagle.InvokeSpec
import MettEagle.Lib.BitSet
import MettEagle.Lib.Run

namespace MettEagle

open Act

/-- `available_cpus`, and the bitmaps captured by the deletion handlers of the live clients. -/
structure Cpus where
  available : Word
  clients : List Word := []
deriving DecidableEq

/-- `1ULL << (ffsll (map) - 1)`. -/
def lowestCpu (map : Word) : Word := oneAt 64 (ffs map - 1)

/-- `select_client_cpu`. -/
def selectClientCpu : Act Cpus Obs Stop Word := do
  let s ← Act.get
  if s.available = 0 then throwLoggable (-l4ENoEnt) (lit "No cpu available") []
  else do
    let selected := lowestCpu s.available
    Act.modify fun s => { s with available := s.available &&& ~~~selected }
    pure selected

/-- `free_client_cpu`. -/
def freeClientCpu (freeBitmap : Word) : Act Cpus Obs Stop Unit :=
  Act.modify fun s => { s with available := s.available ||| freeBitmap }

def noCpu : Exn := .loggable (-l4ENoEnt) (lit "No cpu available")

theorem selectClientCpu_apply (s : Cpus) :
    selectClientCpu s =
      if s.available = 0 then ⟨.error (.thrown noCpu), s, []⟩
      else ⟨.ok (lowestCpu s.available),
        { s with available := s.available &&& ~~~lowestCpu s.available }, []⟩ := by
  simp only [selectClientCpu, get_bind_apply]
  split
  · exact throwLoggable_plain (by decide) _ s
  · rfl

theorem lowestCpu_spec {map : Word} (h : map ≠ 0) :
    ∃ i, lowestCpu map = oneAt 64 i ∧ i ∈ bits map ∧ ∀ j ∈ bits map, i ≤ j := by
  obtain ⟨i, hffs, hi, hmin⟩ := ffs_spec h
  exact ⟨i, by rw [lowestCpu, hffs, Nat.add_sub_cancel], hi, hmin⟩

/-! ## Who holds what -/

/-- The clients hold the CPUs `cpus`, one each; these and the available ones are all of `mask`,
and no CPU is among them twice. -/
structure Held (mask : Word) (cpus : List ℕ) (s : Cpus) : Prop where
  clients : s.clients = cpus.map (oneAt 64)
  small : ∀ i ∈ cpus, i < 64
  nodup : cpus.Nodup
  disjoint : Disjoint (bits s.available) cpus.toFinset
  cover : bits s.available ∪ cpus.toFinset = bits mask

namespace Held
variable {mask : Word} {cpus : List ℕ} {s : Cpus}

theorem initial (mask : Word) : Held mask [] { available := mask } where
  clients := rfl
  small := fun _ hi => absurd hi List.not_mem_nil
  nodup := List.nodup_nil
  disjoint := Finset.disjoint_empty_right _
  cover := Finset.union_empty _

/-- The missing CPUs are those the clients hold. -/
theorem missing (h : Held mask cpus s) : bits mask \ bits s.available = cpus.toFinset := by
  rw [← h.cover, Finset.union_sdiff_cancel_left h.disjoint]

theorem card_missing (h : Held mask cpus s) :
    (bits mask \ bits s.available).card = s.clients.length := by
  rw [h.missing, List.toFinset_card_of_nodup h.nodup, h.clients, List.length_map]

/-- Selecting moves the lowest available CPU to a new client. -/
theorem select (h : Held mask cpus s) (hne : s.available ≠ 0) :
    ∃ i, lowestCpu s.available = oneAt 64 i ∧ i ∈ bits s.available ∧
      (∀ j ∈ bits s.available, i ≤ j) ∧
      Held mask (i :: cpus) { available := s.available &&& ~~~lowestCpu s.available,
                              clients := lowestCpu s.available :: s.clients } := by
  obtain ⟨i, hlow, hi, hmin⟩ := lowestCpu_spec hne
  have hlt := lt_of_mem_bits hi
  have hnew : i ∉ cpus := fun hmem =>
    Finset.disjoint_left.mp h.disjoint hi (List.mem_toFinset.mpr hmem)
  refine ⟨i, hlow, hi, hmin, ?_⟩
  rw [hlow]
  constructor
  · rw [h.clients, List.map_cons]
  · intro j hj
    rcases List.mem_cons.mp hj with rfl | hj
    · exact hlt
    · exact h.small j hj
  · exact List.nodup_cons.mpr ⟨hnew, h.nodup⟩
  · rw [bits_and_not, bits_oneAt hlt, List.toFinset_cons]
    refine Finset.disjoint_left.mpr fun j hj hj' => ?_
    rw [Finset.mem_sdiff, Finset.mem_singleton] at hj
    rcases Finset.mem_insert.mp hj' with rfl | hj'
    · exact hj.2 rfl
    · exact Finset.disjoint_left.mp h.disjoint hj.1 hj'
  · rw [bits_and_not, bits_oneAt hlt, List.toFinset_cons, ← h.cover]
    ext j
    simp only [Finset.mem_union, Finset.mem_sdiff, Finset.mem_singleton, Finset.mem_insert]
    constructor
    · rintro (⟨hj, _⟩ | rfl | hj)
      · exact Or.inl hj
      · exact Or.inl hi
      · exact Or.inr hj
    · rintro (hj | hj)
      · by_cases hji : j = i
        · exact Or.inr (Or.inl hji)
        · exact Or.inl ⟨hj, hji⟩
      · exact Or.inr (Or.inr hj)

/-- Freeing moves the CPU of a client back. -/
theorem free (h : Held mask cpus s) {l₁ l₂ : List Word} {m : Word}
    (hs : s.clients = l₁ ++ m :: l₂) :
    ∃ c₁ i c₂, cpus = c₁ ++ i :: c₂ ∧ m = oneAt 64 i ∧
      Held mask (c₁ ++ c₂) { available := s.available ||| m, clients := l₁ ++ l₂ } := by
  have hmap := h.clients
  rw [hs] at hmap
  obtain ⟨c₁, c', hcpus, hl₁, hc'⟩ := List.map_eq_append_iff.mp hmap.symm
  obtain ⟨i, c₂, rfl, hm, hl₂⟩ := List.map_eq_cons_iff.mp hc'
  subst hcpus
  have hlt : i < 64 := h.small i (List.mem_append_right _ List.mem_cons_self)
  have hnodup := List.nodup_middle.mp h.nodup
  obtain ⟨hfresh, hrest⟩ := List.nodup_cons.mp hnodup
  have hset : (c₁ ++ i :: c₂).toFinset = insert i (c₁ ++ c₂).toFinset := by
    ext j
    simp only [List.mem_toFinset, List.mem_append, List.mem_cons, Finset.mem_insert]
    tauto
  refine ⟨c₁, i, c₂, rfl, hm.symm, ?_⟩
  have hdisj := h.disjoint
  have hcover := h.cover
  rw [hset] at hdisj hcover
  rw [← hm]
  constructor
  · rw [← hl₁, ← hl₂, List.map_append]
  · intro j hj
    refine h.small j ?_
    rcases List.mem_append.mp hj with hj | hj
    · exact List.mem_append_left _ hj
    · exact List.mem_append_right _ (List.mem_cons_of_mem _ hj)
  · exact hrest
  · rw [bits_or, bits_oneAt hlt, Finset.disjoint_union_left, Finset.disjoint_singleton_left]
    exact ⟨hdisj.mono_right (Finset.subset_insert _ _),
      fun hi => hfresh (List.mem_toFinset.mp hi)⟩
  · rw [bits_or, bits_oneAt hlt, ← hcover]
    ext j
    simp only [Finset.mem_union, Finset.mem_singleton, Finset.mem_insert]
    tauto

end Held

/-! ## Calls one after the other -/

/-- A call and what it returned: the CPU selected, if there was one, or nothing. -/
inductive CpuCall where
  | select (got : Option Word)
  | free (m : Word)
deriving DecidableEq

/-- One whole call.  A selected CPU goes to a new client; a client that frees is gone. -/
inductive Serial : Cpus → CpuCall → Cpus → Prop
  | select {s s' : Cpus} {m : Word} {o : List Obs} : selectClientCpu s = ⟨.ok m, s', o⟩ →
      Serial s (.select (some m)) { s' with clients := m :: s'.clients }
  | fail {s s' : Cpus} {e : Stop} {o : List Obs} : selectClientCpu s = ⟨.error e, s', o⟩ →
      Serial s (.select none) s'
  | free {s s' : Cpus} {l₁ l₂ : List Word} {m : Word} {o : List Obs} :
      s.clients = l₁ ++ m :: l₂ →
      freeClientCpu m { s with clients := l₁ ++ l₂ } = ⟨.ok (), s', o⟩ → Serial s (.free m) s'

/-- **Step.**  Every call keeps the CPUs apart and loses none. -/
theorem Held.serial {mask : Word} {cpus : List ℕ} {s s' : Cpus} {c : CpuCall}
    (h : Held mask cpus s) (hc : Serial s c s') : ∃ cpus', Held mask cpus' s' := by
  cases hc with
  | select hsel =>
      rw [selectClientCpu_apply] at hsel
      split at hsel
      · cases hsel
      · rename_i hne
        cases hsel
        obtain ⟨i, _, _, _, hheld⟩ := h.select hne
        exact ⟨_, hheld⟩
  | fail hsel =>
      rw [selectClientCpu_apply] at hsel
      split at hsel
      · cases hsel
        exact ⟨cpus, h⟩
      · cases hsel
  | free hclients hfree =>
      cases hfree
      obtain ⟨c₁, i, c₂, _, _, hheld⟩ := h.free hclients
      exact ⟨_, hheld⟩

/-- **Runs.**  So does every sequence of calls. -/
theorem Serial.held {mask : Word} {cs : List CpuCall} {s : Cpus}
    (hrun : Run Serial { available := mask } cs s) : ∃ cpus, Held mask cpus s :=
  hrun.inv (I := fun _ s => ∃ cpus, Held mask cpus s) ⟨[], .initial mask⟩
    fun ⟨_, h⟩ hc => h.serial hc

end MettEagle
