/-
# `MettEagle.StackPages` — which pages of its stack a new process gets

`MettEagle.Stack` is about the page cache of `check_access`, for any sequence of
downward accesses; `MettEagle.ArgStrings` and `MettEagle.Startup` are about what is
pushed, for any check.  Here they meet.  What a set-up pushes is one piece below the
other, from the top that `set_stack` has set:

    init_prog            the arguments, then the environment, a string at a time
    push_initial_caps    an entry for each capability

and the check before each piece is the one of this stack (`CheckedBy`).  However the
set-up ends, the pages that were allocated are those it has pushed something onto, and
no others: `set_up_pages`.

    there are such checks if    every piece would, with a page, fit below the stack,
                                and the dataspace refuses what lies outside of it

Without the first, a piece can reach down to the first page of memory, which
`_last_checked = 0` stands for before anything was checked.
-/
import MettEagle.Stack
import MettEagle.Startup

namespace MettEagle

/-! ## The pieces of a set-up -/

/-- The pieces of a list of strings; the first one is pushed with its `strlen`. -/
def stringSizes : List Bytes → List ℕ
  | [] => []
  | first :: rest => (strlen first + 1) :: rest.map fun s => s.length + 1

def setUpSizes (L : Loader) (p : NewProcess) : List ℕ :=
  stringSizes (p.stack.strings .argv) ++ (stringSizes (p.stack.strings .envp) ++
    p.initialCapabilities.map fun _ => L.entrySize)

/-- Pieces of these sizes are pushed from `sp` down to `sp'`: all of them, or those before the one
the check refuses. -/
inductive Pushes (r : Remote) : ℕ → List ℕ → ℕ → Bool → Prop
  | all {sp : ℕ} : Pushes r sp [] sp true
  | refused {sp n : ℕ} {sizes : List ℕ} : r.check (sp - n) n < 0 →
      Pushes r sp (n :: sizes) sp false
  | next {sp n sp' : ℕ} {sizes : List ℕ} {whole : Bool} : 0 ≤ r.check (sp - n) n →
      Pushes r (sp - n) sizes sp' whole → Pushes r sp (n :: sizes) sp' whole

section
variable {r : Remote} {sp sp₁ sp' : ℕ} {xs ys : List ℕ} {whole : Bool}

/-- A piece that is let through lies above the beginning of the mapping. -/
theorem Remote.le_of_check {n : ℕ} (h : 0 ≤ r.check (sp - n) n) : r.base ≤ sp - n ∧ n < sp := by
  have hin := r.inside h
  have hpos := r.base_pos
  exact ⟨hin, by omega⟩

namespace Pushes

theorem le (h : Pushes r sp xs sp' whole) : sp' ≤ sp := by
  induction h with
  | all => exact le_rfl
  | refused => exact le_rfl
  | next _ _ ih => exact ih.trans (Nat.sub_le _ _)

theorem base_le (h : Pushes r sp xs sp' whole) (hbase : r.base ≤ sp) : r.base ≤ sp' := by
  induction h with
  | all => exact hbase
  | refused => exact hbase
  | next hcheck _ ih => exact ih (Remote.le_of_check hcheck).1

theorem sum (h : Pushes r sp xs sp' true) : sp' + xs.sum = sp := by
  generalize hw : true = whole at h
  induction h with
  | all => rfl
  | refused => cases hw
  | next hcheck _ ih =>
      have hin := (Remote.le_of_check hcheck).2
      have hrest := ih hw
      rw [List.sum_cons]
      omega

theorem append (h : Pushes r sp xs sp₁ true) (h' : Pushes r sp₁ ys sp' whole) :
    Pushes r sp (xs ++ ys) sp' whole := by
  generalize hw : true = w at h
  induction h with
  | all => exact h'
  | refused => cases hw
  | next hcheck _ ih => exact .next hcheck (ih h' hw)

theorem append_of_refused (ys : List ℕ) (h : Pushes r sp xs sp₁ false) :
    Pushes r sp (xs ++ ys) sp₁ false := by
  generalize hw : false = w at h
  induction h with
  | all => cases hw
  | refused hcheck => exact .refused hcheck
  | next hcheck _ ih => exact .next hcheck (ih hw)

end Pushes

end

/-! ## The code pushes these pieces -/

/-- What code does to the stack that pushes pieces of these sizes, and throws where one is
refused. -/
structure Took {σ ω α : Type} (r : Remote) (view : σ → WorkerStack) (sizes : List ℕ) (s : σ)
    (out : Out σ ω Stop α) : Prop where
  pushes : Pushes r (view s).sp sizes (view out.st).sp out.res.isOk
  frame : ∀ i, (view out.st).mem i ≠ (view s).mem i → (view out.st).sp ≤ i ∧ i < (view s).sp
  strings : (view out.st).strings = (view s).strings

section
variable {σ ω α β : Type} {r : Remote} {view : σ → WorkerStack} {xs ys : List ℕ} {s : σ}

theorem Took.nothing (r : Remote) (view : σ → WorkerStack) {s s' : σ} {a : α} {o : List ω}
    (hsp : (view s').sp = (view s).sp) (hmem : (view s').mem = (view s).mem)
    (hstrings : (view s').strings = (view s).strings) :
    Took r view [] s (⟨.ok a, s', o⟩ : Out σ ω Stop α) where
  pushes := by rw [hsp]; exact .all
  frame i h := absurd (congrFun hmem i) h
  strings := hstrings

/-- Sequencing. -/
theorem Took.bind {m : Act σ ω Stop α} {k : α → Act σ ω Stop β} (h : Took r view xs s (m s))
    (hk : ∀ a s' o, m s = ⟨.ok a, s', o⟩ → Took r view ys s' (k a s')) :
    Took r view (xs ++ ys) s ((m >>= k) s) := by
  match hm : m s with
  | ⟨.error e, s', o⟩ =>
      rw [hm] at h
      rw [Act.bind_of_error hm]
      exact ⟨h.pushes.append_of_refused ys, h.frame, h.strings⟩
  | ⟨.ok a, s', o⟩ =>
      have h' := hk a s' o hm
      rw [hm] at h
      rw [Act.bind_of_ok hm]
      refine ⟨h.pushes.append h'.pushes, fun i hi => ?_, h'.strings.trans h.strings⟩
      have hle := h.pushes.le
      have hle' := h'.pushes.le
      by_cases hsame : (view s').mem i = (view s).mem i
      · obtain ⟨hlo, hhi⟩ := h'.frame i fun h => hi (h.trans hsame)
        exact ⟨hlo, hhi.trans_le hle⟩
      · obtain ⟨hlo, hhi⟩ := h.frame i hsame
        exact ⟨hle'.trans hlo, hhi⟩

end

section
variable {ω : Type} (r : Remote)

theorem pushStr_took (s : Bytes) (len : ℕ) (w : WorkerStack) :
    Took r id [len + 1] w (pushStr r s len w : Out WorkerStack ω Stop ℕ) := by
  simp only [pushStr, Act.get_bind_apply, chksys]
  by_cases hc : r.check (w.sp - (len + 1)) (len + 1) < 0
  · rw [if_pos hc]
    exact ⟨.refused hc, fun i h => absurd rfl h, rfl⟩
  · rw [if_neg hc]
    have hcheck := Int.not_lt.mp hc
    have hin := (Remote.le_of_check hcheck).2
    refine ⟨.next hcheck .all, fun i hi => ?_, rfl⟩
    obtain ⟨hlo, hhi⟩ := ByteMem.mem_of_store_ne hi
    refine ⟨hlo, ?_⟩
    rw [List.length_append, List.length_singleton, List.length_take] at hhi
    show i < w.sp
    omega

theorem pushRest_took (which : StringList) (rest : List Bytes) : ∀ w : WorkerStack,
    Took r id (rest.map fun s => s.length + 1) w
      (pushRest r which rest w : Out WorkerStack ω Stop Unit) := by
  induction rest with
  | nil => exact fun _ => .nothing r id rfl rfl rfl
  | cons s rest ih =>
      intro w
      refine (pushStr_took r s s.length w).bind fun p w' o _ => ?_
      rw [Act.modify_bind_apply]
      have hrest := ih (w'.setRange which { w'.range which with al := p })
      exact ⟨hrest.pushes, hrest.frame, hrest.strings⟩

theorem pushStrings_took (which : StringList) (w : WorkerStack) :
    Took r id (stringSizes (w.strings which)) w
      (pushStrings r which w : Out WorkerStack ω Stop Unit) := by
  simp only [pushStrings, Act.get_bind_apply]
  cases w.strings which with
  | nil => exact .nothing r id rfl rfl rfl
  | cons first rest =>
      refine (pushStr_took r first (strlen first) w).bind fun p w' o _ => ?_
      rw [Act.modify_bind_apply, Act.modify_bind_apply]
      have hrest := pushRest_took (ω := ω) r which rest
        ((w'.setRange which { w'.range which with al := p }).setRange which ⟨p, p⟩)
      rw [WorkerStack.setRange_setRange] at hrest
      simp only [WorkerStack.setRange_setRange, WorkerStack.setRange_same]
      exact ⟨hrest.pushes, hrest.frame, hrest.strings⟩

theorem initProg_took (w : WorkerStack) :
    Took r id (stringSizes (w.strings .argv) ++ stringSizes (w.strings .envp)) w
      (initProg r w : Out WorkerStack ω Stop Unit) := by
  have hargv := pushStrings_took (ω := ω) r .argv w
  refine hargv.bind fun _ w' o h => ?_
  rw [h] at hargv
  have hstrings : w'.strings .envp = w.strings .envp := congrFun hargv.strings .envp
  rw [← hstrings]
  exact pushStrings_took r .envp w'

end

section
variable {L : Loader} {r : Remote} {mapErr : InitialCap → Slot → Int}

theorem onStack_took {α : Type} {m : Act WorkerStack Obs Stop α} {xs : List ℕ} {p : NewProcess}
    (h : Took r id xs p.stack (m p.stack)) : Took r NewProcess.stack xs p (onStack m p) :=
  ⟨h.pushes, h.frame, h.strings⟩

theorem pushEntry_took (e : CapEntry) (p : NewProcess) :
    Took r NewProcess.stack [L.entrySize] p (pushEntry L r e p) := by
  simp only [pushEntry, Act.get_bind_apply, chksys]
  by_cases hc : r.check (p.stack.sp - L.entrySize) L.entrySize < 0
  · rw [if_pos hc]
    exact ⟨.refused hc, fun i h => absurd rfl h, rfl⟩
  · rw [if_neg hc]
    exact ⟨.next (Int.not_lt.mp hc) .all, fun i h => absurd rfl h, rfl⟩

theorem pushInitialCaps_took (cs : List InitialCap) : ∀ (start : Slot) (p : NewProcess),
    Took r NewProcess.stack (cs.map fun _ => L.entrySize) p (pushInitialCaps L r cs start p) := by
  induction cs with
  | nil => exact fun _ _ => .nothing r _ rfl rfl rfl
  | cons c cs ih => exact fun _ p => (pushEntry_took _ p).bind fun _ p' _ _ => ih _ p'

/-- Mapping the capabilities does not touch the stack, whether it returns or throws. -/
theorem mapInitialCaps_stack (cs : List InitialCap) : ∀ (start : Slot) (p : NewProcess),
    (mapInitialCaps L mapErr cs start p).st.stack = p.stack := by
  induction cs with
  | nil => exact fun _ _ => rfl
  | cons c cs ih =>
      intro start p
      rw [mapInitialCaps]
      by_cases herr : mapErr c (L.getInitialCap c.name start).1 < 0
      · rw [chksys, if_pos herr]
        rfl
      · rw [chksys, if_neg herr, Act.pure_bind_apply, Act.modify_bind_apply, ih]
        rfl

/-- The part of a set-up that pushes. -/
def pushSetUp (L : Loader) (r : Remote) : Act NewProcess Obs Stop (List InitialCap) := do
  onStack (initProg r)
  let p ← Act.get
  let _ ← pushInitialCaps L r p.initialCapabilities L.first
  pure p.initialCapabilities

theorem startProcess_eq : startProcess L r mapErr =
    pushSetUp L r >>= fun cs => mapInitialCaps L mapErr cs L.first := by
  simp only [startProcess, pushSetUp, Act.bind_assoc]
  rfl

theorem pushSetUp_took (p : NewProcess) :
    Took r NewProcess.stack (setUpSizes L p) p (pushSetUp L r p) := by
  rw [setUpSizes, ← List.append_assoc]
  refine (onStack_took (initProg_took r p.stack)).bind fun _ p' o h => ?_
  have hcaps : p'.initialCapabilities = p.initialCapabilities :=
    congrArg (fun out => out.st.initialCapabilities) h.symm
  rw [Act.get_bind_apply, ← hcaps, ← List.append_nil (List.map _ _)]
  exact (pushInitialCaps_took _ _ p').bind fun _ p'' _ _ => .nothing r _ rfl rfl rfl

/-- A set-up, however it ends. -/
theorem startProcess_pushes (p : NewProcess) : ∃ whole,
    Pushes r p.stack.sp (setUpSizes L p) (startProcess L r mapErr p).st.stack.sp whole ∧
    ((startProcess L r mapErr p).res.isOk = true → whole = true) ∧
    ∀ i, (startProcess L r mapErr p).st.stack.mem i ≠ p.stack.mem i →
      (startProcess L r mapErr p).st.stack.sp ≤ i ∧ i < p.stack.sp := by
  have htook := @pushSetUp_took L r p
  rw [startProcess_eq]
  match hm : pushSetUp L r p with
  | ⟨.error e, p', o⟩ =>
      rw [hm] at htook
      rw [Act.bind_of_error hm]
      exact ⟨false, htook.pushes, fun h => h, htook.frame⟩
  | ⟨.ok cs, p', o⟩ =>
      rw [hm] at htook
      rw [Act.bind_of_ok hm, Out.after_st, mapInitialCaps_stack]
      exact ⟨true, htook.pushes, fun _ => rfl, htook.frame⟩

end

theorem stringSizes_pos (l : List Bytes) : ∀ n ∈ stringSizes l, 0 < n := by
  intro n hn
  cases l with
  | nil => cases hn
  | cons first rest =>
      rcases List.mem_cons.mp hn with rfl | hn
      · exact Nat.succ_pos _
      · obtain ⟨s, -, rfl⟩ := List.mem_map.mp hn
        exact Nat.succ_pos _

theorem setUpSizes_pos {L : Loader} (hentry : 0 < L.entrySize) (p : NewProcess) :
    ∀ n ∈ setUpSizes L p, 0 < n := by
  intro n hn
  rcases List.mem_append.mp hn with hn | hn
  · exact stringSizes_pos _ n hn
  rcases List.mem_append.mp hn with hn | hn
  · exact stringSizes_pos _ n hn
  · obtain ⟨c, -, rfl⟩ := List.mem_map.mp hn
    exact hentry

/-! ## Ranges of pages -/

theorem pagesOf_zero (lo : ℕ) : pagesOf lo 0 = ∅ :=
  Set.eq_empty_of_forall_notMem fun _ ⟨_, hlo, hhi, _⟩ => Nat.not_lt.mpr hlo hhi

theorem pagesOf_append (lo m n : ℕ) :
    pagesOf lo (m + n) = pagesOf lo m ∪ pagesOf (lo + m) n := by
  ext p
  constructor
  · rintro ⟨b, hlo, hhi, rfl⟩
    by_cases hb : b < lo + m
    · exact Or.inl ⟨b, hlo, hb, rfl⟩
    · exact Or.inr ⟨b, Nat.le_of_not_lt hb, by omega, rfl⟩
  · rintro (⟨b, hlo, hhi, rfl⟩ | ⟨b, hlo, hhi, rfl⟩)
    · exact ⟨b, hlo, by omega, rfl⟩
    · exact ⟨b, by omega, by omega, rfl⟩

/-- The pages of a range are those from its first byte's to its last byte's. -/
theorem mem_pagesOf {lo n p : ℕ} (hn : 0 < n) :
    p ∈ pagesOf lo n ↔ lo / l4PageSize ≤ p ∧ p ≤ (lo + n - 1) / l4PageSize := by
  have hsize : l4PageSize = 4096 := rfl
  constructor
  · rintro ⟨b, hlo, hhi, rfl⟩
    exact ⟨Nat.div_le_div_right hlo, Nat.div_le_div_right (by omega)⟩
  · rintro ⟨hlo, hhi⟩
    rw [hsize] at hlo hhi
    refine ⟨max lo (p * 4096), le_max_left _ _, by omega, ?_⟩
    rw [hsize]
    omega

/-- Rounding a range to pages adds no page. -/
theorem pagesOf_rounded {lo n offs stop : ℕ} (hn : 0 < n)
    (hoffs : offs = lo / l4PageSize * l4PageSize)
    (hstop : stop = (lo + n + (l4PageSize - 1)) / l4PageSize * l4PageSize) :
    pagesOf offs (stop - offs) = pagesOf lo n := by
  have hsize : l4PageSize = 4096 := rfl
  rw [hsize] at hoffs hstop
  ext p
  rw [mem_pagesOf hn, mem_pagesOf (by omega), hsize]
  omega

/-! ## The checks -/

section
variable {w : ℕ}

/-- What is asked for is the pages of the access, no more and no less. -/
theorem request_pages {vma addr sz : BitVec w} (hle : vma.toNat ≤ addr.toNat)
    (hfits : addr.toNat + sz.toNat ≤ 2 ^ w) (hvma : l4PageSize ≤ vma.toNat) (hsz : 0 < sz.toNat) :
    pagesOf (l4TruncPage (addr - vma)).toNat
      (l4RoundPage (addr + sz - vma) - l4TruncPage (addr - vma)).toNat =
        pagesOf (addr.toNat - vma.toNat) sz.toNat := by
  have hbound := end_bound hle hfits hvma
  have hoffs := toNat_truncPage (s := l4PageShift) (addr - vma)
  have hstop := toNat_roundPage hbound
  rw [toNat_sub_vma hle] at hoffs
  rw [toNat_end hle hfits hvma] at hstop
  obtain ⟨hlo, -⟩ := request_covers hle hfits hvma
  have hhi := le_roundPage hbound
  rw [toNat_end hle hfits hvma] at hhi
  have hsub : (l4RoundPage (addr + sz - vma) - l4TruncPage (addr - vma)).toNat =
      (l4RoundPage (addr + sz - vma)).toNat - (l4TruncPage (addr - vma)).toNat :=
    BitVec.toNat_sub_of_le (BitVec.le_def.mpr (hlo.trans (Nat.le_of_add_right_le hhi)))
  rw [hsub]
  exact pagesOf_rounded hsz hoffs hstop

/-- The check of a piece of `n` bytes below `sp`; the subtraction is that of the pointer. -/
def checkPiece (vma : BitVec w) (rc : ℕ → ℕ → Int) (sp n : ℕ) : Act (StackBase w) Unit Stop Unit :=
  checkAccess vma (rc sp n) (BitVec.ofNat w sp - BitVec.ofNat w n) (BitVec.ofNat w n)

/-- The checks of `r`, for pieces pushed from `sp` on, are those of `check_access` on this stack;
`rc` is what the dataspace answers where it is asked. -/
inductive CheckedBy (vma : BitVec w) (rc : ℕ → ℕ → Int) (r : Remote) :
    StackBase w → ℕ → List ℕ → StackBase w → Prop
  | all {st : StackBase w} {sp : ℕ} : CheckedBy vma rc r st sp [] st
  | refused {st : StackBase w} {sp n : ℕ} {sizes : List ℕ} : r.check (sp - n) n < 0 →
      checkPiece vma rc sp n st =
        ⟨.error (.thrown (.runtimeError (r.check (sp - n) n) [])), st, []⟩ →
      CheckedBy vma rc r st sp (n :: sizes) st
  | next {st st' st'' : StackBase w} {sp n : ℕ} {sizes : List ℕ} : 0 ≤ r.check (sp - n) n →
      checkPiece vma rc sp n st = ⟨.ok (), st', []⟩ →
      CheckedBy vma rc r st' (sp - n) sizes st'' → CheckedBy vma rc r st sp (n :: sizes) st''

/-- The pages from `sp` up to the top are allocated, and no others. -/
structure Filled (vma : BitVec w) (top : ℕ) (st : StackBase w) (sp : ℕ) : Prop where
  allocated : st.allocated = pagesOf (sp - vma.toNat) (top - sp)
  cached : Cached vma st sp

variable {vma : BitVec w} {rc : ℕ → ℕ → Int} {top sp n : ℕ} {st st' : StackBase w} {sizes : List ℕ}

theorem toNat_piece (hn : 0 < n) (hlt : n < 2 ^ w) (hle : n ≤ sp) (hsp : sp ≤ 2 ^ w) :
    (BitVec.ofNat w sp - BitVec.ofNat w n).toNat = sp - n := by
  rw [BitVec.ofNat_sub_ofNat_of_le _ _ hlt hle, BitVec.toNat_ofNat, Nat.mod_eq_of_lt (by omega)]

theorem toNat_size (hn : n < 2 ^ w) : (BitVec.ofNat w n).toNat = n := by
  rw [BitVec.toNat_ofNat, Nat.mod_eq_of_lt hn]

theorem Filled.start (vma : BitVec w) (top : ℕ) : Filled vma top {} top where
  allocated := by rw [Nat.sub_self, pagesOf_zero]
  cached := ⟨fun hne => absurd rfl hne, fun _ _ _ _ hne => absurd rfl hne⟩

section
variable (halign : PageAligned l4PageShift vma) (hvma : l4PageSize ≤ vma.toNat)
  (htop : top ≤ 2 ^ w)
include halign hvma htop

/-- **Step.**  One piece that is let through. -/
theorem Filled.push (h : Filled vma top st sp) (hsp : sp ≤ top) (hn : 0 < n)
    (hlo : vma.toNat + n ≤ sp) (hok : checkPiece vma rc sp n st = ⟨.ok (), st', []⟩) :
    Filled vma top st' (sp - n) := by
  have hpos : 0 < l4PageSize := by decide
  let a : Access w := ⟨BitVec.ofNat w sp - BitVec.ofNat w n, BitVec.ofNat w n, rc sp n⟩
  have haddr : a.addr.toNat = sp - n := toNat_piece hn (by omega) (by omega) (by omega)
  have hsz : a.sz.toNat = n := toNat_size (by omega)
  have hle : vma.toNat ≤ a.addr.toNat := by omega
  have hhi : a.addr.toNat + a.sz.toNat ≤ sp := by omega
  have hfits : a.addr.toNat + a.sz.toNat ≤ 2 ^ w := by omega
  have hout : st' =
      (checkAccess vma a.rc a.addr a.sz st : Out (StackBase w) Unit Stop Unit).st :=
    (congrArg Out.st hok).symm
  refine ⟨?_, ?_⟩
  · have hsplit : top - (sp - n) = n + (top - sp) := by omega
    have hnext : sp - n - vma.toNat + n = sp - vma.toNat := by omega
    rw [hsplit, pagesOf_append, hnext, ← h.allocated, hout]
    rcases checkAccess_cases (ω := Unit) vma a.rc a.addr a.sz st with ⟨hskip, hst⟩ | hst | ⟨-, hres⟩
    · -- on the page checked last, which is there as far as it is needed
      have hpages := h.cached.pages_subset hvma hle hhi hskip
      rw [Access.pages, haddr, hsz] at hpages
      rw [hst, Set.union_eq_self_of_subset_left hpages]
    · have hpages := request_pages hle hfits hvma (hsz ▸ hn)
      rw [haddr, hsz] at hpages
      rw [hst, hpages, Set.union_comm]
    · cases (congrArg Out.res hok).symm.trans hres
  · have hcached := checkAccess_cached (ω := Unit) halign hvma h.cached hle hhi (hsp.trans htop)
    rw [haddr] at hcached
    rw [hout]
    exact hcached

/-- **Runs.** -/
theorem CheckedBy.filled {r : Remote} (hbase : r.base = vma.toNat)
    (h : CheckedBy vma rc r st sp sizes st') :
    ∀ {sp' : ℕ} {whole : Bool}, Pushes r sp sizes sp' whole → (∀ n ∈ sizes, 0 < n) → sp ≤ top →
      Filled vma top st sp → Filled vma top st' sp' := by
  induction h with
  | all =>
      intro sp' whole hpush _ _ hfilled
      cases hpush
      exact hfilled
  | refused hrefused _ =>
      intro sp' whole hpush _ _ hfilled
      cases hpush with
      | refused => exact hfilled
      | next hcheck => exact absurd hrefused (Int.not_lt.mpr hcheck)
  | next hcheck hok _ ih =>
      intro sp' whole hpush hsizes hsp hfilled
      cases hpush with
      | refused hrefused => exact absurd hrefused (Int.not_lt.mpr hcheck)
      | next _ hrest =>
          obtain ⟨hin, hlt⟩ := Remote.le_of_check hcheck
          have hnext := hfilled.push halign hvma htop hsp (hsizes _ (List.mem_cons_self ..))
            (by omega) hok
          exact ih hrest (fun n hn => hsizes n (List.mem_cons_of_mem _ hn))
            ((Nat.sub_le _ _).trans hsp) hnext

end

/-! ## Every stack has such a check -/

/-- What a check comes to: nothing on the page checked last, else the answer of the dataspace. -/
theorem checkPiece_cases (vma : BitVec w) (rc : ℕ → ℕ → Int) (sp n : ℕ) (st : StackBase w) :
    let addr := BitVec.ofNat w sp - BitVec.ofNat w n
    (st.lastChecked = l4TruncPage addr ∧ checkPiece vma rc sp n st = ⟨.ok (), st, []⟩) ∨
    (st.lastChecked ≠ l4TruncPage addr ∧ rc sp n < 0 ∧
      checkPiece vma rc sp n st = ⟨.error (.thrown (.runtimeError (rc sp n) [])), st, []⟩) ∨
    (0 ≤ rc sp n ∧ ∃ pages, checkPiece vma rc sp n st = ⟨.ok (), ⟨l4TruncPage addr, pages⟩, []⟩) := by
  intro addr
  simp only [checkPiece, checkAccess, Act.get_bind_apply]
  by_cases hskip : st.lastChecked = l4TruncPage addr
  · refine Or.inl ⟨hskip, ?_⟩
    rw [if_neg (not_not_intro hskip)]
    rfl
  · have halloc (offs size : BitVec w) :
        (dsAllocate (rc sp n) offs size : Act (StackBase w) Unit Stop Int) st =
          ⟨.ok (rc sp n), if rc sp n < 0 then st else
            { st with allocated := st.allocated ∪ pagesOf offs.toNat size.toNat }, []⟩ := rfl
    rw [if_pos hskip, Act.bind_of_ok (halloc _ _), chksys]
    by_cases hrc : rc sp n < 0
    · refine Or.inr (Or.inl ⟨hskip, hrc, ?_⟩)
      rw [if_pos hrc, if_pos hrc]
      rfl
    · rw [if_neg hrc, if_neg hrc]
      exact Or.inr (Or.inr ⟨Int.not_lt.mp hrc, _, rfl⟩)

/-- Only the answers for lower pieces matter. -/
theorem CheckedBy.congr {r r' : Remote} (h : CheckedBy vma rc r st sp sizes st') :
    (∀ addr n, addr < sp → r.check addr n = r'.check addr n) → 0 < sp → (∀ n ∈ sizes, 0 < n) →
      CheckedBy vma rc r' st sp sizes st' := by
  induction h with
  | all => exact fun _ _ _ => .all
  | refused hrefused hout =>
      intro hag hsp hsizes
      have hn := hsizes _ (List.mem_cons_self ..)
      rw [hag _ _ (by omega)] at hrefused hout
      exact .refused hrefused hout
  | next hcheck hout _ ih =>
      intro hag hsp hsizes
      have hn := hsizes _ (List.mem_cons_self ..)
      have hlt := (Remote.le_of_check hcheck).2
      refine .next (by rwa [← hag _ _ (by omega)]) hout (ih (fun addr m hlow => ?_) (by omega)
        fun m hm => hsizes m (List.mem_cons_of_mem _ hm))
      exact hag addr m (by omega)

/-- A remote with one more answer. -/
def Remote.answer (r : Remote) (addr : ℕ) (rc : Int) (h : 0 ≤ rc → r.base ≤ addr) : Remote where
  base := r.base
  base_pos := r.base_pos
  check a n := if a = addr then rc else r.check a n
  inside := by
    intro a n hok
    by_cases ha : a = addr
    · rw [if_pos ha] at hok
      exact (h hok).trans_eq ha.symm
    · rw [if_neg ha] at hok
      exact r.inside hok

/-- The answers for the pieces below, and one for the piece above them. -/
theorem CheckedBy.cons {r : Remote} {st'' : StackBase w} (hlo : r.base + n ≤ sp)
    (hsizes : ∀ m ∈ sizes, 0 < m) (hok : checkPiece vma rc sp n st = ⟨.ok (), st', []⟩)
    (h : CheckedBy vma rc r st' (sp - n) sizes st'') :
    ∃ r' : Remote, r'.base = r.base ∧ CheckedBy vma rc r' st sp (n :: sizes) st'' := by
  have hpos := r.base_pos
  refine ⟨r.answer (sp - n) 0 fun _ => by omega, rfl, .next ?_ hok ?_⟩
  · exact (if_pos rfl).ge
  · refine h.congr (fun addr m hlt => ?_) (by omega) hsizes
    exact (if_neg hlt.ne).symm

/-- A piece below the mapping, and not on the first page, is not on the page checked last. -/
theorem lastChecked_ne {addr : BitVec w} (hpage : l4PageSize ≤ addr.toNat)
    (hout : addr.toNat < vma.toNat)
    (hlast : st.lastChecked = 0 ∨ vma.toNat ≤ st.lastChecked.toNat) :
    st.lastChecked ≠ l4TruncPage addr := by
  intro h
  rcases hlast with hzero | hlast
  · exact truncPage_ne_zero hpage (h.symm.trans hzero)
  · rw [h] at hlast
    exact absurd (hlast.trans (truncPage_le addr)) (Nat.not_le.mpr hout)

/-- A stack whose dataspace answers like this has such checks, if no piece is as large as all the
memory below the stack. -/
theorem exists_checkedBy (halign : PageAligned l4PageShift vma) (hvma : l4PageSize ≤ vma.toNat)
    (hrange : ∀ sp n, sp < vma.toNat + n → rc sp n < 0) : ∀ {st : StackBase w} {sp : ℕ},
    sp ≤ 2 ^ w → vma.toNat ≤ sp → (st.lastChecked = 0 ∨ vma.toNat ≤ st.lastChecked.toNat) →
    (∀ n ∈ sizes, 0 < n ∧ n + l4PageSize ≤ vma.toNat) →
    ∃ r st', r.base = vma.toNat ∧ CheckedBy vma rc r st sp sizes st' := by
  have hpos : 0 < l4PageSize := by decide
  let refuse : Remote :=
    { base := vma.toNat, base_pos := hpos.trans_le hvma, check := fun _ _ => -1
      inside := fun h => absurd h (by decide) }
  induction sizes with
  | nil => exact fun _ _ _ _ => ⟨refuse, _, rfl, .all⟩
  | cons n sizes ih =>
      intro st sp hsp hlo hlast hsizes
      obtain ⟨hn, hsmall⟩ := hsizes n (List.mem_cons_self ..)
      have htail : ∀ m ∈ sizes, 0 < m ∧ m + l4PageSize ≤ vma.toNat :=
        fun m hm => hsizes m (List.mem_cons_of_mem _ hm)
      have haddr : (BitVec.ofNat w sp - BitVec.ofNat w n).toNat = sp - n :=
        toNat_piece hn (by omega) (by omega) hsp
      have hnext : ∀ {st₁ : StackBase w}, checkPiece vma rc sp n st = ⟨.ok (), st₁, []⟩ →
          vma.toNat + n ≤ sp → (st₁.lastChecked = 0 ∨ vma.toNat ≤ st₁.lastChecked.toNat) →
          ∃ r st', r.base = vma.toNat ∧ CheckedBy vma rc r st sp (n :: sizes) st' := by
        intro st₁ hok hin hlast₁
        have hsp' : sp - n ≤ 2 ^ w := (Nat.sub_le _ _).trans hsp
        have hlo' : vma.toNat ≤ sp - n := Nat.le_sub_of_add_le hin
        obtain ⟨r, st', hbase, hrest⟩ := ih hsp' hlo' hlast₁ htail
        obtain ⟨r', hbase', h⟩ := hrest.cons (hbase ▸ hin) (fun m hm => (htail m hm).1) hok
        exact ⟨r', st', hbase'.trans hbase, h⟩
      rcases checkPiece_cases vma rc sp n st with ⟨hskip, hok⟩ | ⟨-, hrc, hthrow⟩ | ⟨hrc, pages, hok⟩
      · refine hnext hok (Nat.le_of_not_lt fun hout => ?_) hlast
        exact lastChecked_ne (by omega) (by omega) hlast hskip
      · refine ⟨refuse.answer (sp - n) (rc sp n) fun h => absurd hrc (Int.not_lt.mpr h), st, rfl, ?_⟩
        have hanswer : (refuse.answer (sp - n) (rc sp n)
            fun h => absurd hrc (Int.not_lt.mpr h)).check (sp - n) n = rc sp n := if_pos rfl
        exact .refused (hanswer.symm ▸ hrc) (hanswer.symm ▸ hthrow)
      · have hin : vma.toNat + n ≤ sp :=
          Nat.le_of_not_lt fun hout => Int.not_lt.mpr hrc (hrange sp n hout)
        exact hnext hok hin (Or.inr (halign.le_truncPage (by omega)))

/-! ## The result -/

/-- The stack of a new process, attached where the region manager has picked a place.

If every piece that is to be pushed would, with a page, fit below the stack, and the dataspace
refuses what lies outside of it, then there is a check that answers as `check_access` does.

With any check that does, the set-up stays inside the region; however it ends, the pages that
were allocated are those from the stack pointer up to the top and no others, and every byte of a
string lies on one of them.  If it returns, all the strings and entries were pushed. -/
theorem set_up_pages {rm : Rm w} (hspec : rm.Spec) {ds : Object} {size : BitVec 32}
    {m m' : RegionMap w} {err : Int} {vma : BitVec w}
    (hattach : rm.attach m (size.setWidth w) ds 0 = (err, vma, m')) (herr : 0 ≤ err)
    (hne : vma ≠ 0) {L : Loader} (hentry : 0 < L.entrySize) (mapErr : InitialCap → Slot → Int)
    {p : NewProcess} (hsp : p.stack.sp = vma.toNat + (size.setWidth w).toNat)
    (rc : ℕ → ℕ → Int) :
    (setStack rm ds size m : Out (RegionMap w) Unit Stop (BitVec w × BitVec w)) =
      ⟨.ok (vma, vma + size.setWidth w), m', []⟩ ∧
    ((∀ n ∈ setUpSizes L p, n + l4PageSize ≤ vma.toNat) →
      (∀ sp n, sp < vma.toNat + n → rc sp n < 0) →
      ∃ r st, r.base = vma.toNat ∧ CheckedBy vma rc r {} p.stack.sp (setUpSizes L p) st) ∧
    ∀ r st, r.base = vma.toNat → CheckedBy vma rc r {} p.stack.sp (setUpSizes L p) st →
      let p' := (startProcess L r mapErr p).st
      vma.toNat ≤ p'.stack.sp ∧ p'.stack.sp ≤ p.stack.sp ∧
      st.allocated = pagesOf (p'.stack.sp - vma.toNat) (p.stack.sp - p'.stack.sp) ∧
      (∀ i, p'.stack.mem i ≠ p.stack.mem i → p'.stack.sp ≤ i ∧ i < p.stack.sp ∧
        (i - vma.toNat) / l4PageSize ∈ st.allocated) ∧
      ((startProcess L r mapErr p).res.isOk = true →
        p'.stack.sp + (setUpSizes L p).sum = p.stack.sp) := by
  obtain ⟨place, rfl, rfl⟩ := hspec.attached hattach herr
  have hvma := page_le_of_aligned place.aligned hne
  have hfits := place.fits
  have hpos := setUpSizes_pos hentry p
  refine ⟨setStack_of_attach hattach herr, fun hsmall hrange => ?_, ?_⟩
  · exact exists_checkedBy place.aligned hvma hrange (by omega) (by omega) (Or.inl rfl)
      fun n hn => ⟨hpos n hn, hsmall n hn⟩
  · intro r st hbase hchecks p'
    obtain ⟨whole, hpush, hwhole, hframe⟩ := @startProcess_pushes L r mapErr p
    have hlo : place.start.toNat ≤ p'.stack.sp := hbase ▸ hpush.base_le (by omega)
    have hfilled := hchecks.filled place.aligned hvma (by omega) hbase hpush hpos le_rfl
      (Filled.start _ _)
    refine ⟨hlo, hpush.le, hfilled.allocated, fun i hi => ?_, fun hok => ?_⟩
    · obtain ⟨hge, hlt⟩ := hframe i hi
      refine ⟨hge, hlt, ?_⟩
      rw [hfilled.allocated]
      exact ⟨i - place.start.toNat, by omega, by omega, rfl⟩
    · rw [hwhole hok] at hpush
      exact hpush.sum

end

def highPage : Remote := .above 0x8000 (by decide)

/-- The dataspace of a stack at `0x8000` has memory for all of it, and for nothing else. -/
def allocateHigh (sp n : ℕ) : Int := if sp < 0x8000 + n then -l4ENoMem else 0

/-- A process with one argument and one capability, whose entry lies on the page that was checked
for the argument. -/
def oneArgument : NewProcess where
  stack := { freshStack with sp := 0x9000 }.setArgvStrings [lit "7"]
  initialCapabilities := [⟨some 1, nameRom, l4CapFpageRW, 0⟩]

theorem set_up_pages_one :
    (∃ (r : Remote) (st : StackBase 64), r.base = 0x8000 ∧
      CheckedBy (0x8000 : BitVec 64) allocateHigh r {} 0x9000 [2, 32] st) ∧
    ∃ st : StackBase 64, CheckedBy (0x8000 : BitVec 64) allocateHigh highPage {} 0x9000 [2, 32] st ∧
      (startProcess loader₀ highPage (fun _ _ => 0) oneArgument).st.stack.sp = 0x8fde ∧
      st.allocated = pagesOf 0xfde 34 := by
  have haligned : PageAligned l4PageShift (0x8000 : BitVec 64) := by decide
  have hattach : ∃ m', (oneRegion (0x8000 : BitVec 64) haligned).attach ⟨[], .nil⟩
      ((0x1000 : BitVec 32).setWidth 64) 7 0 = (0, 0x8000, m') := ⟨_, rfl⟩
  obtain ⟨m', hattach⟩ := hattach
  have hsp : oneArgument.stack.sp = (0x8000 : BitVec 64).toNat +
      ((0x1000 : BitVec 32).setWidth 64).toNat := rfl
  have hentry : 0 < loader₀.entrySize := by decide
  obtain ⟨-, hexists, hrun⟩ := set_up_pages (oneRegion_spec _ haligned) hattach (Int.le_refl 0)
    (by decide) hentry (fun _ _ => 0) hsp allocateHigh
  have hsmall : ∀ n ∈ setUpSizes loader₀ oneArgument, n + l4PageSize ≤ 0x8000 := by decide
  have houtside : ∀ sp n, sp < 0x8000 + n → allocateHigh sp n < 0 := by
    intro sp n h
    rw [allocateHigh, if_pos h]
    decide
  have hchecks : ∃ st, CheckedBy (0x8000 : BitVec 64) allocateHigh highPage {} 0x9000 [2, 32] st :=
    ⟨_, .next (by decide) rfl (.next (by decide) rfl .all)⟩
  obtain ⟨st, hchecks⟩ := hchecks
  obtain ⟨-, -, hpages, -, hwhole⟩ := hrun highPage st rfl hchecks
  have hbottom : (startProcess loader₀ highPage (fun _ _ => 0) oneArgument).st.stack.sp = 0x8fde :=
    Nat.add_right_cancel (hwhole rfl)
  rw [hbottom] at hpages
  exact ⟨hexists hsmall houtside, st, hchecks, hbottom, hpages⟩

end MettEagle
