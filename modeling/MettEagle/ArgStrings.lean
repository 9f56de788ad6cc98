/-
# `MettEagle.ArgStrings` — the arguments and the environment of a process

Before a worker starts, its arguments and its environment are pushed onto its
stack: `init_prog` pushes the argument strings and then the environment strings.
The loader of the process finds each list by two addresses and nothing else:

    al    the string pushed last, the lowest one
    a0    the string pushed first; 0 if there is none

A list is therefore read backwards, from `al` upwards.  Both lists are pushed by
the same code on different members, `pushStrings`.

`_stack.push_str` belongs to libloader.  It moves the stack pointer down by the
string and its NUL, checks the access, and copies; `Remote.check` is the answer
of the check, which refuses what lies below the mapping.
-/
import MettEagle.Server
import MettEagle.Lib.StringBlock
import Mathlib.Data.List.TakeWhile

namespace MettEagle

/-! ## The code -/

/-- The two lists of strings of a process. -/
inductive StringList where
  | argv | envp
deriving DecidableEq

/-- `argv` and `envp` of the program info: addresses on the stack. -/
structure StringRange where
  al : ℕ := 0
  a0 : ℕ := 0

/-- The members of `Worker` that hold the strings, and the stack. -/
structure WorkerStack where
  strings : StringList → List Bytes := fun _ => []
  range : StringList → StringRange := fun _ => {}
  mem : ByteMem
  sp : ℕ

/-- The mapping the stack is written through: where it begins, and what `check_access` answers. -/
structure Remote where
  base : ℕ
  base_pos : 0 < base
  check : ℕ → ℕ → Int
  inside : ∀ {addr sz : ℕ}, 0 ≤ check addr sz → base ≤ addr

/-- What `c_str ()` points to. -/
def cStr (s : Bytes) : Bytes := s ++ [0]

/-- `strlen (s.c_str ())`. -/
def strlen (s : Bytes) : ℕ := (s.takeWhile (· ≠ 0)).length

/-- `Worker::set_argv_strings` and `Worker::set_envp_strings`. -/
def WorkerStack.setStrings (which : StringList) (l : List Bytes) (w : WorkerStack) : WorkerStack :=
  { w with strings := Function.update w.strings which l }

def WorkerStack.setArgvStrings (l : List Bytes) (w : WorkerStack) : WorkerStack := w.setStrings .argv l
def WorkerStack.setEnvpStrings (l : List Bytes) (w : WorkerStack) : WorkerStack := w.setStrings .envp l

def WorkerStack.setRange (which : StringList) (r : StringRange) (w : WorkerStack) : WorkerStack :=
  { w with range := Function.update w.range which r }

@[simp] theorem WorkerStack.setRange_same (w : WorkerStack) (which : StringList) (r : StringRange) :
    (w.setRange which r).range which = r := Function.update_self ..

theorem WorkerStack.setRange_other (w : WorkerStack) {which which' : StringList} (r : StringRange)
    (hne : which' ≠ which) : (w.setRange which r).range which' = w.range which' :=
  Function.update_of_ne hne ..

@[simp] theorem WorkerStack.setRange_setRange (w : WorkerStack) (which : StringList)
    (r r' : StringRange) : (w.setRange which r).setRange which r' = w.setRange which r' :=
  congrArg (WorkerStack.mk w.strings · w.mem w.sp) (Function.update_idem ..)

section
variable {ω : Type} (r : Remote)

/-- `_stack.push_str (s.c_str (), len)`. -/
def pushStr (s : Bytes) (len : ℕ) : Act WorkerStack ω Stop ℕ := do
  let w ← Act.get
  let p := w.sp - (len + 1)
  chksys (r.check p (len + 1)) []
  Act.modify fun w => { w with mem := w.mem.store p ((cStr s).take len ++ [0]), sp := p }
  pure p

/-- The loop over the strings behind the first. -/
def pushRest (which : StringList) : List Bytes → Act WorkerStack ω Stop Unit
  | [] => pure ()
  | s :: rest => do
      let p ← pushStr r s s.length
      Act.modify fun w => w.setRange which { w.range which with al := p }
      pushRest which rest

def pushStrings (which : StringList) : Act WorkerStack ω Stop Unit := do
  let w ← Act.get
  match w.strings which with
  | [] => pure ()
  | first :: rest => do
      let p ← pushStr r first (strlen first)
      Act.modify fun w => w.setRange which { w.range which with al := p }
      Act.modify fun w => w.setRange which { w.range which with a0 := (w.range which).al }
      pushRest r which rest

/-- `Worker::push_argv_strings` and `Worker::push_env_strings`. -/
def pushArgvStrings : Act WorkerStack ω Stop Unit := pushStrings r .argv
def pushEnvStrings : Act WorkerStack ω Stop Unit := pushStrings r .envp

/-- `App_model::init_prog`. -/
def initProg : Act WorkerStack ω Stop Unit := do
  pushArgvStrings r
  pushEnvStrings r

end

/-! ## One push -/

/-- The stack after a string was pushed to `p`. -/
def WorkerStack.pushed (w : WorkerStack) (p : ℕ) (s : Bytes) : WorkerStack :=
  { w with mem := w.mem.store p (s ++ [0]), sp := p }

theorem strlen_of_nulFree {s : Bytes} (hs : (0 : UInt8) ∉ s) : strlen s = s.length := by
  have hall : ∀ c ∈ s, decide (c ≠ 0) = true := fun c hc => decide_eq_true fun h0 => hs (h0 ▸ hc)
  rw [strlen, List.takeWhile_eq_self_iff.mpr hall]

theorem take_cStr (s : Bytes) : (cStr s).take s.length = s := by
  rw [cStr, List.take_left]

section
variable {ω α : Type} {r : Remote} {s : Bytes} {w w' : WorkerStack} {o : List ω}
  {k : ℕ → Act WorkerStack ω Stop α} {a : α}

/-- A push of a whole string: it is refused and nothing happened, or the string is there. -/
theorem pushStr_eq (r : Remote) (s : Bytes) (w : WorkerStack) :
    (pushStr r s s.length : Act WorkerStack ω Stop ℕ) w =
      if r.check (w.sp - (s.length + 1)) (s.length + 1) < 0 then
        ⟨.error (.thrown (.runtimeError (r.check (w.sp - (s.length + 1)) (s.length + 1)) [])), w, []⟩
      else ⟨.ok (w.sp - (s.length + 1)), w.pushed (w.sp - (s.length + 1)) s, []⟩ := by
  simp only [pushStr, take_cStr, Act.get_bind_apply, chksys]
  by_cases hc : r.check (w.sp - (s.length + 1)) (s.length + 1) < 0
  · rw [if_pos hc, if_pos hc]
    rfl
  · rw [if_neg hc, if_neg hc]
    rfl

/-- A push that returned was inside the mapping, directly below the stack pointer. -/
theorem pushStr_of_ok (h : (pushStr r s s.length >>= k) w = ⟨.ok a, w', o⟩) :
    ∃ p, p + (s.length + 1) = w.sp ∧ r.base ≤ p ∧ k p (w.pushed p s) = ⟨.ok a, w', o⟩ := by
  by_cases hc : r.check (w.sp - (s.length + 1)) (s.length + 1) < 0
  · rw [Act.bind_of_error ((pushStr_eq r s w).trans (if_pos hc))] at h
    cases h
  · rw [Act.bind_of_ok ((pushStr_eq r s w).trans (if_neg hc)), Out.after_nil] at h
    have hin := r.inside (Int.not_lt.mp hc)
    have hpos := r.base_pos
    exact ⟨_, by omega, hin, h⟩

/-- A push that is let through. -/
theorem pushStr_of_room (k : ℕ → Act WorkerStack ω Stop α)
    (hcheck : ∀ addr sz, r.base ≤ addr → 0 ≤ r.check addr sz)
    (hroom : r.base + (s.length + 1) ≤ w.sp) :
    (pushStr r s s.length >>= k) w =
      k (w.sp - (s.length + 1)) (w.pushed (w.sp - (s.length + 1)) s) := by
  have hc := hcheck (w.sp - (s.length + 1)) (s.length + 1) (by omega)
  rw [Act.bind_of_ok ((pushStr_eq r s w).trans (if_neg (Int.not_lt.mpr hc))), Out.after_nil]

end

/-! ## What has been pushed -/

/-- From `w₀`, the strings `first :: rest` of the list `which` were pushed, in this order, and
nothing else. -/
structure Pushed (r : Remote) (which : StringList) (w₀ : WorkerStack) (first : Bytes)
    (rest : List Bytes) (w : WorkerStack) : Prop where
  al : (w.range which).al = w.sp
  a0 : (w.range which).a0 + (first.length + 1) = w₀.sp
  base_le : r.base ≤ (w.range which).a0
  block : StrBlock w.mem w.sp (first :: rest).reverse w₀.sp
  above : ∀ i, w₀.sp ≤ i → w.mem i = w₀.mem i
  others : ∀ which' ≠ which, w.range which' = w₀.range which'
  strings : w.strings = w₀.strings

section
variable {r : Remote} {which : StringList} {w₀ w : WorkerStack} {s₀ s : Bytes}
  {rest : List Bytes} {p : ℕ}

theorem store_nul_above {m : ByteMem} {i : ℕ} (hi : p + (s.length + 1) ≤ i) :
    m.store p (s ++ [0]) i = m i := by
  refine ByteMem.store_of_le ?_
  rw [List.length_append, List.length_singleton]
  exact hi

theorem Pushed.first (hs : (0 : UInt8) ∉ s) (hp : p + (s.length + 1) = w.sp) (hbase : r.base ≤ p) :
    Pushed r which w s [] ((w.pushed p s).setRange which ⟨p, p⟩) where
  al := by rw [WorkerStack.setRange_same]; rfl
  a0 := by rw [WorkerStack.setRange_same]; exact hp
  base_le := by rw [WorkerStack.setRange_same]; exact hbase
  block := ⟨strAt_store hs, hp⟩
  above _ hi := store_nul_above (hp.le.trans hi)
  others _ hne := WorkerStack.setRange_other _ _ hne
  strings := rfl

/-- **Step.** -/
theorem Pushed.next (h : Pushed r which w₀ s₀ rest w) (hs : (0 : UInt8) ∉ s)
    (hp : p + (s.length + 1) = w.sp) :
    Pushed r which w₀ s₀ (rest ++ [s])
      ((w.pushed p s).setRange which ⟨p, (w.range which).a0⟩) where
  al := by rw [WorkerStack.setRange_same]; rfl
  a0 := by rw [WorkerStack.setRange_same]; exact h.a0
  base_le := by rw [WorkerStack.setRange_same]; exact h.base_le
  block := by
    rw [← List.cons_append, List.reverse_append, List.reverse_singleton]
    exact h.block.push hs hp
  above i hi := by
    have hsize := h.block.add_size
    exact (store_nul_above (by omega)).trans (h.above i hi)
  others which' hne := (WorkerStack.setRange_other _ _ hne).trans (h.others which' hne)
  strings := h.strings

/-- **Runs.** The loop, by induction on what is left of the list. -/
theorem pushRest_pushed {ω : Type} {rest' : List Bytes} (hs : ∀ s ∈ rest', (0 : UInt8) ∉ s) :
    ∀ {rest : List Bytes} {w w' : WorkerStack} {o : List ω}, Pushed r which w₀ s₀ rest w →
      pushRest r which rest' w = ⟨.ok (), w', o⟩ → Pushed r which w₀ s₀ (rest ++ rest') w' := by
  induction rest' with
  | nil =>
      intro rest w w' o h hrun
      cases hrun
      rwa [List.append_nil]
  | cons s rest' ih =>
      intro rest w w' o h hrun
      obtain ⟨p, hp, -, hrun⟩ := pushStr_of_ok hrun
      have hnext := h.next (hs s (List.mem_cons_self ..)) hp
      have hall := ih (fun t ht => hs t (List.mem_cons_of_mem _ ht)) hnext hrun
      rwa [List.append_assoc] at hall

/-- A list that is not empty. -/
theorem pushStrings_pushed {ω : Type} {w w' : WorkerStack} {o : List ω}
    (hstrings : w.strings which = s₀ :: rest) (hs : ∀ s ∈ s₀ :: rest, (0 : UInt8) ∉ s)
    (hrun : pushStrings r which w = ⟨.ok (), w', o⟩) : Pushed r which w s₀ rest w' := by
  simp only [pushStrings, Act.get_bind_apply, hstrings,
    strlen_of_nulFree (hs s₀ (List.mem_cons_self ..))] at hrun
  obtain ⟨p, hp, hbase, hrun⟩ := pushStr_of_ok hrun
  simp only [Act.modify_bind_apply, WorkerStack.setRange_setRange, WorkerStack.setRange_same] at hrun
  have hfirst : Pushed r which w s₀ [] _ := .first (hs s₀ (List.mem_cons_self ..)) hp hbase
  exact pushRest_pushed (fun s h => hs s (List.mem_cons_of_mem _ h)) hfirst hrun

end

/-! ## The layout -/

/-- The strings of a list lie in one block from `al` on, the last one pushed first, and the first
one, which ends the block, at `a0`. -/
structure Layout (m : ByteMem) (range : StringRange) (l : List Bytes) : Prop where
  a0_eq_zero : range.a0 = 0 ↔ l = []
  block : l ≠ [] → StrBlock m range.al l.reverse (range.al + blockSize l)
  last : ∀ {first rest}, l = first :: rest →
    range.a0 + (first.length + 1) = range.al + blockSize l

/-- What a reader of the list gets who knows `al` and `a0`, and which bytes it takes up. -/
structure Decodes (m : ByteMem) (range : StringRange) (l : List Bytes) : Prop where
  none_iff : range.a0 = 0 ↔ l = []
  walk_iff : l ≠ [] → ∀ l', Walk m range.a0 range.al l' ↔ l' = l.reverse
  extent : l ≠ [] → StrBlock m range.al l.reverse (range.al + blockSize l)

namespace Layout

variable {m m' : ByteMem} {range : StringRange} {l : List Bytes}

/-- Reading the block from `al` up to `a0`. -/
theorem walk (h : Layout m range l) (hl : l ≠ []) (l' : List Bytes) :
    Walk m range.a0 range.al l' ↔ l' = l.reverse := by
  have hblock := h.block hl
  cases l with
  | nil => exact absurd rfl hl
  | cons first rest =>
      rw [List.reverse_cons] at hblock ⊢
      exact hblock.walk_iff (h.last rfl)

theorem decodes (h : Layout m range l) : Decodes m range l := ⟨h.a0_eq_zero, h.walk, h.block⟩

theorem congr (h : Layout m range l) (hag : l ≠ [] → m.Agree m' range.al (range.al + blockSize l)) :
    Layout m' range l where
  a0_eq_zero := h.a0_eq_zero
  block hl := (h.block hl).congr (hag hl)
  last := h.last

end Layout

/-- What pushing one list leaves behind: the layout directly below the old stack pointer, and the
rest as it was. -/
structure ListPushed (which : StringList) (l : List Bytes) (w₀ w : WorkerStack) : Prop where
  layout : Layout w.mem (w.range which) l
  al : l ≠ [] → (w.range which).al = w.sp
  size : w.sp + blockSize l = w₀.sp
  above : ∀ i, w₀.sp ≤ i → w.mem i = w₀.mem i
  others : ∀ which' ≠ which, w.range which' = w₀.range which'
  strings : w.strings = w₀.strings

theorem Pushed.listPushed {r : Remote} {which : StringList} {w₀ w : WorkerStack} {first : Bytes}
    {rest : List Bytes} (h : Pushed r which w₀ first rest w) :
    ListPushed which (first :: rest) w₀ w := by
  have hsize : w.sp + blockSize (first :: rest) = w₀.sp := by
    rw [← blockSize_reverse]
    exact h.block.add_size
  have hne : (w.range which).a0 ≠ 0 := (r.base_pos.trans_le h.base_le).ne'
  refine ⟨⟨iff_of_false hne (List.cons_ne_nil _ _), fun _ => ?_, fun hl => ?_⟩, fun _ => h.al,
    hsize, h.above, h.others, h.strings⟩
  · rw [h.al, hsize]
    exact h.block
  · cases hl
    rw [h.al, hsize]
    exact h.a0

theorem pushStrings_listPushed {ω : Type} {r : Remote} {which : StringList} {l : List Bytes}
    {w w' : WorkerStack} {o : List ω} (hstrings : w.strings which = l)
    (hs : ∀ s ∈ l, (0 : UInt8) ∉ s) (h0 : (w.range which).a0 = 0)
    (hrun : pushStrings r which w = ⟨.ok (), w', o⟩) : ListPushed which l w w' := by
  cases l with
  | nil =>
      simp only [pushStrings, Act.get_bind_apply, hstrings] at hrun
      cases hrun
      exact ⟨⟨iff_of_true h0 rfl, fun h => absurd rfl h, fun h => by cases h⟩,
        fun h => absurd rfl h, rfl, fun _ _ => rfl, fun _ _ => rfl, rfl⟩
  | cons first rest => exact (pushStrings_pushed hstrings hs hrun).listPushed

/-! ## Enough room -/

section
variable {ω : Type} {r : Remote} {which : StringList}
  (hcheck : ∀ addr sz, r.base ≤ addr → 0 ≤ r.check addr sz)
include hcheck

theorem pushRest_returns {rest : List Bytes} :
    ∀ {w : WorkerStack}, r.base + blockSize rest ≤ w.sp →
      ∃ w', (pushRest r which rest w : Out WorkerStack ω Stop Unit) = ⟨.ok (), w', []⟩ := by
  induction rest with
  | nil => exact fun _ => ⟨_, rfl⟩
  | cons s rest ih =>
      intro w hroom
      rw [blockSize, List.map_cons, List.sum_cons, ← blockSize] at hroom
      rw [pushRest, pushStr_of_room _ hcheck (by omega), Act.modify_bind_apply]
      refine ih ?_
      show _ ≤ w.sp - (s.length + 1)
      omega

theorem pushStrings_returns {l : List Bytes} {w : WorkerStack} (hstrings : w.strings which = l)
    (hs : ∀ s ∈ l, (0 : UInt8) ∉ s) (hroom : r.base + blockSize l ≤ w.sp) :
    ∃ w', (pushStrings r which w : Out WorkerStack ω Stop Unit) = ⟨.ok (), w', []⟩ := by
  simp only [pushStrings, Act.get_bind_apply, hstrings]
  cases l with
  | nil => exact ⟨w, rfl⟩
  | cons first rest =>
      rw [blockSize, List.map_cons, List.sum_cons, ← blockSize] at hroom
      simp only [strlen_of_nulFree (hs first (List.mem_cons_self ..))]
      rw [pushStr_of_room _ hcheck (by omega)]
      refine pushRest_returns hcheck ?_
      show _ ≤ w.sp - (first.length + 1)
      omega

end

/-! ## Both lists -/

section
variable {ω : Type} {r : Remote} {argv envp : List Bytes} {w w' : WorkerStack} {o : List ω}
  (hargv : ∀ s ∈ argv, (0 : UInt8) ∉ s) (henvp : ∀ s ∈ envp, (0 : UInt8) ∉ s)
  (h0 : ∀ which, (w.range which).a0 = 0)
include hargv henvp h0

/-- The environment goes below the arguments and leaves them as they are. -/
theorem initProg_listPushed
    (hrun : initProg r ((w.setArgvStrings argv).setEnvpStrings envp) = ⟨.ok (), w', o⟩) :
    ∃ w₁, ListPushed .argv argv ((w.setArgvStrings argv).setEnvpStrings envp) w₁ ∧
      ListPushed .envp envp w₁ w' := by
  obtain ⟨_, w₁, o₁, o₂, h₁, h₂, -⟩ := Act.ok_of_bind hrun
  have hpush₁ : ListPushed .argv argv ((w.setArgvStrings argv).setEnvpStrings envp) w₁ :=
    pushStrings_listPushed rfl hargv (h0 .argv) h₁
  have hstrings : w₁.strings .envp = envp := by
    rw [hpush₁.strings]
    rfl
  have hzero : (w₁.range .envp).a0 = 0 := by
    rw [hpush₁.others .envp (by decide)]
    exact h0 .envp
  exact ⟨w₁, hpush₁, pushStrings_listPushed hstrings henvp hzero h₂⟩

theorem initProg_layout
    (hrun : initProg r ((w.setArgvStrings argv).setEnvpStrings envp) = ⟨.ok (), w', o⟩) :
    Layout w'.mem (w'.range .argv) argv ∧ Layout w'.mem (w'.range .envp) envp ∧
      (argv ≠ [] → envp ≠ [] →
        (w'.range .envp).al + blockSize envp ≤ (w'.range .argv).al) := by
  obtain ⟨w₁, h₁, h₂⟩ := initProg_listPushed hargv henvp h0 hrun
  have hrange : w'.range .argv = w₁.range .argv := h₂.others .argv (by decide)
  refine ⟨?_, h₂.layout, fun hne hne' => ?_⟩
  · rw [hrange]
    refine h₁.layout.congr fun hne i hi _ => (h₂.above i ?_).symm
    rwa [← h₁.al hne]
  · rw [hrange, h₁.al hne, h₂.al hne', h₂.size]

theorem initProg_returns (hcheck : ∀ addr sz, r.base ≤ addr → 0 ≤ r.check addr sz)
    (hroom : r.base + blockSize argv + blockSize envp ≤ w.sp) :
    ∃ w', (initProg r ((w.setArgvStrings argv).setEnvpStrings envp) : Out WorkerStack ω Stop Unit) =
      ⟨.ok (), w', []⟩ := by
  have hargvRoom : r.base + blockSize argv ≤ w.sp := by omega
  obtain ⟨w₁, h₁⟩ : ∃ w₁, (pushStrings r .argv ((w.setArgvStrings argv).setEnvpStrings envp) :
      Out WorkerStack ω Stop Unit) = ⟨.ok (), w₁, []⟩ :=
    pushStrings_returns hcheck rfl hargv hargvRoom
  have hpush₁ : ListPushed .argv argv ((w.setArgvStrings argv).setEnvpStrings envp) w₁ :=
    pushStrings_listPushed rfl hargv (h0 .argv) h₁
  have hsize : w₁.sp + blockSize argv = w.sp := hpush₁.size
  have hstrings : w₁.strings .envp = envp := by
    rw [hpush₁.strings]
    rfl
  obtain ⟨w₂, h₂⟩ := pushStrings_returns (ω := ω) hcheck hstrings henvp (by omega)
  refine ⟨w₂, ?_⟩
  rw [initProg, pushArgvStrings, Act.bind_of_ok h₁, pushEnvStrings, h₂]
  rfl

end

/-- What `init_prog` leaves on the stack decodes to its input: each list is read back from `al` up
to `a0`, in reverse order and completely, `a0` is 0 exactly for the empty list, and the two blocks
do not overlap.  With room on the stack and no failing check it gets there. -/
theorem init_prog_decodes (ω : Type) (r : Remote) {argv envp : List Bytes}
    (hargv : ∀ s ∈ argv, (0 : UInt8) ∉ s) (henvp : ∀ s ∈ envp, (0 : UInt8) ∉ s)
    {w : WorkerStack} (h0 : ∀ which, (w.range which).a0 = 0) :
    (∀ w' (o : List ω),
      initProg r ((w.setArgvStrings argv).setEnvpStrings envp) = ⟨.ok (), w', o⟩ →
      Decodes w'.mem (w'.range .argv) argv ∧ Decodes w'.mem (w'.range .envp) envp ∧
        (argv ≠ [] → envp ≠ [] →
          (w'.range .envp).al + blockSize envp ≤ (w'.range .argv).al)) ∧
    ((∀ addr sz, r.base ≤ addr → 0 ≤ r.check addr sz) →
      r.base + blockSize argv + blockSize envp ≤ w.sp →
      ∃ w', (initProg r ((w.setArgvStrings argv).setEnvpStrings envp) :
        Out WorkerStack ω Stop Unit) = ⟨.ok (), w', []⟩) := by
  refine ⟨fun w' o hrun => ?_, initProg_returns hargv henvp h0⟩
  obtain ⟨ha, he, hdisj⟩ := initProg_layout hargv henvp h0 hrun
  exact ⟨ha.decodes, he.decodes, hdisj⟩

/-- A mapping that begins at `base` and whose dataspace has memory for all of it. -/
def Remote.above (base : ℕ) (hpos : 0 < base) : Remote where
  base := base
  base_pos := hpos
  check addr _ := if base ≤ addr then 0 else -l4ENoMem
  inside := by
    intro addr _ h
    by_contra hlt
    rw [if_neg hlt] at h
    exact absurd h (by decide)

def onePage : Remote := .above 0x1000 (by decide)

/-- A worker nothing was pushed for yet. -/
def freshStack : WorkerStack where
  mem := fun _ => 0
  sp := 0x2000

theorem init_prog_decodes_example :
    ∃ w', (initProg onePage ((freshStack.setArgvStrings [lit "worker", [], lit "7"]).setEnvpStrings
        [lit "LOG_LEVEL=31"]) : Out WorkerStack Unit Stop Unit) = ⟨.ok (), w', []⟩ ∧
      Decodes w'.mem (w'.range .argv) [lit "worker", [], lit "7"] ∧
      Decodes w'.mem (w'.range .envp) [lit "LOG_LEVEL=31"] := by
  have hargv : ∀ s ∈ [lit "worker", [], lit "7"], (0 : UInt8) ∉ s := by decide
  have henvp : ∀ s ∈ [lit "LOG_LEVEL=31"], (0 : UInt8) ∉ s := by decide
  have h0 : ∀ which, (freshStack.range which).a0 = 0 := fun _ => rfl
  obtain ⟨hlayout, hreturns⟩ := init_prog_decodes Unit onePage hargv henvp h0
  have hcheck : ∀ addr sz, onePage.base ≤ addr → 0 ≤ onePage.check addr sz := by
    intro addr sz h
    have hzero : onePage.check addr sz = 0 := if_pos h
    exact Int.le_of_eq hzero.symm
  obtain ⟨w', hrun⟩ := hreturns hcheck (by decide)
  obtain ⟨ha, he, -⟩ := hlayout w' [] hrun
  exact ⟨w', hrun, ha, he⟩

end MettEagle
