/-
# `MettEagle.LogSync` — threads that log at the same time

`SemaphoreSync` puts a shared semaphore around the print of a log message, so
that messages of several processes do not end up inside one another:

    start ()    keep the first message register, then `down`
    print       one or more messages to the log server
    end ()      `up`, then put the register back

The semaphore starts at zero; the benchmark client's main adds the one permit
there is to be ("increase log semaphore once to prevent deadlock").  A process
that has no `log_sync` capability (a worker) prints without it.

A step is one operation of one thread, so threads interleave between the pieces
of a line.  `down`, `print` and `up` are IPC and leave anything in the register.
-/
import MettEagle.Lib.Permits
import MettEagle.Lib.Run
import MettEagle.Liblog
import Mathlib.Algebra.Order.BigOperators.Group.Finset

namespace MettEagle.LogSync

/-! ## The threads -/

/-- Where a thread is in `log`; `line` and `rest` are what `print` sends, piece by piece. -/
inductive Pc where
  /-- anywhere else -/
  | idle
  /-- before `sync.start ()` -/
  | starting (line : List Bytes)
  /-- before `sema->down ()` -/
  | taking (line : List Bytes) (store : Word)
  | printing (rest : List Bytes) (store : Word)
  /-- after `sema->up ()` -/
  | restoring (store : Word)

inductive Op where
  /-- anything but logging; it leaves `v` in the register -/
  | work (v : Word)
  /-- main: `log_sync->up ()` -/
  | boot (v : Word)
  /-- `log<Severity> (msg, args...)`, up to the string that is printed; `header` is what the format
  puts before the message (time, thread, package and place), `level` what `getLevel` reads -/
  | log (level : BitVec 32) (sev : Severity) (msg : Bytes) (args : List Bytes) (header : Bytes)
  | start
  | down (line : List Bytes)
  | print (piece : Bytes)
  | up
  | restore

/-- `out_string.c_str ()`. -/
def outString (header text : Bytes) : Bytes := (CString.ofBytes (header ++ (text ++ lit "\n"))).bytes

/-- The line a call of `log` prints, if it prints one. -/
def Op.message : Op → Option Bytes
  | .log level sev msg args header =>
      match MettEagle.log .silenceByEnv level sev msg args with
      | .ok (some text) => some (outString header text)
      | _ => none
  | _ => none

/-- What a thread sees: the semaphore, its program counter and its message register. -/
structure View where
  sem : ℕ
  pc : Pc
  mr0 : Word

/-- One step of a thread; `valid` is `sema.is_valid ()` in its process. -/
inductive Act (valid : Bool) : View → Op → View → Prop
  | work {n : ℕ} {a v : Word} : Act valid ⟨n, .idle, a⟩ (.work v) ⟨n, .idle, v⟩
  | boot {n : ℕ} {a v : Word} : Act valid ⟨n, .idle, a⟩ (.boot v) ⟨n + 1, .idle, v⟩
  | log {n : ℕ} {a : Word} {level : BitVec 32} {sev : Severity} {msg header : Bytes}
      {args line : List Bytes} :
      (Op.log level sev msg args header).message = some line.flatten →
      Act valid ⟨n, .idle, a⟩ (.log level sev msg args header) ⟨n, .starting line, a⟩
  -- silenced, or the format throws
  | quiet {n : ℕ} {a : Word} {level : BitVec 32} {sev : Severity} {msg header : Bytes}
      {args : List Bytes} : (Op.log level sev msg args header).message = none →
      Act valid ⟨n, .idle, a⟩ (.log level sev msg args header) ⟨n, .idle, a⟩
  | start {n : ℕ} {a : Word} {line : List Bytes} :
      Act valid ⟨n, .starting line, a⟩ .start ⟨n, .taking line a, a⟩
  | down {n : ℕ} {a b store : Word} {line : List Bytes} : valid = true →
      Act valid ⟨n + 1, .taking line store, a⟩ (.down line) ⟨n, .printing line store, b⟩
  | noDown {n : ℕ} {a store : Word} {line : List Bytes} : valid = false →
      Act valid ⟨n, .taking line store, a⟩ (.down line) ⟨n, .printing line store, a⟩
  | print {n : ℕ} {a b store : Word} {piece : Bytes} {rest : List Bytes} :
      Act valid ⟨n, .printing (piece :: rest) store, a⟩ (.print piece) ⟨n, .printing rest store, b⟩
  | up {n : ℕ} {a b store : Word} : valid = true →
      Act valid ⟨n, .printing [] store, a⟩ .up ⟨n + 1, .restoring store, b⟩
  | noUp {n : ℕ} {a store : Word} : valid = false →
      Act valid ⟨n, .printing [] store, a⟩ .up ⟨n, .restoring store, a⟩
  | restore {n : ℕ} {a store : Word} : Act valid ⟨n, .restoring store, a⟩ .restore ⟨n, .idle, store⟩

structure State (T : Type*) where
  sem : ℕ
  pc : T → Pc
  mr0 : T → Word

variable {T : Type*}

def State.view (s : State T) (t : T) : View := ⟨s.sem, s.pc t, s.mr0 t⟩

/-- Nobody logs, and the semaphore is as the factory made it. -/
def init (mr0 : T → Word) : State T := ⟨0, fun _ => .idle, mr0⟩

/-- One thread takes a step, the others stay where they are. -/
def Step (valid : T → Bool) (s : State T) (l : T × Op) (s' : State T) : Prop :=
  Act (valid l.1) (s.view l.1) l.2 (s'.view l.1) ∧
    ∀ u, u ≠ l.1 → s'.pc u = s.pc u ∧ s'.mr0 u = s.mr0 u

section
variable [DecidableEq T]

def State.put (s : State T) (t : T) (v : View) : State T :=
  ⟨v.sem, Function.update s.pc t v.pc, Function.update s.mr0 t v.mr0⟩

theorem step_put {valid : T → Bool} {s : State T} {t : T} {o : Op} {v : View}
    (h : Act (valid t) (s.view t) o v) : Step valid s (t, o) (s.put t v) := by
  refine ⟨?_, fun u hu => ?_⟩
  · simpa [State.view, State.put] using h
  · exact ⟨Function.update_of_ne hu _ _, Function.update_of_ne hu _ _⟩

end

/-! ## What is asked of it -/

namespace Op

/-- The line a thread enters the print with. -/
def entered : Op → Option Bytes
  | .down line => some line.flatten
  | _ => none

def printed : Op → Bytes
  | .print piece => piece
  | _ => []

def isBoot : Op → Bool
  | .boot _ => true
  | _ => false

/-- A step of a call of `log` under way. -/
def inside : Op → Bool
  | .work _ | .boot _ | .log .. => false
  | _ => true

/-- The register, after the thread did something other than logging. -/
def left (a : Word) : Op → Word
  | .work v | .boot v => v
  | _ => a

end Op

/-- How often the semaphore was raised by main. -/
def boots (ls : List (T × Op)) : ℕ := ls.countP (·.2.isBoot)

/-- What the threads that have the semaphore printed, and the lines they entered with. -/
def output (valid : T → Bool) (ls : List (T × Op)) : Bytes :=
  (ls.filter (valid ·.1)).flatMap (·.2.printed)

def lines (valid : T → Bool) (ls : List (T × Op)) : List (T × Bytes) :=
  (ls.filter (valid ·.1)).filterMap fun l => l.2.entered.map (l.1, ·)

section
variable [DecidableEq T]

def ops (t : T) (ls : List (T × Op)) : List Op := (ls.filter (·.1 = t)).map (·.2)

/-- The lines of the calls of `log` a thread made. -/
def logged (t : T) (ls : List (T × Op)) : List Bytes := (ops t ls).filterMap Op.message

/-- The lines one after another, each to its end except perhaps the last. -/
def Whole (lines : List (T × Bytes)) (out : Bytes) : Prop :=
  ∃ rest, lines.flatMap (·.2) = out ++ rest ∧ ∀ l, lines.getLast? = some l → rest <:+ l.2

end

/-! ## One thread by itself -/

namespace Pc

/-- The lines announced and not yet entered. -/
def waiting : Pc → List Bytes
  | starting line | taking line _ => [line.flatten]
  | _ => []

/-- What is still to be printed. -/
def rest : Pc → Bytes
  | starting line | taking line _ => line.flatten
  | printing rest _ => rest.flatten
  | _ => []

/-- The register as the caller of `log` left it. -/
def saved (a : Word) : Pc → Word
  | idle | starting _ => a
  | taking _ store | printing _ store | restoring store => store

/-- Between `down` and `up`. -/
def isPrinting : Pc → Bool
  | printing _ _ => true
  | _ => false

end Pc

/-- What a thread has done accounts for where it is. -/
structure Local (a0 : Word) (os : List Op) (v : View) : Prop where
  lines : os.filterMap Op.message = os.filterMap Op.entered ++ v.pc.waiting
  bytes : (os.filterMap Op.message).flatten = os.flatMap Op.printed ++ v.pc.rest
  register : v.pc.saved v.mr0 = os.foldl Op.left a0

namespace Act

variable {valid : Bool} {v v' : View} {o : Op} (h : Act valid v o v')
include h

theorem waiting_eq : v.pc.waiting ++ o.message.toList = o.entered.toList ++ v'.pc.waiting := by
  cases h with
  | log hm | quiet hm =>
      rw [hm]
      rfl
  | _ => rfl

theorem rest_eq : v.pc.rest ++ o.message.getD [] = o.printed ++ v'.pc.rest := by
  cases h with
  | log hm | quiet hm =>
      rw [hm]
      rfl
  | start | down _ | noDown _ | print => exact List.append_nil _
  | _ => rfl

theorem saved_eq : v'.pc.saved v'.mr0 = o.left (v.pc.saved v.mr0) := by
  cases h <;> rfl

end Act

/-- **Step.** -/
theorem Local.step {a0 : Word} {os : List Op} {valid : Bool} {v v' : View} {o : Op}
    (h : Local a0 os v) (hs : Act valid v o v') : Local a0 (os ++ [o]) v' := by
  refine ⟨?_, ?_, ?_⟩
  · have hm : ∀ f : Op → Option Bytes, [o].filterMap f = (f o).toList := fun f => by
      cases hf : f o <;> simp [hf]
    rw [List.filterMap_append, List.filterMap_append, hm, hm, h.lines, List.append_assoc,
      List.append_assoc, hs.waiting_eq]
  · have hm : ([o].filterMap Op.message).flatten = o.message.getD [] := by
      cases hf : o.message <;> simp [hf]
    rw [List.filterMap_append, List.flatten_append, h.bytes, hm, List.append_assoc, hs.rest_eq,
      List.flatMap_append, List.flatMap_singleton, List.append_assoc]
  · rw [List.foldl_append, ← h.register]
    exact hs.saved_eq

section
variable [DecidableEq T] {valid : T → Bool} {mr0 : T → Word} {s s' : State T}
  {ls : List (T × Op)} {l : T × Op} {t : T}

theorem ops_snoc_self : ops l.1 (ls ++ [l]) = ops l.1 ls ++ [l.2] := by
  simp [ops]

theorem ops_snoc_of_ne (h : t ≠ l.1) : ops t (ls ++ [l]) = ops t ls := by
  simp [ops, Ne.symm h]

/-- **Runs.** -/
theorem local_of_run (h : Run (Step valid) (init mr0) ls s) :
    ∀ t, Local (mr0 t) (ops t ls) (s.view t) := by
  refine h.inv (I := fun ls s => ∀ t, Local (mr0 t) (ops t ls) (s.view t)) ?_ ?_
  · exact fun t => ⟨rfl, rfl, rfl⟩
  · intro ls s l s' hI hs t
    by_cases ht : t = l.1
    · subst ht
      rw [ops_snoc_self]
      exact (hI l.1).step hs.1
    · obtain ⟨hlines, hbytes, hreg⟩ := hI t
      obtain ⟨hpc, hmr⟩ := hs.2 t ht
      rw [ops_snoc_of_ne ht]
      refine ⟨?_, ?_, ?_⟩
      · rw [hlines, State.view, State.view, hpc]
      · rw [hbytes, State.view, State.view, hpc]
      · rw [← hreg, State.view, State.view, hpc, hmr]

end

/-! ## The permit -/

/-- It is between `down` and `up`, and these did something. -/
def held (valid : T → Bool) (s : State T) (t : T) : Bool := valid t && (s.pc t).isPrinting

section
variable {valid : T → Bool} {mr0 : T → Word} {s s' : State T} {ls : List (T × Op)} {l : T × Op}
  {t : T}

theorem Act.sem_eq {b : Bool} {v v' : View} {o : Op} (h : Act b v o v') :
    v'.sem + (b && v'.pc.isPrinting).toNat =
      v.sem + (b && v.pc.isPrinting).toNat + o.isBoot.toNat := by
  cases h with
  | down hb | noDown hb | up hb | noUp hb =>
      subst hb
      rfl
  | _ => cases b <;> rfl

theorem held_of_ne (hs : Step valid s l s') (h : t ≠ l.1) : held valid s' t = held valid s t := by
  rw [held, held, (hs.2 t h).1]

theorem boots_snoc : boots (ls ++ [l]) = boots ls + l.2.isBoot.toNat := by
  rw [boots, List.countP_append, List.countP_singleton, boots]
  cases l.2.isBoot <;> rfl

/-- **Step.** -/
theorem sem_add_holders_step [Fintype T] (hs : Step valid s l s') :
    s'.sem + holders (held valid s') = s.sem + holders (held valid s) + l.2.isBoot.toNat := by
  have hmove : holders (held valid s') + (held valid s l.1).toNat =
      holders (held valid s) + (held valid s' l.1).toNat :=
    holders_move fun u hu => held_of_ne hs hu
  have hsem : s'.sem + (held valid s' l.1).toNat =
      s.sem + (held valid s l.1).toNat + l.2.isBoot.toNat := hs.1.sem_eq
  omega

/-- **Runs.**  The permits main added are in the semaphore or with a thread that prints. -/
theorem sem_add_holders [Fintype T] (h : Run (Step valid) (init mr0) ls s) :
    s.sem + holders (held valid s) = boots ls := by
  refine h.inv (I := fun ls s => s.sem + holders (held valid s) = boots ls) ?_ ?_
  · have hnone : holders (held valid (init mr0)) = 0 :=
      holders_eq_zero.mpr fun t => Bool.and_false _
    rw [hnone]
    rfl
  · intro ls s l s' hI hs
    rw [boots_snoc, ← hI]
    exact sem_add_holders_step hs

/-! ## The lines -/

theorem lines_snoc (hv : valid l.1 = true) :
    lines valid (ls ++ [l]) = lines valid ls ++ (l.2.entered.map (l.1, ·)).toList := by
  cases he : l.2.entered <;> simp [lines, hv, he]

theorem output_snoc (hv : valid l.1 = true) :
    output valid (ls ++ [l]) = output valid ls ++ l.2.printed := by
  simp [output, hv]

theorem snoc_of_not (hv : valid l.1 = false) :
    lines valid (ls ++ [l]) = lines valid ls ∧ output valid (ls ++ [l]) = output valid ls := by
  simp [lines, output, hv]

/-- What is printed are the lines, up to what the thread that prints still has to print. -/
structure Shared (valid : T → Bool) (ls : List (T × Op)) (s : State T) : Prop where
  printing : ∀ t, held valid s t = true → ∃ line, (lines valid ls).getLast? = some (t, line) ∧
    (s.pc t).rest <:+ line ∧ (lines valid ls).flatMap (·.2) = output valid ls ++ (s.pc t).rest
  free : (∀ t, held valid s t = false) → (lines valid ls).flatMap (·.2) = output valid ls

theorem Shared.frame {ls' : List (T × Op)} (h : Shared valid ls s)
    (hlines : lines valid ls' = lines valid ls) (hout : output valid ls' = output valid ls)
    (hheld : ∀ t, held valid s' t = held valid s t)
    (hpc : ∀ t, held valid s t = true → s'.pc t = s.pc t) : Shared valid ls' s' := by
  refine ⟨fun t ht => ?_, fun hfree => ?_⟩
  · rw [hheld] at ht
    rw [hlines, hout, hpc t ht]
    exact h.printing t ht
  · rw [hlines, hout]
    exact h.free fun t => (hheld t).symm.trans (hfree t)

/-- Nobody prints before or after the step. -/
theorem Shared.quiet (h : Shared valid ls s) (hs : Step valid s l s')
    (hpc : (s.pc l.1).isPrinting = false) (hpc' : (s'.pc l.1).isPrinting = false)
    (he : l.2.entered = none) (hp : l.2.printed = []) : Shared valid (ls ++ [l]) s' := by
  have hheld : ∀ t, held valid s' t = held valid s t := by
    intro t
    by_cases ht : t = l.1
    · rw [held, held, ht, hpc, hpc']
    · exact held_of_ne hs ht
  refine h.frame ?_ ?_ hheld fun t ht => ?_
  · cases hv : valid l.1 with
    | false => exact (snoc_of_not hv).1
    | true => rw [lines_snoc hv, he]; exact List.append_nil _
  · cases hv : valid l.1 with
    | false => exact (snoc_of_not hv).2
    | true => rw [output_snoc hv, hp]; exact List.append_nil _
  · have hne : t ≠ l.1 := by
      rintro rfl
      rw [held, hpc, Bool.and_false] at ht
      cases ht
    exact (hs.2 t hne).1

/-- **Step.** -/
theorem Shared.step [Fintype T] (h : Shared valid ls s) (hs : Step valid s l s')
    (hone : s.sem + holders (held valid s) ≤ 1) : Shared valid (ls ++ [l]) s' := by
  obtain ⟨u, o⟩ := l
  -- whoever holds the permit is the only one
  have halone : ∀ t, held valid s u = true → t ≠ u → held valid s' t = false := by
    intro t hu hne
    rw [held_of_ne hs hne]
    exact Bool.eq_false_iff.mpr fun ht =>
      hne (eq_of_holders_le_one (by omega) ht hu)
  cases hv : valid u with
  | false =>
      have hfalse : ∀ s : State T, held valid s u = false := fun s => by
        rw [held, hv, Bool.false_and]
      refine h.frame (snoc_of_not hv).1 (snoc_of_not hv).2 (fun t => ?_) fun t ht => ?_
      · by_cases ht : t = u
        · rw [ht, hfalse, hfalse]
        · exact held_of_ne hs ht
      · refine (hs.2 t ?_).1
        rintro rfl
        rw [hfalse] at ht
        cases ht
  | true =>
      have hact := hs.1
      simp only [hv] at hact
      generalize hw : s.view u = v, hw' : s'.view u = v' at hact
      have hpc : s.pc u = v.pc := congrArg View.pc hw
      have hpc' : s'.pc u = v'.pc := congrArg View.pc hw'
      cases hact with
      | work | boot | start | restore => exact h.quiet hs (by rw [hpc]; rfl) (by rw [hpc']; rfl) rfl rfl
      | log _ | quiet _ => exact h.quiet hs (by rw [hpc]; rfl) (by rw [hpc']; rfl) rfl rfl
      | noDown hb | noUp hb => cases hb
      | @down n a b store line _ =>
          have hsem : s.sem = n + 1 := congrArg View.sem hw
          have hnone : ∀ t, held valid s t = false := holders_eq_zero.mp (by omega)
          have hheld : held valid s' u = true := by
            rw [held, hv, hpc']
            rfl
          refine ⟨fun t ht => ?_, fun hfree => ?_⟩
          · obtain rfl : t = u := by
              by_contra hne
              rw [held_of_ne hs hne, hnone] at ht
              cases ht
            refine ⟨line.flatten, ?_, ?_, ?_⟩
            · rw [lines_snoc hv]
              exact List.getLast?_concat
            · rw [hpc']
              exact List.suffix_refl _
            · rw [lines_snoc hv, output_snoc hv, List.flatMap_append, h.free hnone, hpc']
              simp [Op.entered, Op.printed, Pc.rest]
          · rw [hfree] at hheld
            cases hheld
      | @print n a b store piece rest =>
          have hheld : held valid s u = true := by
            rw [held, hv, hpc]
            rfl
          have hheld' : held valid s' u = true := by
            rw [held, hv, hpc']
            rfl
          obtain ⟨line, hlast, hrest, hbytes⟩ := h.printing u hheld
          rw [hpc] at hrest hbytes
          refine ⟨fun t ht => ?_, fun hfree => ?_⟩
          · obtain rfl : t = u := by
              by_contra hne
              rw [halone t hheld hne] at ht
              cases ht
            refine ⟨line, ?_, ?_, ?_⟩
            · rw [lines_snoc hv]
              exact (congrArg List.getLast? (List.append_nil _)).trans hlast
            · rw [hpc']
              exact (List.suffix_append piece rest.flatten).trans hrest
            · rw [lines_snoc hv, output_snoc hv, hpc']
              simpa [Op.entered, Op.printed, Pc.rest] using hbytes
          · rw [hfree] at hheld'
            cases hheld'
      | up _ =>
          have hheld : held valid s u = true := by
            rw [held, hv, hpc]
            rfl
          obtain ⟨line, -, -, hbytes⟩ := h.printing u hheld
          rw [hpc] at hbytes
          refine ⟨fun t ht => ?_, fun _ => ?_⟩
          · by_cases hne : t = u
            · rw [hne, held, hpc'] at ht
              cases (Bool.and_false _).symm.trans ht
            · rw [halone t hheld hne] at ht
              cases ht
          · rw [lines_snoc hv, output_snoc hv]
            simpa [Op.entered, Op.printed, Pc.rest] using hbytes

theorem boots_le_snoc : boots ls ≤ boots (ls ++ [l]) := by
  rw [boots_snoc]
  exact Nat.le_add_right _ _

/-- **Runs.** -/
theorem shared_of_run [Fintype T] (h : Run (Step valid) (init mr0) ls s) (hone : boots ls ≤ 1) :
    Shared valid ls s := by
  induction h with
  | nil => exact ⟨fun t ht => absurd (Bool.and_false _ ▸ ht) Bool.false_ne_true, fun _ => rfl⟩
  | snoc hrun hs ih =>
      have hle := boots_le_snoc.trans hone
      exact (ih hle).step hs ((sem_add_holders hrun).le.trans hle)

/-- The lines of one thread among all lines. -/
theorem lines_of_thread [DecidableEq T] (hv : valid t = true) :
    ((lines valid ls).filter (·.1 = t)).map (·.2) = (ops t ls).filterMap Op.entered := by
  induction ls using List.reverseRecOn with
  | nil => rfl
  | append_singleton ls l ih =>
      by_cases ht : t = l.1
      · subst ht
        rw [lines_snoc hv, ops_snoc_self, List.filter_append, List.map_append, ih,
          List.filterMap_append]
        cases he : l.2.entered <;> simp [he]
      · rw [ops_snoc_of_ne ht, ← ih]
        cases hv' : valid l.1 with
        | false => rw [(snoc_of_not hv').1]
        | true =>
            rw [lines_snoc hv']
            cases he : l.2.entered <;> simp [Ne.symm ht]

/-- A thread prints what it logs, in that order. -/
theorem lines_prefix_logged [DecidableEq T] (hrun : Run (Step valid) (init mr0) ls s)
    (hv : valid t = true) : ((lines valid ls).filter (·.1 = t)).map (·.2) <+: logged t ls ∧
      (s.pc t = .idle → ((lines valid ls).filter (·.1 = t)).map (·.2) = logged t ls) := by
  have hlines := (local_of_run hrun t).lines
  rw [lines_of_thread hv, logged, hlines]
  refine ⟨List.prefix_append _ _, fun hidle => ?_⟩
  rw [State.view, hidle]
  exact (List.append_nil _).symm

theorem valid_of_mem_lines {l : T × Bytes} (h : l ∈ lines valid ls) : valid l.1 = true := by
  obtain ⟨l₀, hmem, heq⟩ := List.mem_filterMap.mp h
  obtain ⟨line, -, rfl⟩ := Option.map_eq_some_iff.mp heq
  exact (List.mem_filter.mp hmem).2

/-- **The messages stay whole.**  With at most one permit, what the threads with a semaphore print,
however they interleave, are their lines one after another in the order in which they entered, and
a thread's lines are its messages in the order in which it logged them. -/
theorem log_messages_whole [Fintype T] [DecidableEq T] (hrun : Run (Step valid) (init mr0) ls s)
    (hone : boots ls ≤ 1) :
    Whole (lines valid ls) (output valid ls) ∧
    ((∀ t, valid t = true → s.pc t = .idle) →
      output valid ls = (lines valid ls).flatMap (·.2)) ∧
    ∀ t, valid t = true → ((lines valid ls).filter (·.1 = t)).map (·.2) <+: logged t ls ∧
      (s.pc t = .idle → ((lines valid ls).filter (·.1 = t)).map (·.2) = logged t ls) := by
  have hshared := shared_of_run hrun hone
  refine ⟨?_, fun hidle => ?_, fun t hv => lines_prefix_logged hrun hv⟩
  · by_cases hfree : ∀ t, held valid s t = false
    · exact ⟨[], (hshared.free hfree).trans (List.append_nil _).symm,
        fun l _ => List.nil_suffix⟩
    · obtain ⟨t, ht⟩ := not_forall.mp hfree
      obtain ⟨line, hlast, hrest, hbytes⟩ := hshared.printing t (Bool.eq_true_of_not_eq_false ht)
      refine ⟨_, hbytes, fun l hl => ?_⟩
      rw [hlast] at hl
      cases hl
      exact hrest
  · refine (hshared.free fun t => ?_).symm
    cases hv : valid t with
    | false => rw [held, hv, Bool.false_and]
    | true => rw [held, hidle t hv]; exact Bool.and_false _

/-- Two processes log "a" and "b"; the first prints while the second waits. -/
def twoLogs : List (Bool × Op) :=
  [(true, .boot 1), (true, .log 0x1F .info (lit "a") [] (lit "1 ")),
   (false, .log 0x1F .info (lit "{}") [lit "b"] (lit "2 ")), (false, .start), (true, .start),
   (true, .down [lit "1 a", lit "\n"]), (true, .print (lit "1 a"))]

def twoLogsEnd : State Bool :=
  (((((((init fun _ => 7).put true ⟨1, .idle, 1⟩).put true
    ⟨1, .starting [lit "1 a", lit "\n"], 1⟩).put false ⟨1, .starting [lit "2 b\n"], 7⟩).put false
    ⟨1, .taking [lit "2 b\n"] 7, 7⟩).put true ⟨1, .taking [lit "1 a", lit "\n"] 1, 1⟩).put true
    ⟨0, .printing [lit "1 a", lit "\n"] 1, 0⟩).put true ⟨0, .printing [lit "\n"] 1, 5⟩

theorem twoLogs_run : Run (Step fun _ => true) (init fun _ => 7) twoLogs twoLogsEnd :=
  ((((((Run.nil.snoc (step_put .boot)).snoc (step_put (.log (by decide)))).snoc
    (step_put (.log (by decide)))).snoc (step_put .start)).snoc (step_put .start)).snoc
    (step_put (.down rfl))).snoc (step_put .print)

theorem log_messages_whole_two :
    (∀ t, Whole (lines (fun _ => true) twoLogs) (output (fun _ => true) twoLogs) ∧
      ((lines (fun _ => true) twoLogs).filter (·.1 = t)).map (·.2) <+: logged t twoLogs) ∧
    output (fun _ => true) twoLogs = lit "1 a" ∧ logged false twoLogs = [lit "2 b\n"] := by
  obtain ⟨hwhole, -, hlines⟩ := log_messages_whole twoLogs_run (by decide)
  exact ⟨fun t => ⟨hwhole, (hlines t rfl).1⟩, by decide, by decide⟩

end

/-! ## Every call of `log` returns -/

namespace Pc

/-- An upper bound on the steps to the end of `log`. -/
def weight : Pc → ℕ
  | idle => 0
  | starting line => line.length + 4
  | taking line _ => line.length + 3
  | printing rest _ => rest.length + 2
  | restoring _ => 1

/-- It has not got past `down`. -/
def early : Pc → Bool
  | idle | starting _ | taking _ _ => true
  | _ => false

end Pc

/-- No call of `log` under way can go on. -/
def Settled (valid : T → Bool) (s : State T) : Prop :=
  ∀ l s', l.2.inside = true → ¬Step valid s l s'

/-- What the calls under way need: a permit, or that none of them waits for one. -/
def CanFinish [Fintype T] (valid : T → Bool) (s : State T) : Prop :=
  0 < s.sem + holders (held valid s) ∨ ∀ t, valid t = true → s.pc t = .idle

section
variable {valid : T → Bool} {mr0 : T → Word} {s s' : State T} {ls ls' : List (T × Op)} {l : T × Op}
  {t : T}

theorem Act.weight_lt {b : Bool} {v v' : View} {o : Op} (h : Act b v o v') (ho : o.inside = true) :
    v'.pc.weight < v.pc.weight := by
  cases h with
  | work | boot | log _ | quiet _ => cases ho
  | _ => simp [Pc.weight]

/-- A call under way can go on, unless it waits for a permit and there is none. -/
theorem exists_act {b : Bool} {v : View} (hidle : v.pc ≠ .idle) (hsem : b = true → 0 < v.sem ∨
    v.pc.isPrinting = true) : ∃ o v', Act b v o v' ∧ o.inside = true := by
  obtain ⟨n, pc, a⟩ := v
  cases pc with
  | idle => exact absurd rfl hidle
  | starting line => exact ⟨_, _, .start, rfl⟩
  | taking line store =>
      cases b with
      | false => exact ⟨_, _, .noDown rfl, rfl⟩
      | true =>
          cases n with
          | zero => rcases hsem rfl with h | h <;> cases h
          | succ n => exact ⟨_, ⟨n, .printing line store, a⟩, .down rfl, rfl⟩
  | printing rest store =>
      cases rest with
      | cons piece rest => exact ⟨_, ⟨n, .printing rest store, a⟩, .print, rfl⟩
      | nil =>
          cases b with
          | false => exact ⟨_, _, .noUp rfl, rfl⟩
          | true => exact ⟨_, ⟨n + 1, .restoring store, a⟩, .up rfl, rfl⟩
  | restoring store => exact ⟨_, _, .restore, rfl⟩

theorem exists_step {v' : View} {o : Op} (h : Act (valid t) (s.view t) o v') :
    ∃ s', Step valid s (t, o) s' := by
  classical
  exact ⟨_, step_put h⟩

theorem weight_lt [Fintype T] (hs : Step valid s l s') (hin : l.2.inside = true) :
    ∑ t, (s'.pc t).weight < ∑ t, (s.pc t).weight := by
  have hlt : (s'.pc l.1).weight < (s.pc l.1).weight := hs.1.weight_lt hin
  refine Finset.sum_lt_sum (fun t _ => ?_) ⟨l.1, Finset.mem_univ _, hlt⟩
  by_cases ht : t = l.1
  · rw [ht]
    exact hlt.le
  · rw [(hs.2 t ht).1]

/-- **Runs.**  Steps of calls under way are bounded. -/
theorem length_add_weight_le [Fintype T] (h : Run (Step valid) s ls' s')
    (hin : ∀ l ∈ ls', l.2.inside = true) :
    ls'.length + ∑ t, (s'.pc t).weight ≤ ∑ t, (s.pc t).weight := by
  induction h with
  | nil => exact (Nat.zero_add _).le
  | @snoc ls _ _ l _ hs ih =>
      have hle := ih fun l hl => hin l (List.mem_append_left _ hl)
      have hlt := weight_lt hs (hin l (List.mem_append_right _ (List.mem_singleton_self l)))
      rw [List.length_append, List.length_singleton]
      omega

theorem idle_of_settled [Fintype T] (hset : Settled valid s) (hcan : CanFinish valid s) :
    ∀ t, s.pc t = .idle := by
  -- a thread that prints goes on; if none does, the permit is free
  have hprinting : ∀ t, held valid s t = false := by
    intro t
    refine Bool.eq_false_iff.mpr fun ht => ?_
    have hpr : (s.pc t).isPrinting = true := (Bool.and_eq_true_iff.mp ht).2
    have hidle : s.pc t ≠ .idle := fun h0 => by
      rw [h0] at hpr
      cases hpr
    obtain ⟨o, v', hact, ho⟩ := exists_act (b := valid t) (v := s.view t) hidle fun _ => Or.inr hpr
    obtain ⟨s', hs⟩ := exists_step hact
    exact hset _ _ ho hs
  intro t
  by_contra hidle
  refine absurd (exists_act (b := valid t) (v := s.view t) hidle fun hv => Or.inl ?_) ?_
  · rcases hcan with hpos | hall
    · rwa [holders_eq_zero.mpr hprinting] at hpos
    · exact absurd (hall t hv) hidle
  · rintro ⟨o, v', hact, ho⟩
    obtain ⟨s', hs⟩ := exists_step hact
    exact hset _ _ ho hs

theorem isBoot_of_inside {o : Op} (h : o.inside = true) : o.isBoot = false := by
  cases o with
  | boot => cases h
  | _ => rfl

theorem mem_snoc_right : l ∈ ls ++ [l] := List.mem_append_right _ (List.mem_singleton_self l)

/-- **Step.**  Without a permit nobody who needs one gets past `down`. -/
theorem Act.early {v v' : View} {o : Op} (h : Act true v o v') (hsem : v.sem = 0)
    (he : v.pc.early = true) : v'.pc.early = true ∧ (o.inside = true → v'.pc ≠ .idle) := by
  cases h with
  | work | boot | log _ | quiet _ => exact ⟨rfl, fun ho => by cases ho⟩
  | start => exact ⟨rfl, fun _ => nofun⟩
  | down _ => cases hsem
  | noDown hb | noUp hb => cases hb
  | print | up _ | restore => cases he

/-- **Runs.** -/
theorem early_of_run [Fintype T] (h : Run (Step valid) (init mr0) ls s) (hnone : boots ls = 0)
    (hv : valid t = true) : (s.pc t).early = true := by
  induction h with
  | nil => rfl
  | @snoc ls s s' l hrun hs ih =>
      have hzero : boots ls = 0 := Nat.eq_zero_of_le_zero (boots_le_snoc.trans hnone.le)
      by_cases ht : t = l.1
      · subst ht
        have hact := hs.1
        rw [hv] at hact
        have hsem := sem_add_holders hrun
        exact (hact.early (by show s.sem = 0; omega) (ih hzero)).1
      · rw [(hs.2 t ht).1]
        exact ih hzero

/-- **Runs.**  Whoever waits for the permit stays where it waits while there is none. -/
theorem waits_of_run [Fintype T] (hrun : Run (Step valid) (init mr0) ls s) (hnone : boots ls = 0)
    (h : Run (Step valid) s ls' s') (hin : ∀ l ∈ ls', l.2.inside = true) (hv : valid t = true)
    (hidle : s.pc t ≠ .idle) : boots (ls ++ ls') = 0 ∧ s'.pc t ≠ .idle := by
  induction h with
  | nil => exact ⟨by rwa [List.append_nil], hidle⟩
  | @snoc ls' s₁ s₂ l h₁ hs ih =>
      obtain ⟨hzero, hne⟩ := ih fun l hl => hin l (List.mem_append_left _ hl)
      have hl := hin l mem_snoc_right
      rw [← List.append_assoc, boots_snoc, hzero, isBoot_of_inside hl]
      refine ⟨rfl, ?_⟩
      by_cases ht : t = l.1
      · subst ht
        have hact := hs.1
        rw [hv] at hact
        have hrun₁ := hrun.append h₁
        have hsem := sem_add_holders hrun₁
        exact (hact.early (by show s₁.sem = 0; omega) (early_of_run hrun₁ hzero hv)).2 hl
      · rw [(hs.2 t ht).1]
        exact hne

/-- **Runs.** -/
theorem CanFinish.run [Fintype T] (hcan : CanFinish valid s) (h : Run (Step valid) s ls' s')
    (hin : ∀ l ∈ ls', l.2.inside = true) : CanFinish valid s' := by
  induction h with
  | nil => exact hcan
  | @snoc ls' s₁ s₂ l _ hs ih =>
      have hl := hin l mem_snoc_right
      rcases ih fun l hl => hin l (List.mem_append_left _ hl) with hpos | hall
      · refine Or.inl ?_
        rw [sem_add_holders_step hs]
        exact hpos.trans_le (Nat.le_add_right _ _)
      · refine Or.inr fun t hv => ?_
        by_cases ht : t = l.1
        · subst ht
          -- a thread outside `log` takes no such step
          have hidle : (s₁.view l.1).pc = .idle := hall l.1 hv
          have hlt := hs.1.weight_lt hl
          rw [hidle] at hlt
          exact absurd hlt (Nat.not_lt_zero _)
        · rw [(hs.2 t ht).1]
          exact hall t hv

section
variable [DecidableEq T]

theorem ops_append : ops t (ls ++ ls') = ops t ls ++ ops t ls' := by
  rw [ops, List.filter_append, List.map_append]
  rfl

theorem inside_of_mem_ops {o : Op} (hin : ∀ l ∈ ls', l.2.inside = true) (ho : o ∈ ops t ls') :
    o.inside = true := by
  obtain ⟨l, hl, rfl⟩ := List.mem_map.mp ho
  exact hin l (List.mem_of_mem_filter hl)

theorem logged_append (hin : ∀ l ∈ ls', l.2.inside = true) :
    logged t (ls ++ ls') = logged t ls := by
  have hnil : (ops t ls').filterMap Op.message = [] := by
    refine List.filterMap_eq_nil_iff.mpr fun o ho => ?_
    have hi := inside_of_mem_ops hin ho
    cases o with
    | log => cases hi
    | _ => rfl
  rw [logged, ops_append, List.filterMap_append, hnil, List.append_nil]
  rfl

theorem left_append {a : Word} (hin : ∀ l ∈ ls', l.2.inside = true) :
    (ops t (ls ++ ls')).foldl Op.left a = (ops t ls).foldl Op.left a := by
  rw [ops_append, List.foldl_append]
  generalize (ops t ls).foldl Op.left a = b
  have hall : ∀ o ∈ ops t ls', o.inside = true := fun o ho => inside_of_mem_ops hin ho
  generalize ops t ls' = os at hall
  induction os generalizing b with
  | nil => rfl
  | cons o os ih =>
      have hi := hall o List.mem_cons_self
      have hleft : o.left b = b := by
        cases o with
        | work | boot => cases hi
        | _ => rfl
      rw [List.foldl_cons, hleft]
      exact ih b fun o ho => hall o (List.mem_cons_of_mem _ ho)

/-- **Every call of `log` returns exactly if there is a permit or nobody needs one.**  The calls
under way take boundedly many steps, in whatever order.  Where none of them can go on, all have
returned, provided a permit was added or no process with a semaphore was logging.  Who is back has
printed all it logged and finds the register as it left it. -/
theorem log_returns_iff [Fintype T] (hrun : Run (Step valid) (init mr0) ls s)
    (hrun' : Run (Step valid) s ls' s') (hin : ∀ l ∈ ls', l.2.inside = true) :
    ls'.length ≤ ∑ t, (s.pc t).weight ∧
    (Settled valid s' → ((∀ t, s'.pc t = .idle) ↔
      (0 < boots ls ∨ ∀ t, valid t = true → s.pc t = .idle))) ∧
    ∀ t, s'.pc t = .idle → (ops t (ls ++ ls')).flatMap Op.printed = (logged t ls).flatten ∧
      s'.mr0 t = (ops t ls).foldl Op.left (mr0 t) := by
  refine ⟨?_, fun hset => ⟨fun hidle => ?_, fun hcan => ?_⟩, fun t hidle => ?_⟩
  · exact (Nat.le_add_right _ _).trans (length_add_weight_le hrun' hin)
  · rcases Nat.eq_zero_or_pos (boots ls) with hzero | hpos
    · refine Or.inr fun t hv => ?_
      by_contra hne
      exact (waits_of_run hrun hzero hrun' hin hv hne).2 (hidle t)
    · exact Or.inl hpos
  · refine idle_of_settled hset (CanFinish.run (s := s) ?_ hrun' hin)
    rw [← sem_add_holders hrun] at hcan
    exact hcan
  · obtain ⟨-, hbytes, hreg⟩ := local_of_run (hrun.append hrun') t
    have hpc : (s'.view t).pc = .idle := hidle
    rw [hpc] at hbytes hreg
    rw [← logged_append hin, ← left_append hin]
    exact ⟨(hbytes.trans (List.append_nil _)).symm, hreg⟩

/-- The first process finishes its line, then the second prints. -/
theorem log_returns_iff_two :
    ∃ ls' s', Run (Step fun _ : Bool => true) twoLogsEnd ls' s' ∧ ls'.length = 7 ∧
      ls'.length ≤ ∑ t, (twoLogsEnd.pc t).weight ∧
      ∀ t, s'.mr0 t = (ops t twoLogs).foldl Op.left 7 := by
  have hrun : Run (Step fun _ : Bool => true) twoLogsEnd _ _ :=
    ((((((Run.nil.snoc (step_put (t := true) (v := ⟨0, .printing [] 1, 6⟩) .print)).snoc
      (step_put (t := true) (v := ⟨1, .restoring 1, 6⟩) (.up rfl))).snoc
      (step_put (t := false) (v := ⟨0, .printing [lit "2 b\n"] 7, 6⟩) (.down rfl))).snoc
      (step_put (t := true) .restore)).snoc
      (step_put (t := false) (v := ⟨0, .printing [] 7, 6⟩) .print)).snoc
      (step_put (t := false) (v := ⟨1, .restoring 7, 6⟩) (.up rfl))).snoc
      (step_put (t := false) .restore)
  obtain ⟨hle, -, hback⟩ := log_returns_iff twoLogs_run hrun (by decide)
  exact ⟨_, _, hrun, rfl, hle, fun t => (hback t (by cases t <;> rfl)).2⟩

end

end

end MettEagle.LogSync
