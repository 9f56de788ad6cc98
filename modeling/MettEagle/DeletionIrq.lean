/-
# `MettEagle.DeletionIrq` — the deletion IRQ of a client thread

The thread that serves a client has one deletion IRQ.  The kernel marks it pending
whenever a gate bound to the thread is deleted, the client's or that of a worker, and
marks coalesce.  `handle_irq` looks whether the client's gate is still there, and if not
cleans up and ends the thread:

    test             `!_client_gate.validate ().label () == 0`
    deleteEpiface    `delete epiface`
    deleteServer     `delete client_server`
    freeClientCpu    `free_client_cpu (bitmap)`
    deleteThis       `delete this`
    pthreadExit      `pthread_exit (nullptr)`

The registry hands the gate out after it has registered the IRQ (`Stage`), so the mark
is a latch for the end of the gate (`latch`), and the handler is where the cleanup
stands (`Inv`).
-/
import MettEagle.L4
import MettEagle.Lib.Latch

namespace MettEagle.DeletionIrq

/-! ## The thread, its gates and its IRQ -/

/-- The call of `op_register_client` that comes next. -/
inductive Stage where
  | registerObj
  | decRefcnt
  | registerIrqObj
  | registerDelIrq
  | runThread
  | handOut
  | returned
deriving DecidableEq

/-- `register_del_irq` is done. -/
def Stage.delIrq : Stage → Bool
  | .runThread | .handOut | .returned => true
  | _ => false

/-- `run_thread` is done. -/
def Stage.running : Stage → Bool
  | .handOut | .returned => true
  | _ => false

/-- The call may throw; what `register_del_irq` returns is not looked at. -/
def Stage.throws : Stage → Bool
  | .registerObj | .decRefcnt | .registerIrqObj | .runThread => true
  | _ => false

def Stage.next : Stage → Option Stage
  | .registerObj => some .decRefcnt
  | .decRefcnt => some .registerIrqObj
  | .registerIrqObj => some .registerDelIrq
  | .registerDelIrq => some .runThread
  | .runThread => some .handOut
  | .handOut => some .returned
  | .returned => none

inductive Gate where
  | absent
  | alive
  | gone
deriving DecidableEq

/-- `validate ().label ()`: whether the gate is there. -/
def Gate.label : Gate → Int
  | .alive => 1
  | .absent | .gone => 0

/-- Where the thread is in `handle_irq`; `out` is its server loop, with the invocations. -/
inductive Pc where
  | out
  | test
  | deleteEpiface
  | deleteServer
  | freeClientCpu
  | deleteThis
  | pthreadExit
  | exited
deriving DecidableEq

/-- What happens to the thread; `W` are the gates of workers. -/
inductive Event (W : Type*) where
  | registered (stage : Stage)
  | refused
  | workerGate (w : W)
  | workerGateDeleted (w : W)
  | clientGateDeleted
  | handles
  | stillThere
  | isGone
  | deletedEpiface
  | deletedServer
  | freedClientCpu (bitmap : Word)
  | deletedThis
  | exited
deriving DecidableEq

structure Client (W : Type*) where
  stage : Stage := .registerObj
  refused : Bool := false
  gate : Gate := .absent
  workers : W → Bool := fun _ => false
  pending : Bool := false
  pc : Pc := .out

variable {W : Type*}

/-- C's `!`. -/
def lnot (x : Int) : Int := if x = 0 then 1 else 0

/-- `handle_irq`, one step. -/
def handleIrq (bitmap : Word) (clientGate : Gate) : Pc → Option (Event W × Pc)
  | .out => none
  | .test =>
      -- `!` binds before `==`
      if lnot clientGate.label = 0 then some (.stillThere, .out) else some (.isGone, .deleteEpiface)
  | .deleteEpiface => some (.deletedEpiface, .deleteServer)
  | .deleteServer => some (.deletedServer, .freeClientCpu)
  | .freeClientCpu => some (.freedClientCpu bitmap, .deleteThis)
  | .deleteThis => some (.deletedThis, .pthreadExit)
  | .pthreadExit => some (.exited, .exited)
  | .exited => none

/-- The gate of a client is there once it is registered. -/
def Client.register (s : Client W) (stage : Stage) : Client W :=
  { s with stage := stage, gate := if s.stage = .registerObj then .alive else s.gate }

/-- The kernel marks the IRQ of the thread when a gate of it is deleted. -/
def Client.mark (s : Client W) : Client W :=
  { s with pending := s.pending || s.stage.delIrq }

/-- One step of the registry, the client, a worker or its invocation, or the thread. -/
inductive Step [DecidableEq W] (bitmap : Word) : Client W → Event W → Client W → Prop
  | register {s : Client W} {stage : Stage} : s.refused = false → s.stage.next = some stage →
      Step bitmap s (.registered s.stage) (s.register stage)
  | refuse {s : Client W} : s.stage.throws = true →
      Step bitmap s .refused { s with refused := true }
  | workerGate {s : Client W} {w : W} : s.stage.running = true → s.pc = .out → s.workers w = false →
      Step bitmap s (.workerGate w) { s with workers := Function.update s.workers w true }
  | workerGateDeleted {s : Client W} {w : W} : s.workers w = true →
      Step bitmap s (.workerGateDeleted w)
        { s.mark with workers := Function.update s.workers w false }
  | clientGateDeleted {s : Client W} : s.stage = .returned → s.gate = .alive →
      Step bitmap s .clientGateDeleted { s.mark with gate := .gone }
  | handles {s : Client W} : s.stage.running = true → s.pc = .out → s.pending = true →
      Step bitmap s .handles { s with pending := false, pc := .test }
  | exec {s : Client W} {e : Event W} {pc : Pc} : handleIrq bitmap s.gate s.pc = some (e, pc) →
      Step bitmap s e { s with pc := pc }

/-! ## The cleanup -/

/-- A cleanup, in its order. -/
def cleanup (bitmap : Word) : List (Event W) :=
  [.deletedEpiface, .deletedServer, .freedClientCpu bitmap]

def Event.isCleanup : Event W → Bool
  | .deletedEpiface | .deletedServer | .freedClientCpu _ => true
  | _ => false

/-- What was done of the cleanup, and how often. -/
def cleanups (ls : List (Event W)) : List (Event W) := ls.filter Event.isCleanup

theorem cleanups_snoc (ls : List (Event W)) (e : Event W) :
    cleanups (ls ++ [e]) = cleanups ls ++ if e.isCleanup then [e] else [] := by
  rw [cleanups, List.filter_append]
  cases he : e.isCleanup with
  | true => rw [List.filter_singleton, he]; rfl
  | false => rw [List.filter_singleton, he]; rfl

/-- The handler has seen that the gate is gone. -/
def Pc.late : Pc → Bool
  | .out | .test => false
  | _ => true

/-- What is done when the handler is here. -/
def Pc.done (bitmap : Word) : Pc → List (Event W)
  | .out | .test | .deleteEpiface => []
  | .deleteServer => [.deletedEpiface]
  | .freeClientCpu => [.deletedEpiface, .deletedServer]
  | .deleteThis | .pthreadExit | .exited => cleanup bitmap

variable {bitmap : Word} {ls : List (Event W)} {s s' : Client W} {e : Event W}

/-! ## One step -/

/-- What a step of the handler does: it looks, it goes on with the cleanup, or it ends. -/
theorem handleIrq_cases {g : Gate} {pc pc' : Pc} (h : handleIrq bitmap g pc = some (e, pc')) :
    (pc = .test ∧ g = .alive ∧ pc' = .out ∧ e = .stillThere) ∨
      (pc = .test ∧ g ≠ .alive ∧ pc' = .deleteEpiface ∧ e = .isGone) ∨
      (pc.late = true ∧ pc'.late = true ∧
        pc'.done bitmap = pc.done bitmap ++ if e.isCleanup then [e] else []) := by
  cases pc with
  | out => cases h
  | exited => cases h
  | test =>
      cases g with
      | alive =>
          cases h
          exact Or.inl ⟨rfl, rfl, rfl, rfl⟩
      | absent =>
          cases h
          exact Or.inr (Or.inl ⟨rfl, nofun, rfl, rfl⟩)
      | gone =>
          cases h
          exact Or.inr (Or.inl ⟨rfl, nofun, rfl, rfl⟩)
  | _ =>
      cases h
      exact Or.inr (Or.inr ⟨rfl, rfl, rfl⟩)

/-- The mark is a latch for the end of the client's gate. -/
theorem latch [DecidableEq W] : Latch (Step (W := W) bitmap) (fun s => s.gate = .gone)
    (fun s => s.pending = true) (fun s => s.pc = .test) (fun s => s.pc.late = true) where
  raised := by
    intro s e s' hstep hgone hnot
    cases hstep with
    | register hok hnext =>
        simp only [Client.register] at hgone
        split at hgone
        · cases hgone
        · exact absurd hgone hnot
    | clientGateDeleted hstage _ =>
        simp [Client.mark, hstage, Stage.delIrq]
    | _ => exact absurd hgone hnot
  pending := by
    intro s e s' hstep hp
    cases hstep with
    | workerGateDeleted _ => exact Or.inl (by simp [Client.mark, hp])
    | clientGateDeleted _ _ => exact Or.inl (by simp [Client.mark, hp])
    | handles _ _ _ => exact Or.inr rfl
    | _ => exact Or.inl hp
  looking := by
    intro s e s' hstep hpc hgone
    cases hstep with
    | exec hexec =>
        rcases handleIrq_cases hexec with ⟨-, halive, -⟩ | ⟨-, -, rfl, -⟩ | ⟨-, hlate, -⟩
        · rw [hgone] at halive
          cases halive
        · exact Or.inr rfl
        · exact Or.inr hlate
    | handles _ hout _ =>
        rw [hpc] at hout
        cases hout
    | _ => exact Or.inl hpc
  acted := by
    intro s e s' hstep hlate
    cases hstep with
    | exec hexec =>
        rcases handleIrq_cases hexec with ⟨hpc, -⟩ | ⟨-, -, rfl, -⟩ | ⟨-, hlate', -⟩
        · rw [hpc] at hlate
          cases hlate
        · rfl
        · exact hlate'
    | handles _ hout _ =>
        rw [hout] at hlate
        cases hlate
    | _ => exact hlate

/-- The cleanup is as far as the handler, and the gate was gone before it began. -/
structure Inv (bitmap : Word) (ls : List (Event W)) (s : Client W) : Prop where
  done : cleanups ls = s.pc.done bitmap
  gone : s.pc.late = true → s.gate = .gone
  absent : s.gate = .absent ↔ s.stage = .registerObj
  early : s.stage.running = false → s.pc = .out

theorem Stage.next_ne_registerObj {stage stage' : Stage} (h : stage.next = some stage') :
    stage' ≠ .registerObj := by
  cases stage with
  | returned => cases h
  | _ =>
      cases h
      exact nofun

/-- A step that leaves handler, gate and stage alone. -/
theorem Inv.keep (h : Inv bitmap ls s) (he : e.isCleanup = false) (hpc : s'.pc = s.pc)
    (hgate : s'.gate = s.gate) (hstage : s'.stage = s.stage) : Inv bitmap (ls ++ [e]) s' where
  done := by
    rw [cleanups_snoc, he, hpc]
    exact (List.append_nil _).trans h.done
  gone := by
    rw [hpc, hgate]
    exact h.gone
  absent := by
    rw [hgate, hstage]
    exact h.absent
  early := by
    rw [hpc, hstage]
    exact h.early

/-- A step of the registry. -/
theorem Inv.register (h : Inv bitmap ls s) {stage : Stage} (hnext : s.stage.next = some stage)
    (he : e.isCleanup = false) : Inv bitmap (ls ++ [e]) (s.register stage) where
  done := by
    rw [cleanups_snoc, he]
    exact (List.append_nil _).trans h.done
  gone := by
    intro hlate
    have hgone := h.gone hlate
    have hne : s.stage ≠ .registerObj := fun hstage => by
      rw [h.absent.mpr hstage] at hgone
      cases hgone
    simp only [Client.register, if_neg hne]
    exact hgone
  absent := by
    refine iff_of_false ?_ (Stage.next_ne_registerObj hnext)
    simp only [Client.register]
    split
    · exact nofun
    · rename_i hne
      exact fun habsent => hne (h.absent.mp habsent)
  early := by
    intro hrunning
    refine h.early ?_
    generalize s.stage = x at hnext
    cases x with
    | returned => cases hnext
    | handOut =>
        cases hnext
        cases hrunning
    | _ => rfl

/-- The gate of the client is deleted. -/
theorem Inv.clientGateDeleted (h : Inv bitmap ls s) (hstage : s.stage = .returned) :
    Inv bitmap (ls ++ [.clientGateDeleted]) { s.mark with gate := .gone } where
  done := by
    rw [cleanups_snoc]
    exact (List.append_nil _).trans h.done
  gone := fun _ => rfl
  absent := by
    refine iff_of_false nofun ?_
    show s.stage ≠ .registerObj
    rw [hstage]
    exact nofun
  early := h.early

/-- The handler begins. -/
theorem Inv.handles (h : Inv bitmap ls s) (hrunning : s.stage.running = true) (hpc : s.pc = .out) :
    Inv bitmap (ls ++ [.handles]) { s with pending := false, pc := .test } where
  done := by
    rw [cleanups_snoc]
    refine (List.append_nil _).trans (h.done.trans ?_)
    rw [hpc]
    rfl
  gone := nofun
  absent := h.absent
  early := by
    intro hnot
    rw [hrunning] at hnot
    cases hnot

/-- A step of the handler. -/
theorem Inv.exec (h : Inv bitmap ls s) {pc : Pc}
    (hexec : handleIrq bitmap s.gate s.pc = some (e, pc)) :
    Inv bitmap (ls ++ [e]) { s with pc := pc } := by
  have hrunning : s.stage.running = true := by
    cases hr : s.stage.running with
    | true => rfl
    | false =>
        rw [h.early hr] at hexec
        cases hexec
  have hearly : s.stage.running = false → pc = .out := by
    intro hnot
    rw [hrunning] at hnot
    cases hnot
  have hdone := h.done
  rcases handleIrq_cases hexec with ⟨hpc, -, rfl, rfl⟩ | ⟨hpc, hgate, rfl, rfl⟩ | ⟨hlate, -, hmore⟩
  · rw [hpc] at hdone
    exact ⟨by rw [cleanups_snoc, hdone]; rfl, nofun, h.absent, hearly⟩
  · rw [hpc] at hdone
    refine ⟨by rw [cleanups_snoc, hdone]; rfl, fun _ => ?_, h.absent, hearly⟩
    -- the registry was through with the gate before the thread ran
    generalize hg : s.gate = g at hgate
    cases g with
    | alive => exact absurd rfl hgate
    | gone => rfl
    | absent =>
        rw [h.absent.mp hg] at hrunning
        cases hrunning
  · exact ⟨by rw [cleanups_snoc, hdone, hmore], fun _ => h.gone hlate, h.absent, hearly⟩

variable [DecidableEq W]

/-- **Step.** -/
theorem Inv.step (h : Inv bitmap ls s) (hstep : Step bitmap s e s') :
    Inv bitmap (ls ++ [e]) s' := by
  cases hstep with
  | register _ hnext => exact h.register hnext rfl
  | refuse _ => exact h.keep rfl rfl rfl rfl
  | workerGate _ _ _ => exact h.keep rfl rfl rfl rfl
  | workerGateDeleted _ => exact h.keep rfl rfl rfl rfl
  | clientGateDeleted hstage _ => exact h.clientGateDeleted hstage
  | handles hrunning hpc _ => exact h.handles hrunning hpc
  | exec hexec => exact h.exec hexec

/-! ## Runs -/

/-- Nobody is in `handle_irq`. -/
def Pc.Outside (pc : Pc) : Prop := pc = .out ∨ pc = .exited

/-- The cleanup runs at most once, in its order and after the end of the gate; and where nothing
is pending and no handler runs, a client without its gate is cleaned up. -/
structure Protocol (bitmap : Word) (ls : List (Event W)) (s : Client W) : Prop where
  once : ∃ rest, cleanups ls ++ rest = cleanup bitmap
  after : cleanups ls ≠ [] → s.gate = .gone
  quiet : s.gate = .gone → s.pending = false → s.pc.Outside → cleanups ls = cleanup bitmap

omit [DecidableEq W] in
theorem Pc.done_append (bitmap : Word) (pc : Pc) :
    ∃ rest, (pc.done bitmap : List (Event W)) ++ rest = cleanup bitmap := by
  cases pc with
  | out => exact ⟨cleanup bitmap, rfl⟩
  | test => exact ⟨cleanup bitmap, rfl⟩
  | deleteEpiface => exact ⟨cleanup bitmap, rfl⟩
  | deleteServer => exact ⟨[.deletedServer, .freedClientCpu bitmap], rfl⟩
  | freeClientCpu => exact ⟨[.freedClientCpu bitmap], rfl⟩
  | _ => exact ⟨[], rfl⟩

/-- **Runs.**  Whatever the order of deletions, marks and handler runs. -/
theorem deletions_noticed (hrun : Run (Step bitmap) {} ls s) : Protocol bitmap ls s := by
  have hinv : Inv bitmap ls s := hrun.inv (I := fun ls s => Inv bitmap ls s)
    ⟨rfl, nofun, iff_of_true rfl rfl, fun _ => rfl⟩ fun h hstep => h.step hstep
  have hnoticed := latch.run (fun hgone => by cases hgone) hrun
  refine ⟨?_, fun hne => hinv.gone ?_, fun hgone hpending hout => ?_⟩
  · rw [hinv.done]
    exact Pc.done_append bitmap s.pc
  · rw [hinv.done] at hne
    cases hpc : s.pc with
    | out => exact absurd (hpc ▸ rfl) hne
    | test => exact absurd (hpc ▸ rfl) hne
    | _ => rfl
  · rw [hinv.done]
    rcases hnoticed hgone with hp | hlook | hlate
    · rw [hpending] at hp
      cases hp
    · rw [hlook] at hout
      rcases hout with hc | hc <;> cases hc
    · rcases hout with hout | hexited
      · rw [hout] at hlate
        cases hlate
      · rw [hexited]
        rfl

/-- A worker's gate and the client's are deleted before the handler runs: one mark for both. -/
theorem deletions_noticed_together :
    ∃ (ls : List (Event Unit)) (s : Client Unit), Event.clientGateDeleted ∈ ls ∧
      s.pending = false ∧ s.pc = .exited ∧ Protocol 1 ls s := by
  have hrefcnt : Run (Step (W := Unit) 1) {} [.registered .registerObj] _ :=
    .snoc .nil (.register rfl rfl)
  have hirq := hrefcnt.snoc (.register rfl rfl)
  have hdelIrq := hirq.snoc (.register rfl rfl)
  have hrun := hdelIrq.snoc (.register rfl rfl)
  have hhandOut := hrun.snoc (.register rfl rfl)
  have hreturned := hhandOut.snoc (.register rfl rfl)
  have hworker := hreturned.snoc (.workerGate (w := ()) rfl rfl rfl)
  have hdeleted := hworker.snoc (.workerGateDeleted (w := ()) rfl)
  have hgone := hdeleted.snoc (.clientGateDeleted rfl rfl)
  have hhandles := hgone.snoc (.handles rfl rfl rfl)
  have hlooked := hhandles.snoc (.exec (e := .isGone) rfl)
  have hepiface := hlooked.snoc (.exec (e := .deletedEpiface) rfl)
  have hserver := hepiface.snoc (.exec (e := .deletedServer) rfl)
  have hcpu := hserver.snoc (.exec (e := .freedClientCpu 1) rfl)
  have hthis := hcpu.snoc (.exec (e := .deletedThis) rfl)
  have hexit := hthis.snoc (.exec (e := .exited) rfl)
  exact ⟨_, _, by decide, rfl, rfl, deletions_noticed hexit⟩

end MettEagle.DeletionIrq
