/-
# `MettEagle.Launch` — which program a worker is launched with

The language of an action is a 64-bit number out of the message that created it.
Nobody looks at it before `op_action_invoke` does:

    BINARY     `worker_ds` is the dataspace of the action, validated by the lookup
    PYTHON     `worker_ds` is the interpreter, checked to be there
    others     no case of the `switch`: `worker_ds` stays an invalid capability

A launch is read off the observations together with the lookup right before it
(`Launches`): what the worker is launched with is checked whenever no other
language is invoked, and it is never checked when one is.
-/
import MettEagle.ActionMap
import MettEagle.ServerLoop

namespace MettEagle

open Act

/-! ## Launches and their lookups -/

/-- In `o` every launch comes right after the lookup of its invocation, and `D` holds of the
dataspace it is given. -/
def Launches (D : ManagerBase → CString → Object → Language → Option Slot → Prop)
    (o : List Obs) : Prop :=
  ∀ o₁ o₂ base fs ds arg, o = o₁ ++ .launch base fs ds arg :: o₂ →
    ∃ o₀ f fs' name obj lang, fs = f :: fs' ∧ o₁ = o₀ ++ [.resolved base fs' name obj lang] ∧
      D base name obj lang ds

def Obs.isLaunch : Obs → Bool
  | .launch _ _ _ _ => true
  | _ => false

section
variable {D : ManagerBase → CString → Object → Language → Option Slot → Prop} {o o' : List Obs}

theorem launches_of_none (h : ∀ x ∈ o, x.isLaunch = false) : Launches D o := by
  rintro o₁ o₂ base fs ds arg rfl
  cases h (.launch base fs ds arg) (List.mem_append_right _ (List.mem_cons_self ..))

theorem launches_of_logs (h : ∀ x ∈ o, ∃ sev m, x = .log sev m) : Launches D o := by
  refine launches_of_none fun x hx => ?_
  obtain ⟨sev, m, rfl⟩ := h x hx
  rfl

theorem launches_head {base : ManagerBase} {f : Frame} {fs : List Frame} {name : CString}
    {obj : Object} {lang : Language} {ds : Option Slot} {arg : CString}
    (h : D base name obj lang ds) :
    Launches D [.resolved base fs name obj lang, .launch base (f :: fs) ds arg] := by
  intro o₁ o₂ base' fs' ds' arg' ho
  cases o₁ with
  | nil => cases ho
  | cons x o₁ =>
      obtain ⟨rfl, ho⟩ := List.cons.inj ho
      cases o₁ with
      | nil =>
          cases ho
          exact ⟨[], f, fs, name, obj, lang, rfl, rfl, h⟩
      | cons y o₁ =>
          have hnil := (List.cons.inj ho).2
          cases o₁ <;> cases hnil

theorem Launches.append (h : Launches D o) (h' : Launches D o') : Launches D (o ++ o') := by
  intro o₁ o₂ base fs ds arg ho
  rcases List.append_eq_append_iff.mp ho with ⟨o₃, rfl, ho'⟩ | ⟨o₃, rfl, ho'⟩
  · obtain ⟨o₀, f, fs', name, obj, lang, hfs, rfl, hD⟩ := h' o₃ o₂ base fs ds arg ho'
    exact ⟨o ++ o₀, f, fs', name, obj, lang, hfs, (List.append_assoc ..).symm, hD⟩
  · cases o₃ with
    | nil =>
        obtain ⟨o₀, f, fs', name, obj, lang, hfs, hnil, -⟩ := h' [] o₂ base fs ds arg ho'.symm
        exact absurd hnil.symm (List.append_ne_nil_of_right_ne_nil _ (List.cons_ne_nil _ _))
    | cons x o₃ =>
        obtain ⟨rfl, -⟩ := List.cons.inj ho'
        exact h o₁ o₃ base fs ds arg rfl

end

/-- As a report. -/
def launchReport (D : ManagerBase → CString → Object → Language → Option Slot → Prop) :
    Report Obs Stop where
  holds o _ := Launches D o
  nil := launches_of_none fun _ hx => absurd hx List.not_mem_nil
  append := Launches.append

/-! ## The dataspace -/

/-- A dataspace that was checked: the action's own, behind which `obj` was found, or the
interpreter, which `rom` tells where to find. -/
inductive CheckedDs (w : World) (rom : Slot → Prop) (base : ManagerBase) (name : CString)
    (obj : Object) : Language → Option Slot → Prop
  | binary {a : Action} {slot : Slot} : w.find base name = some a →
      a.lang = binary → a.ds = some slot → w.caps slot = some obj →
      CheckedDs w rom base name obj binary (some slot)
  | python {a : Action} {slot : Slot} : w.find base name = some a →
      a.lang = python → rom slot → CheckedDs w rom base name obj python (some slot)

/-- One of the two languages the `switch` knows. -/
def KnownLanguage (lang : Language) : Prop := lang = binary ∨ lang = python

instance (lang : Language) : Decidable (KnownLanguage lang) :=
  inferInstanceAs (Decidable (_ ∨ _))

/-- Checked if the language is known, and invalid if it is not. -/
def WorkerDs (w : World) (rom : Slot → Prop) (base : ManagerBase) (name : CString) (obj : Object)
    (lang : Language) (ds : Option Slot) : Prop :=
  CheckedDs w rom base name obj lang ds ∨ (¬KnownLanguage lang ∧ ds = none)

section
variable {w w' : World} {rom rom' : Slot → Prop} {base : ManagerBase} {name : CString}
  {obj : Object} {lang : Language} {ds : Option Slot}

/-- Nothing an invocation does moves a dataspace. -/
theorem CheckedDs.of_later (hl : w.Later w') (hrom : ∀ s, rom s → rom' s)
    (h : CheckedDs w' rom base name obj lang ds) : CheckedDs w rom' base name obj lang ds := by
  cases h with
  | binary hfind hb hds hcaps =>
      rw [World.find, hl.maps] at hfind
      rw [hl.caps] at hcaps
      exact .binary hfind hb hds hcaps
  | python hfind hp hslot =>
      rw [World.find, hl.maps] at hfind
      exact .python hfind hp (hrom _ hslot)

theorem workerDs_cases {action : Action} {found : Option Slot}
    (h : workerDs action found w = ⟨.ok ds, w, []⟩) :
    (action.lang = binary ∧ ds = action.ds) ∨
      (action.lang = python ∧ ∃ slot, found = some slot ∧ ds = some slot) ∨
      (¬KnownLanguage action.lang ∧ ds = none) := by
  simp only [workerDs] at h
  by_cases hb : action.lang = binary
  · rw [if_pos hb] at h
    cases h
    exact Or.inl ⟨hb, rfl⟩
  · rw [if_neg hb] at h
    by_cases hp : action.lang = python
    · rw [if_pos hp] at h
      cases found with
      | none => cases h
      | some slot =>
          cases h
          exact Or.inr (Or.inl ⟨hp, slot, rfl, rfl⟩)
    · rw [if_neg hp] at h
      cases h
      exact Or.inr (Or.inr ⟨fun hk => hk.elim hb hp, rfl⟩)

/-- The object `validate` finds is behind the slot. -/
theorem World.caps_of_validate {alive : Object → Bool} (h : w.validate alive ds = some obj) :
    ∃ slot, ds = some slot ∧ w.caps slot = some obj := by
  obtain ⟨hcaps, -⟩ := Option.filter_eq_some_iff.mp h
  exact Option.bind_eq_some_iff.mp hcaps

/-- What `workerDs` gives behind a successful lookup. -/
theorem workerDs_of_found {a : Action} {alive : Object → Bool} {found : Option Slot}
    (hfind : w.find base name = some a) (hv : w.validate alive a.ds = some obj)
    (h : workerDs a found w = ⟨.ok ds, w, []⟩) :
    WorkerDs w (fun s => found = some s) base name obj a.lang ds := by
  rcases workerDs_cases h with ⟨hb, rfl⟩ | ⟨hp, slot, hfound, rfl⟩ | ⟨hk, rfl⟩
  · obtain ⟨slot, hslot, hcaps⟩ := World.caps_of_validate hv
    rw [hslot, hb]
    exact Or.inl (.binary hfind hb hslot hcaps)
  · rw [hp]
    exact Or.inl (.python hfind hp hfound)
  · exact Or.inr ⟨hk, rfl⟩

end

/-! ## One invocation -/

section
variable (P : Platform) (base : ManagerBase)

/-- The head of an invocation shows no launch, or the lookup and then the launch. -/
theorem head_obs (fs : List Frame) (req : InvokeReq) (env : Env) (w : World) :
    (∀ x ∈ (prepare P base fs req env w).obs, x.isLaunch = false) ∨
    ∃ a f obj ds, w.find base req.name = some a ∧
      (prepare P base fs req env w).obs =
        [.resolved base fs req.name obj a.lang, .launch base (f :: fs) ds req.arg] ∧
      WorkerDs w (fun s => env.python = some s) base req.name obj a.lang ds := by
  have h := prepared P base fs req env w
  generalize prepare P base fs req env w = out at h ⊢
  cases h with
  | unknown _ => exact Or.inl (List.forall_mem_singleton.mpr rfl)
  | gone _ _ => exact Or.inl (List.forall_mem_singleton.mpr rfl)
  | stopped _ _ _ => exact Or.inl (List.forall_mem_singleton.mpr rfl)
  | launched hl hv hds _ =>
      exact Or.inr ⟨_, _, _, _, hl, rfl, workerDs_of_found hl hv hds⟩

variable {P base} {N : InvokeReq → Env → Prop} {w₀ : World}
  {D : ManagerBase → CString → Object → Language → Option Slot → Prop}

/-- **Step.**  It is enough that `D` holds of what the head gives to the invocations in `N`. -/
theorem launchRules (P : Platform) (fs₀ : List Frame)
    (hD : ∀ {req env a obj ds}, N req env → w₀.find base req.name = some a →
      WorkerDs w₀ (fun s => env.python = some s) base req.name obj a.lang ds →
      D base req.name obj a.lang ds) :
    HeadRules P base fs₀ N (fun _ w => w₀.Later w) (fun w => w₀.Later w) (launchReport D) where
  leave := fun _ h => h
  stop := fun h => h
  tick := fun h => h.trans (World.later_tick _)
  log := launches_of_logs
  plain := fun _ => (launchReport D).nil
  blocked := (launchReport D).nil
  head := fun {fs} req env hN hfs w hw => by
    obtain ⟨-, hok, herr⟩ := (frameRules P base fs₀ w₀).toHead.head req env trivial hfs w hw
    refine ⟨?_, hok, herr⟩
    rcases head_obs P base fs req env w with hnone | ⟨a, f, obj, ds, hfind, hobs, hds⟩
    · exact launches_of_none hnone
    · rw [show (findAction base fs env.alive req.name >>= startWorker P base fs req env) w =
        prepare P base fs req env w from rfl, hobs]
      rw [World.find, hw.maps] at hfind
      refine launches_head (hD hN hfind (hds.imp (fun h => h.of_later hw fun _ hs => hs) id))
  wait := fun _ _ _ _ _ => launches_of_none (List.forall_mem_singleton.mpr rfl)

/-- **Runs.**  Every launch of an invocation, and of those nested in it. -/
theorem opActionInvoke_launches (fs : List Frame) {req : InvokeReq} {env : Env}
    {script : List Rpc} (hN : (Rpc.invoke req env script).Invokes N)
    (hD : ∀ {req env a obj ds}, N req env → w₀.find base req.name = some a →
      WorkerDs w₀ (fun s => env.python = some s) base req.name obj a.lang ds →
      D base req.name obj a.lang ds) :
    Launches D (opActionInvoke P base fs req env script w₀).obs :=
  ((launchRules P fs hD).run req env script hN.1 hN.2 w₀ (World.Later.refl w₀)).1

end

/-! ## One turn -/

theorem opActionCreate_launches (base : ManagerBase) (name : CString) (capReceived : Bool)
    (lang : Language) (env : CreateEnv) (w : World) :
    ∀ x ∈ (opActionCreate base name capReceived lang env w).obs, x.isLaunch = false := by
  rw [opActionCreate_apply]
  split
  · exact List.forall_mem_nil _
  split
  · exact List.forall_mem_nil _
  split
  · exact List.forall_mem_singleton.mpr rfl
  · cases env.realloc with
    | none => exact List.forall_mem_nil _
    | some slot => exact List.forall_mem_nil _

/-- The invocations of a message, if it is one. -/
def ClientMsg.Invokes (N : InvokeReq → Env → Prop) (msg : ClientMsg) : Prop :=
  match msg.op with
  | .invoke req env script => (Rpc.invoke req env script).Invokes N
  | .create _ _ _ | .delete _ | .reject _ => True

theorem ClientMsg.invokes_of_forall {N : InvokeReq → Env → Prop} (h : ∀ req env, N req env)
    (msg : ClientMsg) : msg.Invokes N := by
  obtain ⟨cap, op⟩ := msg
  cases op with
  | invoke req env script => exact ⟨h req env, scriptInvokes_of_forall h script⟩
  | create name lang env => trivial
  | delete name => trivial
  | reject label => trivial

/-- Only invocations launch anything. -/
theorem serve_launches {P : Platform} {base : ManagerBase} {N : InvokeReq → Env → Prop}
    {D : ManagerBase → CString → Object → Language → Option Slot → Prop} {msg : ClientMsg}
    {w : World} (hN : msg.Invokes N)
    (hD : ∀ {req env a obj ds}, N req env → (w.deliver msg.cap).find base req.name = some a →
      WorkerDs (w.deliver msg.cap) (fun s => env.python = some s) base req.name obj a.lang ds →
      D base req.name obj a.lang ds) :
    Launches D (serve P base msg w).obs := by
  obtain ⟨r, o, ho, hlog⟩ :=
    excLogDispatch_frame P (clientDispatch P base msg) (w.deliver msg.cap)
  rw [show serve P base msg w = _ from ho]
  refine Launches.append ?_ (launches_of_logs hlog)
  obtain ⟨cap, op⟩ := msg
  cases op with
  | create name lang env =>
      refine launches_of_none ?_
      simp only [clientDispatch, map_apply]
      exact opActionCreate_launches base name cap.isSome lang env _
  | delete name => exact (launchReport D).nil
  | invoke req env script => exact opActionInvoke_launches [] hN hD
  | reject label => exact (launchReport D).nil

/-- However the languages came about, a launch is given a dataspace that was checked, or none
for a language the `switch` does not know. -/
theorem serve_workerDs (P : Platform) (base : ManagerBase) (msg : ClientMsg) (w : World) :
    Launches (WorkerDs (w.deliver msg.cap) fun _ => True) (serve P base msg w).obs := by
  have hall : msg.Invokes fun _ _ => True := ClientMsg.invokes_of_forall (fun _ _ => trivial) msg
  refine serve_launches hall fun _ _ hds => ?_
  exact hds.imp (CheckedDs.of_later (World.Later.refl _) fun _ _ => trivial) id

/-! ## Where the interpreter is found -/

mutual

/-- The slots in which the invocations of a message find `rom/python-faas2.7`. -/
def Rpc.interpreters : Rpc → List Slot
  | .invoke _ env script => env.python.toList ++ scriptInterpreters script
  | .exit _ _ | .signal _ _ | .reject _ => []

def scriptInterpreters : List Rpc → List Slot
  | [] => []
  | m :: rest => m.interpreters ++ scriptInterpreters rest

end

def ClientMsg.interpreters (msg : ClientMsg) : List Slot :=
  match msg.op with
  | .invoke req env script => (Rpc.invoke req env script).interpreters
  | .create _ _ _ | .delete _ | .reject _ => []

/-- In `N`, and the interpreter, if it is found, is in one of `slots`. -/
def FindsIn (slots : List Slot) (N : InvokeReq → Env → Prop) (req : InvokeReq) (env : Env) : Prop :=
  N req env ∧ ∀ s, env.python = some s → s ∈ slots

section
variable {N : InvokeReq → Env → Prop} {slots : List Slot}

mutual

theorem Rpc.Invokes.findsIn : ∀ {m : Rpc}, m.Invokes N → m.interpreters ⊆ slots →
    m.Invokes (FindsIn slots N)
  | .invoke req env script, h, hsub => by
      obtain ⟨hpython, hscript⟩ := List.append_subset.mp hsub
      refine ⟨⟨h.1, fun s hs => hpython ?_⟩, ScriptInvokes.findsIn h.2 hscript⟩
      rw [hs]
      exact List.mem_singleton_self s
  | .exit _ _, _, _ => trivial
  | .signal _ _, _, _ => trivial
  | .reject _, _, _ => trivial

theorem ScriptInvokes.findsIn : ∀ {script : List Rpc}, ScriptInvokes N script →
    scriptInterpreters script ⊆ slots → ScriptInvokes (FindsIn slots N) script
  | [], _, _ => trivial
  | _ :: _, h, hsub =>
      have hsubs := List.append_subset.mp hsub
      ⟨Rpc.Invokes.findsIn h.1 hsubs.1, ScriptInvokes.findsIn h.2 hsubs.2⟩

end

theorem ClientMsg.Invokes.findsIn {msg : ClientMsg} (h : msg.Invokes N) :
    msg.Invokes (FindsIn msg.interpreters N) := by
  obtain ⟨cap, op⟩ := msg
  cases op with
  | invoke req env script => exact Rpc.Invokes.findsIn h (List.Subset.refl _)
  | create name lang env => trivial
  | delete name => trivial
  | reject label => trivial

end

/-! ## Runs -/

/-- Every entry of the map has a known language. -/
def AllKnown (base : ManagerBase) (w : World) : Prop :=
  ∀ n a, w.find base n = some a → KnownLanguage a.lang

/-- The invocation names nothing, or an action of a known language. -/
def NamesKnown (base : ManagerBase) (w : World) (req : InvokeReq) (_ : Env) : Prop :=
  ∀ a, w.find base req.name = some a → KnownLanguage a.lang

/-- A create sends a known language. -/
def ClientMsg.CreatesKnown (msg : ClientMsg) : Prop :=
  match msg.op with
  | .create _ lang _ => KnownLanguage lang
  | .delete _ | .invoke _ _ _ | .reject _ => True

/-- One turn of the server whose message satisfies `C` where it arrives; the label keeps the world
it arrives at. -/
def TurnWith (P : Platform) (base : ManagerBase) (C : World → ClientMsg → Prop) (w : World)
    (l : World × ClientMsg) (w' : World) : Prop :=
  l.1 = w ∧ C w l.2 ∧ w' = (serve P base l.2 w).st

/-- The launches of a turn. -/
def LaunchesChecked (P : Platform) (base : ManagerBase) (l : World × ClientMsg) : Prop :=
  Launches (CheckedDs (l.1.deliver l.2.cap) fun s => s ∈ l.2.interpreters) (serve P base l.2 l.1).obs

section
variable {P : Platform} {base : ManagerBase} {w : World} {msg : ClientMsg}

theorem AllKnown.namesKnown (h : AllKnown base w) (msg : ClientMsg) :
    msg.Invokes (NamesKnown base w) :=
  ClientMsg.invokes_of_forall (fun req _ a ha => h req.name a ha) msg

/-- **Step.**  The languages stay known as long as creates send known ones. -/
theorem AllKnown.serve (h : AllKnown base w) (hmsg : msg.CreatesKnown) :
    AllKnown base (serve P base msg w).st := by
  rw [serve_st]
  have hd : AllKnown base (w.deliver msg.cap) := fun n a hn => by
    rw [World.find_deliver] at hn
    exact h n a hn
  obtain ⟨cap, op⟩ := msg
  cases op with
  | create name lang env =>
      have hbind : AllKnown base ((w.deliver cap).bindAction base name lang) := fun n a hn => by
        by_cases hname : n = name
        · rw [hname, World.find_bindAction_self] at hn
          cases hn
          exact hmsg
        · rw [World.find_bindAction_ne _ base hname] at hn
          exact hd n a hn
      simp only [clientDispatch, map_apply]
      rcases opActionCreate_st_cases base name cap.isSome lang env (w.deliver cap) with
        ⟨hst, -⟩ | ⟨-, -, hst⟩ | ⟨slot, -, -, hout⟩
      · rw [hst]
        exact hd
      · rw [hst]
        exact hbind
      · rw [hout]
        exact hbind
  | delete name =>
      intro n a hn
      by_cases hname : n = name
      · rw [hname] at hn
        cases (World.find_forget_self (w.deliver cap) base).symm.trans hn
      · exact hd n a ((World.find_forget_ne (w.deliver cap) base hname).symm.trans hn)
  | invoke req env script =>
      intro n a hn
      rw [World.find, show (clientDispatch P base ⟨cap, .invoke req env script⟩
        (w.deliver cap)).st.maps = (w.deliver cap).maps from
          (opActionInvoke_later P base [] req env script (w.deliver cap)).maps] at hn
      exact hd n a hn
  | reject label => exact hd

/-- **Step.**  A turn whose invocations name known languages launches nothing unchecked. -/
theorem launchesChecked_of_names (h : msg.Invokes (NamesKnown base w)) :
    LaunchesChecked P base (w, msg) := by
  refine serve_launches h.findsIn fun {req env a obj ds} hN hfind hds => ?_
  rw [World.find_deliver] at hfind
  rcases hds with hchecked | ⟨hunknown, -⟩
  · exact hchecked.of_later (World.Later.refl _) hN.2
  · exact absurd (hN.1 a hfind) hunknown

end

/-- **Launches.**  In every run in which no invocation, at whatever depth, names an action
of another language than the two, every launch is given a checked dataspace; and so it is
in every run of a new client whose creates send only the two. -/
theorem launches_checked (P : Platform) (base : ManagerBase) :
    (∀ w₀ ls w, Run (TurnWith P base fun w msg => msg.Invokes (NamesKnown base w)) w₀ ls w →
      ∀ l ∈ ls, LaunchesChecked P base l) ∧
    ∀ w₀ ls w, w₀.maps base.actions = ∅ →
      Run (TurnWith P base fun _ msg => msg.CreatesKnown) w₀ ls w →
      ∀ l ∈ ls, LaunchesChecked P base l := by
  have hnamed : ∀ w₀ ls w,
      Run (TurnWith P base fun w msg => msg.Invokes (NamesKnown base w)) w₀ ls w →
      ∀ l ∈ ls, LaunchesChecked P base l := by
    intro w₀ ls w hrun
    refine hrun.inv (I := fun ls _ => ∀ l ∈ ls, LaunchesChecked P base l)
      (List.forall_mem_nil _) ?_
    rintro ls w ⟨u, msg⟩ w' hall ⟨rfl, hnames, -⟩ l hl
    rcases List.mem_append.mp hl with hold | hnew
    · exact hall l hold
    · rw [List.mem_singleton.mp hnew]
      exact launchesChecked_of_names hnames
  refine ⟨hnamed, fun w₀ ls w hempty hrun => ?_⟩
  -- the languages of the map are known all along, so those the invocations name are
  have hboth : Run (TurnWith P base fun w msg => msg.Invokes (NamesKnown base w)) w₀ ls w ∧
      AllKnown base w := by
    refine hrun.inv (I := fun ls w => Run (TurnWith P base fun w msg =>
      msg.Invokes (NamesKnown base w)) w₀ ls w ∧ AllKnown base w) ⟨.nil, ?_⟩ ?_
    · exact fun n a hn => absurd hn (w₀.find_ne_of_empty base hempty)
    · rintro ls w ⟨u, msg⟩ w' ⟨hrun, hknown⟩ ⟨rfl, hmsg, rfl⟩
      exact ⟨hrun.snoc ⟨rfl, hknown.namesKnown msg, rfl⟩, hknown.serve hmsg⟩
  exact hnamed w₀ ls w hboth.1

/-! ## A third language -/

/-- `f` in a language nobody knows; `firstCreate` is the same with `BINARY`. -/
def createUnknown : ClientMsg := { cap := some 7, op := .create nameF 2 { realloc := some 1 } }

def invocationOfF : ClientMsg := { op := .invoke { name := nameF } {} [] }

/-- The create is answered `L4_EOK`, and the invocation launches a worker without a program. -/
theorem launches_checked_fails :
    ¬∀ (P : Platform) (base : ManagerBase) (w₀ w : World) (ls : List (World × ClientMsg)),
      w₀.maps base.actions = ∅ → Run (TurnWith P base fun _ _ => True) w₀ ls w →
      ∀ l ∈ ls, LaunchesChecked P base l := by
  intro h
  have hrun : Run (TurnWith platform₀ base₀ fun _ _ => True) {}
      [({}, createUnknown), ((serve platform₀ base₀ createUnknown {}).st, invocationOfF)] _ :=
    .snoc (.snoc .nil ⟨rfl, trivial, rfl⟩) ⟨rfl, trivial, rfl⟩
  have hchecked := h platform₀ base₀ {} _ _ rfl hrun
    ((serve platform₀ base₀ createUnknown {}).st, invocationOfF) (by simp)
  obtain ⟨o₀, f, fs, name, obj, lang, -, -, hds⟩ :=
    hchecked [.resolved base₀ [] nameF 7 2] [.wait [⟨0, 0⟩] none .never 0] base₀ [⟨0, 0⟩] none default rfl
  cases hds

/-- A client that creates `f` unknown and asks for `g`, and one that creates it as a binary. -/
theorem launches_checked_first :
    (∀ l ∈ [(({} : World), createUnknown),
        ((serve platform₀ base₀ createUnknown {}).st, ⟨none, .invoke { name := nameG } {} []⟩)],
      LaunchesChecked platform₀ base₀ l) ∧
    ∀ l ∈ [(({} : World), firstCreate), ((serve platform₀ base₀ firstCreate {}).st, invocationOfF)],
      LaunchesChecked platform₀ base₀ l :=
  have hnames : (⟨none, .invoke { name := nameG } {} []⟩ : ClientMsg).Invokes
      (NamesKnown base₀ (serve platform₀ base₀ createUnknown {}).st) :=
    ⟨fun a ha => absurd (show none = some a from ha) (by simp), trivial⟩
  ⟨(launches_checked platform₀ base₀).1 {} _ _
      (.snoc (.snoc .nil ⟨rfl, trivial, rfl⟩) ⟨rfl, hnames, rfl⟩),
    (launches_checked platform₀ base₀).2 {} _ _ rfl
      (.snoc (.snoc .nil ⟨rfl, Or.inl rfl, rfl⟩) ⟨rfl, trivial, rfl⟩)⟩

end MettEagle
