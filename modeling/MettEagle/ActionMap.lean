/-
# `MettEagle.ActionMap` — the action map of a client as a finite map

Above: a `Registry`, names bound to a dataspace object and a language, with the
answers a client is to expect.  Below: an `std::map` from names to slots, a
receive slot, and a kernel that writes into that slot whatever a message brings
along.  The two agree as long as no stored slot is ever the receive slot:

    Slots        stored slots are pairwise distinct and none is the receive slot
    Represents   `Slots`, and each stored slot holds the object of the registry

Both survive every request, provided a create that gets as far as re-allocating
the receive slot finds one.  If it does not, the entry stays in the map although
the create reports an error, and its slot stays the receive slot.
-/
import MettEagle.Client
import MettEagle.Lib.Run

namespace MettEagle

open Act

/-! ## Entries -/

/-- The entry of a name. -/
def World.find (w : World) (base : ManagerBase) (name : CString) : Option Action :=
  (w.maps base.actions).lookup name

section find
variable (w : World) (base : ManagerBase) {name : CString} {lang : Language}

theorem World.find_ne_of_empty (h : w.maps base.actions = ∅) {n : CString} {a : Action} :
    w.find base n ≠ some a := by
  intro hn
  rw [World.find, h] at hn
  cases hn

@[simp] theorem World.find_deliver (cap : Option Object) (n : CString) :
    (w.deliver cap).find base n = w.find base n := by
  cases cap with
  | none => rfl
  | some o => rfl

@[simp] theorem World.rcv_deliver (cap : Option Object) : (w.deliver cap).rcv = w.rcv := by
  cases cap with
  | none => rfl
  | some o => rfl

theorem World.caps_deliver_ne {slot : Slot} (h : slot ≠ w.rcv) (cap : Option Object) :
    (w.deliver cap).caps slot = w.caps slot := by
  cases cap with
  | none => rfl
  | some o => exact Function.update_of_ne h _ _

@[simp] theorem World.find_bindAction_self (name : CString) (lang : Language) :
    (w.bindAction base name lang).find base name = some { ds := some w.rcv, lang := lang } := by
  simp [World.find, World.bindAction]

theorem World.find_bindAction_ne {n : CString} (h : n ≠ name) :
    (w.bindAction base name lang).find base n = w.find base n := by
  simp [World.find, World.bindAction, AList.lookup_insert_ne h]

@[simp] theorem World.find_forget_self : (w.forget base name).find base name = none := by
  simp [World.find, World.forget, World.unmap]

theorem World.find_forget_ne {n : CString} (h : n ≠ name) :
    (w.forget base name).find base n = w.find base n := by
  simp [World.find, World.forget, World.unmap, AList.lookup_erase_ne h]

theorem World.caps_forget_ne {slot : Slot} (h : ∀ a, w.find base name = some a → a.ds ≠ some slot) :
    (w.forget base name).caps slot = w.caps slot := by
  simp only [World.forget, World.unmap]
  cases ha : (w.maps base.actions).lookup name with
  | none => rfl
  | some a =>
      cases hs : a.ds with
      | none => simp [hs]
      | some s =>
          have hne : slot ≠ s := fun heq => h a ha (heq ▸ hs)
          simp [hs, Function.update_of_ne hne]

end find

/-! ## Slots -/

/-- No two names share a slot, and none has the receive slot. -/
structure Slots (base : ManagerBase) (w : World) : Prop where
  distinct : ∀ {n n' a a'}, w.find base n = some a → w.find base n' = some a' →
    a.ds = a'.ds → n = n'
  notRcv : ∀ {n a}, w.find base n = some a → a.ds ≠ some w.rcv

/-- A slot the allocator may return: it is in nobody's hands. -/
def Fresh (base : ManagerBase) (w : World) (slot : Slot) : Prop :=
  slot ≠ w.rcv ∧ ∀ n a, w.find base n = some a → a.ds ≠ some slot

namespace Slots
variable {base : ManagerBase} {w w' : World}

theorem empty (h : w.maps base.actions = ∅) : Slots base w where
  distinct := fun hn => absurd hn (w.find_ne_of_empty base h)
  notRcv := fun hn => absurd hn (w.find_ne_of_empty base h)

/-- Slots are a matter of entries and receive slot only. -/
theorem congr (h : Slots base w) (hfind : ∀ n, w'.find base n = w.find base n)
    (hrcv : w'.rcv = w.rcv) : Slots base w' where
  distinct := by
    intro n n' a a' hn hn'
    rw [hfind] at hn hn'
    exact h.distinct hn hn'
  notRcv := by
    intro n a hn
    rw [hfind] at hn
    rw [hrcv]
    exact h.notRcv hn

theorem bindAction (h : Slots base w) (name : CString) (lang : Language) {slot : Slot}
    (hfresh : Fresh base w slot) :
    Slots base { w.bindAction base name lang with rcv := slot } := by
  have hfind : ∀ {n a}, ({ w.bindAction base name lang with rcv := slot } : World).find base n =
      some a → (n = name ∧ a.ds = some w.rcv) ∨ (n ≠ name ∧ w.find base n = some a) := by
    intro n a hn
    by_cases hname : n = name
    · subst hname
      rw [show ({ w.bindAction base n lang with rcv := slot } : World).find base n =
        (w.bindAction base n lang).find base n from rfl, World.find_bindAction_self] at hn
      cases hn
      exact Or.inl ⟨rfl, rfl⟩
    · exact Or.inr ⟨hname, (World.find_bindAction_ne w base hname).symm.trans hn⟩
  constructor
  · intro n n' a a' hn hn' hds
    rcases hfind hn with ⟨hname, ha⟩ | ⟨_, hold⟩
    · rcases hfind hn' with ⟨hname', _⟩ | ⟨_, hold'⟩
      · rw [hname, hname']
      · exact absurd (hds ▸ ha) (h.notRcv hold')
    · rcases hfind hn' with ⟨_, ha'⟩ | ⟨_, hold'⟩
      · exact absurd (hds.trans ha') (h.notRcv hold)
      · exact h.distinct hold hold' hds
  · intro n a hn
    rcases hfind hn with ⟨_, ha⟩ | ⟨_, hold⟩
    · rw [ha]
      exact fun heq => hfresh.1 (Option.some.inj heq).symm
    · exact hfresh.2 n a hold

theorem forget (h : Slots base w) (name : CString) : Slots base (w.forget base name) := by
  have hfind : ∀ {n a}, (w.forget base name).find base n = some a → w.find base n = some a := by
    intro n a hn
    by_cases hname : n = name
    · subst hname
      simp at hn
    · rwa [World.find_forget_ne w base hname] at hn
  exact ⟨fun hn hn' => h.distinct (hfind hn) (hfind hn'), fun hn => h.notRcv (hfind hn)⟩

end Slots

/-! ## One turn of the server -/

/-- Logging an exception changes nothing; it may throw. -/
theorem logExn_frame (P : Platform) (sev : Severity) (e : Exn) (w : World) :
    ∃ r o, logExn P sev e w = ⟨r, w, o⟩ ∧ ∀ x ∈ o, ∃ sev m, x = .log sev m := by
  simp only [logExn]
  cases logObject .silenceByEnv P.logLevel sev (e.text P.errToStr) with
  | error f => exact ⟨_, _, rfl, List.forall_mem_nil _⟩
  | ok r =>
      cases r with
      | none => exact ⟨_, _, rfl, List.forall_mem_nil _⟩
      | some out => exact ⟨_, _, rfl, List.forall_mem_singleton.mpr ⟨sev, out, rfl⟩⟩

/-- `Exc_log_dispatch` adds log messages to what the handler does, and nothing else. -/
theorem excLogDispatch_frame (P : Platform) (h : M Reply) (w : World) :
    ∃ r o, excLogDispatch P h w = ⟨r, (h w).st, (h w).obs ++ o⟩ ∧
      ∀ x ∈ o, ∃ sev m, x = .log sev m := by
  have hreply : ∀ (e : Exn) (reply : Reply) (w : World), ∃ r o,
      (logExn P .error e >>= fun _ => (pure reply : M Reply)) w = ⟨r, w, o⟩ ∧
        ∀ x ∈ o, ∃ sev m, x = .log sev m := by
    intro e reply w
    obtain ⟨r, o, ho, hlog⟩ := logExn_frame P .error e w
    rw [map_apply, ho]
    exact ⟨_, _, rfl, hlog⟩
  rcases hres : h w with ⟨s | reply, w', o⟩
  · rw [excLogDispatch, tryCatch_of_error _ hres]
    have hafter : ∀ {out : Out World Obs Stop Reply},
        (∃ r o, out = ⟨r, w', o⟩ ∧ ∀ x ∈ o, ∃ sev m, x = .log sev m) →
        ∃ r o', out.after o = ⟨r, w', o ++ o'⟩ ∧ ∀ x ∈ o', ∃ sev m, x = .log sev m := by
      rintro _ ⟨r, o', rfl, hlog⟩
      exact ⟨r, o', rfl, hlog⟩
    refine hafter ?_
    cases s with
    | thrown e =>
        cases e with
        | loggable k msg => exact hreply _ _ _
        | runtimeError k extra => exact hreply _ _ _
        | baseException str => exact hreply _ _ _
        | number err => exact hreply _ _ _
        | formatError what => exact ⟨_, _, rfl, List.forall_mem_nil _⟩
    | blocked => exact ⟨_, _, rfl, List.forall_mem_nil _⟩
    | terminated => exact ⟨_, _, rfl, List.forall_mem_nil _⟩
  · rw [excLogDispatch, tryCatch_of_ok _ hres]
    exact ⟨_, [], by rw [List.append_nil], List.forall_mem_nil _⟩

/-- Whatever is answered, the state after a turn is the one the handler leaves. -/
theorem serve_st (P : Platform) (base : ManagerBase) (msg : ClientMsg) (w : World) :
    (serve P base msg w).st = (clientDispatch P base msg (w.deliver msg.cap)).st := by
  obtain ⟨r, o, h, -⟩ := excLogDispatch_frame P (clientDispatch P base msg) (w.deliver msg.cap)
  rw [show serve P base msg w = _ from h]

/-- The create passes its three checks, and then there is no slot for the server loop. -/
def ReallocFails (base : ManagerBase) (name : CString) (capReceived : Bool) (env : CreateEnv)
    (w : World) : Prop :=
  capReceived = true ∧ (w.validate env.alive (some w.rcv)).isSome = true ∧
    w.find base name = none ∧ env.realloc = none

/-- What a create leaves behind: everything as it was, or the entry and perhaps a new receive
slot. -/
theorem opActionCreate_st_cases (base : ManagerBase) (name : CString) (capReceived : Bool)
    (lang : Language) (env : CreateEnv) (w : World) :
    ((opActionCreate base name capReceived lang env w).st = w ∧
      ¬ReallocFails base name capReceived env w) ∨
    (ReallocFails base name capReceived env w ∧
      (opActionCreate base name capReceived lang env w).res = .error (.thrown reallocFailed) ∧
      (opActionCreate base name capReceived lang env w).st = w.bindAction base name lang) ∨
    ∃ slot, env.realloc = some slot ∧ w.find base name = none ∧
      opActionCreate base name capReceived lang env w =
        ⟨.ok l4EOk, { w.bindAction base name lang with rcv := slot }, []⟩ := by
  rw [opActionCreate_apply]
  split
  · rename_i hcap
    refine Or.inl ⟨rfl, fun h => ?_⟩
    rw [h.1] at hcap
    cases hcap
  · rename_i hcap
    split
    · rename_i hval
      refine Or.inl ⟨rfl, fun h => ?_⟩
      have hsome := h.2.1
      rw [Option.isNone_iff_eq_none.mp hval] at hsome
      cases hsome
    · rename_i hval
      split
      · rename_i hcount
        exact Or.inl ⟨rfl, fun h => hcount (Actions.count_eq_zero.mpr h.2.2.1)⟩
      · rename_i hcount
        have hfind : w.find base name = none := Actions.count_eq_zero.mp (not_not.mp hcount)
        cases hr : env.realloc with
        | none =>
            refine Or.inr (Or.inl ⟨⟨by simpa using hcap, ?_, hfind, hr⟩, rfl, rfl⟩)
            simpa [Option.isSome_iff_ne_none] using hval
        | some slot => exact Or.inr (Or.inr ⟨slot, rfl, hfind, rfl⟩)

/-! ## A failing create

`TurnOk` is one turn in which a create does not run out of slots at its last check; the slot
the allocator returns, if it returns one, is in nobody's hands. -/

def TurnOk (P : Platform) (base : ManagerBase) (w : World) (msg : ClientMsg) (w' : World) : Prop :=
  (match msg.op with
    | .create name _ env =>
        (∀ slot, env.realloc = some slot → Fresh base (w.deliver msg.cap) slot) ∧
          ¬ReallocFails base name msg.cap.isSome env (w.deliver msg.cap)
    | _ => True) ∧
  w' = (serve P base msg w).st

theorem Slots.deliver {base : ManagerBase} {w : World} (h : Slots base w) (cap : Option Object) :
    Slots base (w.deliver cap) :=
  h.congr (fun n => w.find_deliver base cap n) (w.rcv_deliver cap)

theorem Slots.later {base : ManagerBase} {w w' : World} (h : Slots base w) (hl : w.Later w') :
    Slots base w' :=
  h.congr (fun n => by rw [World.find, World.find, hl.maps]) hl.rcv

/-- **Step.**  A turn keeps the slots apart. -/
theorem Slots.turn {P : Platform} {base : ManagerBase} {w w' : World} {msg : ClientMsg}
    (h : Slots base w) (hturn : TurnOk P base w msg w') : Slots base w' := by
  obtain ⟨hok, rfl⟩ := hturn
  rw [serve_st]
  have hd := h.deliver msg.cap
  obtain ⟨cap, op⟩ := msg
  cases op with
  | create name lang env =>
      simp only [clientDispatch, map_apply]
      rcases opActionCreate_st_cases base name cap.isSome lang env (w.deliver cap) with
        ⟨hst, _⟩ | ⟨hfail, _⟩ | ⟨slot, hslot, _, hst⟩
      · rw [hst]
        exact hd
      · exact absurd hfail hok.2
      · rw [hst]
        exact hd.bindAction name lang (hok.1 slot hslot)
  | delete name => exact hd.forget name
  | invoke req env script => exact hd.later (opActionInvoke_later P base [] req env script _)
  | reject label => exact hd

/-- **Atomic create.**  A create that throws leaves the map alone exactly if it does not fail to
re-allocate the receive slot; and in every run without such a failure no stored slot is
ever the receive slot. -/
theorem create_atomic (P : Platform) (base : ManagerBase) :
    (∀ name capReceived lang env w,
      (∀ s, (opActionCreate base name capReceived lang env w).res = .error s →
        (opActionCreate base name capReceived lang env w).st.maps = w.maps) ↔
      ¬ReallocFails base name capReceived env w) ∧
    ∀ w₀ msgs w, w₀.maps base.actions = ∅ → Run (TurnOk P base) w₀ msgs w →
      ∀ n a, w.find base n = some a → a.ds ≠ some w.rcv := by
  constructor
  · intro name capReceived lang env w
    rcases opActionCreate_st_cases base name capReceived lang env w with
      ⟨hst, hok⟩ | ⟨hfail, hres, hst⟩ | ⟨slot, hslot, _, hout⟩
    · rw [hst]
      exact ⟨fun _ => hok, fun _ _ _ => rfl⟩
    · refine ⟨fun h _ => ?_, fun hok => absurd hfail hok⟩
      -- the name was unbound and is bound now
      have hmaps := h _ hres
      have hbound := w.find_bindAction_self base name lang
      rw [hst] at hmaps
      rw [World.find, hmaps] at hbound
      have hunbound : (w.maps base.actions).lookup name = none := hfail.2.2.1
      cases hbound.symm.trans hunbound
    · rw [hout]
      refine ⟨fun _ hfail => ?_, fun _ s hs => nomatch hs⟩
      rw [hfail.2.2.2] at hslot
      cases hslot
  · intro w₀ msgs w hempty hrun n a hn
    have hslots : Slots base w :=
      hrun.inv (I := fun _ w => Slots base w) (Slots.empty hempty) fun hs hturn => hs.turn hturn
    exact hslots.notRcv hn

/-- The first create of a client whose manager has no slot left: `-L4_ENOMEM`, and yet the name
is bound. -/
theorem create_atomic_fails :
    ¬∀ (base : ManagerBase) (name : CString) (capReceived : Bool) (lang : Language)
      (env : CreateEnv) (w : World) (s : Stop),
      (opActionCreate base name capReceived lang env w).res = .error s →
      (opActionCreate base name capReceived lang env w).st.maps = w.maps := by
  intro h
  have hmaps := h base₀ nameF true binary { realloc := none } (({} : World).deliver (some 7)) _ rfl
  have hlookup := congrArg (fun maps => (maps base₀.actions).lookup nameF) hmaps
  cases hlookup

def firstCreate : ClientMsg :=
  { cap := some 7, op := .create nameF binary { realloc := some 1 } }

theorem firstCreate_turnOk :
    TurnOk platform₀ base₀ {} firstCreate (serve platform₀ base₀ firstCreate {}).st := by
  refine ⟨⟨fun slot hslot => ?_, fun hfail => nomatch hfail.2.2.2⟩, rfl⟩
  cases hslot
  exact ⟨by decide, fun n a hn => nomatch hn⟩

theorem create_atomic_first :
    (some 0 : Option Slot) ≠ some (serve platform₀ base₀ firstCreate {}).st.rcv :=
  (create_atomic platform₀ base₀).2 {} [firstCreate] _ rfl (.snoc .nil firstCreate_turnOk) nameF
    { ds := some 0, lang := binary } rfl

/-! ## The registry -/

/-- What a client expects the manager to know: names bound to a dataspace object and a
language. -/
abbrev Registry := CString → Option (Object × Language)

/-- What a client expects to hear: that is done, that failed, or the invocation proceeds with
this program. -/
inductive Answer where
  | done
  | fail (errNo : Int)
  | proceed (obj : Object) (lang : Language)
deriving DecidableEq

/-- A request to a registry. -/
def Registry.serve (R : Registry) (msg : ClientMsg) : Answer × Registry :=
  match msg.op with
  | .create name lang env =>
      match msg.cap.filter env.alive with
      | none => (.fail (-l4EInval), R)
      | some o =>
          if (R name).isSome then (.fail (-l4EExist), R)
          else (.done, Function.update R name (some (o, lang)))
  | .delete name => (.done, Function.update R name none)
  | .invoke req env _ =>
      match (R req.name).filter fun p => env.alive p.1 with
      | none => (.fail (-l4EInval), R)
      | some p => (.proceed p.1 p.2, R)
  | .reject _ => (.done, R)

/-- What a handler's run answers: a lookup that succeeded counts as the answer, whatever becomes
of the invocation. -/
def answer (out : Out World Obs Stop Reply) : Option Answer :=
  match out.obs, out.res with
  | .resolved _ _ _ o lang :: _, _ => some (.proceed o lang)
  | _, .ok _ => some .done
  | _, .error (.thrown e) => e.errNo?.map .fail
  | _, .error _ => none

/-- The slots are apart, and each holds the object its name is bound to. -/
structure Represents (base : ManagerBase) (w : World) (R : Registry) : Prop extends
    Slots base w where
  bound : ∀ {n a}, w.find base n = some a →
    ∃ s o, a.ds = some s ∧ w.caps s = some o ∧ R n = some (o, a.lang)
  unbound : ∀ {n}, w.find base n = none → R n = none

namespace Represents
variable {base : ManagerBase} {w w' : World} {R : Registry}

/-- An empty map is an empty registry. -/
theorem empty (h : w.maps base.actions = ∅) : Represents base w fun _ => none where
  toSlots := Slots.empty h
  bound := fun hn => absurd hn (w.find_ne_of_empty base h)
  unbound := fun _ => rfl

theorem deliver (h : Represents base w R) (cap : Option Object) :
    Represents base (w.deliver cap) R where
  toSlots := h.toSlots.deliver cap
  bound := by
    intro n a hn
    rw [World.find_deliver] at hn
    obtain ⟨s, o, hs, ho, hR⟩ := h.bound hn
    have hne : s ≠ w.rcv := fun heq => h.notRcv hn (heq ▸ hs)
    exact ⟨s, o, hs, (w.caps_deliver_ne hne cap).trans ho, hR⟩
  unbound := by
    intro n hn
    rw [World.find_deliver] at hn
    exact h.unbound hn

theorem later (h : Represents base w R) (hl : w.Later w') : Represents base w' R where
  toSlots := h.toSlots.later hl
  bound := by
    intro n a hn
    rw [World.find, hl.maps] at hn
    rw [hl.caps]
    exact h.bound hn
  unbound := by
    intro n hn
    rw [World.find, hl.maps] at hn
    exact h.unbound hn

theorem forget (h : Represents base w R) (name : CString) :
    Represents base (w.forget base name) (Function.update R name none) where
  toSlots := h.toSlots.forget name
  bound := by
    intro n a hn
    by_cases hname : n = name
    · subst hname
      simp at hn
    · rw [World.find_forget_ne w base hname] at hn
      obtain ⟨s, o, hs, ho, hR⟩ := h.bound hn
      refine ⟨s, o, hs, ?_, by rw [Function.update_of_ne hname]; exact hR⟩
      rw [World.caps_forget_ne w base fun a' ha' hds =>
        hname (h.distinct hn ha' (hs.trans hds.symm))]
      exact ho
  unbound := by
    intro n hn
    by_cases hname : n = name
    · rw [hname, Function.update_self]
    · rw [World.find_forget_ne w base hname] at hn
      rw [Function.update_of_ne hname]
      exact h.unbound hn

theorem bindAction (h : Represents base w R) (name : CString) (lang : Language) {slot : Slot}
    (hfresh : Fresh base w slot) {o : Object} (ho : w.caps w.rcv = some o) :
    Represents base { w.bindAction base name lang with rcv := slot }
      (Function.update R name (some (o, lang))) where
  toSlots := h.toSlots.bindAction name lang hfresh
  bound := by
    intro n a hn
    have hn' : (w.bindAction base name lang).find base n = some a := hn
    by_cases hname : n = name
    · subst hname
      rw [World.find_bindAction_self] at hn'
      cases hn'
      exact ⟨w.rcv, o, rfl, ho, by rw [Function.update_self]⟩
    · rw [World.find_bindAction_ne w base hname] at hn'
      obtain ⟨s, o', hs, ho', hR⟩ := h.bound hn'
      exact ⟨s, o', hs, ho', by rw [Function.update_of_ne hname]; exact hR⟩
  unbound := by
    intro n hn
    have hn' : (w.bindAction base name lang).find base n = none := hn
    by_cases hname : n = name
    · subst hname
      rw [World.find_bindAction_self] at hn'
      cases hn'
    · rw [World.find_bindAction_ne w base hname] at hn'
      rw [Function.update_of_ne hname]
      exact h.unbound hn'

end Represents

/-! ## Refinement -/

theorem World.validate_of_caps {w : World} {s : Slot} {o : Object} (h : w.caps s = some o)
    (alive : Object → Bool) : w.validate alive (some s) = (some o).filter alive := by
  simp [World.validate, h]

theorem World.caps_deliver_rcv (w : World) (o : Object) :
    (w.deliver (some o)).caps (w.deliver (some o)).rcv = some o := by
  rw [World.rcv_deliver]
  exact Function.update_self _ _ _

section Refinement
variable {P : Platform} {base : ManagerBase} {w : World} {R : Registry}

/-- A create at a world that has received the capability of the message. -/
theorem Represents.create (h : Represents base w R) {cap : Option Object}
    (hcap : ∀ o, cap = some o → w.caps w.rcv = some o) (name : CString) (lang : Language)
    {env : CreateEnv} {slot : Slot} (hslot : env.realloc = some slot)
    (hfresh : Fresh base w slot) :
    answer (clientDispatch P base ⟨cap, .create name lang env⟩ w) =
        some (R.serve ⟨cap, .create name lang env⟩).1 ∧
      Represents base (clientDispatch P base ⟨cap, .create name lang env⟩ w).st
        (R.serve ⟨cap, .create name lang env⟩).2 := by
  simp only [clientDispatch, map_apply, opActionCreate_apply, Registry.serve]
  cases cap with
  | none => exact ⟨rfl, h⟩
  | some o =>
      have hval := World.validate_of_caps (hcap o rfl) env.alive
      rw [if_neg (by simp), hval]
      cases ha : (some o).filter env.alive with
      | none => exact ⟨rfl, h⟩
      | some o' =>
          obtain rfl : o = o' := Option.some.inj (Option.filter_eq_some_iff.mp ha).1
          rw [if_neg (by simp)]
          cases hf : w.find base name with
          | none =>
              have hcount : ¬(w.maps base.actions).count name ≠ 0 :=
                not_not.mpr (Actions.count_eq_zero.mpr hf)
              rw [if_neg hcount, hslot]
              simp only [h.unbound hf, Option.isSome_none, Bool.false_eq_true, if_false]
              exact ⟨rfl, h.bindAction name lang hfresh (hcap o rfl)⟩
          | some a =>
              obtain ⟨_, _, _, _, hR⟩ := h.bound hf
              have hcount : (w.maps base.actions).count name ≠ 0 := fun hc => by
                rw [World.find, Actions.count_eq_zero.mp hc] at hf
                cases hf
              rw [if_pos hcount]
              simp only [hR, Option.isSome_some, if_true]
              exact ⟨rfl, h⟩

/-- An invocation looks the name up as the registry does, and changes nothing. -/
theorem Represents.invoke (h : Represents base w R) (cap : Option Object) (req : InvokeReq)
    (env : Env) (script : List Rpc) :
    answer (opActionInvoke P base [] req env script w) =
        some (R.serve ⟨cap, .invoke req env script⟩).1 ∧
      Represents base (opActionInvoke P base [] req env script w).st
        (R.serve ⟨cap, .invoke req env script⟩).2 := by
  have hst := h.later (opActionInvoke_later P base [] req env script w)
  have hans : answer (opActionInvoke P base [] req env script w) =
      some (R.serve ⟨cap, .invoke req env script⟩).1 := by
    cases hf : w.find base req.name with
    | none =>
        have hfind := findAction_unknown [] env.alive hf
        rw [opActionInvoke, invokeWith, bind_of_error hfind]
        simp only [Registry.serve, h.unbound hf]
        rfl
    | some a =>
        obtain ⟨s, o, hs, ho, hR⟩ := h.bound hf
        have hfind := findAction_found [] env.alive hf
        rw [hs, World.validate_of_caps ho] at hfind
        simp only [Registry.serve, hR]
        cases ha : env.alive o with
        | false =>
            rw [Option.filter_some, ha] at hfind
            rw [opActionInvoke, invokeWith, bind_of_error hfind]
            simp only [Option.filter_some, ha]
            rfl
        | true =>
            rw [Option.filter_some, ha] at hfind
            rw [opActionInvoke, invokeWith, bind_of_ok hfind]
            simp only [Option.filter_some, ha, if_true]
            rfl
  refine ⟨hans, ?_⟩
  have hkeep : (R.serve ⟨cap, .invoke req env script⟩).2 = R := by
    simp only [Registry.serve]
    cases (R req.name).filter fun p => env.alive p.1 with
    | none => rfl
    | some p => rfl
  rw [hkeep]
  exact hst

/-- If the message is a create, `realloc_rcv_cap` would succeed. -/
def AllocOk (base : ManagerBase) (w : World) (msg : ClientMsg) : Prop :=
  match msg.op with
  | .create _ _ env => ∃ slot, env.realloc = some slot ∧ Fresh base (w.deliver msg.cap) slot
  | _ => True

/-- One turn of the server, and what it answers. -/
def Turn (P : Platform) (base : ManagerBase) (w : World) (l : ClientMsg × Answer) (w' : World) :
    Prop :=
  AllocOk base w l.1 ∧ answer (clientDispatch P base l.1 (w.deliver l.1.cap)) = some l.2 ∧
    w' = (serve P base l.1 w).st

/-- **Step.**  The server answers as the registry does, and goes on representing it. -/
theorem Represents.turn (P : Platform) (h : Represents base w R) {msg : ClientMsg}
    (hok : AllocOk base w msg) :
    answer (clientDispatch P base msg (w.deliver msg.cap)) = some (R.serve msg).1 ∧
      Represents base (serve P base msg w).st (R.serve msg).2 := by
  rw [serve_st]
  obtain ⟨cap, op⟩ := msg
  have hd := h.deliver cap
  cases op with
  | create name lang env =>
      obtain ⟨slot, hslot, hfresh⟩ := hok
      refine hd.create (fun o ho => ?_) name lang hslot hfresh
      subst ho
      exact w.caps_deliver_rcv o
  | delete name => exact ⟨rfl, hd.forget name⟩
  | invoke req env script => exact hd.invoke cap req env script
  | reject label => exact ⟨rfl, hd⟩

/-- **Refinement.**  In every run in which the receive slot can be re-allocated, the operations
decide as a registry does that starts empty; at the end the server represents the registry, slots
apart, and every further message is decided too.  Whether the reply gets to the client is another
matter, as the log comes before it: `answers_iff`. -/
theorem serves_registry {w₀ w : World} {ls : List (ClientMsg × Answer)}
    (hempty : w₀.maps base.actions = ∅) (hrun : Run (Turn P base) w₀ ls w) :
    (∃ R, Run (fun (R : Registry) l R' => R.serve l.1 = (l.2, R')) (fun _ => none) ls R ∧
      Represents base w R) ∧
    ∀ msg, AllocOk base w msg → ∃ ans w', Turn P base w (msg, ans) w' := by
  have h₀ : Represents base w₀ fun _ => none := Represents.empty hempty
  have hsim : ∃ R, Run (fun (R : Registry) l R' => R.serve l.1 = (l.2, R')) (fun _ => none) ls R ∧
      Represents base w R := by
    refine hrun.simulate h₀ fun {w w' l R} hrep hturn => ?_
    obtain ⟨hok, hans, rfl⟩ := hturn
    obtain ⟨hans', hrep'⟩ := hrep.turn P hok
    exact ⟨_, Prod.ext (Option.some.inj (hans'.symm.trans hans)) rfl, hrep'⟩
  obtain ⟨R, hrunR, hrep⟩ := hsim
  exact ⟨⟨R, hrunR, hrep⟩, fun msg hok => ⟨_, _, hok, (hrep.turn P hok).1, rfl⟩⟩

end Refinement

/-- A create of `f`, an invocation of it, and a delete. -/
theorem serves_registry_create :
    ∃ R, Run (fun (R : Registry) l R' => R.serve l.1 = (l.2, R')) (fun _ => none)
        [(firstCreate, .done), (⟨none, .invoke { name := nameF } {} []⟩, .proceed 7 binary),
          (⟨none, .delete nameF⟩, .done)] R ∧
      Represents base₀ (serve platform₀ base₀ ⟨none, .delete nameF⟩
        (serve platform₀ base₀ ⟨none, .invoke { name := nameF } {} []⟩
          (serve platform₀ base₀ firstCreate {}).st).st).st R :=
  have h₁ : Turn platform₀ base₀ {} (firstCreate, .done) _ :=
    ⟨⟨1, rfl, by decide, fun n a hn => nomatch hn⟩, rfl, rfl⟩
  have h₂ : Turn platform₀ base₀ _ (⟨none, .invoke { name := nameF } {} []⟩, .proceed 7 binary) _ :=
    ⟨trivial, rfl, rfl⟩
  have h₃ : Turn platform₀ base₀ _ (⟨none, .delete nameF⟩, .done) _ := ⟨trivial, rfl, rfl⟩
  (serves_registry rfl (.snoc (.snoc (.snoc .nil h₁) h₂) h₃)).1

end MettEagle
