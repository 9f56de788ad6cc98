/-
# `MettEagle.ErrorReplies` — from an exception to a reply label

`Exc_log_dispatch` catches what a handler throws, logs it and answers with the
error number.  The log comes first, and it takes the finished text as a format
string; if that throws, no handler is left.  Which texts can fail is a question
about names: every text of the manager is free of braces except where it quotes
the name a request was refused for.

    handler throws a plain text          logged, answered
    handler throws a text with a name    answered iff the log is silent or the
                                         name's braces are doubled

The first table is `refusals`, a report every handler keeps to.
-/
import MettEagle.Client

namespace MettEagle

open Act

/-! ## What a handler throws -/

/-- A handler ends in a plain exception and has refused no name, or it has refused one name
and throws the text that quotes it. -/
def refusals : Report Obs Stop where
  holds o
    | some (.thrown e) => (e.Plain ∧ ∀ n, .refused n ∉ o) ∨
        ∃ n, (e = unknownAction n ∨ e = actionExists n) ∧ ∀ n', .refused n' ∈ o ↔ n' = n
    | some .terminated => False
    | _ => ∀ n, .refused n ∉ o
  nil := fun _ => List.not_mem_nil
  append := by
    intro o₁ o₂ r h₁ h₂
    have hmem : ∀ n, .refused n ∈ o₁ ++ o₂ ↔ .refused n ∈ o₂ := by
      intro n
      rw [List.mem_append]
      exact or_iff_right (h₁ n)
    match r with
    | some (.thrown e) => simpa only [hmem] using h₂
    | some .terminated => exact h₂
    | some .blocked => simpa only [hmem] using h₂
    | none => simpa only [hmem] using h₂

theorem refusalRules (P : Platform) (base : ManagerBase) (fs : List Frame) :
    LoopRules P base fs (fun _ _ => True) (fun _ => True) refusals where
  leave := fun _ h => h
  stop := fun h => h
  tick := fun h => h
  enter := fun _ h => h
  log := by
    intro o ho n hn
    obtain ⟨sev, m, h⟩ := ho _ hn
    cases h
  plain := fun he => Or.inl ⟨he, fun _ => List.not_mem_nil⟩
  blocked := fun _ => List.not_mem_nil
  refused := fun name => Or.inr ⟨name, Or.inl rfl, fun n => by simp⟩
  gone := fun name => Or.inl ⟨goneAction_plain, fun n => by simp⟩
  resolved := fun _ _ _ _ n => by simp
  launch := fun _ _ _ _ _ n => by simp
  wait := fun _ _ _ _ _ n => by simp

theorem opActionCreate_refusals (base : ManagerBase) (name : CString) (capReceived : Bool)
    (lang : Language) (env : CreateEnv) (w : World) :
    refusals.holds (opActionCreate base name capReceived lang env w).obs
      (opActionCreate base name capReceived lang env w).stop := by
  rw [opActionCreate_apply]
  split
  · exact Or.inl ⟨noCap_plain, fun _ => List.not_mem_nil⟩
  · split
    · exact Or.inl ⟨invalidCap_plain, fun _ => List.not_mem_nil⟩
    · split
      · exact Or.inr ⟨name, Or.inr rfl, fun n => by simp⟩
      · cases env.realloc with
        | none => exact Or.inl ⟨reallocFailed_plain, fun _ => List.not_mem_nil⟩
        | some slot => exact fun _ => List.not_mem_nil

/-- Every operation of the client gate keeps to the report. -/
theorem clientDispatch_refusals (P : Platform) (base : ManagerBase) (msg : ClientMsg) (w : World) :
    refusals.holds (clientDispatch P base msg w).obs (clientDispatch P base msg w).stop := by
  obtain ⟨cap, op⟩ := msg
  cases op with
  | create name lang env =>
      have h := opActionCreate_refusals base name cap.isSome lang env w
      simp only [clientDispatch, map_apply]
      cases hres : (opActionCreate base name cap.isSome lang env w).res with
      | ok label => simpa only [Out.stop, hres, Except.map] using h
      | error s => simpa only [Out.stop, hres, Except.map] using h
  | delete name => exact fun _ => List.not_mem_nil
  | invoke req env script => exact ((refusalRules P base []).run req env script w trivial).1
  | reject label => exact fun _ => List.not_mem_nil

/-! ## What the log makes of it -/

/-- The text of an exception that carries an error number, without the error's name. -/
def Exn.message : Exn → Bytes
  | .loggable _ msg => msg
  | .runtimeError _ extra => extra
  | .baseException _ | .number _ | .formatError _ => []

theorem Exn.text_eq {errToStr : Int → Bytes} {e : Exn} {n : Int} (he : e.errNo? = some n) :
    e.text errToStr = .ok (errToStr n ++ (lit ": " ++ e.message)) := by
  cases e with
  | loggable k msg => cases he; exact format_pair _ _
  | runtimeError k extra => cases he; exact format_pair _ _
  | baseException str => cases he
  | number err => cases he
  | formatError what => cases he

/-- `log` with the default silencer drops this severity. -/
def Platform.silent (P : Platform) (sev : Severity) : Bool :=
  Silencer.silenceByEnv.silence P.logLevel sev

/-- Writing the exception to the log goes through. -/
def Loggable (P : Platform) (e : Exn) : Prop :=
  P.silent .error = true ∨ Fmt.bracesDoubled e.message = true

/-- What the handler returns is the reply. -/
theorem excLogDispatch_of_ok {P : Platform} {h : M Reply} {w w' : World} {o : List Obs}
    {r : Reply} (hres : h w = ⟨.ok r, w', o⟩) : excLogDispatch P h w = ⟨.ok r, w', o⟩ :=
  tryCatch_of_ok _ hres

section
variable {P : Platform} (hstr : ∀ n, Fmt.Plain (P.errToStr n)) {e : Exn} {n : Int}
  (he : e.errNo? = some n)
include hstr he

theorem logObject_text_iff :
    (∃ r, logObject .silenceByEnv P.logLevel .error (e.text P.errToStr) = .ok r) ↔
      Loggable P e := by
  rw [Exn.text_eq he, logObject_ok_iff, Fmt.bracesDoubled_plain_append (hstr n),
    Fmt.bracesDoubled_plain_append (by decide)]
  rfl

theorem logExn_of_loggable (hlog : Loggable P e) (w : World) :
    ∃ o, logExn P .error e w = ⟨.ok (), w, o⟩ := by
  obtain ⟨r, hr⟩ := (logObject_text_iff hstr he).mpr hlog
  cases r with
  | none => exact ⟨[], by simp only [logExn, hr, pure_apply]⟩
  | some out => exact ⟨[.log .error out], by simp only [logExn, hr, emit_apply]⟩

theorem logExn_of_not_loggable (hlog : ¬Loggable P e) (w : World) :
    ∃ f, logExn P .error e w = ⟨.error (.thrown (.formatError f)), w, []⟩ := by
  cases hr : logObject .silenceByEnv P.logLevel .error (e.text P.errToStr) with
  | ok r => exact absurd ((logObject_text_iff hstr he).mp ⟨r, hr⟩) hlog
  | error f => exact ⟨f, by simp only [logExn, hr, throw_apply]⟩

/-- The handler's exception becomes a reply, if the log takes it. -/
theorem excLogDispatch_of_loggable {h : M Reply} {w w' : World} {o : List Obs}
    (hres : h w = ⟨.error (.thrown e), w', o⟩) (hlog : Loggable P e) :
    (excLogDispatch P h w).res = .ok { label := n } := by
  obtain ⟨o', ho'⟩ := logExn_of_loggable hstr he hlog w'
  rw [excLogDispatch, tryCatch_of_error _ hres]
  cases e with
  | loggable k msg => cases he; simp [bind_of_ok ho']
  | runtimeError k extra => cases he; simp [bind_of_ok ho']
  | baseException str => cases he
  | number err => cases he
  | formatError what => cases he

/-- Else a second exception leaves the dispatcher. -/
theorem excLogDispatch_of_not_loggable {h : M Reply} {w w' : World} {o : List Obs}
    (hres : h w = ⟨.error (.thrown e), w', o⟩) (hlog : ¬Loggable P e) :
    ∃ f, (excLogDispatch P h w).res = .error (.thrown (.formatError f)) := by
  obtain ⟨f, hf⟩ := logExn_of_not_loggable hstr he hlog w'
  rw [excLogDispatch, tryCatch_of_error _ hres]
  refine ⟨f, ?_⟩
  cases e with
  | loggable k msg => simp [bind_of_error hf]
  | runtimeError k extra => simp [bind_of_error hf]
  | baseException str => cases he
  | number err => cases he
  | formatError what => cases he

end

/-! ## The dispatcher -/

theorem Exn.Plain.errNo {e : Exn} (h : e.Plain) :
    ∃ n, e.errNo? = some n ∧ n < 0 ∧ Fmt.bracesDoubled e.message = true := by
  cases h with
  | loggable hneg hmsg => exact ⟨_, rfl, hneg, Fmt.bracesDoubled_of_plain hmsg⟩
  | runtimeError hneg hextra => exact ⟨_, rfl, hneg, Fmt.bracesDoubled_of_plain hextra⟩

/-- A text that quotes a name is as good as the name. -/
theorem bracesDoubled_quote {e : Exn} {name : CString}
    (h : e = unknownAction name ∨ e = actionExists name) :
    Fmt.bracesDoubled e.message = Fmt.bracesDoubled name.bytes := by
  rcases h with rfl | rfl
  · exact (Fmt.bracesDoubled_plain_append (by decide) _).trans
      (Fmt.bracesDoubled_append_plain (by decide) _)
  · exact (Fmt.bracesDoubled_plain_append (by decide) _).trans
      (Fmt.bracesDoubled_append_plain (by decide) _)

theorem quote_errNo {e : Exn} {name : CString}
    (h : e = unknownAction name ∨ e = actionExists name) : ∃ n, e.errNo? = some n ∧ n < 0 := by
  rcases h with rfl | rfl
  · exact ⟨_, rfl, by decide⟩
  · exact ⟨_, rfl, by decide⟩

/-- The request is answered: what the handler throws becomes a reply with its error number,
and nothing leaves the dispatcher (a handler may still wait for a worker forever). -/
structure Answers (P : Platform) (base : ManagerBase) (msg : ClientMsg) (w : World) : Prop where
  reply : ∀ e n, (clientDispatch P base msg w).res = .error (.thrown e) → e.errNo? = some n →
    n < 0 ∧ ∃ r, (excLogDispatch P (clientDispatch P base msg) w).res = .ok r ∧ r.label = n
  survives : ∀ s, (excLogDispatch P (clientDispatch P base msg) w).res = .error s → s = .blocked

theorem answers_iff_loggable {P : Platform} (hstr : ∀ n, Fmt.Plain (P.errToStr n))
    {base : ManagerBase} {msg : ClientMsg} {w w' : World} {o : List Obs} {e : Exn} {n : Int}
    (hres : clientDispatch P base msg w = ⟨.error (.thrown e), w', o⟩) (he : e.errNo? = some n)
    (hneg : n < 0) : Answers P base msg w ↔ Loggable P e := by
  constructor
  · intro hans
    by_contra hlog
    obtain ⟨f, hf⟩ := excLogDispatch_of_not_loggable hstr he hres hlog
    cases hans.survives _ hf
  · intro hlog
    have hreply := excLogDispatch_of_loggable hstr he hres hlog
    constructor
    · intro e' n' hres' he'
      rw [hres] at hres'
      cases hres'
      rw [he] at he'
      cases he'
      exact ⟨hneg, _, hreply, rfl⟩
    · intro s hs
      rw [hreply] at hs
      cases hs

/-- **Error replies.**  The dispatcher answers exactly if errors are not logged, or the name the
request is refused for, if it is refused for a name, has its braces doubled. -/
theorem answers_iff {P : Platform} (hstr : ∀ n, Fmt.Plain (P.errToStr n)) (base : ManagerBase)
    (msg : ClientMsg) (w : World) :
    Answers P base msg w ↔
      P.silent .error = true ∨
        ∀ name, .refused name ∈ (clientDispatch P base msg w).obs →
          Fmt.bracesDoubled name.bytes = true := by
  have hrep := clientDispatch_refusals P base msg w
  match hres : clientDispatch P base msg w with
  | ⟨.ok r, w', o⟩ =>
      rw [hres] at hrep
      refine ⟨fun _ => Or.inr fun name hname => absurd hname (hrep name), fun _ => ⟨?_, ?_⟩⟩
      · intro e n he
        rw [hres] at he
        cases he
      · intro s hs
        rw [excLogDispatch_of_ok hres] at hs
        cases hs
  | ⟨.error .blocked, w', o⟩ =>
      rw [hres] at hrep
      refine ⟨fun _ => Or.inr fun name hname => absurd hname (hrep name), fun _ => ⟨?_, ?_⟩⟩
      · intro e n he
        rw [hres] at he
        cases he
      · intro s hs
        rw [excLogDispatch, tryCatch_of_error _ hres] at hs
        cases hs
        rfl
  | ⟨.error .terminated, w', o⟩ =>
      rw [hres] at hrep
      exact hrep.elim
  | ⟨.error (.thrown e), w', o⟩ =>
      rw [hres] at hrep
      rcases hrep with ⟨hplain, hnone⟩ | ⟨name, hquote, hname⟩
      · obtain ⟨n, he, hneg, hbraces⟩ := hplain.errNo
        rw [answers_iff_loggable hstr hres he hneg]
        exact ⟨fun _ => Or.inr fun name hname => absurd hname (hnone name),
          fun _ => Or.inr hbraces⟩
      · obtain ⟨n, he, hneg⟩ := quote_errNo hquote
        rw [answers_iff_loggable hstr hres he hneg, Loggable, bracesDoubled_quote hquote]
        constructor
        · rintro (hsil | hb)
          · exact Or.inl hsil
          · exact Or.inr fun name' hname' => by rwa [(hname name').mp hname']
        · rintro (hsil | hb)
          · exact Or.inl hsil
          · exact Or.inr (hb name ((hname name).mpr rfl))

def brace : CString := ⟨lit "\x7b", by decide⟩

/-- `LOG_LEVEL` with nothing but errors. -/
def loggingPlatform : Platform := { platform₀ with logLevel := 0b00010 }

theorem loggingPlatform_errToStr (n : Int) : Fmt.Plain (loggingPlatform.errToStr n) := by
  show Fmt.Plain (lit "Unknown error")
  decide

/-- The request names an action that nobody created: `{`. -/
theorem answers_fails :
    ¬∀ (P : Platform) (base : ManagerBase) (msg : ClientMsg) (w : World),
      (∀ n, Fmt.Plain (P.errToStr n)) → Answers P base msg w := by
  intro h
  have hans := h loggingPlatform base₀ { op := .invoke { name := brace } {} [] } world₀
    loggingPlatform_errToStr
  have hlost : (excLogDispatch loggingPlatform (clientDispatch loggingPlatform base₀
      { op := .invoke { name := brace } {} [] }) world₀).res =
      .error (.thrown (.formatError .argumentNotFound)) := rfl
  cases hans.survives _ hlost

/-- A create of a name that is in use, while errors are logged. -/
theorem answers_iff_bound :
    Answers loggingPlatform base₀
      { cap := some 7, op := .create nameF binary { realloc := some 3 } }
      { world₀ with caps := fun _ => some 7 } :=
  (answers_iff loggingPlatform_errToStr base₀ _ _).mpr (Or.inr fun name hname => by
    have hobs : (clientDispatch loggingPlatform base₀
        { cap := some 7, op := .create nameF binary { realloc := some 3 } }
        { world₀ with caps := fun _ => some 7 }).obs = [.refused nameF] := rfl
    rw [hobs, List.mem_singleton] at hname
    cases hname
    decide)

end MettEagle
