/-
# `MettEagle.Programs` — actions that call actions, as their authors write them

An action is a function from strings to strings that may call other actions.  The libraries
carry each call through the manager:

    C++       `Faas::invoke (name, arg)`                 `std::string`s, up to their first NUL
    Python    `faas.action_invoke (name=…, arg=…)`       strings without NUL, else a `TypeError`

`Code` is such a function.  `Runtime.worker` is what becomes of it in a worker of either
runtime, `Registry.ideal` what its author has in mind: functions that call functions, with
no manager in between.  Wherever the second comes to a value, the client of the first gets
that value, in whatever languages the actions involved are written.
-/
import MettEagle.Calls
import MettEagle.Wrappers

namespace MettEagle

open Act

/-! ## In a worker -/

/-- The body of an action.  A call of another action returns a string or raises. -/
abbrev Code := Prog Bytes Bytes (Except Thrown Bytes) Outcome

/-- `Faas::invoke`, from the return of the RPC on. -/
def faasReply (buf : RecvBuffer) (r : RpcResult) : Except Thrown Bytes :=
  match faasChksys (actionInvoke buf r) with
  | .returned s => .ok s
  | .thrown e => .error (.exn e)
  | .undefined | .unanswered => .error .other

/-- The exit RPC, or the signal of its error if it cannot be sent. -/
def exitEnd (env : ProcEnv) (value : CString) : WorkerEnd :=
  if env.exitErr value < 0 then .signal (UInt64.ofInt (env.exitErr value)) else .exit value

section
variable (P : Platform) (env : ProcEnv) (abort : UInt64)

/-- The catch blocks: the signal of the exit code, or `abort` if the log does not take the
exception. -/
def raiseEnd (unknown : Int) : Thrown → WorkerEnd
  | .exn e =>
      match e.errNo? with
      | none => .signal (UInt64.ofInt unknown)
      | some n =>
          match logException .silenceByEnv env.logLevel .fatal P.errToStr e with
          | .ok _ => .signal (UInt64.ofInt n)
          | .error _ => .signal abort
  | .other => .signal (UInt64.ofInt unknown)

/-- How a worker ends, by the end of its function: as the processes of `MettEagle.Wrappers` do. -/
def Runtime.ending : Runtime → Outcome → WorkerEnd
  | .cpp, .returns s => exitEnd env (CString.ofBytes s)
  | .cpp, .raises e => raiseEnd P env abort (-0xDEAD) e
  | .python, out => exitEnd env (CString.ofBytes out.pythonAnswer)

variable (buf : RecvBuffer)

/-- `main` of libfaas around `Main`. -/
def cppWorker : Code → WorkerProg
  | .done out => .done (Runtime.cpp.ending P env abort out)
  | .call name arg k =>
      .call (CString.ofBytes name) (CString.ofBytes arg) fun r => cppWorker (k (faasReply buf r))

/-- `main` of `python-faas2.7` around `main`.  `faas_action_invoke` parses its arguments as `"ss"`;
what `Faas::invoke` throws passes through the interpreter to the catch blocks. -/
def pythonWorker : Code → WorkerProg
  | .done out => .done (Runtime.python.ending P env abort out)
  | .call name arg k =>
      if (0 : UInt8) ∈ name ∨ (0 : UInt8) ∈ arg then pythonWorker (k (.error .other))
      else .call (CString.ofBytes name) (CString.ofBytes arg) fun r =>
        match faasReply buf r with
        | .ok s => pythonWorker (k (.ok s))
        | .error e => .done (raiseEnd P env abort (-l4EInval) e)

def Runtime.worker : Runtime → Code → WorkerProg
  | .cpp => cppWorker P env abort buf
  | .python => pythonWorker P env abort buf

end

/-- The runtime an action is started with. -/
def Runtime.ofLang (lang : Language) : Runtime := if lang = MettEagle.python then .python else .cpp

/-- The dataspaces hold these functions. -/
def codeImages (P : Platform) (env : ProcEnv) (abort : UInt64) (buf : RecvBuffer)
    (code : Object → Bytes → Code) : Images :=
  fun obj lang arg => (Runtime.ofLang lang).worker P env abort buf (code obj arg.bytes)

/-! ## What the author has in mind -/

/-- The actions of a client as functions.  A call has a value if the function is known, returns, and
argument and value can be carried: they have no NUL, and a reply has room for the value. -/
def Registry.ideal (R : Registry) (alive : Object → Bool) (code : Object → Bytes → Code)
    (cap : ℕ) : Procedures Bytes Bytes (Except Thrown Bytes) Outcome Unit where
  body name arg :=
    if (0 : UInt8) ∈ name ∨ (0 : UInt8) ∈ arg then .error ()
    else
      match R (CString.ofBytes name) with
      | none => .error ()
      | some (obj, _) => if alive obj then .ok (code obj arg) else .error ()
  deliver
    | .returns s => if (0 : UInt8) ∉ s ∧ s.length < cap then .ok (.ok s) else .error ()
    | .raises _ => .error ()

section
variable {R : Registry} {alive : Object → Bool} {code : Object → Bytes → Code} {cap : ℕ}

theorem Registry.ideal_body {name arg : Bytes} {p : Code}
    (h : (R.ideal alive code cap).body name arg = .ok p) :
    (0 : UInt8) ∉ name ∧ (0 : UInt8) ∉ arg ∧
      ∃ obj lang, R (CString.ofBytes name) = some (obj, lang) ∧ alive obj = true ∧
        p = code obj arg := by
  simp only [Registry.ideal] at h
  split at h
  · cases h
  · rename_i hnul
    refine ⟨fun h0 => hnul (Or.inl h0), fun h0 => hnul (Or.inr h0), ?_⟩
    cases hR : R (CString.ofBytes name) with
    | none =>
        rw [hR] at h
        cases h
    | some entry =>
        obtain ⟨obj, lang⟩ := entry
        rw [hR] at h
        cases hlive : alive obj with
        | false =>
            simp only [hlive, Bool.false_eq_true, if_false] at h
            cases h
        | true =>
            simp only [hlive, if_true] at h
            cases h
            exact ⟨obj, lang, rfl, hlive, rfl⟩

theorem Registry.ideal_deliver {out : Outcome} {b : Except Thrown Bytes}
    (h : (R.ideal alive code cap).deliver out = .ok b) :
    ∃ s, out = .returns s ∧ b = .ok s ∧ (0 : UInt8) ∉ s ∧ s.length < cap := by
  cases out with
  | raises e => cases h
  | returns s =>
      simp only [Registry.ideal] at h
      split at h
      · rename_i hs
        cases h
        exact ⟨s, rfl, rfl, hs⟩
      · cases h

end

/-! ## Carried out by workers -/

section
variable {P : Platform} {env : ProcEnv} {abort : UInt64} {buf : RecvBuffer} {R : Registry}
  {alive : Object → Bool} {code : Object → Bytes → Code} {cap : ℕ}

theorem CString.length_ofBytes {s : Bytes} (h : (0 : UInt8) ∉ s) :
    (CString.ofBytes s).length = s.length := by
  rw [CString.length, CString.ofBytes_eq_iff.mpr h]

/-- A value that fits comes back from `Faas::invoke` as it was returned. -/
theorem faasReply_value (hbuf : cap ≤ buf.size) {s : Bytes} (hnul : (0 : UInt8) ∉ s)
    (hlen : s.length < cap) : faasReply buf (valueResult (CString.ofBytes s)) = .ok s := by
  have hok : (0 : Int) ≤ (Tag.label l4EOk).error := by decide
  have hstub := actionInvoke_terminated buf hok (CString.ofBytes s)
  rw [if_pos (by rw [CString.length_ofBytes hnul]; omega), CString.ofBytes_eq_iff.mpr hnul] at hstub
  have hreply : actionInvoke buf (valueResult (CString.ofBytes s)) =
      .returned (.label l4EOk) s := by
    rw [valueResult, CString.ofBytes_eq_iff.mpr hnul]
    exact hstub
  rw [faasReply, hreply, faasChksys, if_neg (Int.not_lt.mpr hok)]

variable (abort) in
/-- Both runtimes carry the functions out. -/
theorem ideal_simulation (hsend : ∀ v : CString, v.length < cap → 0 ≤ env.exitErr v)
    (hbuf : cap ≤ buf.size) :
    Procedures.Simulation (R.ideal alive code cap)
      (R.procedures alive (codeImages P env abort buf code) cap)
      (fun name arg name' arg' => name' = CString.ofBytes name ∧ arg' = CString.ofBytes arg)
      (fun b r => ∃ s, b = .ok s ∧ (0 : UInt8) ∉ s ∧ s.length < cap ∧
        r = valueResult (CString.ofBytes s))
      (fun p p' => ∃ rt : Runtime, p' = rt.worker P env abort buf p) where
  body := by
    rintro name arg _ _ p ⟨rfl, rfl⟩ hbody
    obtain ⟨-, harg, obj, lang, hR, hlive, rfl⟩ := Registry.ideal_body hbody
    refine ⟨_, ?_, Runtime.ofLang lang, rfl⟩
    rw [Registry.body_bound hR, if_pos hlive, codeImages, CString.ofBytes_eq_iff.mpr harg]
  done := by
    rintro out _ b ⟨rt, rfl⟩ hb
    obtain ⟨s, rfl, rfl, hnul, hlen⟩ := Registry.ideal_deliver hb
    have hfits : (CString.ofBytes s).length < cap := by
      rw [CString.length_ofBytes hnul]
      exact hlen
    have hexit : exitEnd env (CString.ofBytes s) = .exit (CString.ofBytes s) :=
      if_neg (Int.not_lt.mpr (hsend _ hfits))
    refine ⟨.exit (CString.ofBytes s), _, ?_, if_pos hfits, s, rfl, hnul, hlen, rfl⟩
    rw [← hexit]
    cases rt with
    | cpp => rfl
    | python => rfl
  call := by
    rintro name arg k _ q ⟨rt, rfl⟩ hbody
    obtain ⟨hname, harg, -⟩ := Registry.ideal_body hbody
    cases rt with
    | cpp =>
        refine ⟨_, _, _, rfl, ⟨rfl, rfl⟩, ?_⟩
        rintro b _ ⟨s, rfl, hnul, hlen, rfl⟩
        refine ⟨.cpp, ?_⟩
        rw [faasReply_value hbuf hnul hlen]
        rfl
    | python =>
        have hcall : pythonWorker P env abort buf (.call name arg k) = .call (CString.ofBytes name)
            (CString.ofBytes arg) fun r =>
              match faasReply buf r with
              | .ok s => pythonWorker P env abort buf (k (.ok s))
              | .error e => .done (raiseEnd P env abort (-l4EInval) e) := by
          rw [pythonWorker, if_neg]
          rintro (h0 | h0)
          · exact hname h0
          · exact harg h0
        refine ⟨_, _, _, hcall, ⟨rfl, rfl⟩, ?_⟩
        rintro b _ ⟨s, rfl, hnul, hlen, rfl⟩
        refine ⟨.python, ?_⟩
        rw [faasReply_value hbuf hnul hlen]
        rfl

variable (abort) in
/-- A value of a call is what the workers of the actions answer. -/
theorem answers_of_ideal (hsend : ∀ v : CString, v.length < cap → 0 ≤ env.exitErr v)
    (hbuf : cap ≤ buf.size) {name arg s : Bytes}
    (h : (R.ideal alive code cap).Answers name arg (.ok (.ok s))) :
    (R.procedures alive (codeImages P env abort buf code) cap).Answers (CString.ofBytes name)
        (CString.ofBytes arg) (.ok (valueResult (CString.ofBytes s))) ∧
      (0 : UInt8) ∉ s ∧ s.length < cap := by
  obtain ⟨b', hans, s', hs, hnul, hlen, rfl⟩ :=
    (ideal_simulation (P := P) abort hsend hbuf).answers h rfl ⟨rfl, rfl⟩
  cases hs
  exact ⟨hans, hnul, hlen⟩

theorem CString.ofBytes_bytes (v : CString) : CString.ofBytes v.bytes = v :=
  CString.ext (CString.ofBytes_eq_iff.mpr v.nulFree)

variable (P env abort) in
/-- **Values.**  A call that has a value can be invoked, and a client that invokes it while nothing
else fails gets the value, whatever languages the functions involved are written in.  Only what can
be carried is a value (`Registry.ideal`), and the buffers of the client and of the workers have as
much room as a reply. -/
theorem client_gets_value {base : ManagerBase} {w : World} (hR : Represents base w R)
    (hsend : ∀ v : CString, v.length < cap → 0 ≤ env.exitErr v) (hbuf : cap ≤ buf.size)
    {req : InvokeReq} (hcap : req.retLength = cap) (hT : req.cfg.timeoutUs = 0) {s : Bytes}
    (h : (R.ideal alive code cap).Answers req.name.bytes req.arg.bytes (.ok (.ok s)))
    (received : Option Object) {cbuf : RecvBuffer} (hcbuf : cap ≤ cbuf.size) :
    (∃ menv script, menv.Smooth alive ∧ SmoothScript alive script ∧
      Staged P base (codeImages P env abort buf code) cap False [] req menv script
        (w.deliver received)) ∧
    ∀ menv script, menv.Smooth alive → SmoothScript alive script →
      Staged P base (codeImages P env abort buf code) cap False [] req menv script
        (w.deliver received) →
      ∃ reply, (serve P base ⟨received, .invoke req menv script⟩ w).res = .ok reply ∧
        (actionInvoke cbuf reply.rpcResult).Gets s := by
  obtain ⟨hans, hnul, hlen⟩ := answers_of_ideal (P := P) abort hsend hbuf h
  rw [CString.ofBytes_bytes, CString.ofBytes_bytes] at hans
  have hR' := hR.deliver received
  constructor
  · obtain ⟨script, hscript, hst⟩ := staged_of_answers P hans [] req.cfg hR' hT
    refine ⟨smoothEnv alive, script, smoothEnv_smooth alive, hscript, ?_⟩
    subst hcap
    exact hst
  · intro menv script hmenv hscript hst
    obtain ⟨y, hy, hends⟩ := hst.endsAs hR' hmenv hscript hcap hT
    obtain rfl := hy.unique hans
    match hres : opActionInvoke P base [] req menv script (w.deliver received) with
    | ⟨.error e, w', o⟩ =>
        rw [hres] at hends
        obtain ⟨e, he, -⟩ := hends.of_error
        cases he
    | ⟨.ok reply, w', o⟩ =>
        rw [hres] at hends
        have hreply := Except.ok.inj hends.of_ok
        refine ⟨reply, ?_, ?_⟩
        · simp only [serve, modify_bind_apply]
          exact congrArg Out.res (excLogDispatch_of_ok hres)
        · rw [← hreply, valueResult]
          have hok : (0 : Int) ≤ (Tag.label l4EOk).error := by decide
          have hgets := (gets_terminated_iff cbuf hok (CString.ofBytes s)).mpr (by
            rw [CString.length_ofBytes hnul]
            omega)
          rw [CString.ofBytes_eq_iff.mpr hnul] at hgets ⊢
          exact hgets

end

/-- `relay`, written by its author. -/
def relayCode : Object → Bytes → Code := fun _ arg =>
  if arg = [] then .done (.returns (lit "g"))
  else .call (lit "f") [] fun
    | .ok s => .done (.returns s)
    | .error e => .done (.raises e)

/-- The client that created `f` gets `g` from it. -/
theorem client_gets_value_relay :
    ∃ menv script, menv.Smooth (fun _ => true) ∧ SmoothScript (fun _ => true) script ∧
      ∃ reply, (serve platform₀ base₀ ⟨none, .invoke requestRelay menv script⟩
          (serve platform₀ base₀ firstCreate {}).st).res = .ok reply ∧
        (actionInvoke ⟨[1, 1], by decide⟩ reply.rpcResult).Gets (lit "g") := by
  have hok : AllocOk base₀ {} firstCreate := ⟨1, rfl, by decide, fun n a hn => nomatch hn⟩
  have hR := ((Represents.empty rfl).turn platform₀ hok).2
  have hideal : ((Registry.serve (fun _ => none) firstCreate).2.ideal (fun _ => true) relayCode
      2).Answers requestRelay.name.bytes requestRelay.arg.bytes (.ok (.ok (lit "g"))) :=
    Procedures.answers_iff_answer.mpr ⟨4, rfl⟩
  have hbuf : 2 ≤ RecvBuffer.size ⟨[1, 1], by decide⟩ := by decide
  have hT : requestRelay.cfg.timeoutUs = 0 := rfl
  obtain ⟨⟨menv, script, hmenv, hscript, hst⟩, hall⟩ := client_gets_value platform₀ {} 0 hR
    (fun _ _ => Int.le_refl 0) hbuf rfl hT hideal none hbuf
  exact ⟨menv, script, hmenv, hscript, hall menv script hmenv hscript hst⟩

end MettEagle
