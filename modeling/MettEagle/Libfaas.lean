/-
# `MettEagle.Libfaas` — a call from one action to another

An action linked with libfaas is a function from strings to strings; `Faas::invoke`
makes such a function callable from another one.  The strings take this way:

    invoke             name.c_str (), arg.c_str ()     up to the first NUL
    op_action_invoke   argv = { arg }                  one process for the call
    main               Main (argv[0])
                       exit (ret.c_str ())             up to the first NUL, or a
                                                       signal if it cannot be sent
    action_invoke      a std::string, or an error

`Transparent` is what the way should not be seen to be; `transparent_iff` says when
it is not.
-/
import MettEagle.ClientStub

namespace MettEagle

open Act

/-! ## The called process -/

/-- An action linked with libfaas: what `Main` returns, and the messages it sends to the manager
before it does.  None of them ends the process, `Main` returns. -/
structure Main where
  run : Bytes → Bytes
  messages : Bytes → List Rpc := fun _ => []
  returns : ∀ a, ∀ m ∈ messages a, m.ends = false

/-- What a process did: what it called `Main` with, if it did, and what it sent. -/
structure Process where
  mainArg : Option Bytes
  messages : List Rpc

/-- The process leaves its `main` with an error number: the runtime signals the parent. -/
def exitWith (err : Int) : Rpc := .signal 0 (UInt64.ofInt err)

/-- The `main` of libfaas.  `exitErr` is the error of the exit RPC if it cannot be sent. -/
def wrapperMain (main : Main) (exitErr : CString → Int) (data : WorkerMetadata)
    (argv : List CString) : Process :=
  match argv with
  | [arg] =>
      let ret := CString.ofBytes (main.run arg.bytes)
      { mainArg := some arg.bytes
        messages := main.messages arg.bytes ++
          [if exitErr ret < 0 then exitWith (exitErr ret) else .exit ret data] }
  | _ => { mainArg := none, messages := [exitWith (-l4EInval)] }

/-! ## The call -/

/-- One call of `Faas::invoke` and everything it meets: the action behind the name, the errors
of sending the request and the exit message, the buffer on the caller's stack, the enclosing
invocations and the manager. -/
structure FaasCall where
  name : Bytes
  arg : Bytes
  main : Main
  data : WorkerMetadata := {}
  sendErr : Int := 0
  exitErr : CString → Int := fun _ => 0
  buf : RecvBuffer
  retLength : ℕ
  base : ManagerBase
  fs : List Frame := []
  env : Env := {}
  world : World

namespace FaasCall

/-- The request as the manager receives it. -/
def req (c : FaasCall) : InvokeReq where
  name := CString.ofBytes c.name
  arg := CString.ofBytes c.arg
  retLength := c.retLength

/-- `worker->set_argv_strings ({ arg.data })`. -/
def process (c : FaasCall) : Process := wrapperMain c.main c.exitErr c.data [c.req.arg]

/-- What comes back.  The caller is a worker: if the manager's handler throws, nothing does. -/
def answer (P : Platform) (c : FaasCall) : Option RpcResult :=
  if c.sendErr < 0 then some { tag := .label c.sendErr }
  else
    match (opActionInvoke P c.base c.fs c.req c.env c.process.messages c.world).res with
    | .ok reply => some reply.rpcResult
    | .error _ => none

end FaasCall

/-- How a call of `Faas::invoke` ends. -/
inductive FaasResult where
  | returned (s : Bytes)
  | thrown (e : Exn)
  | undefined
  | unanswered
deriving DecidableEq

/-- `chksys` around the stub. -/
def faasChksys : StubResult → FaasResult
  | .returned tag ret =>
      if tag.error < 0 then .thrown (.runtimeError tag.error (lit "faas invoke")) else .returned ret
  | .thrown e => .thrown e
  | .undefined => .undefined

/-- `L4Re::Faas::invoke`. -/
def faasInvoke (P : Platform) (c : FaasCall) : FaasResult :=
  match c.answer P with
  | some a => faasChksys (actionInvoke c.buf a)
  | none => .unanswered

/-! ## What a call should be -/

namespace FaasCall
variable (P : Platform) (c : FaasCall)

/-- The invocation gets as far as the return of `Main`. -/
def MainReturns : Prop :=
  ∃ start w₁ o₁ rs w₂, prepare P c.base c.fs c.req c.env c.world = ⟨.ok start, w₁, o₁⟩ ∧
    Serves P c.base (c.req.stack start c.fs) c.req.cfg start (c.main.messages c.req.arg.bytes) w₁ rs
      w₂ ∧ ¬TimesOut P c.req.cfg start w₂

/-- What `Main` returns, whatever it was called with. -/
def mainRet : Bytes := c.main.run c.req.arg.bytes

/-- What the exit message carries. -/
def exitValue : CString := CString.ofBytes c.mainRet

/-- The exit message can be sent, and its value fits into the manager's array. -/
def Sent : Prop := 0 ≤ c.exitErr c.exitValue ∧ c.exitValue.length < c.retLength

/-- Argument and result can be carried, and carried unchanged. -/
structure Carried : Prop where
  arg : 0 ≤ c.sendErr ∧ (0 : UInt8) ∉ c.arg
  ret : c.MainReturns P → c.Sent ∧ c.exitValue.length < c.buf.size ∧ (0 : UInt8) ∉ c.mainRet

/-- The call is a call of `Main`: what it returns is what `Main` returned for the argument, and
where the strings cannot be carried it throws. -/
structure Transparent : Prop where
  exact : ∀ s, faasInvoke P c = .returned s →
    c.process.mainArg = some c.arg ∧ s = c.main.run c.arg
  error : ¬c.Carried P → ∃ e, faasInvoke P c = .thrown e

/-! ## What a call is -/

variable {P c}

theorem faasChksys_fails {r : StubResult} {n : Int} (hn : n < 0) (h : r.Fails n) :
    ∃ e, faasChksys r = .thrown e := by
  rcases h with ⟨tag, s, rfl, htag⟩ | ⟨e, rfl, -⟩
  · exact ⟨_, if_pos (htag ▸ hn)⟩
  · exact ⟨e, rfl⟩

/-- A request that cannot be sent. -/
theorem invoke_of_sendErr (h : c.sendErr < 0) : ∃ e, faasInvoke P c = .thrown e := by
  have herr : (Tag.label c.sendErr).error < 0 := h
  rw [faasInvoke, answer, if_pos h]
  rcases actionInvoke_fails_of_error c.buf herr (a := { tag := .label c.sendErr }) with hf | hf
  · exact faasChksys_fails h hf
  · exact faasChksys_fails (by decide) hf

theorem invoke_of_error (h : ¬c.sendErr < 0) {s : Stop}
    (hres : (opActionInvoke P c.base c.fs c.req c.env c.process.messages c.world).res = .error s) :
    faasInvoke P c = .unanswered := by
  rw [faasInvoke, answer, if_neg h, hres]

/-- The manager throws somewhere before `Main` returns. -/
theorem invoke_of_not_returns (h : ¬c.sendErr < 0) (hm : ¬c.MainReturns P) :
    faasInvoke P c = .unanswered := by
  cases hres : (opActionInvoke P c.base c.fs c.req c.env c.process.messages c.world).res with
  | error s => exact invoke_of_error h hres
  | ok r =>
      obtain ⟨start, w₁, o₁, epi, hp, hloop⟩ := opActionInvoke_ok hres
      obtain ⟨rs, w₂, hserves, ht⟩ := serves_of_ok rfl rfl (c.main.returns _) hloop
      exact absurd ⟨start, w₁, o₁, rs, w₂, hp, hserves, ht⟩ hm

theorem messages_of_exitErr (h : c.exitErr c.exitValue < 0) :
    c.process.messages = c.main.messages c.req.arg.bytes ++
      [.signal 0 (UInt64.ofInt (c.exitErr c.exitValue))] :=
  congrArg (c.main.messages c.req.arg.bytes ++ [·]) (if_pos h)

theorem messages_of_exit (h : ¬c.exitErr c.exitValue < 0) :
    c.process.messages = c.main.messages c.req.arg.bytes ++ [.exit c.exitValue c.data] :=
  congrArg (c.main.messages c.req.arg.bytes ++ [·]) (if_neg h)

/-- The exit message cannot be sent, or its value does not fit into the manager's array. -/
theorem invoke_of_not_sent (h : ¬c.sendErr < 0) (hm : c.MainReturns P) (hsent : ¬c.Sent) :
    faasInvoke P c = .unanswered := by
  obtain ⟨start, w₁, o₁, rs, w₂, hp, hs, ht⟩ := hm
  by_cases herr : c.exitErr c.exitValue < 0
  · obtain ⟨w', o, -, hrun⟩ := opActionInvoke_signal hp hs ht
      (UInt64.ofInt (c.exitErr c.exitValue))
    refine invoke_of_error h (s := .thrown workerError) ?_
    rw [messages_of_exitErr herr]
    exact congrArg Out.res (hrun [] c.env.ending)
  · obtain ⟨stop, w', o, -, hrun⟩ := opActionInvoke_exit hp hs ht c.exitValue c.data
    have hbig : c.req.retLength ≤ c.exitValue.length :=
      Nat.not_lt.mp fun hlt => hsent ⟨Int.not_lt.mp herr, hlt⟩
    refine invoke_of_error h (s := .thrown bufferTooSmall) ?_
    rw [messages_of_exit herr]
    exact congrArg Out.res ((hrun [] c.env.ending).trans (if_pos hbig))

/-- The manager answers; the buffer of the caller decides. -/
theorem invoke_of_sent (h : ¬c.sendErr < 0) (hm : c.MainReturns P) (hsent : c.Sent) :
    faasInvoke P c =
      if c.exitValue.length < c.buf.size then .returned c.exitValue.bytes
      else .thrown recvTooSmall := by
  obtain ⟨start, w₁, o₁, rs, w₂, hp, hs, ht⟩ := hm
  obtain ⟨stop, w', o, -, hrun⟩ := opActionInvoke_exit hp hs ht c.exitValue c.data
  have hres : (opActionInvoke P c.base c.fs c.req c.env c.process.messages c.world).res =
      .ok (exitReply start stop c.exitValue.bytes c.data) := by
    rw [messages_of_exit (Int.not_lt.mpr hsent.1)]
    exact congrArg Out.res
      ((hrun [] c.env.ending).trans (if_neg (Nat.not_le.mpr hsent.2)))
  have hok : (0 : Int) ≤ (Tag.label l4EOk).error := by decide
  have hstub := actionInvoke_terminated c.buf hok c.exitValue
  rw [faasInvoke, answer, if_neg h, hres]
  show faasChksys (actionInvoke c.buf _) = _
  rw [Reply.rpcResult]
  refine (congrArg faasChksys hstub).trans ?_
  split
  · rw [faasChksys, if_neg (Int.not_lt.mpr hok)]
  · rfl

/-! ## Transparency -/

theorem mainArg_eq_iff : c.process.mainArg = some c.arg ↔ (0 : UInt8) ∉ c.arg := by
  rw [← CString.ofBytes_eq_iff]
  exact Option.some_inj

/-- A call that returns has called `Main` with the argument and returns its result exactly if
neither string has a NUL. -/
theorem exact_iff :
    (c.process.mainArg = some c.arg ∧ c.exitValue.bytes = c.main.run c.arg) ↔
      (0 : UInt8) ∉ c.arg ∧ (0 : UInt8) ∉ c.mainRet := by
  rw [mainArg_eq_iff]
  refine and_congr_right fun harg => ?_
  have hbytes : c.req.arg.bytes = c.arg := CString.ofBytes_eq_iff.mpr harg
  rw [mainRet, hbytes, ← CString.ofBytes_eq_iff, exitValue, mainRet, hbytes]

/-- A call that throws returns nothing, and is transparent. -/
theorem transparent_of_thrown {e : Exn} (h : faasInvoke P c = .thrown e) : c.Transparent P where
  exact := by
    intro s hs
    rw [h] at hs
    cases hs
  error := fun _ => ⟨e, h⟩

/-- A call without an answer is transparent only where nothing had to be told. -/
theorem transparent_iff_of_unanswered (h : faasInvoke P c = .unanswered) :
    c.Transparent P ↔ c.Carried P := by
  constructor
  · intro htr
    by_contra hc
    obtain ⟨e, he⟩ := htr.error hc
    rw [h] at he
    cases he
  · intro hc
    refine ⟨fun s hs => ?_, fun hnot => absurd hc hnot⟩
    rw [h] at hs
    cases hs

/-- `Main` does not get to return. -/
theorem transparent_iff_of_not_returns (h : ¬c.sendErr < 0) (hm : ¬c.MainReturns P) :
    c.Transparent P ↔ (0 : UInt8) ∉ c.arg := by
  rw [transparent_iff_of_unanswered (invoke_of_not_returns h hm)]
  constructor
  · intro hc
    exact hc.arg.2
  · intro h0
    exact ⟨⟨Int.not_lt.mp h, h0⟩, fun h' => absurd h' hm⟩

/-- The result gets as far as the caller. -/
theorem transparent_iff_of_sent (h : ¬c.sendErr < 0) (hm : c.MainReturns P) (hsent : c.Sent) :
    c.Transparent P ↔
      c.buf.size ≤ c.exitValue.length ∨ ((0 : UInt8) ∉ c.arg ∧ (0 : UInt8) ∉ c.mainRet) := by
  have hres := invoke_of_sent h hm hsent
  by_cases hfits : c.exitValue.length < c.buf.size
  · -- the call returns
    rw [if_pos hfits] at hres
    constructor
    · intro htr
      exact Or.inr (exact_iff.mp (htr.exact _ hres))
    · intro hstrings
      have hnul := hstrings.resolve_left (Nat.not_le.mpr hfits)
      refine ⟨fun s hs => ?_, fun hc => ?_⟩
      · rw [hres] at hs
        cases hs
        exact exact_iff.mpr hnul
      · exact absurd ⟨⟨Int.not_lt.mp h, hnul.1⟩, fun _ => ⟨hsent, hfits, hnul.2⟩⟩ hc
  · -- the caller is told that the result is too long
    rw [if_neg hfits] at hres
    exact iff_of_true (transparent_of_thrown hres) (Or.inl (Nat.not_lt.mp hfits))

/-- **Transparency of libfaas.**  A call is transparent exactly if it cannot even be sent; or
`Main` does not get to return, and the argument has no NUL; or the result gets as far as the
caller, and is too long for it, or neither argument nor result has a NUL. -/
theorem transparent_iff (P : Platform) (c : FaasCall) :
    c.Transparent P ↔ c.sendErr < 0 ∨ (¬c.MainReturns P ∧ (0 : UInt8) ∉ c.arg) ∨
      (c.MainReturns P ∧ c.Sent ∧
        (c.buf.size ≤ c.exitValue.length ∨ ((0 : UInt8) ∉ c.arg ∧ (0 : UInt8) ∉ c.mainRet))) := by
  by_cases hsend : c.sendErr < 0
  · obtain ⟨e, he⟩ := invoke_of_sendErr (P := P) hsend
    exact iff_of_true (transparent_of_thrown he) (Or.inl hsend)
  by_cases hm : c.MainReturns P
  · by_cases hsent : c.Sent
    · rw [transparent_iff_of_sent hsend hm hsent]
      simp only [hsend, hm, hsent, not_true_eq_false, false_and, true_and, false_or]
    · -- the result cannot be carried, and the caller is not told
      rw [transparent_iff_of_unanswered (invoke_of_not_sent hsend hm hsent)]
      simp only [hsend, hm, hsent, not_true_eq_false, false_and, and_false, or_self, iff_false]
      exact fun hc => hsent (hc.ret hm).1
  · rw [transparent_iff_of_not_returns hsend hm]
    simp only [hsend, hm, not_false_eq_true, true_and, false_and, or_false, false_or]

/-- `Faas::invoke ("f", "a\0b")` of an action that returns its argument. -/
def nulCall : FaasCall where
  name := lit "f"
  arg := [97, 0, 98]
  main := { run := id, returns := fun _ _ h => absurd h List.not_mem_nil }
  buf := dirtyBuffer
  retLength := mrBytes
  base := base₀
  fs := [⟨0, 0⟩]
  world := world₀

/-- It returns `a`. -/
theorem transparent_fails : ¬∀ (P : Platform) (c : FaasCall), c.Transparent P := by
  intro h
  have hp : (prepare platform₀ base₀ nulCall.fs nulCall.req {} world₀).res = .ok 0 := rfl
  have hm : nulCall.MainReturns platform₀ :=
    ⟨0, _, _, [], _, prepare_of_ok hp, .nil _, by decide⟩
  have hfits : nulCall.exitValue.length < nulCall.buf.size := by
    rw [RecvBuffer.size, show nulCall.buf.bytes = List.replicate mrBytes 1 from rfl,
      List.length_replicate]
    decide
  have hret : faasInvoke platform₀ nulCall = .returned [97] :=
    (invoke_of_sent (by decide) hm ⟨by decide, by decide⟩).trans (if_pos hfits)
  obtain ⟨-, hsame⟩ := (h platform₀ nulCall).exact _ hret
  cases hsame

end FaasCall

end MettEagle
