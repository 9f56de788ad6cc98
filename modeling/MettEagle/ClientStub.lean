/-
# `MettEagle.ClientStub` — the caller's side of `action_invoke`

The result of an invocation travels from `op_exit` through the output array of
the manager's reply into a buffer of the caller, and from there into a string:

    op_exit        v                       a NUL-terminated string
    finish         v ++ [0]                if that fits into the array, of capacity S
    RPC            its first n bytes       the capacity of the caller's buffer
    action_invoke  what precedes the NUL   if the last byte received is NUL

The length is checked three times, each time differently, and the checks agree: the
caller gets `v` exactly if `v` and its NUL fit into both arrays.

The last check looks at the end of the buffer without looking at the tag first.  On
an error nothing was received, and it looks at whatever the buffer held before.
-/
import MettEagle.ErrorReplies
import MettEagle.ServerLoop

namespace MettEagle

open Act

/-! ## The RPC -/

/-- What an RPC returns: the label of the reply, or the code of an IPC that failed. -/
inductive Tag where
  | label (l : Int)
  | ipcError (code : ℕ)
deriving DecidableEq

/-- `l4_error`. -/
def Tag.error : Tag → Int
  | .label l => l
  | .ipcError code => l4IpcToErrno code

/-- What comes back from the manager: the tag, and the output array of the reply. -/
structure RpcResult where
  tag : Tag
  array : Bytes := []

/-- The manager's reply as it arrives. -/
def Reply.rpcResult (r : Reply) : RpcResult := { tag := .label r.label, array := r.ret }

/-- The buffer of a caller; the bytes it holds before the call are arbitrary. -/
structure RecvBuffer where
  bytes : Bytes
  nonempty : bytes ≠ []

/-- The capacity of a buffer. -/
def RecvBuffer.size (buf : RecvBuffer) : ℕ := buf.bytes.length

/-- `L4::Ipc::Array`: the memory it points to, and its length. -/
structure IpcArray where
  data : Bytes
  length : ℕ

/-- `L4::Ipc::Array<char> arr (sizeof (buffer), buffer)`. -/
def RecvBuffer.array (buf : RecvBuffer) : IpcArray := ⟨buf.bytes, buf.size⟩

/-- What the RPC layer does with the caller's array: an error leaves it alone, else as much of
the reply's array as fits is copied to its front. -/
def RpcResult.receive (a : RpcResult) (buf : RecvBuffer) : IpcArray :=
  if a.tag.error < 0 then buf.array
  else
    let n := min a.array.length buf.size
    ⟨a.array.take n ++ buf.bytes.drop n, n⟩

/-! ## The stub -/

/-- How a call of the stub ends; `undefined` is a read outside of the buffer. -/
inductive StubResult where
  | returned (tag : Tag) (ret : Bytes)
  | thrown (e : Exn)
  | undefined
deriving DecidableEq

/-- What `action_invoke` throws for a truncated result. -/
def recvTooSmall : Exn :=
  .loggable (-l4EMsgTooLong) (lit "The client receive buffer is too small")

/-- `Manager_Base::action_invoke` with a `std::string` result, from the return of the RPC on. -/
def actionInvoke (buf : RecvBuffer) (a : RpcResult) : StubResult :=
  let arr := a.receive buf
  if arr.length = 0 then .undefined
  else
    match arr.data[arr.length - 1]? with
    | none => .undefined
    | some b =>
        if b ≠ 0 then .thrown recvTooSmall
        else .returned a.tag (CString.ofBytes arr.data).bytes

/-- The caller gets the string. -/
def StubResult.Gets (r : StubResult) (s : Bytes) : Prop :=
  ∃ tag, r = .returned tag s ∧ 0 ≤ tag.error

/-- The tag the caller gets carries the error. -/
def StubResult.Carries (r : StubResult) (n : Int) : Prop :=
  ∃ tag s, r = .returned tag s ∧ tag.error = n

/-- The caller gets the error, in the tag or as an exception. -/
def StubResult.Fails (r : StubResult) (n : Int) : Prop :=
  r.Carries n ∨ ∃ e, r = .thrown e ∧ e.errNo? = some n

/-! ## Errors -/

/-- On an error the stub looks at the last byte the caller left in the buffer. -/
theorem actionInvoke_of_error (buf : RecvBuffer) {a : RpcResult} (h : a.tag.error < 0) :
    actionInvoke buf a =
      if buf.bytes.getLast buf.nonempty ≠ 0 then .thrown recvTooSmall
      else .returned a.tag (CString.ofBytes buf.bytes).bytes := by
  have hpos : buf.bytes.length ≠ 0 := fun h0 => buf.nonempty (List.length_eq_zero_iff.mp h0)
  have hlast : buf.bytes[buf.bytes.length - 1]? = some (buf.bytes.getLast buf.nonempty) := by
    rw [← List.getLast?_eq_getElem?, List.getLast?_eq_getLast_of_ne_nil]
  simp only [actionInvoke, RpcResult.receive, if_pos h, RecvBuffer.array, RecvBuffer.size,
    if_neg hpos, hlast]

/-- An error comes through exactly if the last byte of the buffer was NUL before the call; it
is replaced by `-L4_EMSGTOOLONG` otherwise. -/
theorem error_carried_iff (buf : RecvBuffer) {a : RpcResult} (h : a.tag.error < 0) :
    (actionInvoke buf a).Carries a.tag.error ↔ buf.bytes.getLast buf.nonempty = 0 := by
  rw [actionInvoke_of_error buf h]
  constructor
  · rintro ⟨tag, s, hret, -⟩
    by_contra h0
    rw [if_pos h0] at hret
    cases hret
  · intro h0
    rw [if_neg (not_not_intro h0)]
    exact ⟨a.tag, _, rfl, rfl⟩

/-- An error stays an error, maybe another one. -/
theorem actionInvoke_fails_of_error (buf : RecvBuffer) {a : RpcResult} (h : a.tag.error < 0) :
    (actionInvoke buf a).Fails a.tag.error ∨ (actionInvoke buf a).Fails (-l4EMsgTooLong) := by
  rw [actionInvoke_of_error buf h]
  split
  · exact Or.inr (Or.inr ⟨_, rfl, rfl⟩)
  · exact Or.inl (Or.inl ⟨_, _, rfl, rfl⟩)

theorem not_gets_of_error (buf : RecvBuffer) {a : RpcResult} (h : a.tag.error < 0) (s : Bytes) :
    ¬(actionInvoke buf a).Gets s := by
  rintro ⟨tag, hret, htag⟩
  rw [actionInvoke_of_error buf h] at hret
  split at hret
  · cases hret
  · cases hret
    omega

/-! ## Results -/

/-- A terminated string comes through if its terminator does; a byte of the string itself is
never mistaken for one. -/
theorem actionInvoke_terminated (buf : RecvBuffer) {tag : Tag} (htag : 0 ≤ tag.error)
    (v : CString) :
    actionInvoke buf { tag := tag, array := v.bytes ++ [0] } =
      if v.length < buf.size then .returned tag v.bytes else .thrown recvTooSmall := by
  have hpos : 0 < buf.size := List.length_pos_iff.mpr buf.nonempty
  simp only [actionInvoke, RpcResult.receive, if_neg (Int.not_lt.mpr htag), List.length_append,
    List.length_singleton]
  by_cases hfits : v.length < buf.size
  · -- everything arrives
    have hmin : min (v.bytes.length + 1) buf.size = v.bytes.length + 1 := min_eq_left hfits
    rw [if_pos hfits, hmin, if_neg (Nat.succ_ne_zero _), Nat.add_sub_cancel,
      List.take_of_length_le (by simp), List.append_assoc, List.singleton_append,
      List.getElem?_append_right (le_refl _)]
    simp [CString.ofBytes_terminated]
  · -- the buffer is full before the terminator
    have hle : buf.size ≤ v.bytes.length := Nat.not_lt.mp hfits
    have hmin : min (v.bytes.length + 1) buf.size = buf.size := min_eq_right (by omega)
    have hlt : buf.size - 1 < v.bytes.length := by omega
    have hbyte : v.bytes[buf.size - 1] ≠ 0 := fun h0 => v.nulFree (h0 ▸ List.getElem_mem hlt)
    rw [if_neg hfits, hmin, if_neg (by omega), List.take_append_of_le_length hle,
      List.getElem?_append_left (by rw [List.length_take]; omega),
      List.getElem?_take_of_lt (by omega), List.getElem?_eq_getElem hlt]
    exact if_pos hbyte

theorem gets_terminated_iff (buf : RecvBuffer) {tag : Tag} (htag : 0 ≤ tag.error) (v : CString) :
    (actionInvoke buf { tag := tag, array := v.bytes ++ [0] }).Gets v.bytes ↔
      v.length < buf.size := by
  rw [actionInvoke_terminated buf htag]
  split
  · rename_i hfits
    exact iff_of_true ⟨tag, rfl, htag⟩ hfits
  · rename_i hfits
    refine iff_of_false ?_ hfits
    rintro ⟨tag', hret, -⟩
    cases hret

section Transport
variable {P : Platform} {base : ManagerBase} {req : InvokeReq} {env : Env} {w₀ w₁ w₂ : World}
  {start : ℕ} {o₁ : List Obs} {pre : List Rpc} {rs : List Reply} {cap : Option Object}

/-- **Result transport.**  Whatever the capacities, the caller gets the exit value or
`-L4_EMSGTOOLONG`, and gets the value exactly if it fits into both arrays. -/
theorem result_transport (hstr : ∀ n, Fmt.Plain (P.errToStr n))
    (hp : prepare P base [] req env (w₀.deliver cap) = ⟨.ok start, w₁, o₁⟩)
    (hs : Serves P base (req.stack start []) req.cfg start pre w₁ rs w₂)
    (ht : ¬TimesOut P req.cfg start w₂) (value : CString) (data : WorkerMetadata)
    (post : List Rpc) (ending : Ending) :
    ∃ reply, (serve P base
        ⟨cap, .invoke req { env with ending := ending } (pre ++ .exit value data :: post)⟩ w₀).res =
          .ok reply ∧
      reply.ret.length ≤ req.retLength ∧
      ∀ buf : RecvBuffer,
        ((actionInvoke buf reply.rpcResult).Gets value.bytes ∨
          (actionInvoke buf reply.rpcResult).Fails (-l4EMsgTooLong)) ∧
        ((actionInvoke buf reply.rpcResult).Gets value.bytes ↔
          value.length + 1 ≤ min req.retLength buf.size) := by
  obtain ⟨stop, w', o, -, hcall⟩ := opActionInvoke_exit hp hs ht value data
  have hrun := hcall post ending
  simp only [serve, modify_bind_apply]
  by_cases hbig : req.retLength ≤ value.length
  · -- the manager refuses
    rw [if_pos hbig] at hrun
    have hlog : Loggable P bufferTooSmall := Or.inr (by decide)
    refine ⟨_, excLogDispatch_of_loggable hstr rfl hrun hlog, Nat.zero_le _, fun buf => ?_⟩
    have herr : (Reply.rpcResult { label := -l4EMsgTooLong }).tag.error < 0 := by decide
    refine ⟨Or.inr ?_, iff_of_false (not_gets_of_error buf herr _) (by omega)⟩
    rcases actionInvoke_fails_of_error buf herr with h | h
    · exact h
    · exact h
  · -- the manager answers, and the caller's buffer decides
    rw [if_neg hbig] at hrun
    have hok : (0 : Int) ≤ (Tag.label l4EOk).error := by decide
    refine ⟨exitReply start stop value.bytes data, ?_, ?_, fun buf => ?_⟩
    · exact congrArg Out.res (excLogDispatch_of_ok hrun)
    · simp only [exitReply, List.length_append, List.length_singleton]
      exact Nat.not_le.mp hbig
    · refine ⟨?_, (gets_terminated_iff buf hok value).trans (by omega)⟩
      by_cases hfits : value.length < buf.size
      · exact Or.inl ((gets_terminated_iff buf hok value).mpr hfits)
      · refine Or.inr (Or.inr ⟨recvTooSmall, ?_, rfl⟩)
        exact (actionInvoke_terminated buf hok value).trans (if_neg hfits)

end Transport

/-! ## Fixed inputs -/

/-- `L4::Ipc::Msg::Mr_bytes`, the size of the buffer in the stub. -/
def mrBytes : ℕ := 63 * 8

/-- A buffer on a stack that held ones. -/
def dirtyBuffer : RecvBuffer where
  bytes := List.replicate mrBytes 1
  nonempty := List.ne_nil_of_length_pos (by rw [List.length_replicate]; decide)

theorem dirtyBuffer_getLast : dirtyBuffer.bytes.getLast dirtyBuffer.nonempty = 1 :=
  List.getLast_replicate _

/-- The manager answers `-L4_EINVAL`. -/
theorem error_carried_fails :
    ¬∀ (buf : RecvBuffer) (a : RpcResult), a.tag.error < 0 →
      (actionInvoke buf a).Carries a.tag.error := by
  intro h
  have hlast := (error_carried_iff dirtyBuffer (by decide)).mp
    (h dirtyBuffer { tag := .label (-l4EInval) } (by decide))
  rw [dirtyBuffer_getLast] at hlast
  cases hlast

/-- The last byte happens to be NUL, the others are not. -/
theorem error_carried_iff_clean :
    (actionInvoke ⟨[1, 1, 0], by decide⟩ { tag := .ipcError l4IpcReTimeout }).Carries (-2003) :=
  (error_carried_iff ⟨[1, 1, 0], by decide⟩ (a := { tag := .ipcError l4IpcReTimeout })
    (by decide)).mpr rfl

theorem platform₀_errToStr (n : Int) : Fmt.Plain (platform₀.errToStr n) := by
  show Fmt.Plain (lit "Unknown error")
  decide

/-- A worker that signals once and exits with `g`, for a caller with room for two bytes. -/
theorem result_transport_one :
    ∃ reply, (serve platform₀ base₀ ⟨none, .invoke { name := nameF, retLength := 2 } {}
        ([.signal 2 5] ++ [.exit nameG {}])⟩ world₀).res = .ok reply ∧
      reply.ret.length ≤ 2 ∧
      ∀ buf : RecvBuffer,
        ((actionInvoke buf reply.rpcResult).Gets nameG.bytes ∨
          (actionInvoke buf reply.rpcResult).Fails (-l4EMsgTooLong)) ∧
        ((actionInvoke buf reply.rpcResult).Gets nameG.bytes ↔
          nameG.length + 1 ≤ min 2 buf.size) :=
  have hp : (prepare platform₀ base₀ [] { name := nameF, retLength := 2 } {}
      (world₀.deliver none)).res = .ok 0 := rfl
  result_transport platform₀_errToStr (prepare_of_ok hp)
    (.cons (by decide) (.signal (by decide)) (.nil _)) (by decide) nameG {} [] .silent

end MettEagle
