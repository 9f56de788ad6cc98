/-
# `MettEagle.L4` — the vocabulary the manager takes from L4

Bytes and C strings, error numbers, timeouts and capability slots.  Only what
the manager's own code names is here; what the kernel and L4Re do with these
values is stated where it is used, as a parameter or as a hypothesis.
-/
import MettEagle.Lib.Pages
import Mathlib.Data.List.TakeWhile

namespace MettEagle

/-- A string as memory holds it. -/
abbrev Bytes := List UInt8

/-- The bytes of a string literal of the source. -/
def lit (s : String) : Bytes := s.toList.map fun c => UInt8.ofNat c.toNat

/-- What a `const char *` points to: the bytes before the terminating NUL. -/
structure CString where
  bytes : Bytes
  nulFree : (0 : UInt8) ∉ bytes
deriving DecidableEq

namespace CString

@[ext] theorem ext {a b : CString} (h : a.bytes = b.bytes) : a = b := by
  cases a; cases b; cases h; rfl

/-- `strlen`. -/
def length (s : CString) : ℕ := s.bytes.length

instance : Inhabited CString := ⟨⟨[], List.not_mem_nil⟩⟩

end CString

/-- What a reader of a C string sees of these bytes: what precedes the first NUL. -/
def CString.ofBytes (s : Bytes) : CString where
  bytes := s.takeWhile (· ≠ 0)
  nulFree := fun h => absurd (List.mem_takeWhile_imp h) (by simp)

/-- The string is there unchanged exactly if it has no NUL. -/
theorem CString.ofBytes_eq_iff {s : Bytes} : (CString.ofBytes s).bytes = s ↔ (0 : UInt8) ∉ s := by
  rw [CString.ofBytes, List.takeWhile_eq_self_iff]
  simp only [decide_eq_true_eq]
  constructor
  · intro h h0
    exact h 0 h0 rfl
  · intro h x hx h0
    exact h (h0 ▸ hx)

/-- A terminated string, with anything behind it. -/
theorem CString.ofBytes_terminated (v : CString) (t : Bytes) :
    CString.ofBytes (v.bytes ++ 0 :: t) = v := by
  have hall : ∀ x ∈ v.bytes, decide (x ≠ 0) = true := fun x hx =>
    decide_eq_true fun h0 => v.nulFree (h0 ▸ hx)
  refine CString.ext ?_
  show (v.bytes ++ 0 :: t).takeWhile (· ≠ 0) = v.bytes
  rw [List.takeWhile_append_of_pos hall]
  simp

/-! ## Error numbers (`l4/sys/err.h`) -/

def l4EOk : Int := 0
def l4ENoEnt : Int := 2
def l4ENoMem : Int := 12
def l4EFault : Int := 14
def l4EExist : Int := 17
def l4EInval : Int := 22
def l4ENoReply : Int := 1000
def l4EMsgTooLong : Int := 1002
def l4EIpcLo : Int := 2000

/-- The kernel's code for a receive timeout. -/
def l4IpcReTimeout : ℕ := 3

/-- The error number `l4_error` gives for an IPC that failed with `code`. -/
def l4IpcToErrno (code : ℕ) : Int := -(l4EIpcLo + code)

theorem l4IpcToErrno_neg (code : ℕ) : l4IpcToErrno code < 0 := by
  simp only [l4IpcToErrno, l4EIpcLo]
  omega

/-! ## Timeouts -/

/-- A receive timeout as the kernel understands it. -/
inductive Timeout where
  | never
  | us (n : ℕ)
deriving DecidableEq, Repr

/-- `L4_IPC_NEVER`, the receive half. -/
def l4IpcNever : Timeout := .never

/-- `duration_cast<microseconds> (now - start).count ()`; a reading of the high resolution
clock is a number of nanoseconds. -/
def passedUs (start now : ℕ) : Int := ((now : Int) - start).tdiv 1000

theorem passedUs_of_le {start now : ℕ} (h : start ≤ now) :
    passedUs start now = ((now - start) / 1000 : ℕ) := by
  have hsub : (now : Int) - start = ((now - start : ℕ) : Int) := by omega
  simp only [passedUs, hsub]
  rfl

theorem passedUs_nonneg {start now : ℕ} (h : start ≤ now) : 0 ≤ passedUs start now := by
  rw [passedUs_of_le h]
  omega

/-! ## Pages -/

def l4PageShift : ℕ := 12
def l4PageSize : ℕ := 2 ^ l4PageShift

/-- `l4_trunc_page` and `l4_round_page`; an address is a word of `w` bits. -/
abbrev l4TruncPage {w : ℕ} (x : BitVec w) : BitVec w := truncPage l4PageShift x
abbrev l4RoundPage {w : ℕ} (x : BitVec w) : BitVec w := roundPage l4PageShift x

/-! ## Slots and kernel objects -/

/-- A capability slot of the manager. -/
abbrev Slot := ℕ

/-- A kernel object a capability refers to. -/
abbrev Object := ℕ

/-- `l4_umword_t`; a capability index is one too, its slot is the part above the shift. -/
abbrev Word := BitVec 64

/-- `L4_CAP_SHIFT`. -/
def l4CapShift : ℕ := 12

/-- `L4_INVALID_CAP`. -/
def l4InvalidCap : Word := (~~~0 : Word) <<< (l4CapShift - 1)

/-- `l4_is_valid_cap`. -/
def l4IsValidCap (c : Word) : Bool := c &&& ((1 : Word) <<< (l4CapShift - 1)) = 0

end MettEagle
