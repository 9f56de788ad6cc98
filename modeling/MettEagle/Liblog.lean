/-
# `MettEagle.Liblog` — exceptions and the log

What the manager throws and how `liblog` writes a message.  A message is
formatted twice on its way out: once by whoever builds the text, and once more
by the main `log`, which takes a format string and arguments.  The overloads
for a single object hand the finished text to the main `log` AS ITS FORMAT
STRING, with no arguments; `logObject` keeps that second pass.

A message that is printed is represented here by its `msg` field.  The time, the
thread, the package name and the source location are read from the environment
and printed beside it; `MettEagle.LogLines` has the whole line.
-/
import MettEagle.Fmt

namespace MettEagle

open Fmt (FormatError format)

/-! ## Exceptions -/

/-- The exceptions that can fly through the manager: `Loggable_exception` with its error
number and formatted message, `L4::Runtime_error` with its error number and extra text,
any other `L4::Base_exception`, a thrown `long`, and `fmt::format_error`. -/
inductive Exn where
  | loggable (errNo : Int) (msg : Bytes)
  | runtimeError (errNo : Int) (extra : Bytes)
  | baseException (str : Bytes)
  | number (err : Int)
  | formatError (what : FormatError)
deriving DecidableEq

/-- `e.err_no ()`, for the two classes that carry one. -/
def Exn.errNo? : Exn → Option Int
  | .loggable e _ | .runtimeError e _ => some e
  | .baseException _ | .number _ | .formatError _ => none

/-- The constructor of `Loggable_exception`: the message is formatted at once. -/
def loggableException (errNo : Int) (msg : Bytes) (args : List Bytes) : Except FormatError Exn :=
  (format msg args).map (.loggable errNo)

/-- The text `fmt::format ("{}", e)` yields, by the formatter of the class.  `errToStr` is
`l4sys_errtostr`. -/
def Exn.text (errToStr : Int → Bytes) : Exn → Except FormatError Bytes
  | .loggable e msg => format (lit "{:s}: {:s}") [errToStr e, msg]
  | .runtimeError e extra => format (lit "{:s}: {:s}") [errToStr e, extra]
  | .baseException str => format (lit "{:s}") [str]
  | .number err => .ok (errToStr err)
  | .formatError what => .error what

theorem format_pair (a b : Bytes) :
    format (lit "{:s}: {:s}") [a, b] = .ok (a ++ (lit ": " ++ b)) := by
  have h : format (lit "{:s}: {:s}") [a, b] = .ok (a ++ (58 :: 32 :: (b ++ []))) := rfl
  rw [h, List.append_nil]
  rfl

/-! ## Severities and silencers -/

inductive Severity where
  | debug | info | warn | error | fatal
deriving DecidableEq, Repr

/-- `SilenceByEnv::severity_to_mask`. -/
def Severity.toMask : Severity → BitVec 32
  | .debug => 0b10000
  | .info => 0b01000
  | .warn => 0b00100
  | .error => 0b00010
  | .fatal => 0b00001

/-- What `log` asks of its `Silencer`, the template `silence<Severity> ()`, which may look at the
`int` that `getLevel` reads.  `NoSilence` cannot be a `Silencer`: its `silence ()` is no template, so
`log<Severity, NoSilence>` is not well formed. -/
structure Silencer where
  silence : BitVec 32 → Severity → Bool

/-- `SilenceByEnv`, the default. -/
def Silencer.silenceByEnv : Silencer := ⟨fun level sev => level &&& sev.toMask == 0⟩

/-! ## The log -/

/-- The main `log`: `none` if the message is silenced, else the message it prints. -/
def log (sil : Silencer) (level : BitVec 32) (sev : Severity) (msg : Bytes) (args : List Bytes) :
    Except FormatError (Option Bytes) :=
  if sil.silence level sev then .ok none else (format msg args).map some

/-- `log (ArgType &&arg)` and `log (Loggable_exception)`, for an object whose text has no NUL, as
the manager's exceptions: the text is passed on as a format string. -/
def logObject (sil : Silencer) (level : BitVec 32) (sev : Severity)
    (text : Except FormatError Bytes) : Except FormatError (Option Bytes) :=
  match text with
  | .ok msg => log sil level sev msg []
  | .error e => .error e

/-- Logging a text goes through exactly when the severity is silenced or the text has its
braces doubled. -/
theorem logObject_ok_iff (sil : Silencer) (level : BitVec 32) (sev : Severity) (t : Bytes) :
    (∃ r, logObject sil level sev (.ok t) = .ok r) ↔
      (sil.silence level sev = true ∨ Fmt.bracesDoubled t = true) := by
  simp only [logObject, log]
  constructor
  · rintro ⟨r, hr⟩
    by_cases hs : sil.silence level sev = true
    · exact Or.inl hs
    · rw [if_neg hs] at hr
      cases hb : Fmt.bracesDoubled t with
      | true => exact Or.inr rfl
      | false =>
          obtain ⟨e, he⟩ := (Fmt.format_nil t).2 hb
          rw [he] at hr
          cases hr
  · rintro (hs | hb)
    · exact ⟨none, by rw [if_pos hs]⟩
    · by_cases hs : sil.silence level sev = true
      · exact ⟨none, by rw [if_pos hs]⟩
      · exact ⟨some (Fmt.unescape t), by rw [if_neg hs, (Fmt.format_nil t).1 hb]; rfl⟩

/-! ## One object

The text is passed on through `msg.c_str ()`, so the main `log` reads it up to its
first NUL, and as a format string.
-/

section
variable (sil : Silencer) (level : BitVec 32) (sev : Severity)

/-- `log (ArgType &&arg)`; `text` is `fmt::format ("{}", arg)`. -/
def logArg (text : Except FormatError Bytes) : Except FormatError (Option Bytes) :=
  match text with
  | .ok msg => log sil level sev (CString.ofBytes msg).bytes []
  | .error e => .error e

/-- `log (Loggable_exception exception)`. -/
def logException (errToStr : Int → Bytes) (exception : Exn) : Except FormatError (Option Bytes) :=
  logArg sil level sev (exception.text errToStr)

/-- `log ("{}", x)` prints the text of `x` as it is. -/
theorem log_placeholder (t : Bytes) : log sil level sev (lit "{}") [t] =
    .ok (if sil.silence level sev then none else some t) := by
  have hformat : format (lit "{}") [t] = .ok t :=
    congrArg Except.ok (List.append_nil t)
  rw [log, hformat]
  by_cases hs : sil.silence level sev = true
  · rw [if_pos hs, if_pos hs]
  · rw [if_neg hs, if_neg hs]
    rfl

/-- A text shortened at a NUL cannot come out whole, and a whole one only without braces. -/
theorem logArg_eq_some_iff {t : Bytes} (hs : ¬sil.silence level sev = true) :
    logArg sil level sev (.ok t) = .ok (some t) ↔ Fmt.Plain t ∧ (0 : UInt8) ∉ t := by
  have hlog : logArg sil level sev (.ok t) = (format (CString.ofBytes t).bytes []).map some :=
    if_neg hs
  rw [hlog, ← CString.ofBytes_eq_iff]
  constructor
  · intro h
    cases hf : format (CString.ofBytes t).bytes [] with
    | error e =>
        rw [hf] at h
        cases h
    | ok u =>
        rw [hf] at h
        obtain rfl := Option.some.inj (Except.ok.inj h)
        have hcut : (CString.ofBytes u).bytes = u :=
          (List.takeWhile_prefix _).eq_of_length_le (Fmt.length_le_of_format hf)
        rw [hcut] at hf
        exact ⟨Fmt.format_eq_self_iff.mp hf, hcut⟩
  · rintro ⟨hplain, hcut⟩
    rw [hcut, Fmt.format_eq_self_iff.mpr hplain]
    rfl

/-- Logging one object prints what logging it through a placeholder prints, for an exception as for
any other object, exactly if the message is silenced or its text has no brace and no NUL. -/
theorem log_object_iff (t : Bytes) :
    (logArg sil level sev (.ok t) = log sil level sev (lit "{}") [t] ∧
      ∀ errToStr exception, Exn.text errToStr exception = .ok t →
        logException sil level sev errToStr exception = log sil level sev (lit "{}") [t]) ↔
    (sil.silence level sev = true ∨ (Fmt.Plain t ∧ (0 : UInt8) ∉ t)) := by
  have hiff : logArg sil level sev (.ok t) = log sil level sev (lit "{}") [t] ↔
      (sil.silence level sev = true ∨ (Fmt.Plain t ∧ (0 : UInt8) ∉ t)) := by
    rw [log_placeholder]
    by_cases hs : sil.silence level sev = true
    · exact iff_of_true ((if_pos hs).trans (by rw [if_pos hs])) (Or.inl hs)
    · rw [if_neg hs, logArg_eq_some_iff sil level sev hs]
      exact (or_iff_right hs).symm
  rw [← hiff]
  refine and_iff_left_of_imp fun harg errToStr exception htext => ?_
  rw [logException, htext]
  exact harg

/-- An exception that quotes what it was given: the log throws. -/
theorem log_object_braces :
    Exn.text (fun _ => lit "Invalid argument") (.loggable (-l4EInval) (lit "unknown option '{}'")) =
      .ok (lit "Invalid argument: unknown option '{}'") ∧
    logException .silenceByEnv 31 .error (fun _ => lit "Invalid argument")
        (.loggable (-l4EInval) (lit "unknown option '{}'")) = .error .argumentNotFound ∧
    log .silenceByEnv 31 .error (lit "{}") [lit "Invalid argument: unknown option '{}'"] =
      .ok (some (lit "Invalid argument: unknown option '{}'")) := by
  decide

end

end MettEagle
