/-
# `MettEagle.Environ` — the environment variable of the log

`liblog` keeps its level in the process environment, as a number in text:

    setLevel    `setenv ("LOG_LEVEL", std::to_string (log_level).c_str (), true)`
    getLevel    `atoi (getenv ("LOG_LEVEL") ?: "0")`

Every message reads the variable again; `level_of_last_set` is about any sequence of
changes of the environment.  The environment is the list of its `name=value` strings, and
`getenv`, `setenv` and `atoi` are those of the C library.
-/
import MettEagle.Invoke
import MettEagle.Lib.Decimal

namespace MettEagle

/-! ## Variables -/

def equalsSign : UInt8 := 61

/-- `name=value`. -/
def envString (name value : Bytes) : Bytes := name ++ equalsSign :: value

/-- The string is one of this variable. -/
def isVariable (name s : Bytes) : Bool := (name ++ [equalsSign]).isPrefixOf s

def getenv (name : Bytes) (env : List Bytes) : Option Bytes :=
  (env.find? (isVariable name)).map fun s => s.drop (name.length + 1)

/-- `setenv (name, value, true)`. -/
def setenv (name value : Bytes) : List Bytes → List Bytes
  | [] => [envString name value]
  | s :: env => if isVariable name s then envString name value :: env else s :: setenv name value env

theorem isVariable_envString {name other : Bytes} (hname : equalsSign ∉ name)
    (hother : equalsSign ∉ other) (value : Bytes) :
    isVariable name (envString other value) = decide (name = other) := by
  have htake : ∀ {n : Bytes} (t : Bytes), equalsSign ∉ n →
      (n ++ equalsSign :: t).takeWhile (· ≠ equalsSign) = n := by
    intro n t hn
    have hall : ∀ c ∈ n, decide (c ≠ equalsSign) = true := fun c hc =>
      decide_eq_true fun h => hn (h ▸ hc)
    rw [List.takeWhile_append_of_pos hall]
    simp
  rw [isVariable, Bool.eq_iff_iff, List.isPrefixOf_iff_prefix, decide_eq_true_eq]
  constructor
  · rintro ⟨t, ht⟩
    rw [envString, List.append_assoc, List.singleton_append] at ht
    have hsame := congrArg (List.takeWhile (· ≠ equalsSign)) ht
    rwa [htake _ hname, htake _ hother] at hsame
  · rintro rfl
    exact ⟨value, by rw [envString, List.append_assoc, List.singleton_append]⟩

theorem getenv_cons (name s : Bytes) (env : List Bytes) : getenv name (s :: env) =
    if isVariable name s then some (s.drop (name.length + 1)) else getenv name env := by
  rw [getenv, List.find?_cons]
  cases h : isVariable name s with
  | true => rfl
  | false => rfl

theorem drop_envString (name value : Bytes) :
    (envString name value).drop (name.length + 1) = value := by
  rw [envString, ← List.drop_drop, List.drop_left]
  rfl

section
variable {name other value : Bytes} (hname : equalsSign ∉ name)
include hname

theorem getenv_setenv (value : Bytes) (env : List Bytes) :
    getenv name (setenv name value env) = some value := by
  have hself : isVariable name (envString name value) = true := by
    rw [isVariable_envString hname hname]
    exact decide_eq_true rfl
  induction env with
  | nil => rw [setenv, getenv_cons, if_pos hself, drop_envString]
  | cons s env ih =>
      rw [setenv]
      cases hs : isVariable name s with
      | true => rw [if_pos rfl, getenv_cons, if_pos hself, drop_envString]
      | false => rw [if_neg Bool.false_ne_true, getenv_cons, hs, if_neg Bool.false_ne_true, ih]

/-- Frame: the other variables. -/
theorem getenv_setenv_of_ne (hother : equalsSign ∉ other) (hne : name ≠ other) (value : Bytes)
    (env : List Bytes) : getenv name (setenv other value env) = getenv name env := by
  have hset : isVariable name (envString other value) = false := by
    rw [isVariable_envString hname hother]
    exact decide_eq_false hne
  induction env with
  | nil => rw [setenv, getenv_cons, hset, if_neg Bool.false_ne_true]
  | cons s env ih =>
      rw [setenv]
      cases hs : isVariable other s with
      | false =>
          rw [if_neg Bool.false_ne_true, getenv_cons, getenv_cons, ih]
      | true =>
          have hnot : isVariable name s = false := by
            obtain ⟨t, rfl⟩ := List.isPrefixOf_iff_prefix.mp hs
            have hstr : other ++ [equalsSign] ++ t = envString other t := by
              rw [envString, List.append_assoc, List.singleton_append]
            rw [hstr, isVariable_envString hname hother]
            exact decide_eq_false hne
          rw [if_pos rfl, getenv_cons, hset, getenv_cons, hnot, if_neg Bool.false_ne_true,
            if_neg Bool.false_ne_true]

end

/-! ## Numbers -/

def isSpace (c : UInt8) : Bool := c = 32 || (9 ≤ c && c ≤ 13)

/-- The sign and the digits of `atoi`. -/
def signedDigits : Bytes → Int
  | [] => 0
  | c :: s =>
      if c = 45 then -((Decimal.readDigits s).1 : Int)
      else if c = 43 then (Decimal.readDigits s).1
      else (Decimal.readDigits (c :: s)).1

/-- `atoi`, for a number that fits: beyond `long` the function of the C library is undefined.
`setLevel` writes no such number. -/
def atoi (s : Bytes) : Int := signedDigits (s.dropWhile isSpace)

theorem decimal_natCast (n : ℕ) : decimal n = Decimal.digits n := by
  rw [decimal, Int.toString_eq_repr, Int.repr_eq_if, if_pos (Int.natCast_nonneg n), Int.toNat_natCast,
    lit, Nat.toList_repr]
  rfl

theorem decimal_neg {n : ℕ} (hn : 0 < n) : decimal (-n) = 45 :: Decimal.digits n := by
  have hneg : ¬0 ≤ -(n : Int) := by omega
  rw [decimal, Int.toString_eq_repr, Int.repr_eq_if, if_neg hneg, Int.neg_neg, Int.toNat_natCast,
    lit, String.toList_append, Nat.toList_repr]
  rfl

theorem readDigits_digits (n : ℕ) : Decimal.readDigits (Decimal.digits n) = (n, []) := by
  have h := Decimal.readDigits_digits_append n (s := []) (fun _ hc => by cases hc)
  rwa [List.append_nil] at h

theorem not_isSpace_of_isDigit {c : UInt8} (h : Decimal.isDigit c = true) :
    isSpace c = false ∧ c ≠ 45 ∧ c ≠ 43 := by
  simp only [Decimal.isDigit, Bool.and_eq_true, decide_eq_true_eq, UInt8.le_iff_toNat_le] at h
  have hge : 48 ≤ c.toNat := h.1
  refine ⟨?_, ?_, ?_⟩
  · simp only [isSpace, Bool.or_eq_false_iff, Bool.and_eq_false_iff, decide_eq_false_iff_not,
      UInt8.le_iff_toNat_le]
    refine ⟨?_, Or.inr ?_⟩
    · rintro rfl
      exact absurd hge (by decide)
    · have h13 : (13 : UInt8).toNat = 13 := rfl
      omega
  · rintro rfl
    exact absurd hge (by decide)
  · rintro rfl
    exact absurd hge (by decide)

/-- `atoi (std::to_string (n).c_str ())`. -/
theorem atoi_decimal (n : Int) : atoi (decimal n) = n := by
  obtain ⟨k, rfl | rfl⟩ := Int.eq_nat_or_neg n
  · obtain ⟨c, s, hcons, hc⟩ := Decimal.digits_cons k
    obtain ⟨hspace, hminus, hplus⟩ := not_isSpace_of_isDigit hc
    rw [decimal_natCast, atoi, hcons, List.dropWhile_cons, hspace, if_neg Bool.false_ne_true,
      signedDigits, if_neg hminus, if_neg hplus, ← hcons, readDigits_digits]
  · cases k with
    | zero => rfl
    | succ k =>
        rw [decimal_neg (Nat.succ_pos k), atoi, List.dropWhile_cons]
        show signedDigits (45 :: _) = _
        rw [signedDigits, if_pos rfl, readDigits_digits]

/-- Besides digits a number has at most a sign. -/
theorem not_mem_decimal {c : UInt8} (hdigit : Decimal.isDigit c = false) (hminus : c ≠ 45) (n : Int) :
    c ∉ decimal n := by
  have hdigits : ∀ k : ℕ, c ∉ Decimal.digits k := fun k h =>
    Decimal.ne_of_isDigit (Decimal.isDigit_of_mem_digits h) hdigit rfl
  obtain ⟨k, rfl | rfl⟩ := Int.eq_nat_or_neg n
  · rw [decimal_natCast]
    exact hdigits k
  · cases k with
    | zero => exact hdigits 0
    | succ k =>
        rw [decimal_neg (Nat.succ_pos k)]
        exact List.not_mem_cons_of_ne_of_not_mem hminus (hdigits _)

/-! ## The level -/

def levelVariable : Bytes := lit "LOG_LEVEL"

/-- `SilenceByEnv::setLevel`. -/
def setLevel (logLevel : BitVec 32) (env : List Bytes) : List Bytes :=
  setenv levelVariable (decimal logLevel.toInt) env

/-- `SilenceByEnv::getLevel`. -/
def getLevel (env : List Bytes) : BitVec 32 :=
  BitVec.ofInt 32 (atoi ((getenv levelVariable env).getD (lit "0")))

theorem equalsSign_not_mem_levelVariable : equalsSign ∉ levelVariable := by decide

theorem getLevel_setLevel (l : BitVec 32) (env : List Bytes) : getLevel (setLevel l env) = l := by
  rw [getLevel, setLevel, getenv_setenv equalsSign_not_mem_levelVariable, Option.getD_some,
    atoi_decimal, BitVec.ofInt_toInt]

/-- Changes of other variables, one after the other. -/
def setenvAll (changes : List (Bytes × Bytes)) (env : List Bytes) : List Bytes :=
  changes.foldl (fun env c => setenv c.1 c.2 env) env

theorem getenv_setenvAll {name : Bytes} (hname : equalsSign ∉ name) {changes : List (Bytes × Bytes)}
    (hchanges : ∀ c ∈ changes, equalsSign ∉ c.1 ∧ name ≠ c.1) (env : List Bytes) :
    getenv name (setenvAll changes env) = getenv name env := by
  induction changes generalizing env with
  | nil => rfl
  | cons c changes ih =>
      obtain ⟨hc, hne⟩ := hchanges c (List.mem_cons_self ..)
      rw [setenvAll, List.foldl_cons, ← setenvAll,
        ih (fun d hd => hchanges d (List.mem_cons_of_mem _ hd)),
        getenv_setenv_of_ne hname hc hne]

theorem log_silenced_iff (level : BitVec 32) (sev : Severity) (msg : Bytes) (args : List Bytes) :
    log .silenceByEnv level sev msg args = .ok none ↔ level &&& sev.toMask = 0 := by
  rw [log]
  by_cases hs : Silencer.silenceByEnv.silence level sev = true
  · rw [if_pos hs]
    exact iff_of_true rfl (beq_iff_eq.mp hs)
  · rw [if_neg hs]
    refine iff_of_false ?_ fun h => hs (beq_iff_eq.mpr h)
    cases Fmt.format msg args with
    | ok t => exact fun h => by cases h
    | error e => exact fun h => by cases h

/-- The level that was set last is the level: whatever other variables were changed since, every
message is written or silenced by it, and every other variable is what it would have been.  With
no `LOG_LEVEL` at all, every message is silenced. -/
theorem level_of_last_set (l : BitVec 32) (env : List Bytes) {changes : List (Bytes × Bytes)}
    (hchanges : ∀ c ∈ changes, equalsSign ∉ c.1 ∧ levelVariable ≠ c.1) :
    getLevel (setenvAll changes (setLevel l env)) = l ∧
    (∀ sev msg args, log .silenceByEnv (getLevel (setenvAll changes (setLevel l env))) sev msg args =
      .ok none ↔ l &&& sev.toMask = 0) ∧
    (∀ name, equalsSign ∉ name → name ≠ levelVariable →
      getenv name (setLevel l env) = getenv name env) ∧
    (getenv levelVariable env = none → ∀ sev msg args,
      log .silenceByEnv (getLevel (setenvAll changes env)) sev msg args = .ok none) := by
  have hget : ∀ env, getLevel (setenvAll changes env) = getLevel env := by
    intro env
    rw [getLevel, getLevel, getenv_setenvAll equalsSign_not_mem_levelVariable hchanges]
  refine ⟨?_, fun sev msg args => ?_, fun name hname hne => ?_, fun hnone sev msg args => ?_⟩
  · rw [hget, getLevel_setLevel]
  · rw [hget, getLevel_setLevel, log_silenced_iff]
  · exact getenv_setenv_of_ne hname equalsSign_not_mem_levelVariable hne _ env
  · have hzero : getLevel env = 0 := by
      rw [getLevel, hnone]
      rfl
    rw [hget, hzero, log_silenced_iff]
    exact BitVec.zero_and

/-- A process that starts with `LOG_LEVEL=31` sets it to warnings and renames itself. -/
theorem level_of_last_set_warn : getLevel (setenvAll [(lit "PKGNAME", lit "Worker")]
    (setLevel 7 [lit "PKGNAME=Client", lit "LOG_LEVEL=31"])) = 7 := by
  have hchanges : ∀ c ∈ [(lit "PKGNAME", lit "Worker")], equalsSign ∉ c.1 ∧ levelVariable ≠ c.1 := by
    intro c hc
    obtain rfl := List.mem_singleton.mp hc
    decide
  exact (level_of_last_set 7 _ hchanges).1

end MettEagle
