/-
# `MettEagle.Fmt` — the format strings of `libfmt`

`parse_format_string` reads a format string once, left to right.  Outside a
replacement field a doubled brace stands for one brace; a single `{` opens a
field and a single `}` is an error.  `scan` is that reader as a state machine:
one mode for each place the reader can be in, one step for each byte.  The two
loops of the source (the plain one for short strings, the `memchr` one for long
strings) differ in speed only.

Fields are modelled as this repository writes them: `{}`, `{:s}` and `{:d}`,
each taking the next argument, which is passed as the text it formats to.  A
field that names its argument (`{0}`, `{x}`) is an error here, as it is in the
source whenever there are no arguments — the case everything below turns on:

    format s [] = ok t        every brace of `s` is doubled, `t` has them single
    format s [] = error _     some brace of `s` is not doubled
-/
import MettEagle.L4

namespace MettEagle.Fmt

/-- `fmt::format_error`, by its cause.  That a format string is refused is what `core.h` does; the
cause of a faulty field need not be the one it gives: `{:x}` without arguments lacks an argument
there, before its specifier is read, and has an unknown specifier here. -/
inductive FormatError where
  | invalidFormatString
  | argumentNotFound
  | unknownSpecifier
  | unmatchedBrace
deriving DecidableEq, Repr

def lbrace : UInt8 := 123
def rbrace : UInt8 := 125
def colon : UInt8 := 58

/-- Is the byte `{` or `}`? -/
def isBrace (c : UInt8) : Bool := c == lbrace || c == rbrace

/-- Where the reader is: in plain text, after a `{`, after `{:`, after `{:s` or
`{:d`, or after a `}` outside any field. -/
inductive Mode where
  | text | opened | colon | spec | closed
deriving DecidableEq, Repr

/-- A replacement field ends here: put in the next argument. -/
def field (args : List Bytes) (k : List Bytes → Except FormatError Bytes) :
    Except FormatError Bytes :=
  match args with
  | [] => .error .argumentNotFound
  | a :: args => (k args).map (a ++ ·)

/-- `parse_format_string`, byte by byte. -/
def scan : Mode → Bytes → List Bytes → Except FormatError Bytes
  | .text, [], _ => .ok []
  | .closed, [], _ => .error .unmatchedBrace
  | _, [], _ => .error .invalidFormatString
  | .text, c :: s, args =>
      if c = lbrace then scan .opened s args
      else if c = rbrace then scan .closed s args
      else (scan .text s args).map (c :: ·)
  | .opened, c :: s, args =>
      if c = lbrace then (scan .text s args).map (lbrace :: ·)
      else if c = rbrace then field args (scan .text s)
      else if c = Fmt.colon then scan .colon s args
      else .error .argumentNotFound
  | .colon, c :: s, args =>
      if c = rbrace then field args (scan .text s)
      else if c = 115 ∨ c = 100 then scan .spec s args
      else .error .unknownSpecifier
  | .spec, c :: s, args =>
      if c = rbrace then field args (scan .text s) else .error .unknownSpecifier
  | .closed, c :: s, args =>
      if c = rbrace then (scan .text s args).map (rbrace :: ·) else .error .unmatchedBrace

/-- `fmt::format`. -/
def format (s : Bytes) (args : List Bytes) : Except FormatError Bytes := scan .text s args

/-! ## Text without braces -/

/-- No byte of the text is a brace. -/
def Plain (s : Bytes) : Prop := ∀ c ∈ s, isBrace c = false

instance (s : Bytes) : Decidable (Plain s) := List.decidableBAll _ s

theorem Plain.append {s t : Bytes} (hs : Plain s) (ht : Plain t) : Plain (s ++ t) := by
  intro c hc
  rcases List.mem_append.mp hc with hc | hc
  · exact hs c hc
  · exact ht c hc

theorem isBrace_eq_false {c : UInt8} : isBrace c = false ↔ c ≠ lbrace ∧ c ≠ rbrace := by
  simp [isBrace]

theorem isBrace_eq_true {c : UInt8} : isBrace c = true ↔ c = lbrace ∨ c = rbrace := by
  simp [isBrace]

theorem lbrace_ne_rbrace : lbrace ≠ rbrace := by decide

/-- Plain text is copied, whatever follows it. -/
theorem format_plain_append {s : Bytes} (hs : Plain s) (t : Bytes) (args : List Bytes) :
    format (s ++ t) args = (format t args).map (s ++ ·) := by
  induction s with
  | nil => cases h : format t args <;> simp [Except.map, h]
  | cons c s ih =>
      have hc := isBrace_eq_false.mp (hs c List.mem_cons_self)
      have ih' := ih fun d hd => hs d (List.mem_cons_of_mem _ hd)
      show scan .text (c :: (s ++ t)) args = _
      simp only [scan, if_neg hc.1, if_neg hc.2]
      show (format (s ++ t) args).map (c :: ·) = _
      rw [ih']
      cases format t args <;> rfl

theorem format_plain {s : Bytes} (hs : Plain s) (args : List Bytes) :
    format s args = .ok s := by
  have h := format_plain_append hs [] args
  rw [List.append_nil] at h
  rw [h]
  simp [format, scan, Except.map]

/-! ## No arguments: every brace must be doubled -/

/-- Every brace of the text stands next to its double. -/
def bracesDoubled : Bytes → Bool
  | [] => true
  | [c] => !isBrace c
  | c :: d :: s => if isBrace c then c == d && bracesDoubled s else bracesDoubled (d :: s)

/-- The text with each doubled brace written once. -/
def unescape : Bytes → Bytes
  | [] => []
  | [c] => [c]
  | c :: d :: s => if isBrace c then c :: unescape s else c :: unescape (d :: s)

theorem bracesDoubled_cons {c : UInt8} (h : isBrace c = false) (s : Bytes) :
    bracesDoubled (c :: s) = bracesDoubled s := by
  cases s with
  | nil => simp [bracesDoubled, h]
  | cons d s => simp [bracesDoubled, h]

theorem unescape_cons {c : UInt8} (h : isBrace c = false) (s : Bytes) :
    unescape (c :: s) = c :: unescape s := by
  cases s with
  | nil => rfl
  | cons d s => simp [unescape, h]

/-- Without arguments no field can be completed, wherever the reader is in it. -/
theorem scan_spec_nil : ∀ s : Bytes, ∃ e, scan .spec s [] = .error e
  | [] => ⟨_, rfl⟩
  | c :: s => by
      by_cases hc : c = rbrace
      · exact ⟨.argumentNotFound, by simp [scan, hc, field]⟩
      · exact ⟨.unknownSpecifier, by simp [scan, hc]⟩

theorem scan_colon_nil : ∀ s : Bytes, ∃ e, scan .colon s [] = .error e
  | [] => ⟨_, rfl⟩
  | c :: s => by
      by_cases hc : c = rbrace
      · exact ⟨.argumentNotFound, by simp [scan, hc, field]⟩
      · by_cases hs : c = 115 ∨ c = 100
        · obtain ⟨e, he⟩ := scan_spec_nil s
          exact ⟨e, by simp [scan, hc, hs, he]⟩
        · exact ⟨.unknownSpecifier, by simp [scan, hc, hs]⟩

theorem scan_opened_nil {d : UInt8} (hd : d ≠ lbrace) (s : Bytes) :
    ∃ e, scan .opened (d :: s) [] = .error e := by
  by_cases hr : d = rbrace
  · exact ⟨.argumentNotFound, by simp [scan, hr, lbrace_ne_rbrace.symm, field]⟩
  · by_cases hc : d = Fmt.colon
    · obtain ⟨e, he⟩ := scan_colon_nil s
      refine ⟨e, ?_⟩
      simp only [scan, if_neg hd, if_neg hr, if_pos hc]
      exact he
    · exact ⟨.argumentNotFound, by simp [scan, hd, hr, hc]⟩

/-- A brace followed by something else than itself is never accepted without arguments. -/
theorem format_single_brace {c d : UInt8} (hc : isBrace c = true) (hd : c ≠ d) (s : Bytes) :
    ∃ e, format (c :: d :: s) [] = .error e := by
  rcases isBrace_eq_true.mp hc with rfl | rfl
  · exact scan_opened_nil hd.symm s
  · exact ⟨.unmatchedBrace, by simp [format, scan, lbrace_ne_rbrace.symm, hd.symm]⟩

/-- **The contract of `fmt::format (s)`.**  Without arguments, `s` is accepted exactly
when its braces are doubled, and then they are written once. -/
theorem format_nil : ∀ s : Bytes,
    (bracesDoubled s = true → format s [] = .ok (unescape s)) ∧
    (bracesDoubled s = false → ∃ e, format s [] = .error e) := by
  intro s
  induction s using bracesDoubled.induct with
  | case1 => exact ⟨fun _ => rfl, fun h => nomatch h⟩
  | case2 c =>
      by_cases hc : isBrace c = true
      · refine ⟨fun h => by simp [bracesDoubled, hc] at h, fun _ => ?_⟩
        rcases isBrace_eq_true.mp hc with rfl | rfl
        · exact ⟨_, rfl⟩
        · exact ⟨_, rfl⟩
      · have hc' : isBrace c = false := by simpa using hc
        refine ⟨fun _ => ?_, fun h => by simp [bracesDoubled, hc'] at h⟩
        exact format_plain (fun d hd => by rwa [List.mem_singleton.mp hd]) []
  | case3 c d s hc ih =>
      by_cases hd : c = d
      · subst hd
        have hstep : format (c :: c :: s) [] = (format s []).map (c :: ·) := by
          rcases isBrace_eq_true.mp hc with rfl | rfl
          · rfl
          · rfl
        simp only [bracesDoubled, hc, if_true, beq_self_eq_true, Bool.true_and, unescape]
        refine ⟨fun h => ?_, fun h => ?_⟩
        · rw [hstep, ih.1 h]
          rfl
        · obtain ⟨e, he⟩ := ih.2 h
          exact ⟨e, by rw [hstep, he]; rfl⟩
      · refine ⟨fun h => by simp [bracesDoubled, hc, hd] at h, fun _ => format_single_brace hc hd s⟩
  | case4 c d s hc ih =>
      have hc' : isBrace c = false := by simpa using hc
      have hstep : format (c :: d :: s) [] = (format (d :: s) []).map (c :: ·) :=
        format_plain_append (s := [c]) (fun x hx => by rwa [List.mem_singleton.mp hx]) (d :: s) []
      rw [bracesDoubled_cons hc', unescape_cons hc']
      refine ⟨fun h => ?_, fun h => ?_⟩
      · rw [hstep, ih.1 h]
        rfl
      · obtain ⟨e, he⟩ := ih.2 h
        exact ⟨e, by rw [hstep, he]; rfl⟩

theorem length_unescape_le : ∀ s : Bytes, (unescape s).length ≤ s.length := by
  intro s
  induction s using unescape.induct with
  | case1 => exact Nat.le_refl 0
  | case2 c => exact Nat.le_refl 1
  | case3 c d s hc ih =>
      rw [unescape, if_pos hc]
      exact Nat.succ_le_succ (ih.trans (Nat.le_succ _))
  | case4 c d s hc ih =>
      rw [unescape, if_neg hc]
      exact Nat.succ_le_succ ih

/-- A doubled brace makes the text shorter, so only a text without braces comes out as it was. -/
theorem plain_of_unescape_eq {s : Bytes} (h : unescape s = s) (hb : bracesDoubled s = true) :
    Plain s := by
  induction s using bracesDoubled.induct with
  | case1 => exact fun c hc => absurd hc List.not_mem_nil
  | case2 c =>
      intro d hd
      rw [List.mem_singleton.mp hd]
      simpa [bracesDoubled] using hb
  | case3 c d s hc ih =>
      rw [unescape, if_pos hc] at h
      have hlen := congrArg List.length (List.cons.inj h).2
      have hle := length_unescape_le s
      rw [List.length_cons] at hlen
      omega
  | case4 c d s hc ih =>
      have hc' : isBrace c = false := by simpa using hc
      rw [bracesDoubled_cons hc'] at hb
      rw [unescape_cons hc'] at h
      intro x hx
      rcases List.mem_cons.mp hx with rfl | hx
      · exact hc'
      · exact ih (List.cons.inj h).2 hb x hx

theorem length_le_of_format {s t : Bytes} (h : format s [] = .ok t) : t.length ≤ s.length := by
  cases hb : bracesDoubled s with
  | true =>
      obtain rfl := Except.ok.inj (((format_nil s).1 hb).symm.trans h)
      exact length_unescape_le s
  | false =>
      obtain ⟨e, he⟩ := (format_nil s).2 hb
      cases he.symm.trans h

/-- **A text as its own format string** yields itself exactly if it has no brace. -/
theorem format_eq_self_iff {s : Bytes} : format s [] = .ok s ↔ Plain s := by
  refine ⟨fun h => ?_, fun h => format_plain h []⟩
  cases hb : bracesDoubled s with
  | true => exact plain_of_unescape_eq (Except.ok.inj (((format_nil s).1 hb).symm.trans h)) hb
  | false =>
      obtain ⟨e, he⟩ := (format_nil s).2 hb
      cases he.symm.trans h

/-! ## Plain text around a name does not change the verdict on the name -/

theorem bracesDoubled_plain_append {s : Bytes} (hs : Plain s) (t : Bytes) :
    bracesDoubled (s ++ t) = bracesDoubled t := by
  induction s with
  | nil => rfl
  | cons c s ih =>
      rw [List.cons_append, bracesDoubled_cons (hs c List.mem_cons_self)]
      exact ih fun d hd => hs d (List.mem_cons_of_mem _ hd)

theorem bracesDoubled_of_plain {s : Bytes} (hs : Plain s) : bracesDoubled s = true := by
  have h := bracesDoubled_plain_append hs []
  rwa [List.append_nil] at h

/-- A doubled brace never reaches into the plain text behind it. -/
theorem bracesDoubled_append_plain {t : Bytes} (ht : Plain t) (s : Bytes) :
    bracesDoubled (s ++ t) = bracesDoubled s := by
  induction s using bracesDoubled.induct with
  | case1 => exact bracesDoubled_of_plain ht
  | case2 c =>
      by_cases hc : isBrace c = true
      · cases t with
        | nil => rfl
        | cons d t =>
            have hd : isBrace d = false := ht d List.mem_cons_self
            have hne : c ≠ d := fun h => by rw [h, hd] at hc; cases hc
            simp [bracesDoubled, hc, hne]
      · have hc' : isBrace c = false := by simpa using hc
        rw [List.singleton_append, bracesDoubled_cons hc', bracesDoubled_of_plain ht]
        simp [bracesDoubled, hc']
  | case3 c d s hc ih => simp [bracesDoubled, hc, ih]
  | case4 c d s hc ih =>
      have hc' : isBrace c = false := by simpa using hc
      rw [List.cons_append, bracesDoubled_cons hc', bracesDoubled_cons hc', ih]

end MettEagle.Fmt
