/-
# `MettEagle.LogLines` — what a log line says

`log` prints one line for a message, by `VerboseFormat`:

    thread and time    "{thread_id:>10} {time:%T}"
    severity           "{severity:s}", in its colour
    package            "{pkgname:s}", from the environment
    place              "<{file:s}:{line:d}> {function:s}", the file without its directories
    message            "{msg:s}" and a line break

The parts are told apart by the escape sequences between them.  `readLine` takes a line
apart again, and `log_reads_back` does that for the whole console, in every state of any
number of processes that log at the same time.
-/
import MettEagle.Environ
import MettEagle.LogSync
import MettEagle.Lib.Fields

namespace MettEagle.LogSync

open Fields (expect upTo ended)

/-! ## One line -/

/-- `Severity::name`. -/
def severityName : Severity → Bytes
  | .debug => lit "\x1b[34;1mDEBUG\x1b[0m"
  | .info => lit "\x1b[36;1mINFO \x1b[0m"
  | .warn => lit "\x1b[33;1mWARN \x1b[0m"
  | .error => lit "\x1b[31;1mERROR\x1b[0m"
  | .fatal => lit "\x1b[35;1mFATAL\x1b[0m"

/-- `std::string::find_last_of`, with `npos` for none. -/
def findLastOf (c : UInt8) (s : Bytes) : Word :=
  if c ∈ s then BitVec.ofNat 64 (s.length - 1 - s.reverse.idxOf c) else -1

/-- `file + std::string (file).find_last_of ('/') + 1`. -/
def fileName (file : Bytes) : Bytes := file.drop (findLastOf 47 file + 1).toNat

/-- `{:>10}`, for a text of ASCII characters. -/
def alignRight (width : ℕ) (s : Bytes) : Bytes := List.replicate (width - s.length) 32 ++ s

/-- `write2` of the time formatter. -/
def write2 (n : ℕ) : Bytes := Decimal.padded 2 (n % 100)

/-- `{:%T}`, for a time in microseconds. -/
def isoTime (now : ℕ) : Bytes :=
  write2 (now / 1000000 / 3600 % 24) ++ 58 :: (write2 (now / 1000000 / 60 % 60) ++ 58 ::
    (write2 (now / 1000000 % 60) ++ 46 :: Decimal.padded 6 (now % 1000000)))

/-- A call of `log`: what it is given, with the place it stands at (`ArgWithLocation`), and what it
reads. -/
structure Call where
  severity : Severity
  format : Bytes
  args : List Bytes
  file : Bytes
  function : Bytes
  line : Int
  env : List Bytes
  now : ℕ
  threadId : Bytes

namespace Call

/-- `getenv ("PKGNAME") ?: ""`. -/
def pkgname (c : Call) : Bytes := (getenv (lit "PKGNAME") c.env).getD []

/-- The format up to the message. -/
def header (c : Call) : Bytes :=
  lit "\x1b[2m" ++ (alignRight 10 c.threadId ++ 32 :: isoTime c.now ++ 27 :: (lit "[0m " ++
    (severityName c.severity ++ (lit " " ++ (c.pkgname ++ [32] ++ 27 :: (lit "[2m<" ++
      (fileName c.file ++ 58 :: (decimal c.line ++ 62 :: (lit " " ++ (c.function ++ 27 ::
        lit "[0m "))))))))))

def op (c : Call) : Op := .log (getLevel c.env) c.severity c.format c.args c.header

/-- The message, unless it is silenced or its format throws. -/
def text? (c : Call) : Option Bytes :=
  match MettEagle.log .silenceByEnv (getLevel c.env) c.severity c.format c.args with
  | .ok (some text) => some text
  | _ => none

theorem message_op (c : Call) : c.op.message = c.text?.map (outString c.header) := by
  rw [op, Op.message, text?]
  cases MettEagle.log .silenceByEnv (getLevel c.env) c.severity c.format c.args with
  | error e => rfl
  | ok text => cases text <;> rfl

end Call

/-! ## What it says -/

instance : Inhabited Severity := ⟨.debug⟩

structure Record where
  threadId : Bytes
  /-- microseconds since midnight -/
  time : ℕ
  severity : Severity
  pkgname : Bytes
  /-- without directories -/
  file : Bytes
  line : Int
  function : Bytes
  text : Bytes
deriving DecidableEq, Inhabited

/-- What stands behind the last slash. -/
def behindSlash (file : Bytes) : Bytes := (file.reverse.takeWhile (· ≠ 47)).reverse

def Call.record (c : Call) (text : Bytes) : Record where
  threadId := c.threadId
  time := c.now % 86400000000
  severity := c.severity
  pkgname := c.pkgname
  file := behindSlash c.file
  line := c.line
  function := c.function
  text := text

def readTime (s : Bytes) : Option ℕ := do
  let (hours, s) ← upTo 58 s
  let (minutes, s) ← upTo 58 s
  let (seconds, micros) ← upTo 46 s
  return ((Decimal.value hours * 60 + Decimal.value minutes) * 60 + Decimal.value seconds) * 1000000 +
    Decimal.value micros

/-- The thread and the time, which has no blank. -/
def readStamp (s : Bytes) : Option (Bytes × ℕ) := do
  let (time, threadId) ← upTo 32 s.reverse
  let time ← readTime time.reverse
  return (threadId.reverse.dropWhile (· = 32), time)

def readSeverity (s : Bytes) : Option (Severity × Bytes) :=
  [Severity.debug, .info, .warn, .error, .fatal].findSome? fun sev =>
    (expect (severityName sev) s).map (sev, ·)

/-- A line without its line break. -/
def readLine (s : Bytes) : Option Record := do
  let s ← expect (lit "\x1b[2m") s
  let (stamp, s) ← upTo 27 s
  let (threadId, time) ← readStamp stamp
  let s ← expect (lit "[0m ") s
  let (severity, s) ← readSeverity s
  let s ← expect (lit " ") s
  let (pkgname, s) ← upTo 27 s
  let s ← expect (lit "[2m<") s
  let (file, s) ← upTo 58 s
  let (line, s) ← upTo 62 s
  let s ← expect (lit " ") s
  let (function, s) ← upTo 27 s
  let text ← expect (lit "[0m ") s
  return ⟨threadId, time, severity, pkgname.dropLast, file, atoi line, function, text⟩

example : readLine (lit "\x1b[2m        2a 01:02:03.000004\x1b[0m \x1b[36;1mINFO \x1b[0m clnt \x1b[2m<a.cc:7> main\x1b[0m hi") =
    some ⟨lit "2a", 3723000004, .info, lit "clnt", lit "a.cc", 7, lit "main", lit "hi"⟩ := by decide

/-! ## The file name -/

theorem fileName_eq {file : Bytes} (h : file.length < 2 ^ 64) : fileName file = behindSlash file := by
  by_cases hmem : 47 ∈ file
  · obtain ⟨base, dir, hrev, hbase⟩ := List.eq_append_cons_of_mem (List.mem_reverse.mpr hmem)
    have hfile : file = dir.reverse ++ 47 :: base.reverse := by
      have hback := congrArg List.reverse hrev
      simpa using hback
    have hidx : file.reverse.idxOf 47 = base.length := by
      rw [hrev, List.idxOf_append_of_notMem hbase, List.idxOf_cons_self, Nat.add_zero]
    have hlen : file.length = dir.length + (base.length + 1) := by
      rw [hfile, List.length_append, List.length_cons, List.length_reverse, List.length_reverse]
    have hall : ∀ c ∈ base, decide (c ≠ 47) = true := fun c hc =>
      decide_eq_true fun heq => hbase (heq ▸ hc)
    have hbehind : behindSlash file = base.reverse := by
      rw [behindSlash, hrev, List.takeWhile_append_of_pos hall]
      simp
    have hfind : (findLastOf 47 file + 1).toNat = dir.length + 1 := by
      rw [findLastOf, if_pos hmem, hidx, BitVec.toNat_add, BitVec.toNat_ofNat]
      show ((file.length - 1 - base.length) % 2 ^ 64 + 1) % 2 ^ 64 = dir.length + 1
      omega
    have hdrop : (dir.reverse ++ 47 :: base.reverse).drop (dir.length + 1) = base.reverse := by
      rw [← List.drop_drop, List.drop_left' (List.length_reverse)]
      rfl
    rw [hbehind, fileName, hfind, hfile, hdrop]
  · have hall : ∀ c ∈ file.reverse, decide (c ≠ 47) = true := fun c hc =>
      decide_eq_true fun heq => hmem (heq ▸ List.mem_reverse.mp hc)
    rw [fileName, findLastOf, if_neg hmem, behindSlash, List.takeWhile_eq_self_iff.mpr hall,
      List.reverse_reverse]
    rfl

/-! ## Reading a line -/

theorem not_mem_padded {k n : ℕ} {c : UInt8} (hc : Decimal.isDigit c = false) :
    c ∉ Decimal.padded k n := fun h => Decimal.ne_of_isDigit (Decimal.isDigit_of_mem_padded h) hc rfl

theorem not_mem_isoTime {now : ℕ} {c : UInt8} (hc : Decimal.isDigit c = false) (hcolon : c ≠ 58)
    (hdot : c ≠ 46) : c ∉ isoTime now :=
  List.not_mem_append (not_mem_padded hc) (List.not_mem_cons_of_ne_of_not_mem hcolon
    (List.not_mem_append (not_mem_padded hc) (List.not_mem_cons_of_ne_of_not_mem hcolon
      (List.not_mem_append (not_mem_padded hc) (List.not_mem_cons_of_ne_of_not_mem hdot
        (not_mem_padded hc))))))

theorem readTime_isoTime (now : ℕ) : readTime (isoTime now) = some (now % 86400000000) := by
  have hcolon : ∀ n, 58 ∉ write2 n := fun _ => not_mem_padded rfl
  have hdot : ∀ n, 46 ∉ write2 n := fun _ => not_mem_padded rfl
  have hvalue : ∀ n, Decimal.value (write2 n) = n % 100 := fun _ => Decimal.value_padded ..
  simp only [readTime, isoTime, Fields.upTo_append (hcolon _), Fields.upTo_append (hdot _), hvalue,
    Decimal.value_padded, Option.bind_eq_bind, Option.bind_some, Option.pure_def, Option.some.injEq]
  omega

theorem readStamp_stamp {threadId : Bytes} (h : threadId.head? ≠ some 32) (now : ℕ) :
    readStamp (alignRight 10 threadId ++ 32 :: isoTime now) =
      some (threadId, now % 86400000000) := by
  have hblank : 32 ∉ (isoTime now).reverse := fun hmem =>
    not_mem_isoTime rfl (by decide) (by decide) (List.mem_reverse.mp hmem)
  have hrev : (alignRight 10 threadId ++ 32 :: isoTime now).reverse =
      (isoTime now).reverse ++ 32 :: (alignRight 10 threadId).reverse := by
    rw [List.reverse_append, List.reverse_cons, List.append_assoc, List.singleton_append]
  have hpad : ∀ k, (List.replicate k 32 ++ threadId).dropWhile (· = 32) = threadId := by
    intro k
    rw [List.dropWhile_append_of_pos fun c hc => decide_eq_true (List.eq_of_mem_replicate hc)]
    cases threadId with
    | nil => rfl
    | cons c s =>
        rw [List.dropWhile_cons, if_neg]
        intro hc
        exact h (congrArg some (of_decide_eq_true hc))
  simp only [readStamp, hrev, Fields.upTo_append hblank, List.reverse_reverse, readTime_isoTime,
    Option.bind_eq_bind, Option.bind_some, Option.pure_def]
  exact congrArg (fun t => some (t, _)) (hpad _)

theorem readSeverity_append (sev : Severity) (s : Bytes) :
    readSeverity (severityName sev ++ s) = some (sev, s) := by
  cases sev <;> rfl

/-- Neither a line break nor a NUL. -/
def OneLine (s : Bytes) : Prop := 10 ∉ s ∧ 0 ∉ s

instance (s : Bytes) : Decidable (OneLine s) := inferInstanceAs (Decidable (_ ∧ _))

theorem OneLine.append {s t : Bytes} (hs : OneLine s) (ht : OneLine t) : OneLine (s ++ t) :=
  ⟨List.not_mem_append hs.1 ht.1, List.not_mem_append hs.2 ht.2⟩

theorem OneLine.cons {c : UInt8} {s : Bytes} (hc : OneLine [c]) (hs : OneLine s) : OneLine (c :: s) :=
  OneLine.append hc hs

/-- The names a call prints have no line break, no NUL and no escape, the base name of the file has
no colon, the id of the thread does not begin with a blank, and the message is one line without a
NUL.  The length of the file name is a `size_t`.

With a colon in it a base name could take over a part of the place: the file `a:1> b` with line 2
and function `c` prints what the file `a` prints with line 1 and function `b:2> c`. -/
structure Call.Clean (c : Call) : Prop where
  threadId : OneLine c.threadId ∧ 27 ∉ c.threadId ∧ c.threadId.head? ≠ some 32
  pkgname : OneLine c.pkgname ∧ 27 ∉ c.pkgname
  file : OneLine (behindSlash c.file) ∧ 58 ∉ behindSlash c.file
  length : c.file.length < 2 ^ 64
  function : OneLine c.function ∧ 27 ∉ c.function
  text : ∀ text, c.text? = some text → OneLine text

/-- A line is read as what was logged. -/
theorem readLine_line {c : Call} (h : c.Clean) (text : Bytes) :
    readLine (c.header ++ text) = some (c.record text) := by
  have hline : c.header ++ text = lit "\x1b[2m" ++ ((alignRight 10 c.threadId ++ 32 :: isoTime c.now) ++
      27 :: (lit "[0m " ++ (severityName c.severity ++ (lit " " ++ ((c.pkgname ++ [32]) ++
        27 :: (lit "[2m<" ++ (fileName c.file ++ 58 :: (decimal c.line ++ 62 :: (lit " " ++
          (c.function ++ 27 :: (lit "[0m " ++ text))))))))))) := by
    simp only [Call.header, List.append_assoc, List.cons_append]
  have hblanks : ∀ k, 27 ∉ List.replicate k (32 : UInt8) := fun k hk =>
    absurd (List.eq_of_mem_replicate hk) (by decide)
  have hstamp : 27 ∉ alignRight 10 c.threadId ++ 32 :: isoTime c.now :=
    List.not_mem_append (List.not_mem_append (hblanks _) h.threadId.2.1)
      (List.not_mem_cons_of_ne_of_not_mem (by decide) (not_mem_isoTime rfl (by decide) (by decide)))
  have hpkg : 27 ∉ c.pkgname ++ [32] := List.not_mem_append h.pkgname.2 (by decide)
  have hbehind : 62 ∉ decimal c.line := not_mem_decimal rfl (by decide) _
  simp only [hline, readLine, Fields.expect_append, Fields.upTo_append hstamp,
    Fields.upTo_append hpkg, fileName_eq h.length, Fields.upTo_append h.file.2,
    Fields.upTo_append hbehind, Fields.upTo_append h.function.2, readStamp_stamp h.threadId.2.2,
    readSeverity_append, List.dropLast_concat, atoi_decimal, Option.bind_eq_bind,
    Option.bind_some, Option.pure_def, Call.record]

theorem oneLine_header {c : Call} (h : c.Clean) : OneLine c.header := by
  have hblanks : ∀ k, OneLine (List.replicate k 32) := fun k =>
    ⟨fun hk => absurd (List.eq_of_mem_replicate hk) (by decide),
      fun hk => absurd (List.eq_of_mem_replicate hk) (by decide)⟩
  have htime : OneLine (isoTime c.now) :=
    ⟨not_mem_isoTime rfl (by decide) (by decide), not_mem_isoTime rfl (by decide) (by decide)⟩
  have hname : OneLine (severityName c.severity) := by cases c.severity <;> decide
  have hline : OneLine (decimal c.line) :=
    ⟨not_mem_decimal rfl (by decide) _, not_mem_decimal rfl (by decide) _⟩
  have hfile : OneLine (fileName c.file) := by
    rw [fileName_eq h.length]
    exact h.file.1
  have hplace : OneLine (fileName c.file ++ 58 :: (decimal c.line ++ 62 :: (lit " " ++
      (c.function ++ 27 :: lit "[0m ")))) :=
    hfile.append (.cons (by decide) (hline.append (.cons (by decide) (.append (by decide)
      (h.function.1.append (by decide))))))
  have hstamp : OneLine (alignRight 10 c.threadId ++ 32 :: isoTime c.now) :=
    ((hblanks _).append h.threadId.1).append (.cons (by decide) htime)
  exact .append (by decide) (hstamp.append (.cons (by decide) (.append (by decide)
    (hname.append (.append (by decide) ((h.pkgname.1.append (by decide)).append
      (.cons (by decide) (.append (by decide) hplace))))))))

/-- What a call prints. -/
theorem message_of_clean {c : Call} (h : c.Clean) :
    c.op.message = c.text?.map fun text => c.header ++ text ++ [10] := by
  rw [c.message_op]
  refine Option.map_congr fun text htext => ?_
  have hone := (oneLine_header h).append (h.text text htext)
  have hnul : 0 ∉ c.header ++ (text ++ lit "\n") := by
    rw [← List.append_assoc]
    exact List.not_mem_append hone.2 (by decide)
  rw [outString, CString.ofBytes_eq_iff.mpr hnul, List.append_assoc]
  rfl

/-! ## The console -/

/-- The lines that have ended. -/
def readLog (out : Bytes) : List (Option Record) := (ended 10 out).1.map readLine

def Call.record? (c : Call) : Option Record := c.text?.map c.record

/-- A line with its line break. -/
def parse (line : Bytes) : Record := (readLine line.dropLast).getD default

variable {T : Type*} {valid : T → Bool} {mr0 : T → Word} {s : State T} {ls : List (T × Op)}

/-- What is on the console: lines that have ended, and a part of the one that is being printed. -/
theorem output_lines [Fintype T] [DecidableEq T] (hrun : Run (Step valid) (init mr0) ls s)
    (hone : boots ls ≤ 1)
    (hlines : ∀ l ∈ lines valid ls, ∃ piece, 10 ∉ piece ∧ l.2 = piece ++ [10]) :
    ∃ L part, L <+: lines valid ls ∧ output valid ls = L.flatMap (·.2) ++ part ∧ 10 ∉ part ∧
      ∀ t, s.pc t = .idle → L.filter (·.1 = t) = (lines valid ls).filter (·.1 = t) := by
  have hshared := shared_of_run hrun hone
  by_cases hfree : ∀ t, held valid s t = false
  · refine ⟨lines valid ls, [], List.prefix_rfl, ?_, List.not_mem_nil, fun _ _ => rfl⟩
    rw [hshared.free hfree, List.append_nil]
  · obtain ⟨t, ht⟩ := not_forall.mp hfree
    have hheld := Bool.eq_true_of_not_eq_false ht
    obtain ⟨line, hlast, ⟨part, hpart⟩, hbytes⟩ := hshared.printing t hheld
    obtain ⟨L, hL⟩ := List.getLast?_eq_some_iff.mp hlast
    by_cases hrest : (s.pc t).rest = []
    · refine ⟨lines valid ls, [], List.prefix_rfl, ?_, List.not_mem_nil, fun _ _ => rfl⟩
      rw [hbytes, hrest, List.append_nil, List.append_nil]
    · obtain ⟨piece, hpiece, hline⟩ := hlines (t, line) (List.mem_of_getLast? hlast)
      refine ⟨L, part, ⟨[(t, line)], hL.symm⟩, ?_, fun hmem => ?_, fun u hu => ?_⟩
      · rw [hL, List.flatMap_append, List.flatMap_singleton, ← hpart, ← List.append_assoc] at hbytes
        exact (List.append_cancel_right hbytes).symm
      · -- the line break is still to come
        have hsplit : part ++ (s.pc t).rest.dropLast = piece := by
          have hdrop := congrArg List.dropLast (hpart.trans hline)
          rwa [List.dropLast_append_of_ne_nil hrest, List.dropLast_concat] at hdrop
        exact hpiece (hsplit ▸ List.mem_append_left _ hmem)
      · have hne : t ≠ u := by
          rintro rfl
          rw [held, hu, Bool.and_comm] at hheld
          cases hheld
        rw [hL, List.filter_append, List.filter_singleton, decide_eq_false hne]
        exact (List.append_nil _).symm

theorem parse_line {c : Call} (h : c.Clean) (text : Bytes) :
    readLine (c.header ++ text ++ [10]).dropLast = some (c.record text) := by
  rw [List.dropLast_concat, readLine_line h]

/-- What calls print is parsed as what they say. -/
theorem map_parse_messages {calls : List Call} (hclean : ∀ c ∈ calls, c.Clean) :
    (calls.filterMap (·.op.message)).map parse = calls.filterMap Call.record? := by
  rw [List.map_filterMap]
  refine List.filterMap_congr fun c hc => ?_
  rw [message_of_clean (hclean c hc), Call.record?, Option.map_map]
  refine Option.map_congr fun text _ => ?_
  exact congrArg (Option.getD · default) (parse_line (hclean c hc) text)

/-- **The console can be read.**  In every state of processes that log at the same time with at
most one permit, all their calls `Clean`, what those with the semaphore have put on the console is
lines that have ended and a part of another one.  Read line by line, it gives a list of records,
and those of one thread are what its calls of `log` say, in their order: all of them, if the thread
is not in a call. -/
theorem log_reads_back [Fintype T] [DecidableEq T] (hrun : Run (Step valid) (init mr0) ls s)
    (hone : boots ls ≤ 1) (calls : T → List Call) (hclean : ∀ t, ∀ c ∈ calls t, c.Clean)
    (hcalls : ∀ t, valid t = true → logged t ls = (calls t).filterMap (·.op.message)) :
    ∃ rs : List (T × Record), readLog (output valid ls) = rs.map (fun r => some r.2) ∧
      (∀ r ∈ rs, valid r.1 = true) ∧
      ∀ t, valid t = true →
        (rs.filter (·.1 = t)).map (·.2) <+: (calls t).filterMap Call.record? ∧
        (s.pc t = .idle → (rs.filter (·.1 = t)).map (·.2) = (calls t).filterMap Call.record?) := by
  have hline : ∀ l ∈ lines valid ls, ∃ c text, Call.Clean c ∧ c.text? = some text ∧
      l.2 = c.header ++ text ++ [10] := by
    intro l hl
    have hv := valid_of_mem_lines hl
    have hmem : l.2 ∈ ((lines valid ls).filter (·.1 = l.1)).map (·.2) :=
      List.mem_map_of_mem (List.mem_filter.mpr ⟨hl, decide_eq_true rfl⟩)
    have hlogged := (lines_prefix_logged hrun hv).1.subset hmem
    rw [hcalls l.1 hv] at hlogged
    obtain ⟨c, hc, hmessage⟩ := List.mem_filterMap.mp hlogged
    rw [message_of_clean (hclean l.1 c hc)] at hmessage
    obtain ⟨text, htext, heq⟩ := Option.map_eq_some_iff.mp hmessage
    exact ⟨c, text, hclean l.1 c hc, htext, heq.symm⟩
  obtain ⟨L, part, hL, hout, hpart, hidle⟩ := output_lines hrun hone fun l hl => by
    obtain ⟨c, text, hc, htext, heq⟩ := hline l hl
    exact ⟨_, ((oneLine_header hc).append (hc.text text htext)).1, heq⟩
  -- the records of one thread are its lines, parsed
  have hthread : ∀ (L : List (T × Bytes)) t, ((L.map fun l => (l.1, parse l.2)).filter (·.1 = t)).map (·.2) =
      ((L.filter (·.1 = t)).map (·.2)).map parse := by
    intro L t
    rw [List.filter_map, List.map_map, List.map_map]
    rfl
  refine ⟨L.map fun l => (l.1, parse l.2), ?_, ?_, fun t ht => ?_⟩
  · have hpieces : L.flatMap (·.2) = (L.map (·.2.dropLast)).flatMap (· ++ [10]) := by
      rw [List.flatMap_map]
      refine List.flatMap_congr fun l hl => ?_
      obtain ⟨c, text, -, -, heq⟩ := hline l (hL.subset hl)
      rw [heq, List.dropLast_concat]
    have hclear : ∀ p ∈ L.map (·.2.dropLast), 10 ∉ p := by
      intro p hp
      obtain ⟨l, hl, rfl⟩ := List.mem_map.mp hp
      obtain ⟨c, text, hc, htext, heq⟩ := hline l (hL.subset hl)
      rw [heq, List.dropLast_concat]
      exact ((oneLine_header hc).append (hc.text text htext)).1
    rw [readLog, hout, hpieces, Fields.ended_flatMap hclear hpart, List.map_map, List.map_map]
    refine List.map_congr_left fun l hl => ?_
    obtain ⟨c, text, hc, -, heq⟩ := hline l (hL.subset hl)
    have hread := parse_line hc text
    rw [← heq] at hread
    simp only [Function.comp_apply, parse, hread, Option.getD_some]
  · intro r hr
    obtain ⟨l, hl, rfl⟩ := List.mem_map.mp hr
    exact valid_of_mem_lines (hL.subset hl)
  · obtain ⟨hfirst, hall⟩ := lines_prefix_logged hrun ht
    rw [hcalls t ht] at hfirst hall
    rw [hthread, ← map_parse_messages (hclean t)]
    refine ⟨((hL.filter _).map _ |>.trans hfirst).map parse, fun hpc => ?_⟩
    rw [hidle t hpc, hall hpc]

/-- A process that logs "hello world". -/
def hello : Call where
  severity := .info
  format := lit "hello {}"
  args := [lit "world"]
  file := lit "src/client.cc"
  function := lit "main"
  line := 7
  env := [lit "LOG_LEVEL=31", lit "PKGNAME=clnt"]
  now := 3723000004
  threadId := lit "2a"

theorem clean_hello : hello.Clean where
  threadId := by decide
  pkgname := by decide
  file := by decide
  length := by decide
  function := by decide
  text := by
    intro text h
    have htext : hello.text? = some (lit "hello world") := rfl
    rw [htext] at h
    cases h
    decide

theorem log_reads_back_hello : ∃ (ls : List (Unit × Op)) (rs : List (Unit × Record)),
    logged () ls = [hello.header ++ lit "hello world\n"] ∧
    readLog (output (fun _ => true) ls) = rs.map (fun r => some r.2) ∧
    (rs.filter (·.1 = ())).map (·.2) = [hello.record (lit "hello world")] := by
  have hmessage : hello.op.message = some [hello.header ++ lit "hello world\n"].flatten := by decide
  have hrun := ((((((Run.nil : Run (Step fun _ : Unit => true) (init fun _ => 7) [] _).snoc
    (step_put (t := ()) (.boot (v := 1)))).snoc (step_put (t := ()) (.log hmessage))).snoc
    (step_put (t := ()) .start)).snoc (step_put (t := ()) (.down (b := 0) rfl))).snoc
    (step_put (t := ()) (.print (b := 0)))).snoc (step_put (t := ()) (.up (b := 0) rfl)) |>.snoc
    (step_put (t := ()) .restore)
  obtain ⟨rs, hread, -, hrecords⟩ := log_reads_back hrun (by decide) (fun _ => [hello])
    (fun _ c hc => by rw [List.mem_singleton.mp hc]; exact clean_hello) (fun _ _ => rfl)
  exact ⟨_, rs, rfl, hread, (hrecords () rfl).2 rfl⟩

end MettEagle.LogSync
