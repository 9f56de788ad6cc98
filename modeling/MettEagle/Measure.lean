/-
# `MettEagle.Measure` — what a client of the benchmark measures and prints

Each client invokes its action `ITERATIONS` times and keeps the times of every invocation
in nine lists, one for each metric.  An invocation that throws is tried again: `i--` in the
catch block, and `continue` goes through the `i++` of the loop.

    benchmark       the measurement loop, on what its invocations answer
    toString        the nine lists of a client as the text of an object
    main            the texts of all clients between brackets and markers

`measured` says which rows the columns are made of, `output_reads_back` that what is printed
is JSON and gives the metrics of every client back.
-/
import MettEagle.Environ
import MettEagle.Lib.Json

namespace MettEagle.Measure

/-! ## The loop -/

/-- `Metrics`: counts of microseconds. -/
structure Metrics where
  startInvocation : List Int := []
  endInvocation : List Int := []
  startWorker : List Int := []
  endWorker : List Int := []
  startRuntime : List Int := []
  endRuntime : List Int := []
  startFunction : List Int := []
  endFunction : List Int := []
  functionInternalDuration : List Int := []
deriving DecidableEq

/-- One pass of the loop: the clock before, the metadata the invocation gave unless it threw,
and the clock after. -/
structure Attempt where
  start : ℕ
  result : Option Metadata
  stop : ℕ

/-- `duration_cast<microseconds> (t.time_since_epoch ())`. -/
def micros (t : ℕ) : Int := ((t : Int)).tdiv 1000

/-- The `push_back`s. -/
def Metrics.push (m : Metrics) (start stop : ℕ) (data : Metadata) : Metrics where
  startInvocation := m.startInvocation ++ [micros start]
  endInvocation := m.endInvocation ++ [micros stop]
  startWorker := m.startWorker ++ [micros data.startWorker]
  endWorker := m.endWorker ++ [micros data.endWorker]
  startRuntime := m.startRuntime ++ [micros data.startRuntime]
  endRuntime := m.endRuntime ++ [micros data.endRuntime]
  startFunction := m.startFunction ++ [micros data.startFunction]
  endFunction := m.endFunction ++ [micros data.endFunction]
  functionInternalDuration := m.functionInternalDuration ++ [0]

/-- Where the loop is once these are all its invocations so far. -/
inductive Progress where
  | finished (m : Metrics) (unused : List Attempt)
  | running (i : Int) (m : Metrics)

/-- The loop of `benchmark`, from `i` on. -/
def benchmarkLoop (iterations : Int) : Int → Metrics → List Attempt → Progress
  | i, m, [] => if i < iterations then .running i m else .finished m []
  | i, m, a :: as =>
      if i < iterations then
        match a.result with
        | none => benchmarkLoop iterations (i - 1 + 1) m as
        | some data => benchmarkLoop iterations (i + 1) (m.push a.start a.stop data) as
      else .finished m (a :: as)

/-! ## Rows -/

/-- The times of one invocation. -/
structure Row where
  startInvocation : ℕ
  endInvocation : ℕ
  data : Metadata

def Attempt.row? (a : Attempt) : Option Row :=
  a.result.map fun data => ⟨a.start, a.stop, data⟩

/-- The columns of a table. -/
def Metrics.ofRows (rows : List Row) : Metrics where
  startInvocation := rows.map fun r => micros r.startInvocation
  endInvocation := rows.map fun r => micros r.endInvocation
  startWorker := rows.map fun r => micros r.data.startWorker
  endWorker := rows.map fun r => micros r.data.endWorker
  startRuntime := rows.map fun r => micros r.data.startRuntime
  endRuntime := rows.map fun r => micros r.data.endRuntime
  startFunction := rows.map fun r => micros r.data.startFunction
  endFunction := rows.map fun r => micros r.data.endFunction
  functionInternalDuration := rows.map fun _ => 0

theorem Metrics.ofRows_push (rows : List Row) (r : Row) :
    (ofRows rows).push r.startInvocation r.endInvocation r.data = ofRows (rows ++ [r]) := by
  simp only [push, ofRows, List.map_append, List.map_singleton]

/-- The times of a row in the order they are taken. -/
def Row.times (r : Row) : List ℕ :=
  [r.startInvocation, r.data.startWorker, r.data.startRuntime, r.data.startFunction,
    r.data.endFunction, r.data.endRuntime, r.data.endWorker, r.endInvocation]

/-- The invocations of the loop so far filled in these rows, behind those that were there. -/
def Filled (iterations : Int) (before : List Row) (attempts : List Attempt) (rows : List Row) :
    Progress → Prop
  | .finished m unused => ∃ used, attempts = used ++ unused ∧
      rows = before ++ used.filterMap Attempt.row? ∧ m = .ofRows rows ∧
      rows.length = iterations.toNat
  | .running i m => rows = before ++ attempts.filterMap Attempt.row? ∧ m = .ofRows rows ∧
      i = rows.length ∧ rows.length < iterations.toNat

theorem benchmarkLoop_stop {iterations i : Int} (h : ¬i < iterations) (m : Metrics)
    (attempts : List Attempt) : benchmarkLoop iterations i m attempts = .finished m attempts := by
  cases attempts with
  | nil => rw [benchmarkLoop, if_neg h]
  | cons a as => rw [benchmarkLoop, if_neg h]

theorem Filled.cons {iterations : Int} {before rows : List Row} {a : Attempt} {as : List Attempt}
    {end₁ : Progress} (h : Filled iterations (before ++ a.row?.toList) as rows end₁) :
    Filled iterations before (a :: as) rows end₁ := by
  have hsplit : ∀ l : List Attempt, before ++ a.row?.toList ++ l.filterMap Attempt.row? =
      before ++ (a :: l).filterMap Attempt.row? := by
    intro l
    rw [List.append_assoc, List.filterMap_cons]
    cases a.row? with
    | none => rfl
    | some r => rfl
  cases end₁ with
  | finished m unused =>
      obtain ⟨used, rfl, hrows, hm, hlen⟩ := h
      exact ⟨a :: used, rfl, hrows.trans (hsplit used), hm, hlen⟩
  | running i m =>
      obtain ⟨hrows, hm⟩ := h
      exact ⟨hrows.trans (hsplit as), hm⟩

/-- **Runs.**  The loop, by induction on its invocations. -/
theorem benchmarkLoop_filled (iterations : Int) (attempts : List Attempt) :
    ∀ before : List Row, before.length ≤ iterations.toNat → ∃ rows,
      Filled iterations before attempts rows
        (benchmarkLoop iterations before.length (.ofRows before) attempts) := by
  induction attempts with
  | nil =>
      intro before hle
      refine ⟨before, ?_⟩
      by_cases h : (before.length : Int) < iterations
      · rw [benchmarkLoop, if_pos h]
        exact ⟨(List.append_nil _).symm, rfl, rfl, by omega⟩
      · rw [benchmarkLoop_stop h]
        exact ⟨[], rfl, (List.append_nil _).symm, rfl, by omega⟩
  | cons a as ih =>
      intro before hle
      by_cases h : (before.length : Int) < iterations
      · rw [benchmarkLoop, if_pos h]
        cases hres : a.result with
        | none =>
            have hrow : a.row?.toList = [] := by rw [Attempt.row?, hres]; rfl
            have hi : (before.length : Int) - 1 + 1 = before.length := by omega
            obtain ⟨rows, hfilled⟩ := ih before hle
            refine ⟨rows, Filled.cons ?_⟩
            rw [hrow, List.append_nil]
            simp only [hi]
            exact hfilled
        | some data =>
            have hrow : a.row?.toList = [⟨a.start, a.stop, data⟩] := by rw [Attempt.row?, hres]; rfl
            have hlen : (before ++ [(⟨a.start, a.stop, data⟩ : Row)]).length = before.length + 1 :=
              List.length_append
            obtain ⟨rows, hfilled⟩ := ih (before ++ [⟨a.start, a.stop, data⟩])
              (by rw [hlen]; omega)
            refine ⟨rows, Filled.cons ?_⟩
            have hi : ((before.length + 1 : ℕ) : Int) = before.length + 1 := by omega
            rw [hlen, hi, ← Metrics.ofRows_push] at hfilled
            rw [hrow]
            exact hfilled
      · refine ⟨before, ?_⟩
        rw [benchmarkLoop_stop h]
        exact ⟨[], rfl, (List.append_nil _).symm, rfl, by omega⟩

theorem micros_mono {s t : ℕ} (h : s ≤ t) : micros s ≤ micros t := by
  have hcast : ∀ n : ℕ, micros n = ((n / 1000 : ℕ) : Int) := fun n => rfl
  rw [hcast, hcast]
  exact Int.ofNat_le.mpr (Nat.div_le_div_right h)

/-- The rows are a first part of what did not throw. -/
theorem Filled.rest {iterations : Int} {attempts : List Attempt} {rows : List Row}
    {end₁ : Progress} (h : Filled iterations [] attempts rows end₁) :
    ∃ rest, attempts.filterMap Attempt.row? = rows ++ rest := by
  cases end₁ with
  | finished m unused =>
      obtain ⟨used, rfl, rfl, -⟩ := h
      exact ⟨unused.filterMap Attempt.row?, List.filterMap_append⟩
  | running i m =>
      obtain ⟨rfl, -⟩ := h
      exact ⟨[], (List.append_nil _).symm⟩

/-- The measurement loop, on any invocations.  Its nine lists are the columns of one table with a
row for each invocation that did not throw, in their order; one that threw leaves nothing behind
and is tried again.  The loop ends after the invocation that makes them `ITERATIONS`, and not
before.  If the clock was read in this order, the table read row by row is in order, also after
the times were cut to microseconds. -/
theorem measured (iterations : Int) (attempts : List Attempt) : ∃ rows : List Row,
    (match benchmarkLoop iterations 0 {} attempts with
      | .finished m unused => ∃ used, attempts = used ++ unused ∧
          rows = used.filterMap Attempt.row? ∧ m = .ofRows rows ∧ rows.length = iterations.toNat
      | .running i m => rows = attempts.filterMap Attempt.row? ∧ m = .ofRows rows ∧
          i = rows.length ∧ rows.length < iterations.toNat) ∧
    (((attempts.filterMap Attempt.row?).flatMap Row.times).Pairwise (· ≤ ·) →
      ((rows.flatMap Row.times).map micros).Pairwise (· ≤ ·)) := by
  obtain ⟨rows, hfilled⟩ := benchmarkLoop_filled iterations attempts [] (Nat.zero_le _)
  refine ⟨rows, hfilled, fun hclock => ?_⟩
  obtain ⟨rest, hrest⟩ := hfilled.rest
  rw [hrest, List.flatMap_append] at hclock
  have hrows : (rows.flatMap Row.times).Pairwise (· ≤ ·) := (List.pairwise_append.mp hclock).1
  exact hrows.map micros fun _ _ h => micros_mono h

/-! ## The text -/

/-- What the loop of the range formatter writes behind the first element. -/
def formatRest : List Int → Bytes
  | [] => []
  | n :: l => lit ", " ++ (decimal n ++ formatRest l)

/-- `{::%Q}`, for a list of durations. -/
def formatRange : List Int → Bytes
  | [] => lit "[]"
  | n :: l => lit "[" ++ (decimal n ++ (formatRest l ++ lit "]"))

example : formatRange [3, -14] = lit "[3, -14]" := by decide

/-- The object of a span: where it starts and ends. -/
def spanText (start stop : List Int) : Bytes :=
  lit "\x7b\n" ++ (lit "  \"start\": " ++ (formatRange start ++ (lit ",\n" ++
    (lit "  \"end\"  : " ++ (formatRange stop ++ lit "\n\x7d")))))

/-- The object of the function, which has a third list. -/
def functionText (m : Metrics) : Bytes :=
  lit "\x7b\n" ++ (lit "  \"start\": " ++ (formatRange m.startFunction ++ (lit ",\n" ++
    (lit "  \"end\"  : " ++ (formatRange m.endFunction ++ (lit ",\n" ++
      (lit "  \"internal_duration\": " ++
        (formatRange m.functionInternalDuration ++ lit "\n\x7d"))))))))

/-- `Metrics::toString`. -/
def Metrics.toString (m : Metrics) : Bytes :=
  lit "\x7b\n" ++ (lit "\"invocation\": " ++ (spanText m.startInvocation m.endInvocation ++
    (lit ",\n" ++ (lit "\"worker\": " ++ (spanText m.startWorker m.endWorker ++
      (lit ",\n" ++ (lit "\"runtime\": " ++ (spanText m.startRuntime m.endRuntime ++
        (lit ",\n" ++ (lit "\"function\": " ++ (functionText m ++ lit "\n\x7d")))))))))))

/-- `printf ("%s\n%c", …, i == THREAD_NUM - 1 ? ' ' : ',')`, for all clients from `i` on. -/
def printAll : List Metrics → Bytes
  | [] => []
  | m :: ms => (CString.ofBytes m.toString).bytes ++
      ((if ms = [] then lit "\n " else lit "\n,") ++ printAll ms)

/-- The output of `main`. -/
def output (ms : List Metrics) : Bytes :=
  lit "====   OUTPUT   ====\n[" ++ (printAll ms ++ lit "]\n==== END OUTPUT ====\n")

/-! ## The value -/

def numbers (l : List Int) : Json := .arr (l.map .num)

def spanJson (start stop : List Int) : Json :=
  .obj [(lit "start", numbers start), (lit "end", numbers stop)]

/-- The metrics of a client as a value. -/
def Metrics.json (m : Metrics) : Json :=
  .obj [(lit "invocation", spanJson m.startInvocation m.endInvocation),
    (lit "worker", spanJson m.startWorker m.endWorker),
    (lit "runtime", spanJson m.startRuntime m.endRuntime),
    (lit "function", .obj [(lit "start", numbers m.startFunction),
      (lit "end", numbers m.endFunction),
      (lit "internal_duration", numbers m.functionInternalDuration)])]

theorem numbers_injective {l l' : List Int} (h : numbers l = numbers l') : l = l' :=
  List.map_injective_iff.mpr (fun _ _ h => Json.num.inj h) (Json.arr.inj h)

theorem Metrics.json_injective {m m' : Metrics} (h : m.json = m'.json) : m = m' := by
  simp only [Metrics.json, spanJson, Json.obj.injEq, List.cons.injEq, Prod.mk.injEq, true_and,
    and_true] at h
  obtain ⟨⟨h₁, h₂⟩, ⟨h₃, h₄⟩, ⟨h₅, h₆⟩, h₇, h₈, h₉⟩ := h
  cases m
  cases m'
  simp only [Metrics.mk.injEq]
  exact ⟨numbers_injective h₁, numbers_injective h₂, numbers_injective h₃, numbers_injective h₄,
    numbers_injective h₅, numbers_injective h₆, numbers_injective h₇, numbers_injective h₈,
    numbers_injective h₉⟩

/-! ## Reading the text -/

theorem decimal_eq_intText (n : Int) : decimal n = Json.intText n := by
  rw [Json.intText]
  by_cases hn : 0 ≤ n
  · rw [if_pos hn, ← decimal_natCast, Int.toNat_of_nonneg hn]
  · have hpos : 0 < (-n).toNat := by omega
    have hback : -(((-n).toNat : ℕ) : Int) = n := by omega
    rw [if_neg hn, ← decimal_neg hpos, hback]

/-- What follows a value here begins with no digit. -/
def Ends (rest : Bytes) : Prop := ∀ c ∈ rest.head?, Decimal.isDigit c = false

theorem ends_cons {c : UInt8} (hc : Decimal.isDigit c = false) (rest : Bytes) : Ends (c :: rest) := by
  intro d hd
  cases hd
  exact hc

theorem itemsRead_formatRest (rest : Bytes) (l : List Int) : ∀ n : Int,
    Json.ItemsRead Json.Reads 93 (decimal n ++ (formatRest l ++ (lit "]" ++ rest)))
      ((n :: l).map Json.num) rest := by
  induction l with
  | nil =>
      intro n
      rw [decimal_eq_intText]
      exact .last (.num n (ends_cons rfl _)) (Json.skip_cons rfl _)
  | cons k l ih =>
      intro n
      have hrest : Json.ItemsRead Json.Reads 93
          (lit " " ++ (decimal k ++ (formatRest l ++ (lit "]" ++ rest)))) ((k :: l).map Json.num) rest :=
        (ih k).ws fun _ _ _ h => h.ws rfl
      rw [decimal_eq_intText, formatRest, List.append_assoc, List.append_assoc]
      exact .cons (.num n (ends_cons rfl _)) (Json.skip_cons rfl _) hrest

/-- A list of times. -/
theorem reads_formatRange (l : List Int) (rest : Bytes) :
    Json.Reads (formatRange l ++ rest) (numbers l) rest := by
  cases l with
  | nil => exact .arr_nil (Json.skip_cons rfl _)
  | cons n l =>
      have hhead : (Json.skip (decimal n ++ (formatRest l ++ (lit "]" ++ rest)))).head? ≠ some 93 := by
        obtain ⟨c, t, hcons, hc⟩ := Json.intText_cons n
        rw [decimal_eq_intText, hcons, List.cons_append, Json.skip_cons (Json.isWs_of_numeric hc)]
        intro h
        exact Json.ne_of_numeric hc rfl (by decide) (Option.some.inj h)
      rw [formatRange, List.append_assoc, List.append_assoc, List.append_assoc]
      exact .arr hhead (itemsRead_formatRest rest l n)

/-- One member of an object of times. -/
theorem memberReads_times {t : Bytes} (k w : Bytes) (l : List Int) (rest : Bytes)
    (ht : t = lit "  " ++ 34 :: (k ++ 34 :: (w ++ 58 :: lit " ")))
    (hk : k.all Json.isPlain = true) (hw : w.all Json.isWs = true) :
    Json.MemberReads (lit "\n" ++ (t ++ (formatRange l ++ rest))) (k, numbers l) rest := by
  refine Json.MemberReads.ws ?_ rfl
  exact .of_text (lit "  ") k w (lit " ") ht rfl hk hw rfl (reads_formatRange l rest)

theorem reads_spanText (start stop : List Int) (rest : Bytes) :
    Json.Reads (spanText start stop ++ rest) (spanJson start stop) rest := by
  simp only [spanText, List.append_assoc]
  refine .obj (fun h => absurd (Option.some.inj h) (by decide : (34 : UInt8) ≠ 125)) ?_
  refine .cons (memberReads_times (lit "start") [] start _ rfl rfl rfl)
    (Json.skip_cons rfl _) ?_
  exact .last (memberReads_times (lit "end") (lit "  ") stop _ rfl rfl rfl) rfl

theorem reads_functionText (m : Metrics) (rest : Bytes) :
    Json.Reads (functionText m ++ rest) (.obj [(lit "start", numbers m.startFunction),
      (lit "end", numbers m.endFunction),
      (lit "internal_duration", numbers m.functionInternalDuration)]) rest := by
  simp only [functionText, List.append_assoc]
  refine .obj (fun h => absurd (Option.some.inj h) (by decide : (34 : UInt8) ≠ 125)) ?_
  refine .cons (memberReads_times (lit "start") [] _ _ rfl rfl rfl)
    (Json.skip_cons rfl _) ?_
  refine .cons (memberReads_times (lit "end") (lit "  ") _ _ rfl rfl rfl)
    (Json.skip_cons rfl _) ?_
  exact .last (memberReads_times (lit "internal_duration") [] _ _ rfl rfl rfl) rfl

/-- One member of the object of a client. -/
theorem memberReads_part {t text : Bytes} {v : Json} (k rest : Bytes)
    (ht : t = 34 :: (k ++ 34 :: 58 :: lit " ")) (hk : k.all Json.isPlain = true)
    (h : Json.Reads (text ++ rest) v rest) :
    Json.MemberReads (lit "\n" ++ (t ++ (text ++ rest))) (k, v) rest := by
  refine Json.MemberReads.ws ?_ rfl
  exact .of_text [] k [] (lit " ") ht rfl hk rfl rfl h

/-- The text of one client. -/
theorem reads_toString (m : Metrics) (rest : Bytes) :
    Json.Reads (m.toString ++ rest) m.json rest := by
  simp only [Metrics.toString, List.append_assoc]
  refine .obj (fun h => absurd (Option.some.inj h) (by decide : (34 : UInt8) ≠ 125)) ?_
  refine .cons (memberReads_part (lit "invocation") _ rfl rfl (reads_spanText ..))
    (Json.skip_cons rfl _) ?_
  refine .cons (memberReads_part (lit "worker") _ rfl rfl (reads_spanText ..))
    (Json.skip_cons rfl _) ?_
  refine .cons (memberReads_part (lit "runtime") _ rfl rfl (reads_spanText ..))
    (Json.skip_cons rfl _) ?_
  exact .last (memberReads_part (lit "function") _ rfl rfl (reads_functionText ..)) rfl

/-! ## The output -/

theorem nul_not_mem_formatRest (l : List Int) : (0 : UInt8) ∉ formatRest l := by
  induction l with
  | nil => exact List.not_mem_nil
  | cons n l ih =>
      exact List.not_mem_append (by decide) (List.not_mem_append (not_mem_decimal rfl (by decide) n) ih)

theorem nul_not_mem_formatRange (l : List Int) : (0 : UInt8) ∉ formatRange l := by
  cases l with
  | nil => decide
  | cons n l =>
      exact List.not_mem_append (by decide) (List.not_mem_append (not_mem_decimal rfl (by decide) n)
        (List.not_mem_append (nul_not_mem_formatRest l) (by decide)))

/-- The text of a client has no NUL, so `%s` prints all of it. -/
theorem nul_not_mem_toString (m : Metrics) : (0 : UInt8) ∉ m.toString := by
  have hrange := nul_not_mem_formatRange
  have hspan : ∀ start stop, (0 : UInt8) ∉ spanText start stop := by
    intro start stop
    simp only [spanText, List.mem_append, hrange, false_or]
    decide
  have hfunction : (0 : UInt8) ∉ functionText m := by
    simp only [functionText, List.mem_append, hrange, false_or]
    decide
  simp only [Metrics.toString, List.mem_append, hspan, hfunction, false_or]
  decide

theorem printAll_cons (m : Metrics) (ms : List Metrics) : printAll (m :: ms) =
    m.toString ++ ((if ms = [] then lit "\n " else lit "\n,") ++ printAll ms) := by
  rw [printAll, CString.ofBytes_eq_iff.mpr (nul_not_mem_toString m)]

/-- **Runs.**  The loop over the clients. -/
theorem itemsRead_printAll (rest : Bytes) (ms : List Metrics) : ∀ m : Metrics,
    Json.ItemsRead Json.Reads 93 (printAll (m :: ms) ++ (lit "]" ++ rest))
      ((m :: ms).map Metrics.json) rest := by
  induction ms with
  | nil =>
      intro m
      rw [printAll_cons, List.append_assoc]
      exact .last (reads_toString m _) rfl
  | cons k ms ih =>
      intro m
      rw [printAll_cons, if_neg (List.cons_ne_nil k ms), List.append_assoc, List.append_assoc]
      exact .cons (reads_toString m _) (rfl : Json.skip (lit "\n," ++ _) = 44 :: _) (ih k)

/-- What `main` prints between the two marker lines is one JSON array with an object for each
client, and its metrics can be read back from it: two runs that print the same measured the
same. -/
theorem output_reads_back (ms : List Metrics) :
    (∃ body, output ms = lit "====   OUTPUT   ====\n" ++ body ∧
      Json.Reads body (.arr (ms.map Metrics.json)) (lit "\n==== END OUTPUT ====\n")) ∧
    ∀ ms', output ms' = output ms → ms' = ms := by
  have hreads : ∀ ms : List Metrics, Json.Reads
      (lit "[" ++ (printAll ms ++ lit "]\n==== END OUTPUT ====\n"))
      (.arr (ms.map Metrics.json)) (lit "\n==== END OUTPUT ====\n") := by
    intro ms
    cases ms with
    | nil => exact .arr_nil (Json.skip_cons rfl _)
    | cons m ms =>
        have hitems := itemsRead_printAll (lit "\n==== END OUTPUT ====\n") ms m
        refine .arr ?_ hitems
        rw [printAll_cons]
        exact fun h => absurd (Option.some.inj h) (by decide : (123 : UInt8) ≠ 93)
  refine ⟨⟨_, rfl, hreads ms⟩, fun ms' h => ?_⟩
  have hbody : printAll ms' ++ lit "]\n==== END OUTPUT ====\n" =
      printAll ms ++ lit "]\n==== END OUTPUT ====\n" := List.append_cancel_left h
  have hread := hreads ms'
  rw [hbody] at hread
  have hjson := Json.arr.inj (hread.unique (hreads ms)).1
  exact List.map_injective_iff.mpr (fun _ _ h => Metrics.json_injective h) hjson

end MettEagle.Measure
