/-
# `MettEagle.Lib.Json` — reading JSON

A reader for the JSON texts made of integers, strings without escapes, arrays and objects,
with white space wherever JSON allows it.  It recurses on fuel, which bounds the nesting and
the number of items of a list at once; `Reads s v rest` says that with enough of it a value
`v` is read from `s` and `rest` is left.

    Reads.num, Reads.list               what a text is read as, from its parts
    ItemsRead                           a list of items up to its closing bracket
    Reads.unique                        a text is read as one value
-/
import MettEagle.Lib.Decimal

namespace MettEagle

/-- What is read. -/
inductive Json where
  | num (n : Int)
  | str (s : List UInt8)
  | arr (l : List Json)
  | obj (l : List (List UInt8 × Json))

namespace Json

/-! ## The reader -/

def isWs (c : UInt8) : Bool := c = 32 || c = 9 || c = 10 || c = 13

/-- A byte of a name that stands for itself. -/
def isPlain (c : UInt8) : Bool := 32 ≤ c && c ≠ 92 && c ≠ 34

/-- The text behind the white space. -/
def skip (s : List UInt8) : List UInt8 := s.dropWhile isWs

/-- A number without a sign: at least one digit, and no zero in front of another one. -/
def readNat (s : List UInt8) : Option (ℕ × List UInt8) :=
  let r := Decimal.readDigits s
  if s = Decimal.digits r.1 ++ r.2 then some r else none

def readInt : List UInt8 → Option (Int × List UInt8)
  | [] => none
  | c :: s =>
      if c = 45 then (readNat s).map fun r => (-(r.1 : Int), r.2)
      else (readNat (c :: s)).map fun r => ((r.1 : Int), r.2)

/-- A string, behind its opening quote. -/
def readString (s : List UInt8) : Option (List UInt8 × List UInt8) :=
  let t := s.takeWhile (· ≠ 34)
  if t.all fun c => 32 ≤ c && c ≠ 92 then
    match s.dropWhile (· ≠ 34) with
    | [] => none
    | _ :: rest => some (t, rest)
  else none

section
variable {α : Type*} (item : List UInt8 → Option (α × List UInt8)) (close : UInt8)

/-- Items with commas between them, up to the closing bracket. -/
def readItems : ℕ → List UInt8 → Option (List α × List UInt8)
  | 0, _ => none
  | n + 1, s =>
      match item s with
      | none => none
      | some (a, s) =>
          match skip s with
          | [] => none
          | c :: s =>
              if c = 44 then (readItems n s).map fun r => (a :: r.1, r.2)
              else if c = close then some ([a], s)
              else none

/-- A list, behind its opening bracket. -/
def readList (n : ℕ) (s : List UInt8) : Option (List α × List UInt8) :=
  if (skip s).head? = some close then some ([], (skip s).tail) else readItems item close n s

end

/-- A name and its value. -/
def readMember (value : List UInt8 → Option (Json × List UInt8)) (s : List UInt8) :
    Option ((List UInt8 × Json) × List UInt8) :=
  match skip s with
  | [] => none
  | c :: s =>
      if c ≠ 34 then none
      else match readString s with
        | none => none
        | some (k, s) =>
            match skip s with
            | [] => none
            | c :: s => if c ≠ 58 then none else (value s).map fun r => ((k, r.1), r.2)

def readValue : ℕ → List UInt8 → Option (Json × List UInt8)
  | 0, _ => none
  | fuel + 1, s =>
      match skip s with
      | [] => none
      | c :: s =>
          if c = 34 then (readString s).map fun r => (str r.1, r.2)
          else if c = 91 then (readList (readValue fuel) 93 fuel s).map fun r => (arr r.1, r.2)
          else if c = 123 then
            (readList (readMember (readValue fuel)) 125 fuel s).map fun r => (obj r.1, r.2)
          else (readInt (c :: s)).map fun r => (num r.1, r.2)

/-- With enough fuel, `v` is read from `s`, and `rest` is left. -/
def Reads (s : List UInt8) (v : Json) (rest : List UInt8) : Prop :=
  ∃ n, ∀ fuel, n ≤ fuel → readValue fuel s = some (v, rest)

/-- The same for a member of an object. -/
def MemberReads (s : List UInt8) (m : List UInt8 × Json) (rest : List UInt8) : Prop :=
  ∃ n, ∀ fuel, n ≤ fuel → readMember (readValue fuel) s = some (m, rest)

theorem Reads.unique {s rest rest' : List UInt8} {v v' : Json} (h : Reads s v rest)
    (h' : Reads s v' rest') : v = v' ∧ rest = rest' := by
  obtain ⟨n, hn⟩ := h
  obtain ⟨n', hn'⟩ := h'
  have hboth := (hn (max n n') (le_max_left ..)).symm.trans (hn' (max n n') (le_max_right ..))
  exact Prod.mk.inj (Option.some.inj hboth)

/-! ## White space -/

theorem skip_append {w : List UInt8} (hw : w.all isWs = true) (s : List UInt8) :
    skip (w ++ s) = skip s := List.dropWhile_append_of_pos (List.all_eq_true.mp hw)

theorem skip_cons {c : UInt8} (hc : isWs c = false) (s : List UInt8) : skip (c :: s) = c :: s := by
  rw [skip, List.dropWhile_cons, hc]
  rfl

theorem readValue_skip {s s' : List UInt8} (h : skip s = skip s') (fuel : ℕ) :
    readValue fuel s = readValue fuel s' := by
  cases fuel with
  | zero => rfl
  | succ fuel => rw [readValue, readValue, h]

theorem Reads.ws {s rest w : List UInt8} {v : Json} (h : Reads s v rest)
    (hw : w.all isWs = true) : Reads (w ++ s) v rest := by
  obtain ⟨n, hn⟩ := h
  exact ⟨n, fun fuel hle => (readValue_skip (skip_append hw s) fuel).trans (hn fuel hle)⟩

/-! ## Numbers and strings -/

theorem readNat_digits (n : ℕ) {s : List UInt8} (hs : ∀ c ∈ s.head?, Decimal.isDigit c = false) :
    readNat (Decimal.digits n ++ s) = some (n, s) := by
  rw [readNat, Decimal.readDigits_digits_append n hs, if_pos rfl]

/-- An integer in text. -/
def intText (n : Int) : List UInt8 :=
  if 0 ≤ n then Decimal.digits n.toNat else 45 :: Decimal.digits (-n).toNat

theorem readInt_intText (n : Int) {s : List UInt8} (hs : ∀ c ∈ s.head?, Decimal.isDigit c = false) :
    readInt (intText n ++ s) = some (n, s) := by
  rw [intText]
  by_cases hn : 0 ≤ n
  · obtain ⟨c, t, hcons, hc⟩ := Decimal.digits_cons n.toNat
    have hread := readNat_digits n.toNat hs
    rw [if_pos hn]
    rw [hcons, List.cons_append] at hread ⊢
    rw [readInt, if_neg (Decimal.ne_of_isDigit hc rfl), hread]
    have hback : ((n.toNat : ℕ) : Int) = n := Int.toNat_of_nonneg hn
    rw [Option.map_some, hback]
  · rw [if_neg hn, List.cons_append, readInt, if_pos rfl, readNat_digits _ hs, Option.map_some]
    have hback : -(((-n).toNat : ℕ) : Int) = n := by omega
    rw [hback]

/-- The first byte of a number is no bracket and no quote. -/
theorem intText_cons (n : Int) : ∃ c t, intText n = c :: t ∧ (Decimal.isDigit c = true ∨ c = 45) := by
  rw [intText]
  by_cases hn : 0 ≤ n
  · obtain ⟨c, t, hcons, hc⟩ := Decimal.digits_cons n.toNat
    exact ⟨c, t, by rw [if_pos hn, hcons], Or.inl hc⟩
  · exact ⟨45, _, if_neg hn, Or.inr rfl⟩

theorem ne_of_numeric {c d : UInt8} (hc : Decimal.isDigit c = true ∨ c = 45)
    (hd : Decimal.isDigit d = false) (hd' : d ≠ 45) : c ≠ d := by
  rcases hc with hc | rfl
  · exact Decimal.ne_of_isDigit hc hd
  · exact hd'.symm

theorem isWs_of_numeric {c : UInt8} (hc : Decimal.isDigit c = true ∨ c = 45) : isWs c = false := by
  have hne := fun d => ne_of_numeric (d := d) hc
  simp only [isWs, Bool.or_eq_false_iff, decide_eq_false_iff_not]
  exact ⟨⟨⟨hne _ rfl (by decide), hne _ rfl (by decide)⟩, hne _ rfl (by decide)⟩,
    hne _ rfl (by decide)⟩

theorem Reads.num (n : Int) {rest : List UInt8}
    (hrest : ∀ c ∈ rest.head?, Decimal.isDigit c = false) : Reads (intText n ++ rest) (num n) rest := by
  refine ⟨1, fun fuel hfuel => ?_⟩
  obtain ⟨fuel, rfl⟩ : ∃ k, fuel = k + 1 := ⟨fuel - 1, by omega⟩
  obtain ⟨c, t, hcons, hc⟩ := intText_cons n
  have hread := readInt_intText n hrest
  rw [hcons, List.cons_append] at hread ⊢
  have hne := fun d => ne_of_numeric (d := d) hc
  rw [readValue, skip_cons (isWs_of_numeric hc)]
  simp only [if_neg (hne 34 rfl (by decide)), if_neg (hne 91 rfl (by decide)),
    if_neg (hne 123 rfl (by decide)), hread, Option.map_some]

theorem readString_append {k : List UInt8} (hk : k.all isPlain = true)
    (s : List UInt8) : readString (k ++ 34 :: s) = some (k, s) := by
  have hplain : ∀ c ∈ k, (32 ≤ c ∧ c ≠ 92) ∧ c ≠ 34 := by
    intro c hc
    have hc' := List.all_eq_true.mp hk c hc
    simpa only [isPlain, Bool.and_eq_true, decide_eq_true_eq] using hc'
  have hquote : ∀ c ∈ k, decide (c ≠ 34) = true := fun c hc => decide_eq_true (hplain c hc).2
  have htake : (k ++ 34 :: s).takeWhile (· ≠ 34) = k := by
    rw [List.takeWhile_append_of_pos hquote]
    simp
  have hdrop : (k ++ 34 :: s).dropWhile (· ≠ 34) = 34 :: s := by
    rw [List.dropWhile_append_of_pos hquote]
    simp
  have hall : (k.all fun c => 32 ≤ c && c ≠ 92) = true := by
    rw [List.all_eq_true]
    intro c hc
    rw [Bool.and_eq_true, decide_eq_true_eq, decide_eq_true_eq]
    exact (hplain c hc).1
  rw [readString, htake, hdrop, if_pos hall]

/-! ## Lists -/

/-- Items with commas between them, up to the closing bracket: each is read and followed by the
next separator. -/
inductive ItemsRead {α : Type*} (R : List UInt8 → α → List UInt8 → Prop) (close : UInt8) :
    List UInt8 → List α → List UInt8 → Prop
  | last {s s' rest : List UInt8} {a : α} : R s a s' → skip s' = close :: rest →
      ItemsRead R close s [a] rest
  | cons {s s' s'' rest : List UInt8} {a : α} {l : List α} : R s a s' → skip s' = 44 :: s'' →
      ItemsRead R close s'' l rest → ItemsRead R close s (a :: l) rest

/-- White space in front of the first item belongs to it. -/
theorem ItemsRead.ws {α : Type*} {R : List UInt8 → α → List UInt8 → Prop} {close : UInt8}
    {w s rest : List UInt8} {l : List α} (hR : ∀ s a s', R s a s' → R (w ++ s) a s')
    (h : ItemsRead R close s l rest) : ItemsRead R close (w ++ s) l rest := by
  cases h with
  | last hitem hskip => exact .last (hR _ _ _ hitem) hskip
  | cons hitem hskip hrest => exact .cons (hR _ _ _ hitem) hskip hrest

section
variable {α : Type*} {item : ℕ → List UInt8 → Option (α × List UInt8)} {close : UInt8}
  {s rest : List UInt8} {l : List α}

/-- By induction on the items, with fuel for the largest of them and for their number. -/
theorem readItems_of_itemsRead (hclose : close ≠ 44)
    (h : ItemsRead (fun s a rest => ∃ n, ∀ fuel, n ≤ fuel → item fuel s = some (a, rest)) close
      s l rest) :
    ∃ n, ∀ fuel k, n ≤ fuel → n ≤ k → readItems (item fuel) close k s = some (l, rest) := by
  induction h with
  | last hitem hskip =>
      obtain ⟨n, hn⟩ := hitem
      refine ⟨n + 1, fun fuel k hfuel hk => ?_⟩
      obtain ⟨k, rfl⟩ : ∃ j, k = j + 1 := ⟨k - 1, by omega⟩
      rw [readItems, hn fuel (by omega)]
      simp only [hskip, if_neg hclose, if_true]
  | cons hitem hskip _ ih =>
      obtain ⟨n, hn⟩ := hitem
      obtain ⟨n', hn'⟩ := ih
      refine ⟨max n n' + 1, fun fuel k hfuel hk => ?_⟩
      obtain ⟨k, rfl⟩ : ∃ j, k = j + 1 := ⟨k - 1, by omega⟩
      rw [readItems, hn fuel (by omega)]
      simp only [hskip, if_true, hn' fuel k (by omega) (by omega), Option.map_some]

/-- A list that is not empty begins with something else than its closing bracket. -/
theorem readList_of_itemsRead (hclose : close ≠ 44) (hhead : (skip s).head? ≠ some close)
    (h : ItemsRead (fun s a rest => ∃ n, ∀ fuel, n ≤ fuel → item fuel s = some (a, rest)) close
      s l rest) :
    ∃ n, ∀ fuel, n ≤ fuel → readList (item fuel) close fuel s = some (l, rest) := by
  obtain ⟨n, hn⟩ := readItems_of_itemsRead hclose h
  refine ⟨n, fun fuel hfuel => ?_⟩
  rw [readList, if_neg hhead, hn fuel fuel hfuel hfuel]

end

section
variable {s rest : List UInt8}

theorem Reads.arr_nil (hs : skip s = 93 :: rest) : Reads (91 :: s) (arr []) rest := by
  refine ⟨1, fun fuel hfuel => ?_⟩
  obtain ⟨fuel, rfl⟩ : ∃ k, fuel = k + 1 := ⟨fuel - 1, by omega⟩
  rw [readValue, skip_cons rfl]
  simp only [readList, hs]
  rfl

/-- A value that is read as the list behind its opening bracket. -/
theorem Reads.list {α : Type*} {item : ℕ → List UInt8 → Option (α × List UInt8)}
    {bracket close : UInt8} {make : List α → Json} {l : List α} (hclose : close ≠ 44)
    (hvalue : ∀ fuel, readValue (fuel + 1) (bracket :: s) =
      (readList (item fuel) close fuel s).map fun r => (make r.1, r.2))
    (hhead : (skip s).head? ≠ some close)
    (h : ItemsRead (fun s a rest => ∃ n, ∀ fuel, n ≤ fuel → item fuel s = some (a, rest)) close
      s l rest) : Reads (bracket :: s) (make l) rest := by
  obtain ⟨n, hn⟩ := readList_of_itemsRead hclose hhead h
  refine ⟨n + 1, fun fuel hfuel => ?_⟩
  obtain ⟨fuel, rfl⟩ : ∃ k, fuel = k + 1 := ⟨fuel - 1, by omega⟩
  rw [hvalue, hn fuel (by omega)]
  rfl

theorem Reads.arr {l : List Json} (hhead : (skip s).head? ≠ some 93)
    (h : ItemsRead Reads 93 s l rest) : Reads (91 :: s) (arr l) rest :=
  .list (by decide) (fun fuel => by rw [readValue, skip_cons rfl]; rfl) hhead h

theorem Reads.obj {l : List (List UInt8 × Json)} (hhead : (skip s).head? ≠ some 125)
    (h : ItemsRead MemberReads 125 s l rest) : Reads (123 :: s) (obj l) rest :=
  .list (by decide) (fun fuel => by rw [readValue, skip_cons rfl]; rfl) hhead h

/-- `"name" : value`, with white space around the parts. -/
theorem MemberReads.member {w w' k : List UInt8} {v : Json} (hw : w.all isWs = true)
    (hk : k.all isPlain = true) (hw' : w'.all isWs = true)
    (h : Reads s v rest) : MemberReads (w ++ 34 :: (k ++ 34 :: (w' ++ 58 :: s))) (k, v) rest := by
  obtain ⟨n, hn⟩ := h
  refine ⟨n, fun fuel hfuel => ?_⟩
  have hquote : skip (w ++ 34 :: (k ++ 34 :: (w' ++ 58 :: s))) =
      34 :: (k ++ 34 :: (w' ++ 58 :: s)) := by rw [skip_append hw, skip_cons rfl]
  have hcolon : skip (w' ++ 58 :: s) = 58 :: s := by rw [skip_append hw', skip_cons rfl]
  rw [readMember, hquote]
  simp only [readString_append hk, hcolon, hn fuel hfuel]
  rfl

theorem MemberReads.ws {s w : List UInt8} {m : List UInt8 × Json} (h : MemberReads s m rest)
    (hw : w.all isWs = true) : MemberReads (w ++ s) m rest := by
  obtain ⟨n, hn⟩ := h
  refine ⟨n, fun fuel hfuel => ?_⟩
  rw [readMember, skip_append hw, ← readMember]
  exact hn fuel hfuel

/-- The same with the name and all around it in one text. -/
theorem MemberReads.of_text {t : List UInt8} (w k w' u : List UInt8) {v : Json}
    (ht : t = w ++ 34 :: (k ++ 34 :: (w' ++ 58 :: u))) (hw : w.all isWs = true)
    (hk : k.all isPlain = true) (hw' : w'.all isWs = true)
    (hu : u.all isWs = true) (h : Reads s v rest) : MemberReads (t ++ s) (k, v) rest := by
  have hmember := MemberReads.member hw hk hw' (h.ws hu)
  rwa [ht, List.append_assoc, List.cons_append, List.append_assoc, List.cons_append,
    List.append_assoc, List.cons_append]

end

end Json

end MettEagle
