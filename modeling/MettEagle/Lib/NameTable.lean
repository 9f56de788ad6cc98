/-
# `MettEagle.Lib.NameTable` — values found by name

A table is filled entry by entry: every entry has a name, and a slot its value is stored
in.  A lookup takes the entry that was added last under a name and reads its slot.

    put, store     one entry after the other, each into its slot
    last?          the entry added last under a name
    Apart          entries of different names have different slots

Entries of one name may share a slot or not, and an entry without a value leaves its slot as
it is.  Where names do not share slots, a lookup gives what was added last
(`store_of_last`).
-/
import Mathlib.Data.List.Basic
import Mathlib.Data.List.Induction
import Mathlib.Logic.Function.Basic

namespace MettEagle.NameTable

variable {A K S V : Type*} {name : A → K} {value : A → Option V}

/-- Store the value of one entry. -/
def put [DecidableEq S] (value : A → Option V) (f : S → Option V) (x : A × S) : S → Option V :=
  match value x.1 with
  | none => f
  | some v => Function.update f x.2 (some v)

def store [DecidableEq S] (value : A → Option V) (l : List (A × S)) (f : S → Option V) :
    S → Option V :=
  l.foldl (put value) f

/-- The entry added last under a name. -/
def last? [DecidableEq K] (name : A → K) (l : List A) (k : K) : Option A :=
  l.reverse.find? fun a => name a = k

def Apart (name : A → K) (l : List (A × S)) : Prop :=
  l.Pairwise fun x y => name x.1 ≠ name y.1 → x.2 ≠ y.2

theorem put_of_ne [DecidableEq S] (f : S → Option V) {x : A × S} {s : S} (h : s ≠ x.2) :
    put value f x s = f s := by
  rw [put]
  cases value x.1 with
  | none => rfl
  | some v => exact Function.update_of_ne h ..

theorem store_append [DecidableEq S] (l l' : List (A × S)) (f : S → Option V) :
    store value (l ++ l') f = store value l' (store value l f) :=
  List.foldl_append

section
variable [DecidableEq K]

theorem last?_append_singleton (l : List A) (a : A) (k : K) :
    last? name (l ++ [a]) k = if name a = k then some a else last? name l k := by
  rw [last?, List.reverse_append, List.reverse_singleton, List.singleton_append, List.find?_cons]
  by_cases h : name a = k
  · rw [if_pos h, decide_eq_true h]
  · rw [if_neg h, decide_eq_false h]
    rfl

theorem name_of_last (name : A → K) {l : List A} {k : K} {a : A} (h : last? name l k = some a) : name a = k := by
  have hfound := List.find?_some h
  simpa using hfound

/-- The entries with their slots, or with something else computed from them. -/
theorem last?_map {B : Type*} (g : B → A) (l : List B) (k : K) :
    last? name (l.map g) k = (last? (fun b => name (g b)) l k).map g := by
  rw [last?, ← List.map_reverse, List.find?_map]
  rfl

/-- The table, by induction on the entries from the last one back: an entry of another name
does not touch the slot. -/
theorem store_of_last [DecidableEq S] {l : List (A × S)} (hapart : Apart name l) {k : K}
    {f : S → Option V} {x : A × S} {v : V}
    (hlast : last? (fun y : A × S => name y.1) l k = some x) (hv : value x.1 = some v) :
    store value l f x.2 = some v := by
  induction l using List.reverseRecOn with
  | nil => cases hlast
  | append_singleton l y ih =>
      have hsplit := List.pairwise_append.mp hapart
      rw [store_append, store, List.foldl_cons, List.foldl_nil]
      rw [last?_append_singleton] at hlast
      by_cases hy : name y.1 = k
      · rw [if_pos hy] at hlast
        obtain rfl := Option.some.inj hlast
        rw [put, hv]
        exact Function.update_self ..
      · rw [if_neg hy] at hlast
        have hmem : x ∈ l := List.mem_reverse.mp (List.mem_of_find?_eq_some hlast)
        have hx : name x.1 = k := name_of_last (fun z : A × S => name z.1) hlast
        have hne : name x.1 ≠ name y.1 := fun h => hy (h.symm.trans hx)
        have hslot : x.2 ≠ y.2 := hsplit.2.2 x hmem y (List.mem_singleton_self y) hne
        rw [put_of_ne _ hslot]
        exact ih hsplit.1 hlast

end

end MettEagle.NameTable
