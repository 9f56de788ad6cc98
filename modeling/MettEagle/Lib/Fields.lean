/-
# `MettEagle.Lib.Fields` — texts with separators

A text is taken apart from the front:

    expect p s       `s` begins with `p`; the rest of it
    upTo c s         what stands before the first `c`, and what behind it
    ended c s        the pieces each of which ends with `c`, and what is left

Each has one lemma, which says what it does to a text that was put together that way.
-/
import Mathlib.Data.List.TakeWhile

namespace MettEagle.Fields

variable {α : Type*} [DecidableEq α]

def expect (p s : List α) : Option (List α) :=
  if p.isPrefixOf s then some (s.drop p.length) else none

def upTo (c : α) (s : List α) : Option (List α × List α) :=
  match s.dropWhile (· ≠ c) with
  | [] => none
  | _ :: rest => some (s.takeWhile (· ≠ c), rest)

def ended (c : α) : List α → List (List α) × List α
  | [] => ([], [])
  | a :: s =>
      if a = c then ([] :: (ended c s).1, (ended c s).2)
      else match ended c s with
        | ([], rest) => ([], a :: rest)
        | (piece :: pieces, rest) => ((a :: piece) :: pieces, rest)

theorem expect_append (p s : List α) : expect p (p ++ s) = some s := by
  rw [expect, if_pos (List.isPrefixOf_iff_prefix.mpr (List.prefix_append p s)), List.drop_left]

theorem upTo_append {c : α} {a : List α} (h : c ∉ a) (s : List α) :
    upTo c (a ++ c :: s) = some (a, s) := by
  have hall : ∀ x ∈ a, decide (x ≠ c) = true := fun x hx => decide_eq_true fun heq => h (heq ▸ hx)
  have htake : (a ++ c :: s).takeWhile (· ≠ c) = a := by
    rw [List.takeWhile_append_of_pos hall]
    simp
  have hdrop : (a ++ c :: s).dropWhile (· ≠ c) = c :: s := by
    rw [List.dropWhile_append_of_pos hall]
    simp
  rw [upTo, hdrop]
  exact congrArg (fun t => some (t, s)) htake

theorem ended_of_not_mem {c : α} {s : List α} (h : c ∉ s) : ended c s = ([], s) := by
  induction s with
  | nil => rfl
  | cons a s ih =>
      rw [ended, if_neg (List.ne_of_not_mem_cons h).symm, ih (List.not_mem_of_not_mem_cons h)]

theorem ended_append {c : α} {a : List α} (h : c ∉ a) (s : List α) :
    ended c (a ++ c :: s) = (a :: (ended c s).1, (ended c s).2) := by
  induction a with
  | nil => rw [List.nil_append, ended, if_pos rfl]
  | cons x a ih =>
      rw [List.cons_append, ended, if_neg (List.ne_of_not_mem_cons h).symm,
        ih (List.not_mem_of_not_mem_cons h)]

/-- Pieces that were ended one after the other. -/
theorem ended_flatMap {c : α} {pieces : List (List α)} {rest : List α}
    (h : ∀ p ∈ pieces, c ∉ p) (hrest : c ∉ rest) :
    ended c (pieces.flatMap (fun p => p ++ [c]) ++ rest) = (pieces, rest) := by
  induction pieces with
  | nil => exact ended_of_not_mem hrest
  | cons p pieces ih =>
      rw [List.flatMap_cons, List.append_assoc, List.append_assoc, List.singleton_append,
        ended_append (h p (List.mem_cons_self ..)),
        ih fun q hq => h q (List.mem_cons_of_mem _ hq)]

end MettEagle.Fields
