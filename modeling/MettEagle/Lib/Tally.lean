/-
# `MettEagle.Lib.Tally` — who did what, and how often

A history is a list of actors with what each of them did, newest last.  `who e` lists
the actors that did `e`, in order.  Two kinds of doings can be compared actor by actor,
and then in total: this is how a number of calls and a number of effects are shown to
agree without summing over the actors.
-/
import Mathlib.Data.List.Count

namespace MettEagle

variable {T E : Type*} [DecidableEq E]

/-- Those who did `e`, in order. -/
def who (e : E) (es : List (T × E)) : List T := (es.filter fun x => x.2 = e).map Prod.fst

theorem who_snoc (e : E) (es : List (T × E)) (x : T × E) :
    who e (es ++ [x]) = who e es ++ if x.2 = e then [x.1] else [] := by
  rw [who, List.filter_append, List.map_append]
  split
  · rename_i h
    simp [who, h]
  · rename_i h
    simp [who, h]

theorem who_snoc_self (es : List (T × E)) (t : T) (e : E) :
    who e (es ++ [(t, e)]) = who e es ++ [t] := by
  rw [who_snoc, if_pos rfl]

theorem who_snoc_of_ne {e e' : E} (h : e' ≠ e) (es : List (T × E)) (t : T) :
    who e (es ++ [(t, e')]) = who e es := by
  rw [who_snoc, if_neg h, List.append_nil]

variable [DecidableEq T]

theorem count_who_snoc_self (es : List (T × E)) (t : T) (e : E) :
    (who e (es ++ [(t, e)])).count t = (who e es).count t + 1 := by
  rw [who_snoc_self, List.count_append, List.count_singleton_self]

/-- Nobody else is on a list more often than before. -/
theorem count_who_snoc_of_ne {t u : T} (h : t ≠ u) (e e' : E) (es : List (T × E)) :
    (who e (es ++ [(t, e')])).count u = (who e es).count u := by
  rw [who_snoc, List.count_append]
  split
  · rw [List.count_singleton, beq_false_of_ne h]
    rfl
  · rfl

/-- A list that nobody is on more often than on another one is not longer. -/
theorem length_le_of_count_le {l l' : List T} (h : ∀ u, l.count u ≤ l'.count u) :
    l.length ≤ l'.length :=
  (List.subperm_ext_iff.mpr fun u _ => h u).length_le

theorem length_eq_of_count_eq {l l' : List T} (h : ∀ u, l.count u = l'.count u) :
    l.length = l'.length :=
  (List.perm_iff_count.mpr h).length_eq

end MettEagle
