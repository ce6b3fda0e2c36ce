/-
# LazyBsd.Lib.Table — tables of fixed size that are filled from the front.

`tableOf z l` is the table of `n` cells whose first cells hold the list `l`, in order, and whose other
cells hold `z`. Storing a value in the first free cell appends it to the list, as long as the table has
one. So a loop that stores what it finds at a running index keeps the equation `table = tableOf z found`.
-/
import Mathlib.Data.List.GetD

namespace LazyBsd.Lib

variable {α : Type*} {n : Nat}

/-- The table whose first cells hold `l` and whose other cells hold `z`. -/
def tableOf (n : Nat) (z : α) (l : List α) : Vector α n := Vector.ofFn fun i => l.getD i z

variable {z a : α} {l : List α} {i : Nat}

@[simp] theorem getElem_tableOf (h : i < n) : (tableOf n z l)[i] = l.getD i z := by
  simp [tableOf]

@[simp] theorem tableOf_nil : tableOf n z [] = Vector.replicate n z := by
  ext i h
  simp

/-- A store to the first free cell appends. -/
theorem set_tableOf (h : l.length < n) : (tableOf n z l).set l.length a h = tableOf n z (l ++ [a]) := by
  ext i hi
  rw [Vector.getElem_set, getElem_tableOf, getElem_tableOf]
  rcases Nat.lt_trichotomy l.length i with hlt | rfl | hgt
  · have hold : l.getD i z = z := List.getD_eq_default _ _ (Nat.le_of_lt hlt)
    have hnew : (l ++ [a]).getD i z = z := List.getD_eq_default _ _ (by simp; omega)
    rw [if_neg (Nat.ne_of_lt hlt), hold, hnew]
  · simp
  · rw [if_neg (Nat.ne_of_gt hgt), List.getD_append _ _ _ _ hgt]

end LazyBsd.Lib
