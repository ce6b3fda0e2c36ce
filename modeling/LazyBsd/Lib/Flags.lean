/-
# LazyBsd.Lib.Flags — flag words under a mask.

A word of flags is read through a mask: `a &&& m`. Setting flags outside the mask is not seen through
it, and two sets of flags inside a mask that a word did not touch can be told apart in the word.
-/
import Mathlib.Init

namespace LazyBsd.Lib

variable {a b m : UInt64}

theorem or_and_mask (a b m : UInt64) : (a ||| b) &&& m = (a &&& m) ||| (b &&& m) := by
  apply UInt64.toBitVec_inj.mp
  simp only [UInt64.toBitVec_and, UInt64.toBitVec_or]
  exact BitVec.and_or_distrib_right

/-- Flags outside the mask. -/
theorem or_and_of_outside (hb : b &&& m = 0) : (a ||| b) &&& m = a &&& m := by
  rw [or_and_mask, hb, UInt64.or_zero]

/-- Flags inside a mask that the word has not touched. -/
theorem or_and_of_inside (ha : a &&& m = 0) (hb : b &&& m = b) : (a ||| b) &&& m = b := by
  rw [or_and_mask, ha, hb, UInt64.zero_or]

/-- Two sets of flags inside the mask. -/
theorem or_eq_or_iff {c : UInt64} (ha : a &&& m = 0) (hb : b &&& m = b) (hc : c &&& m = c) :
    a ||| b = a ||| c ↔ b = c := by
  constructor
  · intro h
    rw [← or_and_of_inside ha hb, ← or_and_of_inside ha hc, h]
  · rintro rfl
    rfl

end LazyBsd.Lib
