/-
# LazyBsd.Lib.Buckets — a family of lists that holds each item at most once.

`Buckets w place` says that the lists `w` hold exactly the items that `place` puts somewhere, each one
once and in the list it is placed in. A removal and an insertion at the head keep it, with the item's
place updated.
-/
import Mathlib.Data.List.Nodup
import Mathlib.Logic.Function.Basic

namespace LazyBsd.Lib

variable {β ι : Type*}

/-- The lists `w` hold each item where `place` says, and only once. -/
structure Buckets (w : β → List ι) (place : ι → Option β) : Prop where
  nodup : ∀ b, (w b).Nodup
  mem_iff : ∀ x b, x ∈ w b ↔ place x = some b

namespace Buckets

variable {w : β → List ι} {place : ι → Option β} {x : ι}

theorem empty (h : ∀ b, w b = []) : Buckets w (fun _ : ι => none) where
  nodup b := by rw [h b]; exact List.nodup_nil
  mem_iff x b := by simp [h b]

theorem not_mem (h : Buckets w place) (hx : place x = none) (b : β) : x ∉ w b := by
  simp [h.mem_iff, hx]

variable [DecidableEq ι]

/-- An item leaves the list it is in. -/
theorem erase (h : Buckets w place) (x : ι) :
    Buckets (fun b => (w b).erase x) (Function.update place x none) where
  nodup b := (h.nodup b).erase x
  mem_iff y b := by
    rw [(h.nodup b).mem_erase_iff, h.mem_iff]
    by_cases hy : y = x
    · simp [hy]
    · simp [hy]

/-- An item that is nowhere goes to the head of a list. -/
theorem insert [DecidableEq β] (h : Buckets w place) (hx : place x = none) (b : β) :
    Buckets (Function.update w b (x :: w b)) (Function.update place x (some b)) where
  nodup b' := by
    by_cases hb : b' = b
    · rw [hb, Function.update_self]
      exact List.nodup_cons.mpr ⟨h.not_mem hx b, h.nodup b⟩
    · rw [Function.update_of_ne hb]
      exact h.nodup b'
  mem_iff y b' := by
    by_cases hb : b' = b
    · by_cases hy : y = x
      · simp [hb, hy]
      · simp [hb, hy, h.mem_iff]
    · by_cases hy : y = x
      · rw [Function.update_of_ne hb, hy, Function.update_self]
        simp [h.not_mem hx b', Ne.symm hb]
      · rw [Function.update_of_ne hb, Function.update_of_ne hy, h.mem_iff]

end Buckets

end LazyBsd.Lib
