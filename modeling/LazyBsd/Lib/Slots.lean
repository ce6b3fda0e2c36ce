/-
# LazyBsd.Lib.Slots — counting tokens held in tables of slots.

A table of slots is a function `f : ℕ → Option ι`: slot `i` holds a token or is empty. `slots f n` is
the list of tokens in the first `n` slots. Ownership arguments count tokens: what a store to a slot
gains and loses, and what a family of tables gains and loses when one member changes. The laws are
stated with sums on both sides instead of subtractions.
-/
import Mathlib.Algebra.BigOperators.Group.Finset.Basic
import Mathlib.Algebra.BigOperators.Group.Finset.Piecewise
import Mathlib.Data.Fintype.BigOperators

namespace LazyBsd.Lib

variable {ι κ : Type*}

/-- The tokens in the first `n` slots, in slot order. -/
def slots (f : Nat → Option ι) (n : Nat) : List ι := (List.range n).filterMap f

variable {f g : Nat → Option ι} {n i : Nat}

@[simp] theorem slots_zero : slots f 0 = [] := rfl

theorem slots_succ : slots f (n + 1) = slots f n ++ (f n).toList := by
  simp only [slots, List.range_succ, List.filterMap_append]
  cases hn : f n <;> simp [hn]

theorem slots_congr (h : ∀ i < n, f i = g i) : slots f n = slots g n := by
  refine List.filterMap_congr ?_
  intro i hi
  exact h i (List.mem_range.mp hi)

/-- A store outside the counted slots is not seen. -/
theorem slots_update_of_le (h : n ≤ i) (v : Option ι) :
    slots (Function.update f i v) n = slots f n := by
  refine slots_congr ?_
  intro j hj
  have hne : j ≠ i := by omega
  exact Function.update_of_ne hne _ _

variable [DecidableEq ι]

/-- A store to a counted slot exchanges the old token for the new one. -/
theorem count_slots_update (h : i < n) (v : Option ι) (x : ι) :
    (slots (Function.update f i v) n).count x + (f i).toList.count x =
      (slots f n).count x + v.toList.count x := by
  induction n with
  | zero => omega
  | succ n ih =>
      rw [slots_succ, slots_succ, List.count_append, List.count_append]
      rcases Nat.lt_succ_iff_lt_or_eq.mp h with hlt | rfl
      · have hne : n ≠ i := by omega
        have hih := ih hlt
        rw [Function.update_of_ne hne]
        omega
      · rw [Function.update_self, slots_update_of_le (Nat.le_refl i)]
        omega

/-- A table and a rest of the indices split by an index split what they hold. -/
theorem count_filterMap_range_add (f : Nat → Option ι) (a b : Nat) (x : ι) :
    ((List.range a).filterMap f).count x + ((List.range' a b).filterMap f).count x =
      (slots f (a + b)).count x := by
  rw [slots, List.range_eq_range' (n := a + b), List.range_eq_range' (n := a),
    ← List.range'_append_1, List.filterMap_append, List.count_append, Nat.zero_add]

/-! ## One member of a family changes -/

section Family

variable [Fintype κ] [DecidableEq κ]

/-- Two families of counts that differ at `p` only have sums that differ by that member. -/
theorem sum_add_of_eq_off {a b : κ → Nat} {p : κ} (h : ∀ q, q ≠ p → a q = b q) :
    (∑ q, a q) + b p = (∑ q, b q) + a p := by
  rw [← Finset.add_sum_erase _ a (Finset.mem_univ p), ← Finset.add_sum_erase _ b (Finset.mem_univ p)]
  have hrest : ∑ q ∈ Finset.univ.erase p, a q = ∑ q ∈ Finset.univ.erase p, b q :=
    Finset.sum_congr rfl fun q hq => h q (Finset.ne_of_mem_erase hq)
  omega

end Family

end LazyBsd.Lib
