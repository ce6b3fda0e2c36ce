/-
# LazyBsd.Lib.ExchangeSort — sorting by exchanges in place.

Two loops: for each place of the array, its item is compared with each one behind, and both are exchanged
unless they are in order. A pass of the inner loop leaves a least item at the place and a permutation of the
rest behind it, so that the array is sorted from the front.
-/
import Mathlib.Data.List.Basic

namespace LazyBsd.Lib.ExchangeSort

variable {α : Type*} (le : α → α → Prop) [DecidableRel le]

/-- The inner loop: `x` is the item at the place, and what comes out first stands there in the end. -/
def pass (x : α) : List α → α × List α
  | [] => (x, [])
  | y :: ys =>
      if le x y then
        let r := pass x ys
        (r.1, y :: r.2)
      else
        let r := pass y ys
        (r.1, x :: r.2)

/-- The outer loop, for as many places. -/
def places : Nat → List α → List α
  | n + 1, x :: xs =>
      let r := pass le x xs
      r.1 :: places n r.2
  | _, xs => xs

def exchangeSort (xs : List α) : List α := places le xs.length xs

variable {le}

theorem pass_perm (x : α) (ys : List α) : ((pass le x ys).1 :: (pass le x ys).2).Perm (x :: ys) := by
  induction ys generalizing x with
  | nil => exact .refl _
  | cons y ys ih =>
      rw [pass]
      split
      · exact (List.Perm.swap _ _ _).trans (((ih x).cons y).trans (.swap _ _ _))
      · exact (List.Perm.swap _ _ _).trans ((ih y).cons x)

theorem length_pass (x : α) (ys : List α) : (pass le x ys).2.length = ys.length :=
  Nat.succ.inj (pass_perm x ys).length_eq

theorem places_perm (n : Nat) (xs : List α) : (places le n xs).Perm xs := by
  induction n generalizing xs with
  | zero => exact .refl _
  | succ n ih =>
      cases xs with
      | nil => exact .refl _
      | cons x xs => exact ((ih _).cons _).trans (pass_perm x xs)

/-- Nothing is lost or doubled. -/
theorem exchangeSort_perm (xs : List α) : (exchangeSort le xs).Perm xs := places_perm _ xs

section Order

variable (htotal : ∀ x y, le x y ∨ le y x) (htrans : ∀ x y z, le x y → le y z → le x z)
include htotal htrans

/-- A pass leaves a least item in front. -/
theorem pass_le (x : α) (ys : List α) : ∀ y ∈ x :: ys, le (pass le x ys).1 y := by
  induction ys generalizing x with
  | nil =>
      intro y hy
      rw [List.mem_singleton.mp hy]
      exact or_self_iff.mp (htotal x x)
  | cons z zs ih =>
      intro y hy
      rw [pass]
      split
      · next hxz =>
          have hx := ih x x List.mem_cons_self
          rcases List.mem_cons.mp hy with rfl | hy
          · exact hx
          · rcases List.mem_cons.mp hy with rfl | hy
            · exact htrans _ _ _ hx hxz
            · exact ih x y (List.mem_cons_of_mem _ hy)
      · next hxz =>
          -- `z` is carried on, and it comes before the `x` that it was exchanged with
          have hz := ih z z List.mem_cons_self
          rcases List.mem_cons.mp hy with rfl | hy
          · exact htrans _ _ _ hz ((htotal y z).resolve_left hxz)
          · exact ih z y hy

theorem places_sorted (n : Nat) (xs : List α) (hn : xs.length ≤ n) : (places le n xs).Pairwise le := by
  induction n generalizing xs with
  | zero =>
      rw [List.length_eq_zero_iff.mp (Nat.le_zero.mp hn)]
      exact .nil
  | succ n ih =>
      cases xs with
      | nil => exact .nil
      | cons x xs =>
          have hrest : (pass le x xs).2.length ≤ n := by
            rw [length_pass]
            exact Nat.le_of_succ_le_succ hn
          refine .cons (fun y hy => ?_) (ih _ hrest)
          have hmem : y ∈ (pass le x xs).2 := (places_perm n _).mem_iff.mp hy
          exact pass_le htotal htrans x xs y
            ((pass_perm x xs).mem_iff.mp (List.mem_cons_of_mem _ hmem))

theorem exchangeSort_sorted (xs : List α) : (exchangeSort le xs).Pairwise le :=
  places_sorted htotal htrans _ xs (Nat.le_refl _)

end Order

end LazyBsd.Lib.ExchangeSort
