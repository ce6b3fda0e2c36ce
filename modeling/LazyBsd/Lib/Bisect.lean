/-
# LazyBsd.Lib.Bisect — the first index at which a test fails.

`bisect` halves an interval of indices by a test that may fail to answer (`none`, an index that cannot be
read). If the test is true up to some index of the interval and false from there on, that index is the
result; without that, the result still lies in the interval.
-/
import Mathlib.Tactic.Common

namespace LazyBsd.Lib

/-- The loop `while (l < h)` with the middle of the interval. -/
def bisect (below : Nat → Option Bool) (l h : Nat) : Option Nat :=
  if l < h then
    match below (l + (h - l) / 2) with
    | none => none
    | some true => bisect below (l + (h - l) / 2 + 1) h
    | some false => bisect below l (l + (h - l) / 2)
  else some l
termination_by h - l

variable {below : Nat → Option Bool} {p : Nat → Bool} {l h : Nat}

/-- Every index that is tested lies in the interval, and so does the result. -/
theorem bisect_within (hle : l ≤ h) (hread : ∀ i, l ≤ i → i < h → below i = some (p i)) :
    ∃ r, bisect below l h = some r ∧ l ≤ r ∧ r ≤ h := by
  fun_induction bisect below l h with
  | case1 l h hlt hnone =>
      rw [hread _ (by omega) (by omega)] at hnone
      cases hnone
  | case2 l h hlt htrue ih =>
      obtain ⟨r, hr, hlow, hhigh⟩ := ih (by omega) fun i hl hh => hread i (by omega) hh
      exact ⟨r, hr, by omega, hhigh⟩
  | case3 l h hlt hfalse ih =>
      obtain ⟨r, hr, hlow, hhigh⟩ := ih (by omega) fun i hl hh => hread i hl (by omega)
      exact ⟨r, hr, hlow, by omega⟩
  | case4 l h hge => exact ⟨l, rfl, Nat.le_refl l, hle⟩

/-- **The search finds the place where the test turns**, if it turns once. -/
theorem bisect_spec (hle : l ≤ h) (hread : ∀ i, l ≤ i → i < h → below i = some (p i))
    (hmono : ∀ i j, l ≤ i → i ≤ j → j < h → p j = true → p i = true) :
    ∃ k, bisect below l h = some k ∧ l ≤ k ∧ k ≤ h ∧ (∀ i, l ≤ i → i < k → p i = true) ∧
      ∀ i, k ≤ i → i < h → p i = false := by
  fun_induction bisect below l h with
  | case1 l h hlt hnone =>
      rw [hread _ (by omega) (by omega)] at hnone
      cases hnone
  | case2 l h hlt hbelow ih =>
      rw [hread _ (by omega) (by omega)] at hbelow
      obtain ⟨k, hk, hlow, hhigh, htrue, hfalse⟩ := ih (by omega)
        (fun i hl hh => hread i (by omega) hh) fun i j hi => hmono i j (by omega)
      refine ⟨k, hk, by omega, hhigh, fun i hl hik => ?_, hfalse⟩
      -- the test is true in the middle, so in front of it as well
      rcases Nat.lt_or_ge (l + (h - l) / 2) i with hbehind | hbefore
      · exact htrue i (by omega) hik
      · exact hmono i _ hl hbefore (by omega) (Option.some.inj hbelow)
  | case3 l h hlt hbelow ih =>
      rw [hread _ (by omega) (by omega)] at hbelow
      obtain ⟨k, hk, hlow, hhigh, htrue, hfalse⟩ := ih (by omega)
        (fun i hl hh => hread i hl (by omega)) fun i j hi hij hj => hmono i j hi hij (by omega)
      refine ⟨k, hk, hlow, by omega, htrue, fun i hki hih => ?_⟩
      rcases Nat.lt_or_ge i (l + (h - l) / 2) with hbefore | hbehind
      · exact hfalse i hki hbefore
      · cases hp : p i with
        | false => rfl
        | true =>
            have hmid := hmono _ i (by omega) hbehind hih hp
            rw [Option.some.inj hbelow] at hmid
            cases hmid
  | case4 l h hge => exact ⟨l, rfl, Nat.le_refl l, hle, fun i hl hi => by omega, fun i hl hi => by omega⟩

end LazyBsd.Lib
