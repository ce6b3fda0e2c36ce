/-
# LazyBsd.Cred — `groupmember` of `lazybsd_patch.c`.

The first group of a credential is the primary one; the others are searched by halving, which is right
if they are sorted. A read beyond `cr_groups` is `none`.
-/
import Mathlib.Data.List.Basic
import Mathlib.Tactic.IntervalCases
import LazyBsd.Lib.Bisect

namespace LazyBsd.Cred

open LazyBsd.Lib (bisect bisect_within bisect_spec)

/-- `struct ucred`: the groups and how many there are. -/
structure Ucred where
  groups : List Nat
  ngroups : Nat

/-- `groupmember`. -/
def groupmember (gid : Nat) (cred : Ucred) : Option Bool :=
  match cred.groups[0]? with
  | none => none
  | some primary =>
      if primary = gid then some true
      else
        match bisect (fun m => cred.groups[m]?.map fun g => decide (g < gid)) 1 cred.ngroups with
        | none => none
        | some l =>
            if l < cred.ngroups then cred.groups[l]?.map fun g => decide (g = gid)
            else some false

/-- The groups of the credential: the primary one and the supplemental ones. -/
def Member (gid : Nat) (cred : Ucred) : Prop :=
  cred.groups[0]? = some gid ∨ ∃ i, 1 ≤ i ∧ i < cred.ngroups ∧ cred.groups[i]? = some gid

/-- The supplemental groups are sorted. -/
def Sorted (cred : Ucred) : Prop :=
  ∀ i j a b, 1 ≤ i → i ≤ j → j < cred.ngroups → cred.groups[i]? = some a → cred.groups[j]? = some b → a ≤ b

/-- **`groupmember`.** Of a credential whose groups fit, no read leaves them, and an answer of 1 is
right. If the supplemental groups are sorted, the answer is 1 exactly for the groups of the credential. -/
theorem groupmember_spec {cred : Ucred} (hpos : 0 < cred.groups.length)
    (hfit : cred.ngroups ≤ cred.groups.length) (gid : Nat) :
    (∃ b, groupmember gid cred = some b ∧ (b = true → Member gid cred)) ∧
    (Sorted cred → (groupmember gid cred = some true ↔ Member gid cred)) := by
  have hread : ∀ i, 1 ≤ i → i < cred.ngroups →
      (cred.groups[i]?.map fun g => decide (g < gid)) = some (decide (cred.groups.getD i 0 < gid)) := by
    intro i _ hi
    rw [List.getD_eq_getElem?_getD, List.getElem?_eq_getElem (by omega)]
    rfl
  have hfirst : cred.groups[0]? = some cred.groups[0] := List.getElem?_eq_getElem hpos
  by_cases hprimary : cred.groups[0] = gid
  · have hyes : groupmember gid cred = some true := by
      simp only [groupmember, hfirst, if_pos hprimary]
    have hmember : Member gid cred := .inl (by rw [hfirst, hprimary])
    exact ⟨⟨true, hyes, fun _ => hmember⟩, fun _ => iff_of_true hyes hmember⟩
  have hnot : cred.groups[0]? ≠ some gid := by
    rw [hfirst]
    exact fun heq => hprimary (Option.some.inj heq)
  rcases Nat.lt_or_ge cred.ngroups 1 with hnone | hsome
  · -- no group at all: the search is empty
    have hsearch : bisect (fun m => cred.groups[m]?.map fun g => decide (g < gid)) 1 cred.ngroups =
        some 1 := by
      unfold bisect
      rw [if_neg (by omega)]
    have hno : groupmember gid cred = some false := by
      simp only [groupmember, hfirst, if_neg hprimary, hsearch, if_neg (by omega : ¬ 1 < cred.ngroups)]
    refine ⟨⟨false, hno, fun h => absurd h Bool.false_ne_true⟩, fun _ => ?_⟩
    rw [hno]
    refine iff_of_false (by simp) ?_
    rintro (h0 | ⟨i, hi, hlt, -⟩)
    · exact hnot h0
    · omega
  have hanswer {l : Nat} (hl : bisect (fun m => cred.groups[m]?.map fun g => decide (g < gid)) 1
      cred.ngroups = some l) : groupmember gid cred =
        if l < cred.ngroups then cred.groups[l]?.map fun g => decide (g = gid) else some false := by
    simp only [groupmember, hfirst, if_neg hprimary, hl]
  refine ⟨?_, fun hsorted => ?_⟩
  · obtain ⟨l, hl, hlow, -⟩ := bisect_within hsome hread
    rw [hanswer hl]
    split
    · rename_i hin
      rw [List.getElem?_eq_getElem (by omega)]
      refine ⟨_, rfl, fun heq => .inr ⟨l, hlow, hin, ?_⟩⟩
      rw [List.getElem?_eq_getElem (by omega), of_decide_eq_true heq]
    · exact ⟨false, rfl, fun h => absurd h Bool.false_ne_true⟩
  · have hmono : ∀ i j, 1 ≤ i → i ≤ j → j < cred.ngroups → decide (cred.groups.getD j 0 < gid) = true →
        decide (cred.groups.getD i 0 < gid) = true := by
      intro i j hi hij hj hlt
      rw [decide_eq_true_iff, List.getD_eq_getElem?_getD, List.getElem?_eq_getElem (by omega)] at hlt ⊢
      have hle := hsorted i j _ _ hi hij hj (List.getElem?_eq_getElem (by omega))
        (List.getElem?_eq_getElem (by omega))
      exact Nat.lt_of_le_of_lt hle hlt
    obtain ⟨k, hk, hlow, -, hbefore, hbehind⟩ := bisect_spec hsome hread hmono
    rw [hanswer hk]
    constructor
    · intro hyes
      split at hyes
      · rename_i hin
        rw [List.getElem?_eq_getElem (by omega)] at hyes
        refine .inr ⟨k, hlow, hin, ?_⟩
        rw [List.getElem?_eq_getElem (by omega), of_decide_eq_true (Option.some.inj hyes)]
      · cases hyes
    · rintro (h0 | ⟨i, hi, hlt, hgid⟩)
      · exact absurd h0 hnot
      · have hget : cred.groups.getD i 0 = gid := by
          rw [List.getD_eq_getElem?_getD, hgid]
          rfl
        -- the group is not before the place, and the first group there is not above it
        have hki : k ≤ i := by
          by_contra hbefore'
          have hless := hbefore i hi (by omega)
          rw [hget, decide_eq_true_iff] at hless
          exact absurd hless (Nat.lt_irrefl gid)
        have hplace : gid ≤ cred.groups.getD k 0 := by
          have hnotless := hbehind k (Nat.le_refl k) (by omega)
          rw [decide_eq_false_iff_not] at hnotless
          omega
        have hvalue : cred.groups[k]? = some (cred.groups.getD k 0) := by
          rw [List.getD_eq_getElem?_getD, List.getElem?_eq_getElem (by omega)]
          rfl
        have hle := hsorted k i _ _ hlow hki hlt hvalue hgid
        rw [if_pos (by omega), hvalue]
        simp only [Option.map_some, Option.some.injEq, decide_eq_true_eq]
        omega

/-- Group 20 of a credential with the groups 0, 5, 20 and 31. -/
theorem groupmember_spec_four : groupmember 20 ⟨[0, 5, 20, 31], 4⟩ = some true := by
  refine ((@groupmember_spec ⟨[0, 5, 20, 31], 4⟩ (by decide) (by decide) 20).2 ?_).mpr
    (.inr ⟨2, by decide, by decide, rfl⟩)
  intro i j a b hi hij hj ha hb
  dsimp only at hj ha hb
  interval_cases j <;> interval_cases i <;> simp only [List.getElem?_cons_succ, List.getElem?_cons_zero,
    Option.some.injEq] at ha hb <;> omega

end LazyBsd.Cred
