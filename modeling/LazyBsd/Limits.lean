/-
# LazyBsd.Limits — the resources charged to a user in `lazybsd_patch.c`.

`chglimit` adds a difference to a counter and takes it back if the sum is above the limit. `chgsbsize`
charges a socket buffer: the difference between its new and its old size goes to `ui_sbsize`. The sizes
are 32-bit and unsigned, the difference is an `int`, the counter a `long`.

A run has any number of buffers of one user. The counter is the sum of their sizes as long as no buffer
changes by 2 GiB at once, and then a limit that is not exceeded stays so (`charges_add_up`).
-/
import Mathlib.Algebra.BigOperators.Fin
import Mathlib.Algebra.Order.BigOperators.Group.Finset
import LazyBsd.Lib.Run

namespace LazyBsd.Limits

open Lib

/-! ## The code -/

/-- A value as a `long`, as an `unsigned long` and as an `int`. -/
def long (v : Int) : Int := v.bmod 0x10000000000000000
def ulong (v : Int) : Int := v % 0x10000000000000000
def int (v : Int) : Int := v.bmod 0x100000000

/-- `struct uidinfo`: the counter of socket buffers. -/
structure Uidinfo where
  sbsize : Int

/-- `chglimit`: the counter, and whether the change is allowed. `atomic_fetchadd_long` returns an
`unsigned long`, so the sum and the limit are compared as such. -/
def chglimit (limit diff max : Int) : Int × Bool :=
  if 0 < diff ∧ max ≠ 0 then
    let sum := long (limit + diff)
    if ulong max < ulong sum then (long (sum - diff), false) else (sum, true)
  else (long (limit + diff), true)

/-- `chgsbsize`, with the new size `size`: the user, `*hiwat`, and whether the change is allowed. -/
def chgsbsize (uip : Uidinfo) (hiwat size : Nat) (max : Int) : Uidinfo × Nat × Bool :=
  let diff := int (size - hiwat)
  if 0 < diff ∧ max = 0 then (uip, hiwat, false)
  else
    let r := chglimit uip.sbsize diff max
    ({ uip with sbsize := r.1 }, if r.2 then size else hiwat, r.2)

/-! ## One change -/

variable {limit diff max : Int}

theorem long_of_fits (hlow : -0x8000000000000000 ≤ limit) (hhigh : limit < 0x8000000000000000) :
    long limit = limit :=
  Int.bmod_eq_of_le (by omega) (by omega)

/-- The range of an `int`, and which values it has unchanged. -/
theorem int_spec (v : Int) : -0x80000000 ≤ int v ∧ int v < 0x80000000 ∧
    (int v = v ↔ -0x80000000 ≤ v ∧ v < 0x80000000) := by
  rw [int, Int.bmod_def]
  split <;> omega

/-- **`chglimit`** on counters and differences that a `long` holds: a change is refused when the sum would
be above a limit that is not zero, and then the counter is what it was. -/
theorem chglimit_eq (hlow : 0 ≤ limit) (hhigh : limit < 0x4000000000000000)
    (hdiff : -0x4000000000000000 ≤ diff ∧ diff < 0x4000000000000000) :
    chglimit limit diff max =
      if 0 < diff ∧ max ≠ 0 ∧ ulong max < limit + diff then (limit, false)
      else (limit + diff, true) := by
  have hsum : long (limit + diff) = limit + diff := long_of_fits (by omega) (by omega)
  have hback : long (limit + diff - diff) = limit := by
    rw [Int.add_sub_cancel]
    exact long_of_fits (by omega) (by omega)
  unfold chglimit
  dsimp only
  rw [hsum, hback]
  by_cases hmore : 0 < diff ∧ max ≠ 0
  · have hunsigned : ulong (limit + diff) = limit + diff := Int.emod_eq_of_lt (by omega) (by omega)
    rw [if_pos hmore, hunsigned]
    by_cases hmax : ulong max < limit + diff
    · rw [if_pos hmax, if_pos ⟨hmore.1, hmore.2, hmax⟩]
    · rw [if_neg hmax, if_neg fun hall => hmax hall.2.2]
  · rw [if_neg hmore, if_neg fun hall => hmore ⟨hall.1, hall.2.1⟩]

/-! ## Runs -/

/-- A user and the sizes of the buffers. -/
structure World (ι : Type*) where
  uip : Uidinfo
  hiwat : ι → Nat

variable {ι : Type*} [DecidableEq ι]

/-- `chgsbsize` for the buffer `i`. The new size is unsigned. -/
def step (s : World ι) (a : ι × Nat × Int) : Option (World ι) :=
  if a.2.1 < 0x100000000 then
    let r := chgsbsize s.uip (s.hiwat a.1) a.2.1 a.2.2
    some ⟨r.1, Function.update s.hiwat a.1 r.2.1⟩
  else none

/-- No buffer yet. -/
def World.init (uip : Uidinfo) : World ι := ⟨{ uip with sbsize := 0 }, fun _ => 0⟩

/-- The change is refused: it is an increase, by the difference as an `int`, and the limit is zero or, as
an unsigned number, too small for it. -/
def Refused (s : World ι) (a : ι × Nat × Int) : Prop :=
  0 < int (a.2.1 - s.hiwat a.1) ∧
    (a.2.2 = 0 ∨ ulong a.2.2 < s.uip.sbsize + int (a.2.1 - s.hiwat a.1))

/-- The difference of the sizes is an `int`. -/
def Small (s : World ι) (a : ι × Nat × Int) : Prop :=
  -0x80000000 ≤ (a.2.1 : Int) - s.hiwat a.1 ∧ (a.2.1 : Int) - s.hiwat a.1 < 0x80000000

instance (s : World ι) (a : ι × Nat × Int) : Decidable (Small s a) :=
  inferInstanceAs (Decidable (_ ∧ _))

/-- The sizes are unsigned. -/
def Sizes (s : World ι) : Prop := ∀ i, s.hiwat i < 0x100000000

variable [Fintype ι]

/-- The counter is the sum of the sizes. -/
def Exact (s : World ι) : Prop := s.uip.sbsize = ∑ i, (s.hiwat i : Int)

variable {s s' : World ι} {a : ι × Nat × Int}

omit [Fintype ι] in
theorem Sizes.step (h : Sizes s) (hs : step s a = some s') : Sizes s' := by
  unfold Limits.step at hs
  split at hs
  swap
  · cases hs
  rename_i hto
  obtain rfl := Option.some.inj hs
  intro i
  by_cases hi : i = a.1
  · subst hi
    dsimp only
    rw [Function.update_self]
    have hold := h a.1
    unfold chgsbsize
    dsimp only
    split_ifs <;> assumption
  · dsimp only
    rw [Function.update_of_ne hi]
    exact h i

omit [DecidableEq ι] in
/-- The sum of the sizes is far below what the counter holds. -/
theorem Sizes.sum_lt (h : Sizes s) (hcard : Fintype.card ι < 0x40000000) :
    0 ≤ ∑ i, (s.hiwat i : Int) ∧ ∑ i, (s.hiwat i : Int) < 0x4000000000000000 := by
  refine ⟨Finset.sum_nonneg fun i _ => Int.natCast_nonneg _, ?_⟩
  have hbound : ∑ i, (s.hiwat i : Int) ≤ ∑ _i : ι, (0xFFFFFFFF : Int) :=
    Finset.sum_le_sum fun i _ => by have := h i; omega
  rw [Finset.sum_const, Finset.card_univ, nsmul_eq_mul] at hbound
  have hmul : (Fintype.card ι : Int) * 0xFFFFFFFF ≤ 0x40000000 * 0xFFFFFFFF :=
    Int.mul_le_mul_of_nonneg_right (by omega) (by decide)
  omega

/-- The sum after a change of one size. -/
theorem sum_update (f : ι → Nat) (i : ι) (size : Nat) :
    ∑ j, (Function.update f i size j : Int) = ∑ j, (f j : Int) + (size - f i) := by
  rw [← Finset.add_sum_erase _ _ (Finset.mem_univ i), ← Finset.add_sum_erase _ _ (Finset.mem_univ i),
    Function.update_self]
  have hrest : ∑ j ∈ Finset.univ.erase i, (Function.update f i size j : Int) =
      ∑ j ∈ Finset.univ.erase i, (f j : Int) :=
    Finset.sum_congr rfl fun j hj => by rw [Function.update_of_ne (Finset.ne_of_mem_erase hj)]
  rw [hrest]
  omega

omit [Fintype ι] in
/-- What a change does, with the difference as an `int`. -/
theorem step_cases {i : ι} {size : Nat} {max : Int} (hcounter : 0 ≤ s.uip.sbsize ∧
    s.uip.sbsize < 0x4000000000000000) (hs : step s (i, size, max) = some s') :
    (Refused s (i, size, max) ∧ s' = s) ∨
      (¬ Refused s (i, size, max) ∧
        s' = ⟨{ s.uip with sbsize := s.uip.sbsize + int (size - s.hiwat i) },
          Function.update s.hiwat i size⟩) := by
  obtain ⟨hlow, hhigh⟩ := hcounter
  unfold step at hs
  split at hs
  swap
  · cases hs
  obtain rfl := Option.some.inj hs
  unfold Refused chgsbsize
  dsimp only
  generalize hd : int ((size : Int) - s.hiwat i) = d
  obtain ⟨hdlow, hdhigh, -⟩ := int_spec ((size : Int) - s.hiwat i)
  rw [hd] at hdlow hdhigh
  have hsame : Function.update s.hiwat i (s.hiwat i) = s.hiwat := Function.update_eq_self i s.hiwat
  by_cases hzero : 0 < d ∧ max = 0
  · rw [if_pos hzero]
    exact .inl ⟨⟨hzero.1, .inl hzero.2⟩, by rw [hsame]⟩
  · rw [if_neg hzero, chglimit_eq (by omega) (by omega) ⟨by omega, by omega⟩]
    by_cases hmax : 0 < d ∧ max ≠ 0 ∧ ulong max < s.uip.sbsize + d
    · rw [if_pos hmax]
      dsimp only
      rw [if_neg Bool.false_ne_true, hsame]
      exact .inl ⟨⟨hmax.1, .inr hmax.2.2⟩, rfl⟩
    · rw [if_neg hmax]
      exact .inr ⟨by omega, rfl⟩

/-- **One change** of a counter that is exact. -/
theorem step_exact (hcard : Fintype.card ι < 0x40000000) (hsizes : Sizes s) (hexact : Exact s)
    (hs : step s a = some s') :
    (Exact s' ↔ Refused s a ∨ Small s a) ∧
      (0 < a.2.2 → s'.uip.sbsize ≤ s.uip.sbsize ∨ s'.uip.sbsize ≤ a.2.2) := by
  obtain ⟨i, size, max⟩ := a
  have hsum := hsizes.sum_lt hcard
  rw [← hexact] at hsum
  have hold := hsizes i
  have hnew : size < 0x100000000 := by
    unfold step at hs
    split at hs
    · assumption
    · cases hs
  rcases step_cases hsum hs with ⟨hrefused, rfl⟩ | ⟨haccepted, rfl⟩
  · exact ⟨iff_of_true hexact (.inl hrefused), fun _ => .inl le_rfl⟩
  · have hdiff : int ((size : Int) - s.hiwat i) = (size : Int) - s.hiwat i ↔ Small s (i, size, max) :=
      (int_spec _).2.2
    refine ⟨?_, fun hmax => ?_⟩
    · unfold Exact
      dsimp only
      rw [sum_update, ← hexact, or_iff_right haccepted, ← hdiff]
      exact Int.add_right_inj _
    · have hunsigned : ulong max ≤ max := by
        unfold ulong
        dsimp only at hmax
        omega
      unfold Refused at haccepted
      dsimp only at haccepted hmax ⊢
      omega

/-- **The charges add up.** In every run of changes of a user's buffers, the counter is the sum of their
sizes in all states exactly when every change that is not refused is by less than 2 GiB. If all changes
are, and have one limit, the sum never exceeds it. -/
theorem charges_add_up {uip : Uidinfo} {ts : List (Transition (World ι) (ι × Nat × Int))}
    (hcard : Fintype.card ι < 0x40000000) (h : Run step (World.init uip) ts s) :
    ((∀ tr ∈ ts, Exact tr.after) ↔ ∀ tr ∈ ts, Refused tr.before tr.act ∨ Small tr.before tr.act) ∧
      ∀ max, 0 < max → (∀ tr ∈ ts, tr.act.2.2 = max ∧ Small tr.before tr.act) →
        ∑ i, (s.hiwat i : Int) ≤ max := by
  have hinit : Sizes (World.init uip : World ι) ∧ Exact (World.init uip : World ι) :=
    ⟨fun _ => Nat.zero_lt_succ _, by simp [Exact, World.init]⟩
  refine ⟨(h.forall_iff (I := Sizes) (fun hI hs => hI.step hs)
    (fun hI hP hs => (step_exact hcard hI hP hs).1) hinit.1 hinit.2).1, fun max hmax hall => ?_⟩
  obtain ⟨⟨-, hexact, hle⟩, -⟩ := h.guarded
    (I := fun s => Sizes s ∧ Exact s ∧ s.uip.sbsize ≤ max)
    (C := fun s a => a.2.2 = max ∧ Small s a) (Q := fun _ => True)
    (fun ⟨hI, hP, hle⟩ ⟨hlimit, hsmall⟩ hs => by
      obtain ⟨hiff, hbound⟩ := step_exact hcard hI hP hs
      rw [hlimit] at hbound
      refine ⟨⟨hI.step hs, hiff.mpr (.inr hsmall), ?_⟩, trivial⟩
      rcases hbound hmax with hless | hless <;> omega)
    ⟨hinit.1, hinit.2, by show (0 : Int) ≤ max; omega⟩ hall
  rw [← hexact]
  exact hle

/-- Two buffers of 64 KiB under a limit of 100000: the second one is refused. -/
theorem charges_add_up_refused :
    ∃ r, exec step (World.init ⟨0⟩ : World (Fin 2))
        [(0, 65536, 100000), (1, 65536, 100000)] = some r ∧
      r.2.uip.sbsize = 65536 ∧ ∑ i, (r.2.hiwat i : Int) ≤ 100000 := by
  obtain ⟨r, hr⟩ := Option.isSome_iff_exists.mp (by decide +kernel :
    (exec step (World.init ⟨0⟩ : World (Fin 2))
      [(0, 65536, 100000), (1, 65536, 100000)]).isSome = true)
  have hcharged : (exec step (World.init ⟨0⟩ : World (Fin 2))
      [(0, 65536, 100000), (1, 65536, 100000)]).map (fun r => r.2.uip.sbsize) = some 65536 := by
    decide +kernel
  have hall : (exec step (World.init ⟨0⟩ : World (Fin 2))
      [(0, 65536, 100000), (1, 65536, 100000)]).map (fun r =>
        r.1.all fun tr => decide (tr.act.2.2 = 100000 ∧ Small tr.before tr.act)) = some true := by
    decide +kernel
  rw [hr] at hcharged hall
  have hsmall := List.all_eq_true.mp (Option.some.inj hall)
  exact ⟨r, hr, Option.some.inj hcharged, (charges_add_up (by decide) (Run.of_exec hr)).2 100000 (by decide)
    fun tr htr => of_decide_eq_true (hsmall tr htr)⟩

end LazyBsd.Limits
