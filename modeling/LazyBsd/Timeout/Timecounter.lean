/-
# LazyBsd.Timeout.Timecounter — `lazybsd_tc_get_timecount` of `lazybsd_kern_timeout.c`.

The counter is the reading of the clock in nanoseconds, times the frequency, divided by 10^9 and cut to the
32 bits of the mask. The product is taken in 64 bits: the counter is exact as long as it does not wrap. When
it wraps the counter is wrong, for every frequency up to a million: the multiples of 2^64 that are lost
would have to be multiples of 2^32 * 10^9, and the first of these is 5^9 * 2^64.
-/
import Mathlib.Algebra.Group.Nat.Defs
import Mathlib.Data.Nat.GCD.Basic

namespace LazyBsd.Timeout

/-- `lazybsd_NSEC_PER_SEC`. -/
def nsecPerSec : UInt64 := 1000 * 1000 * 1000

/-- `lazybsd_tc_get_timecount` with the frequency that `lazybsd_tc_init` stores, at the reading `ns` of
`lazybsd_get_tsc_ns`. -/
def lazybsdTcGetTimecount (tcFrequency ns : UInt64) : UInt32 := (ns * tcFrequency / nsecPerSec).toUInt32

/-- The ticks of a reading, the product taken exactly. -/
def exactCount (hz ns : UInt64) : Nat := ns.toNat * hz.toNat / 1000000000

/-- The counter does not jump between two readings: it is exact at both, so it advances by the difference. -/
structure NeverJumps (hz ns₁ ns₂ : UInt64) : Prop where
  first : (lazybsdTcGetTimecount hz ns₁).toNat = exactCount hz ns₁ % 2 ^ 32
  second : (lazybsdTcGetTimecount hz ns₂).toNat = exactCount hz ns₂ % 2 ^ 32
  advance : (lazybsdTcGetTimecount hz ns₂ - lazybsdTcGetTimecount hz ns₁).toNat =
    (exactCount hz ns₂ - exactCount hz ns₁) % 2 ^ 32

theorem timecount_toNat (hz ns : UInt64) :
    (lazybsdTcGetTimecount hz ns).toNat = ns.toNat * hz.toNat % 2 ^ 64 / 1000000000 % 2 ^ 32 := by
  unfold lazybsdTcGetTimecount
  rw [UInt64.toNat_toUInt32, UInt64.toNat_div, UInt64.toNat_mul]
  rfl

/-- **A wrap is seen.** Of fewer than 5^9 wraps of the product, none leaves the quotient modulo 2^32 as it
was. -/
theorem eq_zero_of_quotient_eq {q r : Nat} (hq : q < 5 ^ 9)
    (h : r / 1000000000 % 2 ^ 32 = (q * 2 ^ 64 + r) / 1000000000 % 2 ^ 32) : q = 0 := by
  have hle : r / 1000000000 ≤ (q * 2 ^ 64 + r) / 1000000000 := Nat.div_le_div_right (Nat.le_add_left _ _)
  -- the quotients differ by a multiple of 2^32
  obtain ⟨k, hk⟩ : ∃ k, (q * 2 ^ 64 + r) / 1000000000 = r / 1000000000 + 2 ^ 32 * k := by
    generalize r / 1000000000 = a at hle h
    generalize (q * 2 ^ 64 + r) / 1000000000 = b at hle h
    exact ⟨(b - a) / 2 ^ 32, by omega⟩
  have hr₁ := Nat.div_add_mod r 1000000000
  have hr₂ := Nat.mod_lt r (show 0 < 1000000000 by omega)
  have hp₁ := Nat.div_add_mod (q * 2 ^ 64 + r) 1000000000
  have hp₂ := Nat.mod_lt (q * 2 ^ 64 + r) (show 0 < 1000000000 by omega)
  rw [hk] at hp₁
  -- a multiple of 2^41 that is smaller than 10^9 is zero
  have hmul : q * 2 ^ 23 = k * 5 ^ 9 := by omega
  have hdvd : 5 ^ 9 ∣ q * 2 ^ 23 := Dvd.intro_left k hmul.symm
  have hcoprime : Nat.Coprime (5 ^ 9) (2 ^ 23) := Nat.Coprime.pow 9 23 (by decide)
  exact Nat.eq_zero_of_dvd_of_lt (hcoprime.dvd_of_dvd_mul_right hdvd) hq

/-- The counter is exact when the product does not wrap, and at no other reading. -/
theorem timecount_exact_iff {hz ns : UInt64} (hhz : hz.toNat ≤ 1000000) :
    (lazybsdTcGetTimecount hz ns).toNat = exactCount hz ns % 2 ^ 32 ↔ ns.toNat * hz.toNat < 2 ^ 64 := by
  have hns : ns.toNat < 2 ^ 64 := ns.toNat_lt
  have hprod : ns.toNat * hz.toNat ≤ ns.toNat * 1000000 := Nat.mul_le_mul_left _ hhz
  rw [timecount_toNat, exactCount]
  generalize ns.toNat * hz.toNat = p at hprod
  constructor
  · intro h
    have hsplit : p / 2 ^ 64 * 2 ^ 64 + p % 2 ^ 64 = p := Nat.div_add_mod' p (2 ^ 64)
    have hzero : p / 2 ^ 64 = 0 := by
      apply eq_zero_of_quotient_eq (r := p % 2 ^ 64) (by omega)
      rw [hsplit]
      exact h
    omega
  · intro h
    rw [Nat.mod_eq_of_lt h]

/-- **The timecounter.** Between two readings it does not jump exactly when the product of the later one and
the frequency fits 64 bits. -/
theorem timecounter_never_jumps_iff {hz ns₁ ns₂ : UInt64} (hhz : 1 ≤ hz.toNat ∧ hz.toNat ≤ 1000000)
    (hle : ns₁ ≤ ns₂) : NeverJumps hz ns₁ ns₂ ↔ ns₂.toNat * hz.toNat < 2 ^ 64 := by
  constructor
  · intro h
    exact (timecount_exact_iff hhz.2).mp h.second
  · intro h
    have hmul : ns₁.toNat * hz.toNat ≤ ns₂.toNat * hz.toNat :=
      Nat.mul_le_mul_right _ (UInt64.le_iff_toNat_le.mp hle)
    have hfirst := (timecount_exact_iff hhz.2).mpr (Nat.lt_of_le_of_lt hmul h)
    have hsecond := (timecount_exact_iff hhz.2).mpr h
    have hcount : exactCount hz ns₁ ≤ exactCount hz ns₂ := Nat.div_le_div_right hmul
    refine ⟨hfirst, hsecond, ?_⟩
    rw [UInt32.toNat_sub, hfirst, hsecond]
    omega

/-- An hour apart at 100 ticks a second. -/
theorem timecounter_never_jumps_hour : NeverJumps 100 5 3600000000005 :=
  (timecounter_never_jumps_iff (by decide) (by decide)).mpr (by decide)

/-- With 100 ticks a second the product wraps after 184467440737095517 ns, somewhat less than six years: the
counter is back at 0. -/
theorem timecounter_wraps :
    ¬ ∀ hz ns₁ ns₂ : UInt64, 1 ≤ hz.toNat ∧ hz.toNat ≤ 1000000 → ns₁ ≤ ns₂ → NeverJumps hz ns₁ ns₂ := by
  intro h
  have hjump := (h 100 0 184467440737095517 (by decide) (by decide)).second
  exact absurd hjump (by decide)

end LazyBsd.Timeout
