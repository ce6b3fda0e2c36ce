/-
# LazyBsd.Lib.Numeral — numerals over an alphabet of digits.

`numeral digit base n` is the numeral of `n` without leading zeros, most significant digit first, with
the characters that `digit` gives; `spelled value base` reads a row of characters back. Nothing is
assumed of the two functions but that `value` undoes `digit` below the base.
-/
import Mathlib.Data.Nat.Digits.Lemmas
import Mathlib.Tactic.Common

namespace LazyBsd.Lib

variable {α : Type*} {digit : Nat → α} {value : α → Nat} {base n k : Nat}

/-- The numeral of `n`; zero has one digit. -/
def numeral (digit : Nat → α) (base n : Nat) : List α :=
  if n = 0 then [digit 0] else ((base.digits n).map digit).reverse

/-- The number that a row of characters spells. -/
def spelled (value : α → Nat) (base : Nat) (ds : List α) : Nat :=
  ds.foldl (fun n c => base * n + value c) 0

/-! ## Reading -/

theorem spelled_append_singleton (ds : List α) (c : α) :
    spelled value base (ds ++ [c]) = base * spelled value base ds + value c := by
  simp only [spelled, List.foldl_append, List.foldl_cons, List.foldl_nil]

/-- Zeros in front do not count. -/
theorem spelled_zeros {c : α} (hc : value c = 0) (m : Nat) (ds : List α) :
    spelled value base (List.replicate m c ++ ds) = spelled value base ds := by
  have hzero : spelled value base (List.replicate m c) = 0 := by
    induction m with
    | zero => rfl
    | succ m ih => rw [List.replicate_succ', spelled_append_singleton, ih, hc, mul_zero]
  rw [spelled, List.foldl_append]
  change List.foldl _ (spelled value base (List.replicate m c)) ds = _
  rw [hzero]
  rfl

/-! ## Writing -/

theorem numeral_of_lt (h : n < base) : numeral digit base n = [digit n] := by
  unfold numeral
  split
  · rename_i hn
    rw [hn]
  · rename_i hn
    rw [Nat.digits_of_lt base n hn h]
    rfl

/-- The last digit is the remainder; in front of it stands the numeral of the quotient. -/
theorem numeral_of_le (hbase : 1 < base) (h : base ≤ n) :
    numeral digit base n = numeral digit base (n / base) ++ [digit (n % base)] := by
  have hn : n ≠ 0 := by omega
  have hq : n / base ≠ 0 := (Nat.div_pos h (by omega)).ne'
  unfold numeral
  rw [if_neg hn, if_neg hq, Nat.digits_def' hbase (by omega), List.map_cons, List.reverse_cons]

theorem numeral_ne_nil (digit : Nat → α) (base n : Nat) : numeral digit base n ≠ [] := by
  unfold numeral
  split
  · simp
  · rename_i hn
    simpa [Nat.digits_eq_nil_iff_eq_zero] using hn

/-- **Round trip**: the numeral spells the number. -/
theorem spelled_numeral (hbase : 1 < base) (hvalue : ∀ d < base, value (digit d) = d) :
    spelled value base (numeral digit base n) = n := by
  induction n using Nat.strong_induction_on with
  | _ n ih =>
    rcases Nat.lt_or_ge n base with hlt | hle
    · rw [numeral_of_lt hlt]
      simp [spelled, hvalue n hlt]
    · rw [numeral_of_le hbase hle, spelled_append_singleton,
        ih (n / base) (Nat.div_lt_self (by omega) hbase), hvalue _ (Nat.mod_lt n (by omega))]
      exact Nat.div_add_mod n base

/-- Two numbers have different numerals. -/
theorem numeral_injective (hbase : 1 < base) (hvalue : ∀ d < base, value (digit d) = d) :
    Function.Injective (numeral digit base) := fun m n h => by
  rw [← spelled_numeral (n := m) hbase hvalue, h, spelled_numeral hbase hvalue]

/-- What stands in a numeral is a digit. -/
theorem mem_numeral (hbase : 1 < base) {c : α} (h : c ∈ numeral digit base n) :
    ∃ d < base, c = digit d := by
  unfold numeral at h
  split at h
  · exact ⟨0, by omega, List.mem_singleton.mp h⟩
  · obtain ⟨d, hd, rfl⟩ := List.mem_map.mp (List.mem_reverse.mp h)
    exact ⟨d, Nat.digits_lt_base hbase hd, rfl⟩

/-- Below `base ^ k` there are at most `k` digits. -/
theorem length_numeral_le (hbase : 1 < base) (hk : 0 < k) (h : n < base ^ k) :
    (numeral digit base n).length ≤ k := by
  unfold numeral
  split
  · exact hk
  · rename_i hn
    rw [List.length_reverse, List.length_map]
    exact (Nat.digits_length_le_iff hbase n).mpr h

/-- The first digit of a number that is not zero. -/
theorem head_numeral (digit : Nat → α) (hbase : 1 < base) (hn : n ≠ 0) :
    ∃ d ds, numeral digit base n = digit d :: ds ∧ d ≠ 0 ∧ d < base := by
  induction n using Nat.strong_induction_on with
  | _ n ih =>
    rcases Nat.lt_or_ge n base with hlt | hle
    · exact ⟨n, [], numeral_of_lt hlt, hn, hlt⟩
    · have hq : n / base ≠ 0 := (Nat.div_pos hle (by omega)).ne'
      obtain ⟨d, ds, hds, hd⟩ := ih (n / base) (Nat.div_lt_self (by omega) hbase) hq
      exact ⟨d, ds ++ [digit (n % base)], by rw [numeral_of_le hbase hle, hds]; rfl, hd⟩

end LazyBsd.Lib
