/-
# LazyBsd.Lib.LittleEndian — numbers as rows of bytes, low byte first.

`le k n` are the low `k` bytes of `n`; reading them back gives `n` modulo `256 ^ k`, so that numbers of
`k` bytes with the same row are the same.
-/
import Mathlib.Algebra.Group.Nat.Defs
import Mathlib.Data.Nat.Notation

namespace LazyBsd.Lib.LittleEndian

/-- The low `k` bytes of `n`. -/
def le : Nat → Nat → List UInt8
  | 0, _ => []
  | k + 1, n => UInt8.ofNat n :: le k (n / 256)

/-- The number in a row of bytes. -/
def ofLe : List UInt8 → Nat
  | [] => 0
  | b :: bs => b.toNat + 256 * ofLe bs

variable {k m n : Nat}

@[simp] theorem length_le (k n : Nat) : (le k n).length = k := by
  induction k generalizing n with
  | zero => rfl
  | succ k ih => rw [le, List.length_cons, ih]

theorem ofLe_le (k n : Nat) : ofLe (le k n) = n % 256 ^ k := by
  induction k generalizing n with
  | zero =>
      rw [Nat.pow_zero, Nat.mod_one]
      rfl
  | succ k ih =>
      have hlow : (UInt8.ofNat n).toNat = n % 256 := UInt8.toNat_ofNat'
      rw [le, ofLe, ih, hlow, Nat.pow_succ, Nat.mul_comm (256 ^ k), Nat.mod_mul]

/-- Numbers of `k` bytes are told apart by them. -/
theorem le_inj (hm : m < 256 ^ k) (hn : n < 256 ^ k) (h : le k m = le k n) : m = n := by
  have hread := congrArg ofLe h
  rwa [ofLe_le, ofLe_le, Nat.mod_eq_of_lt hm, Nat.mod_eq_of_lt hn] at hread

/-- A row of bytes is that of its number. -/
theorem le_ofLe (bs : List UInt8) : le bs.length (ofLe bs) = bs := by
  induction bs with
  | nil => rfl
  | cons b bs ih =>
      have hb : b.toNat < 256 := b.toNat_lt
      have hlow : UInt8.ofNat (b.toNat + 256 * ofLe bs) = b := by
        apply UInt8.toNat_inj.mp
        rw [UInt8.toNat_ofNat']
        omega
      have hrest : (b.toNat + 256 * ofLe bs) / 256 = ofLe bs := by omega
      rw [ofLe, List.length_cons, le, hlow, hrest, ih]

/-- Only the low bytes are taken. -/
theorem le_mod (k n : Nat) : le k (n % 256 ^ k) = le k n := by
  have hrow := le_ofLe (le k n)
  rwa [length_le, ofLe_le] at hrow

theorem ofLe_lt (bs : List UInt8) : ofLe bs < 256 ^ bs.length := by
  have hmod := ofLe_le bs.length (ofLe bs)
  rw [le_ofLe] at hmod
  rw [hmod]
  exact Nat.mod_lt _ (Nat.pow_pos (by decide))

end LazyBsd.Lib.LittleEndian
