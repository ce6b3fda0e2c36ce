/-
# LazyBsd.Lib.Toeplitz — Toeplitz hashing over streams of bits.

A key is a stream of bits. Bit `p` of the data, if it is set, contributes the `w` key bits from `p` on;
the hash is the exclusive or of all contributions. `toeplitz` runs over the data bits from a position on,
which is what a loop with a shift register does; `toeplitz_eq_xorAll` is the sum over the set bits. The
rest says what the hash depends on: it is linear in the data, sees no key bit past its last window, and
does not change when data and key move together.
-/
import Mathlib.Data.Nat.Notation
import Mathlib.Tactic.Common

namespace LazyBsd.Lib.Toeplitz

variable {w : ℕ} {key key' : ℕ → Bool}

/-! ## Windows -/

/-- The `w` key bits from `p` on, the first one on top. -/
def window (key : ℕ → Bool) : (w p : ℕ) → BitVec w
  | 0, _ => 0#0
  | w + 1, p => BitVec.cons (key p) (window key w (p + 1))

theorem getMsbD_window (key : ℕ → Bool) (w p i : ℕ) :
    (window key w p).getMsbD i = (decide (i < w) && key (p + i)) := by
  induction w generalizing p i with
  | zero => simp [window]
  | succ w ih =>
      cases i with
      | zero => simp [window]
      | succ i =>
          rw [window, BitVec.getMsbD_cons_succ, ih, Nat.add_right_comm p 1 i]
          simp [Nat.add_assoc]

/-- The register shifts the next key bit in. -/
theorem window_succ (key : ℕ → Bool) (w p : ℕ) :
    window key (w + 1) (p + 1) =
      window key (w + 1) p <<< 1 ||| if key (p + w + 1) then 1#(w + 1) else 0#(w + 1) := by
  apply BitVec.eq_of_getMsbD_eq
  intro i hi
  rw [BitVec.getMsbD_or, BitVec.getMsbD_shiftLeft, getMsbD_window, getMsbD_window]
  by_cases hlast : i = w
  · subst hlast
    cases hbit : key (p + i + 1) <;> simp [Nat.add_right_comm p 1 i, hbit]
  · have hlt : i + 1 < w + 1 := by omega
    have hnone : (if key (p + w + 1) then 1#(w + 1) else 0#(w + 1)).getMsbD i = false := by
      split
      · rw [BitVec.getMsbD_one, Nat.add_sub_cancel]
        simp [hlast]
      · exact BitVec.getMsbD_zero
    rw [hnone]
    simp [hi, hlt, Nat.add_assoc, Nat.add_comm 1 i]

/-- Streams with the same bits have the same window. -/
theorem window_congr {p q : ℕ} (h : ∀ i < w, key (p + i) = key' (q + i)) :
    window key w p = window key' w q := by
  apply BitVec.eq_of_getMsbD_eq
  intro i hi
  rw [getMsbD_window, getMsbD_window, h i hi]

/-! ## The hash -/

/-- The hash of data bits, the first of which is bit `p`. -/
def toeplitz (w : ℕ) (key : ℕ → Bool) : ℕ → List Bool → BitVec w
  | _, [] => 0#w
  | p, b :: bs => (if b then window key w p else 0#w) ^^^ toeplitz w key (p + 1) bs

/-- The exclusive or of a list. -/
def xorAll (l : List (BitVec w)) : BitVec w := l.foldr (· ^^^ ·) 0#w

/-- The positions of the set bits. -/
def setBits (bs : List Bool) : List ℕ := (List.range bs.length).filter fun p => bs.getD p false

theorem toeplitz_append (p : ℕ) (bs bs' : List Bool) :
    toeplitz w key p (bs ++ bs') = toeplitz w key p bs ^^^ toeplitz w key (p + bs.length) bs' := by
  induction bs generalizing p with
  | nil => simp [toeplitz]
  | cons b bs ih =>
      rw [List.cons_append, toeplitz, toeplitz, ih, BitVec.xor_assoc, List.length_cons, Nat.add_assoc p,
        Nat.add_comm 1]

/-- Clear bits contribute nothing. -/
theorem toeplitz_clear (p n : ℕ) : toeplitz w key p (List.replicate n false) = 0#w := by
  induction n generalizing p with
  | zero => rfl
  | succ n ih => simp [List.replicate_succ, toeplitz, ih]

/-- **Linear.** The hash of the exclusive or of two strings is the exclusive or of their hashes. -/
theorem toeplitz_xor (p : ℕ) (bs bs' : List Bool) (hlen : bs.length = bs'.length) :
    toeplitz w key p (List.zipWith xor bs bs') = toeplitz w key p bs ^^^ toeplitz w key p bs' := by
  induction bs generalizing p bs' with
  | nil =>
      obtain rfl := List.eq_nil_of_length_eq_zero hlen.symm
      simp [toeplitz]
  | cons b bs ih =>
      cases bs' with
      | nil => cases hlen
      | cons b' bs' =>
          have hbit : (if xor b b' then window key w p else 0#w) =
              (if b then window key w p else 0#w) ^^^ if b' then window key w p else 0#w := by
            cases b <;> cases b' <;> simp
          rw [List.zipWith_cons_cons, toeplitz, toeplitz, toeplitz, hbit,
            ih (p + 1) bs' (Nat.succ.inj hlen)]
          ac_rfl

/-- Only the key bits in reach of a window matter, and only where they lie relative to the data. -/
theorem toeplitz_congr {p q : ℕ} (bs : List Bool)
    (h : ∀ i, i + 1 < bs.length + w → key (p + i) = key' (q + i)) :
    toeplitz w key p bs = toeplitz w key' q bs := by
  induction bs generalizing p q with
  | nil => rfl
  | cons b bs ih =>
      have hwindow : window key w p = window key' w q := by
        apply window_congr
        intro i hi
        apply h
        rw [List.length_cons]
        omega
      have hrest : toeplitz w key (p + 1) bs = toeplitz w key' (q + 1) bs := by
        apply ih
        intro i hi
        rw [Nat.add_assoc, Nat.add_assoc]
        apply h
        rw [List.length_cons]
        omega
      rw [toeplitz, toeplitz, hwindow, hrest]

/-- A key with a period hashes bits that move by the period alike. -/
theorem toeplitz_period {p t n : ℕ} (bs : List Bool) (hkey : ∀ i < n, key (i + t) = key i)
    (hn : p + bs.length + w ≤ n + 1) : toeplitz w key (p + t) bs = toeplitz w key p bs := by
  apply toeplitz_congr
  intro i hi
  rw [Nat.add_right_comm p t i]
  apply hkey
  omega

/-- From bit `p` on, the set bits are those of the list. -/
theorem toeplitz_eq_xorAll_from (p : ℕ) (bs : List Bool) :
    toeplitz w key p bs = xorAll
      (((List.range' p bs.length).filter fun q => bs.getD (q - p) false).map (window key w)) := by
  induction bs generalizing p with
  | nil => rfl
  | cons b bs ih =>
      have hrest : (List.range' (p + 1) bs.length).filter (fun q => (b :: bs).getD (q - p) false) =
          (List.range' (p + 1) bs.length).filter fun q => bs.getD (q - (p + 1)) false := by
        apply List.filter_congr
        intro q hq
        have hle := (List.mem_range'_1.mp hq).1
        rw [show q - p = q - (p + 1) + 1 by omega, List.getD_cons_succ]
      rw [toeplitz, List.length_cons, List.range'_succ, List.filter_cons, Nat.sub_self, List.getD_cons_zero,
        hrest, ih (p + 1)]
      cases b with
      | true => rw [if_pos rfl, if_pos rfl]; rfl
      | false => rw [if_neg Bool.false_ne_true, if_neg Bool.false_ne_true, BitVec.zero_xor]

/-- The hash is the exclusive or of the windows at the set bits. -/
theorem toeplitz_eq_xorAll (bs : List Bool) :
    toeplitz w key 0 bs = xorAll ((setBits bs).map (window key w)) := by
  rw [toeplitz_eq_xorAll_from, setBits, List.range_eq_range']
  rfl

end LazyBsd.Lib.Toeplitz
