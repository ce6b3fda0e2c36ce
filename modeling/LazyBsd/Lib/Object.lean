/-
# LazyBsd.Lib.Object — memory objects, pointers into them, and what a piece of code touches.

An object is a block of memory of its own, and a pointer is an object with an offset. Two pointers
alias when they name one object; an access that leaves its object reaches no other one. `load`, `store`
and `move` are the accesses of a C program, each kept in the record of the memory it ran in.
-/
import Mathlib.Algebra.Group.Nat.Defs
import Mathlib.Data.Nat.Notation

namespace LazyBsd.Lib.Object

variable {ι α β : Type}

/-- A place in an object. -/
structure Ptr (ι : Type) where
  obj : ι
  off : Nat
deriving DecidableEq, Repr

instance : HAdd (Ptr ι) Nat (Ptr ι) := ⟨fun p n => ⟨p.obj, p.off + n⟩⟩

@[simp] theorem Ptr.add_obj (p : Ptr ι) (n : Nat) : (p + n).obj = p.obj := rfl
@[simp] theorem Ptr.add_off (p : Ptr ι) (n : Nat) : (p + n).off = p.off + n := rfl
@[simp] theorem Ptr.add_zero (p : Ptr ι) : p + 0 = p := rfl

theorem Ptr.add_add (p : Ptr ι) (m n : Nat) : p + m + n = p + (m + n) := by
  show (⟨p.obj, p.off + m + n⟩ : Ptr ι) = ⟨p.obj, p.off + (m + n)⟩
  rw [Nat.add_assoc]

theorem Ptr.add_inj {p q : Ptr ι} {n : Nat} : p + n = q + n ↔ p = q := by
  constructor
  · intro h
    have hobj := congrArg Ptr.obj h
    have hoff := congrArg Ptr.off h
    simp only [add_obj, add_off, Nat.add_right_cancel_iff] at hobj hoff
    cases p
    cases q
    cases hobj
    cases hoff
    rfl
  · rintro rfl
    rfl

/-- `q` is one of the `n` cells at `p`. -/
def Ptr.Covers (p : Ptr ι) (n : Nat) (q : Ptr ι) : Prop :=
  q.obj = p.obj ∧ p.off ≤ q.off ∧ q.off < p.off + n

instance [DecidableEq ι] (p q : Ptr ι) (n : Nat) : Decidable (p.Covers n q) :=
  inferInstanceAs (Decidable (_ ∧ _))

/-- The `n` cells at `p` and the `m` cells at `q` have none in common. -/
def Ptr.Apart (p : Ptr ι) (n : Nat) (q : Ptr ι) (m : Nat) : Prop :=
  p.obj = q.obj → p.off + n ≤ q.off ∨ q.off + m ≤ p.off

/-- Fewer cells are apart as well. -/
theorem Ptr.Apart.mono {p q : Ptr ι} {n n' m m' : Nat} (h : p.Apart n q m) (hn : n' ≤ n) (hm : m' ≤ m) :
    p.Apart n' q m' := by
  intro hobj
  have hor := h hobj
  omega

/-- The contents of all objects. -/
abbrev Contents (ι : Type) := Ptr ι → UInt8

/-! ## Numbers, low byte first -/

/-- The number in the `n` bytes at `p`. -/
def number (b : Contents ι) (p : Ptr ι) : Nat → Nat
  | 0 => 0
  | n + 1 => (b p).toNat + 256 * number b (p + 1) n

section Number

variable {b b' : Contents ι} {p q : Ptr ι} {n : Nat}

theorem number_one (b : Contents ι) (p : Ptr ι) : number b p 1 = (b p).toNat := by
  rw [number, number, Nat.mul_zero, Nat.add_zero]

/-- The low byte of a number. -/
theorem ofNat_number_succ (b : Contents ι) (p : Ptr ι) (n : Nat) :
    UInt8.ofNat (number b p (n + 1)) = b p := by
  apply UInt8.toNat.inj
  have hlow : (UInt8.ofNat (number b p (n + 1))).toNat = number b p (n + 1) % 256 :=
    UInt8.toNat_ofNat'
  rw [hlow, number, Nat.add_mul_mod_self_left]
  exact Nat.mod_eq_of_lt (b p).toNat_lt

theorem number_congr (h : ∀ i < n, b' (q + i) = b (p + i)) : number b' q n = number b p n := by
  induction n generalizing p q with
  | zero => rfl
  | succ n ih =>
      have hhead : b' q = b p := h 0 (Nat.succ_pos n)
      have htail : number b' (q + 1) n = number b (p + 1) n := by
        apply ih
        intro i hi
        rw [Ptr.add_add, Ptr.add_add, Nat.add_comm 1 i]
        exact h (i + 1) (Nat.succ_lt_succ hi)
      rw [number, number, hhead, htail]

theorem number_lt (b : Contents ι) (p : Ptr ι) (n : Nat) : number b p n < 256 ^ n := by
  induction n generalizing p with
  | zero => exact Nat.one_pos
  | succ n ih =>
      have hhead := (b p).toNat_lt
      have htail := ih (p + 1)
      rw [number, Nat.pow_succ]
      omega

/-- Bytes that are those of a number. -/
theorem number_of_bytes {v : Nat} (h : ∀ i < n, b (p + i) = .ofNat (v / 256 ^ i)) :
    number b p n = v % 256 ^ n := by
  induction n generalizing p v with
  | zero =>
      rw [number, Nat.pow_zero]
      exact (Nat.mod_one v).symm
  | succ n ih =>
      have hhead : b p = .ofNat v := by simpa using h 0 (Nat.succ_pos n)
      have htail : number b (p + 1) n = v / 256 % 256 ^ n := by
        apply ih
        intro i hi
        rw [Ptr.add_add, Nat.add_comm 1 i, h (i + 1) (Nat.succ_lt_succ hi), Nat.pow_succ,
          Nat.mul_comm, Nat.div_div_eq_div_mul]
      have hlow : (UInt8.ofNat v).toNat = v % 256 := UInt8.toNat_ofNat'
      rw [number, hhead, htail, hlow, Nat.pow_succ, Nat.mul_comm (256 ^ n), Nat.mod_mul]

theorem number_add (b : Contents ι) (p : Ptr ι) (m k : Nat) :
    number b p (m + k) = number b p m + 256 ^ m * number b (p + m) k := by
  induction m generalizing p with
  | zero => rw [Nat.zero_add, number, Nat.pow_zero, Nat.one_mul, Nat.zero_add, Ptr.add_zero]
  | succ m ih =>
      rw [Nat.add_right_comm, number, number, ih, Ptr.add_add, Nat.add_comm 1 m, Nat.pow_succ,
        Nat.mul_comm _ 256, Nat.mul_add, Nat.mul_assoc, Nat.add_assoc]

/-- The low bytes of a number that has no others. -/
theorem number_low {m k : Nat} (h : number b p (m + k) < 256 ^ m) :
    number b p m = number b p (m + k) := by
  have hsum := number_add b p m k
  rcases Nat.eq_zero_or_pos (number b (p + m) k) with hzero | hpos
  · rw [hsum, hzero, Nat.mul_zero, Nat.add_zero]
  · have hle : 256 ^ m * 1 ≤ 256 ^ m * number b (p + m) k := Nat.mul_le_mul_left _ hpos
    omega

/-- The `n` bytes at `p`. -/
def bytesAt (b : Contents ι) (p : Ptr ι) (n : Nat) : List UInt8 :=
  (List.range n).map fun i => b (p + i)

@[simp] theorem length_bytesAt : (bytesAt b p n).length = n := by simp [bytesAt]

theorem bytesAt_congr (h : ∀ i < n, b' (q + i) = b (p + i)) : bytesAt b' q n = bytesAt b p n := by
  apply List.map_congr_left
  intro i hi
  exact h i (List.mem_range.mp hi)

theorem bytesAt_succ : bytesAt b p (n + 1) = b p :: bytesAt b (p + 1) n := by
  rw [bytesAt, List.range_succ_eq_map, List.map_cons, List.map_map]
  congr 1
  apply List.map_congr_left
  intro i _
  show b (p + (i + 1)) = b (p + 1 + i)
  rw [Ptr.add_add, Nat.add_comm 1 i]

theorem bytesAt_add (b : Contents ι) (p : Ptr ι) (m n : Nat) :
    bytesAt b p (m + n) = bytesAt b p m ++ bytesAt b (p + m) n := by
  rw [bytesAt, List.range_add, List.map_append, List.map_map]
  congr 1
  apply List.map_congr_left
  intro i _
  show b (p + (m + i)) = b (p + m + i)
  rw [Ptr.add_add]

end Number

section Put

variable [DecidableEq ι]

/-- The low `n` bytes of `v` put at `p`. -/
def put (b : Contents ι) (p : Ptr ι) (n v : Nat) : Contents ι :=
  fun q => if p.Covers n q then .ofNat (v / 256 ^ (q.off - p.off)) else b q

/-- The `n` bytes at `src` put at `dst`, as they were before. -/
def copied (b : Contents ι) (src dst : Ptr ι) (n : Nat) : Contents ι :=
  fun q => if dst.Covers n q then b (src + (q.off - dst.off)) else b q

/-- The first `n` bytes of `src` put at `dst`. -/
def filled (b : Contents ι) (dst : Ptr ι) (src : Nat → UInt8) (n : Nat) : Contents ι :=
  fun q => if dst.Covers n q then src (q.off - dst.off) else b q

variable {b : Contents ι} {p q src dst : Ptr ι} {n m v : Nat}

theorem put_at {i : Nat} (hi : i < n) : put b p n v (p + i) = .ofNat (v / 256 ^ i) := by
  have hcovers : p.Covers n (p + i) := ⟨rfl, Nat.le_add_right _ _, Nat.add_lt_add_left hi _⟩
  rw [put, if_pos hcovers, Ptr.add_off, Nat.add_sub_cancel_left]

theorem put_other (h : ¬ p.Covers n q) : put b p n v q = b q := if_neg h

theorem copied_at {i : Nat} (hi : i < n) : copied b src dst n (dst + i) = b (src + i) := by
  have hcovers : dst.Covers n (dst + i) := ⟨rfl, Nat.le_add_right _ _, Nat.add_lt_add_left hi _⟩
  rw [copied, if_pos hcovers, Ptr.add_off, Nat.add_sub_cancel_left]

theorem copied_other (h : ¬ dst.Covers n q) : copied b src dst n q = b q := if_neg h

/-- A byte put back. -/
theorem put_byte_self : put b p 1 (number b p 1) = b := by
  funext q
  by_cases h : p.Covers 1 q
  · obtain ⟨hobj, hlo, hhi⟩ := h
    obtain rfl : p = q := by
      cases p
      cases q
      simp only [Ptr.mk.injEq]
      exact ⟨hobj.symm, by simp only at hlo hhi; omega⟩
    have hat : put b p 1 (number b p 1) (p + 0) = _ := put_at Nat.one_pos
    rw [Ptr.add_zero] at hat
    rw [hat, number_one, Nat.pow_zero, Nat.div_one, UInt8.ofNat_toNat]
  · exact put_other h

/-- A copy onto itself. -/
theorem copied_self : copied b p p n = b := by
  funext q
  by_cases h : p.Covers n q
  · obtain ⟨hobj, hlo, -⟩ := h
    have hq : p + (q.off - p.off) = q := by
      show (⟨p.obj, p.off + (q.off - p.off)⟩ : Ptr ι) = q
      rw [← hobj, Nat.add_sub_cancel' hlo]
    rw [copied, hq, ite_self]
  · exact copied_other h

/-- What was put is read back. -/
theorem number_put : number (put b p n v) p n = v % 256 ^ n := number_of_bytes fun _ => put_at

/-- A number beside the bytes written. -/
theorem number_put_apart (h : p.Apart n q m) : number (put b p n v) q m = number b q m := by
  apply number_congr
  intro i hi
  apply put_other
  rintro ⟨hobj, hlo, hhi⟩
  rcases h hobj.symm with h | h <;> simp only [Ptr.add_off] at hlo hhi <;> omega

theorem bytesAt_filled (b : Contents ι) (dst : Ptr ι) (src : Nat → UInt8) (n : Nat) :
    bytesAt (filled b dst src n) dst n = (List.range n).map src := by
  apply List.map_congr_left
  intro i hi
  have hcovers : dst.Covers n (dst + i) :=
    ⟨rfl, Nat.le_add_right _ _, Nat.add_lt_add_left (List.mem_range.mp hi) _⟩
  rw [filled, if_pos hcovers, Ptr.add_off, Nat.add_sub_cancel_left]

theorem bytesAt_filled_apart {src : Nat → UInt8} (h : dst.Apart n q m) :
    bytesAt (filled b dst src n) q m = bytesAt b q m := by
  apply bytesAt_congr
  intro i hi
  apply if_neg
  rintro ⟨hobj, hlo, hhi⟩
  rcases h hobj.symm with h | h <;> simp only [Ptr.add_off] at hlo hhi <;> omega

end Put

/-! ## Accesses -/

/-- What a statement touches: bytes it reads, bytes it writes, or `NULL`. -/
inductive Access (ι : Type)
  | read (p : Ptr ι) (n : Nat)
  | write (p : Ptr ι) (n : Nat)
  | null
deriving DecidableEq, Repr

/-- Memory, with the accesses made in it so far. -/
structure Ram (ι : Type) where
  byte : Contents ι
  log : List (Access ι)

/-- Code that runs in a memory. -/
def Code (ι α : Type) := Ram ι → α × Ram ι

def Code.run (c : Code ι α) (r : Ram ι) : α × Ram ι := c r

instance : Monad (Code ι) where
  pure x := fun r => (x, r)
  bind c f := fun r => (f (c r).1) (c r).2

/-- The number of `n` bytes at `p`. -/
def load (p : Ptr ι) (n : Nat) : Code ι Nat :=
  fun r => (number r.byte p n, { r with log := r.log ++ [.read p n] })

/-- What `c` makes of the contents `b`, and what it touches on the way. -/
def after (c : Code ι α) (b : Contents ι) : Contents ι := (c.run ⟨b, []⟩).2.byte
def touched (c : Code ι α) (b : Contents ι) : List (Access ι) := (c.run ⟨b, []⟩).2.log

section Store

variable [DecidableEq ι]

/-- An assignment to the `n` bytes at `p`, which keeps the low bytes of the value. -/
def store (p : Ptr ι) (n v : Nat) : Code ι Unit :=
  fun r => ((), { byte := put r.byte p n v, log := r.log ++ [.write p n] })

/-- `bcopy`: the two stretches may overlap. -/
def bcopy (src dst : Ptr ι) (n : Nat) : Code ι Unit :=
  fun r => ((), { byte := copied r.byte src dst n, log := r.log ++ [.read src n, .write dst n] })

end Store

/-- A member of a structure read through `NULL`. -/
def nullDeref : Code ι Nat := fun r => (0, { r with log := r.log ++ [.null] })

section Run

variable {p src dst : Ptr ι} {n v : Nat} {r : Ram ι}

@[simp] theorem run_pure (x : α) : (pure x : Code ι α).run r = (x, r) := rfl

@[simp] theorem run_bind (c : Code ι α) (f : α → Code ι β) :
    (c >>= f).run r = (f (c.run r).1).run (c.run r).2 := rfl

@[simp] theorem run_load :
    (load p n).run r = (number r.byte p n, { r with log := r.log ++ [.read p n] }) := rfl

@[simp] theorem run_nullDeref :
    (nullDeref : Code ι Nat).run r = (0, { r with log := r.log ++ [.null] }) := rfl

variable [DecidableEq ι]

@[simp] theorem run_store :
    (store p n v).run r = ((), { byte := put r.byte p n v, log := r.log ++ [.write p n] }) := rfl

@[simp] theorem run_bcopy : (bcopy src dst n).run r =
    ((), { byte := copied r.byte src dst n, log := r.log ++ [.read src n, .write dst n] }) := rfl

end Run

end LazyBsd.Lib.Object
