/-
# LazyBsd.Socket.Lengths — which lengths of a vector `readv` and `writev` pass on.

Both add the lengths up in an `int` and hand the result to the stack, whatever it is; an `int` that
wrapped around on the way says nothing about the array. `copyinuio` stops before the sum leaves the
range of an `int`, and `read` and `write` look at their one length first.
-/
import Mathlib.Algebra.GroupWithZero.Nat
import LazyBsd.Socket.Iovec

namespace LazyBsd.Socket

open Lib.Object

/-! ## The calls, up to the stack -/

section Calls

variable (k : Mover) (m : Iovecs) (iov : Ptr Obj) (iovcnt : Int)

/-- What `lazybsd_readv` calls `kern_readv` with, or its error: it has none of its own. -/
def readvUio : Except Nat Uio := .ok (auio k .read m iov iovcnt)

/-- What `lazybsd_writev` calls `kern_writev` with. -/
def writevUio : Except Nat Uio := .ok (auio k .write m iov iovcnt)

end Calls

/-- The local `aiov` of `lazybsd_read` and `lazybsd_write`, an array of one entry. -/
def aiov : Ptr Obj := ⟨.storage, 0⟩

/-- What `lazybsd_read` calls `kern_readv` with, and `lazybsd_write` `kern_writev`. -/
def readWriteUio (k : Mover) (rw : UioRw) (nbytes : UInt64) : Except Nat Uio :=
  if (nbytes.toNat : Int) > intMax then .error einval
  else .ok
    { uioIov := aiov
      uioIovcnt := 1
      uioOffset := k.offset
      uioResid := nbytes.toNat
      uioSegflg := .sysspace
      uioRw := rw }

def readUio (k : Mover) (nbytes : UInt64) : Except Nat Uio := readWriteUio k .read nbytes
def writeUio (k : Mover) (nbytes : UInt64) : Except Nat Uio := readWriteUio k .write nbytes

/-- `lazybsd_readv` and `lazybsd_writev` start their transfer from just this `struct uio`. -/
theorem readv_starts (k : Mover) (m : Iovecs) (iov : Ptr Obj) (iovcnt : Int) (b : Contents Obj) :
    ∃ uio, readvUio k m iov iovcnt = .ok uio ∧
      lazybsdReadv k m iov iovcnt b = (k.ret, k.move ⟨m, uio, b⟩) :=
  ⟨_, rfl, rfl⟩

theorem writev_starts (k : Mover) (m : Iovecs) (iov : Ptr Obj) (iovcnt : Int) (b : Contents Obj) :
    ∃ uio, writevUio k m iov iovcnt = .ok uio ∧
      lazybsdWritev k m iov iovcnt b = (k.ret, k.move ⟨m, uio, b⟩) :=
  ⟨_, rfl, rfl⟩

/-! ## Exact lengths -/

/-- `iov[i].iov_len`. -/
def iovLenAt (m : Iovecs) (iov : Ptr Obj) (i : Nat) : UInt64 := (m.entry (iov + i)).elim 0 Iovec.iovLen

/-- The sum of the lengths, as a number. -/
def lenSum (m : Iovecs) (iov : Ptr Obj) (iovcnt : Nat) : Nat :=
  ((List.range iovcnt).map fun i => (iovLenAt m iov i).toNat).sum

/-- The stack is called with `sum` bytes to go, or the call fails because that is more than an `int`
holds. -/
def ExactOrRejected (out : Except Nat Uio) (sum : Nat) : Prop :=
  if (sum : Int) ≤ intMax then ∃ uio, out = .ok uio ∧ uio.uioResid = sum else out = .error einval

/-- Two outcomes tell the caller the same about the length. -/
def SameLength (out out' : Except Nat Uio) : Prop :=
  out.map Uio.uioResid = out'.map Uio.uioResid

section Sum

variable {m : Iovecs} {iov : Ptr Obj} {iovcnt : Int} {out out' : Except Nat Uio} {sum : Nat}

/-- Both outcomes of one length are the same. -/
theorem ExactOrRejected.same (h : ExactOrRejected out sum) (h' : ExactOrRejected out' sum) :
    SameLength out out' := by
  rw [ExactOrRejected] at h h'
  split at h
  · rename_i hle
    rw [if_pos hle] at h'
    obtain ⟨uio, rfl, huio⟩ := h
    obtain ⟨uio', rfl, huio'⟩ := h'
    show Except.ok uio.uioResid = .ok uio'.uioResid
    rw [huio, huio']
  · rename_i hgt
    rw [if_neg hgt] at h'
    rw [h, h']
    rfl

/-- One addition of the loop is an addition of integers, cut to an `int`. -/
theorem addLen_eq (x : Int32) (l : UInt64) :
    (x.toInt64.toUInt64 + l).toUInt32.toInt32 = Int32.ofInt (x.toInt + l.toNat) := by
  apply Int32.toBitVec_inj.mp
  rw [Int32.toBitVec_ofInt, BitVec.ofInt_add, BitVec.ofInt_natCast]
  show (x.toBitVec.signExtend 64 + l.toBitVec).setWidth 32 = _
  rw [BitVec.setWidth_add _ _ (by decide)]
  congr 1
  · show _ = BitVec.ofInt 32 x.toBitVec.toInt
    rw [BitVec.ofInt_toInt]
    ext i hi
    have hi' : i < 64 := by omega
    rw [BitVec.getElem_setWidth, BitVec.getLsbD_signExtend, if_pos hi, decide_eq_true hi',
      Bool.true_and, BitVec.getLsbD_eq_getElem]

/-- The `int` is the exact sum, cut to an `int` at the end. -/
theorem lenOf_eq_ofInt : lenOf m iov iovcnt = Int32.ofInt (lenSum m iov iovcnt.toNat) := by
  rw [lenOf, lenSum]
  generalize iovcnt.toNat = n
  induction n with
  | zero => rfl
  | succ n ih =>
      rw [List.range_succ, List.foldl_append, ih, List.map_append, List.sum_append, List.foldl_cons,
        List.foldl_nil, addLen_eq, Int32.ofInt_add, Int32.ofInt_toInt]
      simp [iovLenAt]

/-- It is the sum itself as long as that is an `int`. -/
theorem lenOf_exact_iff :
    (lenOf m iov iovcnt).toInt = lenSum m iov iovcnt.toNat ↔ (lenSum m iov iovcnt.toNat : Int) ≤ intMax := by
  have hsize : (Int32.size : Int) = 4294967296 := rfl
  rw [lenOf_eq_ofInt, Int32.toInt_ofInt]
  constructor
  · intro h
    -- what was cut is an `int`, so an equal sum is one
    have hlt : ((lenSum m iov iovcnt.toNat : Int).bmod Int32.size) < (Int32.size + 1) / 2 :=
      Int.bmod_lt (by decide)
    rw [h] at hlt
    rw [intMax]
    omega
  · intro h
    rw [intMax] at h
    exact Int.bmod_eq_of_le (by omega) (by omega)

/-- `readv` and `writev` never refuse: they are exact, or wrong. -/
theorem vector_exact_iff (k : Mover) (rw_ : UioRw) :
    ExactOrRejected (.ok (auio k rw_ m iov iovcnt)) (lenSum m iov iovcnt.toNat) ↔
      (lenSum m iov iovcnt.toNat : Int) ≤ intMax := by
  rw [ExactOrRejected]
  split
  · rename_i hle
    exact iff_of_true ⟨_, rfl, lenOf_exact_iff.mpr hle⟩ hle
  · rename_i hgt
    exact iff_of_false (fun h => by cases h) hgt

end Sum

/-! ## The other paths -/

section Others

variable {m : Iovecs} {iovp : Ptr Obj} {iovcnt : UInt32} {o : Obj} {rw_ : UioRw}

/-- The loop of `copyinuio` refuses as soon as the sum leaves the range. -/
theorem residOf_eq_if (iov : List Iovec) (r : Int) (hr : r ≤ intMax) :
    residOf r iov =
      if r + ((iov.map fun v => v.iovLen.toNat).sum : Nat) ≤ intMax then
        some (r + ((iov.map fun v => v.iovLen.toNat).sum : Nat))
      else none := by
  induction iov generalizing r with
  | nil =>
      rw [residOf]
      simp [hr]
  | cons v iov ih =>
      rw [residOf, List.map_cons, List.sum_cons]
      by_cases hv : (v.iovLen.toNat : Int) > intMax - r
      · -- the sum of all entries is no smaller than the one that is refused here
        rw [if_pos hv, if_neg]
        omega
      · rw [if_neg hv, ih _ (by omega)]
        have hassoc : r + (v.iovLen.toNat : Int) + ((iov.map fun v => v.iovLen.toNat).sum : Nat) =
            r + ((v.iovLen.toNat + (iov.map fun v => v.iovLen.toNat).sum : Nat) : Int) := by
          omega
        rw [hassoc]

/-- The entries that `copyinuio` copies have the lengths that `readv` adds up. -/
theorem lenSum_eq (n : Nat) :
    ((((m iovp.obj).drop iovp.off).take n).map fun v => v.iovLen.toNat).sum = lenSum m iovp n := by
  rw [lenSum]
  induction n with
  | zero => rfl
  | succ n ih =>
      rw [List.range_succ, List.map_append, List.sum_append, ← ih, List.take_add_one, List.map_append,
        List.sum_append]
      congr 1
      have hentry : ((m iovp.obj).drop iovp.off)[n]? = m.entry (iovp + n) := by
        rw [List.getElem?_drop]
        rfl
      rw [hentry, List.map_cons, List.map_nil, iovLenAt]
      cases m.entry (iovp + n) <;> simp

theorem copyinuio_exact (hcnt : iovcnt.toNat ≤ uioMaxiov) :
    ExactOrRejected ((copyinuio m iovp iovcnt (some o) rw_).map Prod.snd) (lenSum m iovp iovcnt.toNat) := by
  have hresid := residOf_eq_if (((m iovp.obj).drop iovp.off).take iovcnt.toNat) 0 (by decide)
  rw [lenSum_eq, Int.zero_add] at hresid
  rw [copyinuio, if_neg (Nat.not_lt.mpr hcnt), ExactOrRejected]
  simp only [hresid]
  by_cases hle : (lenSum m iovp iovcnt.toNat : Int) ≤ intMax
  · rw [if_pos hle, if_pos hle]
    exact ⟨_, rfl, rfl⟩
  · rw [if_neg hle, if_neg hle]
    rfl

theorem readWriteUio_exact (k : Mover) (nbytes : UInt64) :
    ExactOrRejected (readWriteUio k rw_ nbytes) nbytes.toNat := by
  rw [ExactOrRejected, readWriteUio]
  by_cases hle : (nbytes.toNat : Int) ≤ intMax
  · rw [if_pos hle, if_neg (Int.not_lt.mpr hle)]
    exact ⟨_, rfl, rfl⟩
  · rw [if_neg hle, if_pos (Int.not_le.mp hle)]

end Others

/-! ## All paths together -/

/-- `readv` and `writev` are exact or refuse, as `copyinuio` does for the same array, and as `read` and
`write` do for a single buffer. -/
structure VectorLengthsExact (k : Mover) (m : Iovecs) (iov : Ptr Obj) (iovcnt : Int) : Prop where
  readv : ExactOrRejected (readvUio k m iov iovcnt) (lenSum m iov iovcnt.toNat)
  writev : ExactOrRejected (writevUio k m iov iovcnt) (lenSum m iov iovcnt.toNat)
  copyinuio : ∀ (cnt : UInt32) (o : Obj), cnt.toNat = iovcnt.toNat → cnt.toNat ≤ uioMaxiov →
    SameLength (readvUio k m iov iovcnt) ((copyinuio m iov cnt (some o) .read).map Prod.snd) ∧
      SameLength (writevUio k m iov iovcnt) ((copyinuio m iov cnt (some o) .write).map Prod.snd)
  single : iovcnt = 1 →
    SameLength (readvUio k m iov iovcnt) (readUio k (iovLenAt m iov 0)) ∧
      SameLength (writevUio k m iov iovcnt) (writeUio k (iovLenAt m iov 0))

/-- The lengths are exact or refused, and agree with the other paths, exactly if an `int` holds their
sum. -/
theorem vector_lengths_exact_iff (k : Mover) (m : Iovecs) (iov : Ptr Obj) (iovcnt : Int) :
    VectorLengthsExact k m iov iovcnt ↔ (lenSum m iov iovcnt.toNat : Int) ≤ intMax := by
  constructor
  · intro h
    exact (vector_exact_iff k .read).mp h.readv
  · intro hle
    have hreadv : ExactOrRejected (readvUio k m iov iovcnt) (lenSum m iov iovcnt.toNat) :=
      (vector_exact_iff k .read).mpr hle
    have hwritev : ExactOrRejected (writevUio k m iov iovcnt) (lenSum m iov iovcnt.toNat) :=
      (vector_exact_iff k .write).mpr hle
    refine ⟨hreadv, hwritev, fun cnt o hcnt hmax => ?_, ?_⟩
    · rw [← hcnt] at hreadv hwritev
      exact ⟨hreadv.same (copyinuio_exact hmax), hwritev.same (copyinuio_exact hmax)⟩
    · rintro rfl
      have hone : lenSum m iov (1 : Int).toNat = (iovLenAt m iov 0).toNat := Nat.add_zero _
      rw [hone] at hreadv hwritev
      exact ⟨hreadv.same (readWriteUio_exact k _), hwritev.same (readWriteUio_exact k _)⟩

/-- Two entries of 2 GiB and one of 5 bytes: the stack is asked for 5 bytes. -/
theorem readv_length_wraps :
    let m : Iovecs := fun o =>
      if o = .caller 0 then
        [⟨⟨.caller 1, 0⟩, 0x80000000⟩, ⟨⟨.caller 2, 0⟩, 0x80000000⟩, ⟨⟨.caller 3, 0⟩, 5⟩]
      else []
    lenSum m ⟨.caller 0, 0⟩ 3 = 4294967301 ∧
      (readvUio ⟨[], 0, 0, 0, 0⟩ m ⟨.caller 0, 0⟩ 3).map Uio.uioResid = .ok 5 ∧
      (copyinuio m ⟨.caller 0, 0⟩ 3 (some (.stack 0)) .read).map (fun r => r.2.uioResid) = .error einval ∧
      ¬ ExactOrRejected (readvUio ⟨[], 0, 0, 0, 0⟩ m ⟨.caller 0, 0⟩ 3) 4294967301 := by
  intro m
  have hsum : lenSum m ⟨.caller 0, 0⟩ (3 : Int).toNat = 4294967301 := by decide +kernel
  refine ⟨hsum, by decide +kernel, by decide +kernel, fun h => ?_⟩
  have hiff : ExactOrRejected (readvUio ⟨[], 0, 0, 0, 0⟩ m ⟨.caller 0, 0⟩ 3)
        (lenSum m ⟨.caller 0, 0⟩ (3 : Int).toNat) ↔
      (lenSum m ⟨.caller 0, 0⟩ (3 : Int).toNat : Int) ≤ intMax := vector_exact_iff _ .read
  rw [hsum] at hiff
  exact absurd (hiff.mp h) (by decide)

end LazyBsd.Socket
