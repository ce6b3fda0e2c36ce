/-
# LazyBsd.Rss.Toeplitz — `toeplitz_hash` and the Toeplitz function.

The loop keeps the current window of the key in a 32-bit register and shifts one key bit in for each bit
of the data; the bound check replaces key bits past the end by zeros. Its index is an `unsigned`, so from
data byte 2^32 - 4 on it is back at the start of the key, and the loop hashes with the key repeated every
2^35 bits. Up to there the hash is the Toeplitz function, for keys and data of any length.
-/
import LazyBsd.Lib.Toeplitz
import LazyBsd.Rss.Reta

namespace LazyBsd.Rss

open Lib.Toeplitz

/-! ## Bits of bytes -/

/-- Bit `b` of a byte, from the top. -/
def bitOf (byte : UInt8) (b : Nat) : Bool := byte.toBitVec.getMsbD b

/-- The bits of a byte. -/
def byteBits (byte : UInt8) : List Bool := (List.range 8).map (bitOf byte)

/-- The bits of a string: bit 0 is the most significant bit of the first byte. -/
def dataBits (data : List UInt8) : List Bool := data.flatMap byteBits

/-- The bits of a key; past its end they are zero. -/
def keyBit (keylen : Nat) (key : Nat → UInt8) (p : Nat) : Bool :=
  decide (p / 8 < keylen) && bitOf (key (p / 8)) (p % 8)

/-- The Toeplitz function: the exclusive or, over all set bits `p` of the data, of the key bits `p` to
`p + 31`. -/
def toeplitzFunction (keylen : Nat) (key : Nat → UInt8) (data : List UInt8) : UInt32 :=
  .ofBitVec (xorAll ((setBits (dataBits data)).map (window (keyBit keylen key) 32)))

section Bits

variable {keylen : Nat} {key : Nat → UInt8} {data data' : List UInt8} {byte : UInt8} {b : Nat}

/-- The test of a bit in the code. -/
theorem test_iff (byte : UInt8) (hb : b < 8) :
    byte &&& ((1 : UInt8) <<< UInt8.ofNat (7 - b)) ≠ 0 ↔ bitOf byte b = true := by
  have hmask : ((1 : UInt8) <<< UInt8.ofNat (7 - b)).toBitVec = BitVec.twoPow 8 (7 - b) := by
    revert hb
    revert b
    decide
  have hne : BitVec.twoPow 8 (7 - b) ≠ 0#8 := by
    intro h
    have hpow := congrArg BitVec.toNat h
    rw [BitVec.toNat_twoPow_of_lt (by omega)] at hpow
    exact Nat.ne_of_gt (Nat.two_pow_pos (7 - b)) hpow
  rw [ne_eq, ← UInt8.toBitVec_inj, UInt8.toBitVec_and, hmask, BitVec.and_twoPow, bitOf,
    BitVec.getMsbD_eq_getLsbD, decide_eq_true hb, Bool.true_and, show 8 - 1 - b = 7 - b by omega]
  cases hbit : byte.toBitVec.getLsbD (7 - b) with
  | true => simpa using hne
  | false => simp

theorem length_byteBits (byte : UInt8) : (byteBits byte).length = 8 := rfl

theorem length_dataBits (data : List UInt8) : (dataBits data).length = 8 * data.length := by
  induction data with
  | nil => rfl
  | cons byte data ih =>
      rw [dataBits, List.flatMap_cons, List.length_append, length_byteBits, List.length_cons, Nat.mul_succ,
        Nat.add_comm]
      exact congrArg (· + 8) ih

theorem dataBits_append (data data' : List UInt8) :
    dataBits (data ++ data') = dataBits data ++ dataBits data' := List.flatMap_append

theorem byteBits_xor (byte byte' : UInt8) :
    byteBits (byte ^^^ byte') = List.zipWith xor (byteBits byte) (byteBits byte') := by
  have hbit : bitOf (byte ^^^ byte') = fun b => xor (bitOf byte b) (bitOf byte' b) := by
    funext b
    rw [bitOf, UInt8.toBitVec_xor, BitVec.getMsbD_xor]
    rfl
  rw [byteBits, byteBits, byteBits, List.zipWith_map, List.zipWith_self, hbit]

theorem dataBits_xor (hlen : data.length = data'.length) :
    dataBits (List.zipWith (· ^^^ ·) data data') = List.zipWith xor (dataBits data) (dataBits data') := by
  induction data generalizing data' with
  | nil =>
      obtain rfl := List.eq_nil_of_length_eq_zero hlen.symm
      rfl
  | cons byte data ih =>
      cases data' with
      | nil => cases hlen
      | cons byte' data' =>
          have hrest := ih (Nat.succ.inj hlen)
          unfold dataBits at hrest ⊢
          rw [List.zipWith_cons_cons, List.flatMap_cons, List.flatMap_cons, List.flatMap_cons,
            List.zipWith_append (by rw [length_byteBits, length_byteBits]), byteBits_xor, hrest]

/-- Bit `b` of byte `i` is bit `8 * i + b`. -/
theorem keyBit_of_byte {i : Nat} (hb : b < 8) :
    keyBit keylen key (8 * i + b) = (decide (i < keylen) && bitOf (key i) b) := by
  have hdiv : (8 * i + b) / 8 = i := by omega
  have hmod : (8 * i + b) % 8 = b := by omega
  rw [keyBit, hdiv, hmod]

/-- Past the end there are no set bits. -/
theorem keyBit_past {p : Nat} (hp : 8 * keylen ≤ p) : keyBit keylen key p = false := by
  have hdiv : ¬ p / 8 < keylen := by omega
  rw [keyBit, decide_eq_false hdiv, Bool.false_and]

end Bits

/-! ## The loop -/

/-- The key as the loop reads it: the index of its bytes is an `unsigned`. -/
def readBit (keylen : Nat) (key : Nat → UInt8) (p : Nat) : Bool := keyBit keylen key (p % 2 ^ 35)

section Loop

variable {keylen : Nat} {key : Nat → UInt8}

/-- The bit that is shifted in. -/
theorem readBit_next {i b : Nat} (hb : b < 8) : readBit keylen key (8 * i + b + 31 + 1) =
    (decide (keyIndex i < keylen) && bitOf (key (keyIndex i)) b) := by
  have hsplit : (8 * i + b + 31 + 1) % 2 ^ 35 = 8 * keyIndex i + b := by
    unfold keyIndex
    omega
  rw [readBit, hsplit, keyBit_of_byte hb]

/-- **One turn.** The hash takes the window if the data bit is set, and the window moves on. -/
theorem toeplitzBit_spec {i b : Nat} (byte : UInt8) (hash : UInt32) {v : UInt32} (hb : b < 8)
    (hv : v.toBitVec = window (readBit keylen key) 32 (8 * i + b)) :
    (toeplitzBit keylen key i byte (hash, v) b).1.toBitVec =
        hash.toBitVec ^^^ toeplitz 32 (readBit keylen key) (8 * i + b) [bitOf byte b] ∧
      (toeplitzBit keylen key i byte (hash, v) b).2.toBitVec =
        window (readBit keylen key) 32 (8 * i + (b + 1)) := by
  have hbit := test_iff byte hb
  have hnext := test_iff (key (keyIndex i)) hb
  constructor
  · simp only [toeplitzBit, toeplitz, hbit, BitVec.xor_zero]
    cases bitOf byte b with
    | true => simp [hv]
    | false => simp
  · rw [← Nat.add_assoc, window_succ, readBit_next hb, ← hv]
    simp only [toeplitzBit, hnext]
    by_cases hin : keyIndex i < keylen ∧ bitOf (key (keyIndex i)) b = true
    · simp [hin]
    · rw [if_neg hin]
      rw [if_neg (by simpa using hin)]
      simp

/-- The inner loop, from bit `b` on. -/
theorem toeplitzBits_spec {i n : Nat} (byte : UInt8) {b : Nat} {st : UInt32 × UInt32} (hb : b + n ≤ 8)
    (hv : st.2.toBitVec = window (readBit keylen key) 32 (8 * i + b)) :
    ((List.range' b n).foldl (toeplitzBit keylen key i byte) st).1.toBitVec = st.1.toBitVec ^^^
        toeplitz 32 (readBit keylen key) (8 * i + b) ((List.range' b n).map (bitOf byte)) ∧
      ((List.range' b n).foldl (toeplitzBit keylen key i byte) st).2.toBitVec =
        window (readBit keylen key) 32 (8 * i + (b + n)) := by
  induction n generalizing b st with
  | zero => exact ⟨by simp [toeplitz], hv⟩
  | succ n ih =>
      obtain ⟨hhash, hwindow⟩ := toeplitzBit_spec byte st.1 (by omega : b < 8) hv
      obtain ⟨hhash', hwindow'⟩ := ih (by omega : b + 1 + n ≤ 8) hwindow
      rw [List.range'_succ, List.foldl_cons, List.map_cons]
      constructor
      · rw [hhash', hhash, BitVec.xor_assoc]
        congr 1
        rw [toeplitz, toeplitz, toeplitz, BitVec.xor_zero, Nat.add_assoc]
      · rw [hwindow', Nat.add_assoc b, Nat.add_comm 1 n]

/-- **The loop invariant.** With the window of data byte `i` in the register, the rest of the data adds
its Toeplitz sum to the hash. -/
theorem toeplitzLoop_spec {i : Nat} (data : List UInt8) {st : UInt32 × UInt32}
    (hv : st.2.toBitVec = window (readBit keylen key) 32 (8 * i)) :
    (toeplitzLoop keylen key i data st).toBitVec =
      st.1.toBitVec ^^^ toeplitz 32 (readBit keylen key) (8 * i) (dataBits data) := by
  induction data generalizing i st with
  | nil => simp [toeplitzLoop, dataBits, toeplitz]
  | cons byte data ih =>
      obtain ⟨hhash, hwindow⟩ := toeplitzBits_spec byte (by decide : 0 + 8 ≤ 8) hv
      rw [← List.range_eq_range', Nat.add_zero] at hhash
      rw [← List.range_eq_range', Nat.zero_add, ← Nat.mul_succ] at hwindow
      have hsplit : dataBits (byte :: data) = byteBits byte ++ dataBits data := List.flatMap_cons
      rw [toeplitzLoop, ih hwindow, hhash, hsplit, toeplitz_append, length_byteBits, BitVec.xor_assoc,
        Nat.mul_succ]
      rfl

/-- The register at the start. -/
theorem firstWindow_spec (key : Nat → UInt8) (hkeylen : 4 ≤ keylen) :
    (((key 0).toUInt32 <<< 24) + ((key 1).toUInt32 <<< 16) + ((key 2).toUInt32 <<< 8) +
      (key 3).toUInt32).toBitVec = window (readBit keylen key) 32 0 := by
  have happend : (((key 0).toUInt32 <<< 24) + ((key 1).toUInt32 <<< 16) + ((key 2).toUInt32 <<< 8) +
      (key 3).toUInt32).toBitVec =
        (key 0).toBitVec ++ (key 1).toBitVec ++ (key 2).toBitVec ++ (key 3).toBitVec := by
    apply BitVec.eq_of_toNat_eq
    have h0 := (key 0).toNat_lt
    have h1 := (key 1).toNat_lt
    have h2 := (key 2).toNat_lt
    have h3 := (key 3).toNat_lt
    simp only [BitVec.toNat_append, UInt8.toNat_toBitVec, UInt32.toNat_toBitVec]
    rw [← Nat.shiftLeft_add_eq_or_of_lt h1, ← Nat.shiftLeft_add_eq_or_of_lt h2,
      ← Nat.shiftLeft_add_eq_or_of_lt h3]
    simp only [UInt32.toNat_add, UInt32.toNat_shiftLeft, UInt8.toNat_toUInt32, Nat.shiftLeft_eq]
    simp only [UInt32.reduceToNat, Nat.reduceMod, Nat.reducePow]
    omega
  rw [happend]
  apply BitVec.eq_of_getMsbD_eq
  intro p hp
  have hread : readBit keylen key (0 + p) = bitOf (key (p / 8)) (p % 8) := by
    rw [Nat.zero_add, readBit, Nat.mod_eq_of_lt (by omega), keyBit, decide_eq_true (by omega), Bool.true_and]
  rw [getMsbD_window, decide_eq_true hp, Bool.true_and, hread]
  -- one case for each byte of the key
  simp only [BitVec.getMsbD_append]
  by_cases h3 : 24 ≤ p
  · have hdiv : p / 8 = 3 := by omega
    have hmod : p % 8 = p - 24 := by omega
    rw [if_pos h3, hdiv, hmod]
    rfl
  · rw [if_neg h3]
    by_cases h2 : 16 ≤ p
    · have hdiv : p / 8 = 2 := by omega
      have hmod : p % 8 = p - 16 := by omega
      rw [if_pos h2, hdiv, hmod]
      rfl
    · rw [if_neg h2]
      by_cases h1 : 8 ≤ p
      · have hdiv : p / 8 = 1 := by omega
        have hmod : p % 8 = p - 8 := by omega
        rw [if_pos h1, hdiv, hmod]
        rfl
      · have hdiv : p / 8 = 0 := by omega
        have hmod : p % 8 = p := by omega
        rw [if_neg h1, hdiv, hmod]
        rfl

/-- **`toeplitz_hash`** is the Toeplitz hash with the key as the loop reads it. -/
theorem toeplitzHash_eq (key : Nat → UInt8) (hkeylen : 4 ≤ keylen) (data : List UInt8) :
    (toeplitzHash keylen key data).toBitVec = toeplitz 32 (readBit keylen key) 0 (dataBits data) := by
  rw [toeplitzHash, toeplitzLoop_spec data (firstWindow_spec key hkeylen)]
  exact BitVec.zero_xor

end Loop

/-! ## Against the Toeplitz function -/

/-- On strings of `datalen` bytes `toeplitz_hash` is the Toeplitz function, and so it is linear. -/
structure IsToeplitz (keylen : Nat) (key : Nat → UInt8) (datalen : Nat) : Prop where
  hash : ∀ data, data.length = datalen →
    toeplitzHash keylen key data = toeplitzFunction keylen key data
  linear : ∀ data data', data.length = datalen → data'.length = datalen →
    toeplitzHash keylen key (List.zipWith (· ^^^ ·) data data') =
      toeplitzHash keylen key data ^^^ toeplitzHash keylen key data'

/-- A string of `datalen` bytes in which only bit `p` is set. -/
def oneBit (datalen p : Nat) : List UInt8 :=
  List.replicate (p / 8) 0 ++ [(0x80 : UInt8) >>> UInt8.ofNat (p % 8)] ++
    List.replicate (datalen - p / 8 - 1) 0

section Function

variable {keylen : Nat} {key : Nat → UInt8} {datalen p : Nat}

theorem toeplitzFunction_eq (keylen : Nat) (key : Nat → UInt8) (data : List UInt8) :
    (toeplitzFunction keylen key data).toBitVec = toeplitz 32 (keyBit keylen key) 0 (dataBits data) :=
  (toeplitz_eq_xorAll _).symm

/-- Whatever the lengths, the hash is linear. -/
theorem toeplitzHash_xor (hkeylen : 4 ≤ keylen) {data data' : List UInt8}
    (hlen : data.length = data'.length) :
    toeplitzHash keylen key (List.zipWith (· ^^^ ·) data data') =
      toeplitzHash keylen key data ^^^ toeplitzHash keylen key data' := by
  apply UInt32.toBitVec_inj.mp
  rw [UInt32.toBitVec_xor, toeplitzHash_eq key hkeylen, toeplitzHash_eq key hkeylen,
    toeplitzHash_eq key hkeylen, dataBits_xor hlen]
  apply toeplitz_xor
  rw [length_dataBits, length_dataBits, hlen]

theorem length_oneBit (hp : p < 8 * datalen) : (oneBit datalen p).length = datalen := by
  simp only [oneBit, List.length_append, List.length_replicate, List.length_singleton]
  omega

theorem dataBits_zeros (n : Nat) : dataBits (List.replicate n 0) = List.replicate (8 * n) false := by
  induction n with
  | zero => rfl
  | succ n ih =>
      have hsplit : dataBits (0 :: List.replicate n 0) = byteBits 0 ++ dataBits (List.replicate n 0) :=
        List.flatMap_cons
      rw [List.replicate_succ, hsplit, ih, Nat.mul_succ, Nat.add_comm, ← List.replicate_append_replicate]
      rfl

/-- One set bit contributes its window. -/
theorem toeplitz_oneBit (k : Nat → Bool) (datalen p : Nat) :
    toeplitz 32 k 0 (dataBits (oneBit datalen p)) = window k 32 p := by
  have hbyte : ∀ b < 8, byteBits ((0x80 : UInt8) >>> UInt8.ofNat b) =
      List.replicate b false ++ true :: List.replicate (7 - b) false := by decide
  have hb : p % 8 < 8 := Nat.mod_lt _ (by decide)
  have hone : dataBits [(0x80 : UInt8) >>> UInt8.ofNat (p % 8)] =
      List.replicate (p % 8) false ++ true :: List.replicate (7 - p % 8) false := by
    rw [← hbyte _ hb]
    exact List.flatMap_singleton _ _
  rw [oneBit, dataBits_append, dataBits_append, dataBits_zeros, dataBits_zeros, hone, toeplitz_append,
    toeplitz_append, toeplitz_append, toeplitz, toeplitz_clear, toeplitz_clear, toeplitz_clear,
    toeplitz_clear]
  have hpos : 0 + (List.replicate (8 * (p / 8)) false).length + (List.replicate (p % 8) false).length = p := by
    rw [List.length_replicate, List.length_replicate, Nat.zero_add, Nat.div_add_mod]
  rw [hpos]
  simp

/-- Two keys that differ in a bit have different windows around it. -/
theorem window_ne {k k' : Nat → Bool} {i : Nat} (hi : p ≤ i) (hi' : i < p + 32) (h : k i ≠ k' i) :
    window k 32 p ≠ window k' 32 p := by
  intro heq
  apply h
  have hbit := congrArg (fun x => BitVec.getMsbD x (i - p)) heq
  simpa [getMsbD_window, show i - p < 32 by omega, show p + (i - p) = i by omega] using hbit

/-- **The bits that are read again.** On strings of one length the loop computes the Toeplitz function
if and only if the key bits that its index comes back to within reach of the last window are clear. -/
theorem hash_iff_clear (key : Nat → UInt8) (hkeylen : 4 ≤ keylen) (hlt : keylen < 2 ^ 32) (datalen : Nat)
    (hdata : datalen < 2 ^ 32) :
    (∀ data, data.length = datalen → toeplitzHash keylen key data = toeplitzFunction keylen key data) ↔
      ∀ p < 8 * (datalen + 4 - 2 ^ 32) - 1, keyBit keylen key p = false := by
  have hiff (data : List UInt8) : toeplitzHash keylen key data = toeplitzFunction keylen key data ↔
      toeplitz 32 (readBit keylen key) 0 (dataBits data) =
        toeplitz 32 (keyBit keylen key) 0 (dataBits data) := by
    rw [← toeplitzHash_eq key hkeylen, ← toeplitzFunction_eq, UInt32.toBitVec_inj]
  constructor
  · intro hash p hp
    by_contra hset
    have hlast : 2 ^ 35 + p - 31 < 8 * datalen := by omega
    have hsame := (hiff _).mp (hash (oneBit datalen (2 ^ 35 + p - 31)) (length_oneBit hlast))
    rw [toeplitz_oneBit, toeplitz_oneBit] at hsame
    refine window_ne (i := 2 ^ 35 + p) (by omega) (by omega) ?_ hsame
    -- the loop reads bit `p` again where the key has ended
    rw [readBit, Nat.add_mod_left, Nat.mod_eq_of_lt (by omega), keyBit_past (p := 2 ^ 35 + p) (by omega)]
    exact hset
  · intro hclear data hlen
    rw [hiff]
    apply toeplitz_congr
    intro i hi
    rw [length_dataBits, hlen] at hi
    rw [Nat.zero_add, readBit]
    by_cases hin : i < 2 ^ 35
    · rw [Nat.mod_eq_of_lt hin]
    · rw [keyBit_past (p := i) (by omega)]
      apply hclear
      omega

end Function

/-- **`toeplitz_hash` is the Toeplitz function** on strings of a given length, if and only if the first
key bits are clear, as many as the index comes back to. There are none of them for strings of at most
2^32 - 4 bytes. -/
theorem toeplitz_hash_is_toeplitz_iff (key : Nat → UInt8) {keylen : UInt32} (hkeylen : 4 ≤ keylen)
    (datalen : UInt32) :
    IsToeplitz keylen.toNat key datalen.toNat ↔
      ∀ p < 8 * (datalen.toNat + 4 - 2 ^ 32) - 1, keyBit keylen.toNat key p = false := by
  have hfour : 4 ≤ keylen.toNat := UInt32.le_iff_toNat_le.mp hkeylen
  rw [← hash_iff_clear key hfour keylen.toNat_lt datalen.toNat datalen.toNat_lt]
  constructor
  · intro h
    exact h.hash
  · intro h
    refine ⟨h, ?_⟩
    intro data data' hlen hlen'
    exact toeplitzHash_xor hfour (hlen.trans hlen'.symm)

/-- A key of which only the first bit is set. -/
def Sample.topKey (i : Nat) : UInt8 := if i = 0 then 0x80 else 0

/-- The 12 bytes of a tuple, with 40 bytes of the key. -/
theorem toeplitz_hash_of_tuple : IsToeplitz 40 Sample.topKey 12 := by
  apply (toeplitz_hash_is_toeplitz_iff Sample.topKey (by decide : (4 : UInt32) ≤ 40) 12).mpr
  intro p hp
  exact absurd hp (Nat.not_lt_zero p)

/-- After 2^32 - 4 zero bytes the loop reads the first byte of the key again: the second bit of the
next byte is hashed to 1, where no key bit is left. -/
theorem long_data_reads_key_again :
    toeplitzHash 4 Sample.topKey (oneBit (2 ^ 32 - 3) (2 ^ 35 - 31)) = 1 ∧
      toeplitzFunction 4 Sample.topKey (oneBit (2 ^ 32 - 3) (2 ^ 35 - 31)) = 0 ∧
      ¬ IsToeplitz 4 Sample.topKey (2 ^ 32 - 3) := by
  have hread : toeplitzHash 4 Sample.topKey (oneBit (2 ^ 32 - 3) (2 ^ 35 - 31)) = 1 := by
    apply UInt32.toBitVec_inj.mp
    rw [toeplitzHash_eq _ (by decide), toeplitz_oneBit]
    decide
  have htrue : toeplitzFunction 4 Sample.topKey (oneBit (2 ^ 32 - 3) (2 ^ 35 - 31)) = 0 := by
    apply UInt32.toBitVec_inj.mp
    rw [toeplitzFunction_eq, toeplitz_oneBit]
    decide
  refine ⟨hread, htrue, ?_⟩
  intro h
  have hsame := h.hash (oneBit (2 ^ 32 - 3) (2 ^ 35 - 31)) (length_oneBit (by decide))
  rw [hread, htrue] at hsame
  exact absurd hsame (by decide)

end LazyBsd.Rss
