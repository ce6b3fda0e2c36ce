/-
# LazyBsd.Siphash — SipHash in `lazybsd_crypto.c`.

`SipBuf` takes as much of its input as the 8-byte buffer has room for and works a full buffer into the
state. `SipHash_Update`, which calls it, is not part of the repository, so nothing is assumed of it: the
calls come in any number, with inputs of any length, and only the bytes that `SipBuf` says it took count.
`hashOf` is the hash of a message that is given as a whole.

A failed `KASSERT` is `none`. `bytes` is counted by the caller.
-/
import Mathlib.Logic.Function.Iterate
import LazyBsd.Lib.Absorb
import LazyBsd.Lib.LittleEndian

namespace LazyBsd.Siphash

open LazyBsd.Lib

/-! ## The code -/

/-- `v[0]` to `v[3]`. -/
structure State where
  v0 : UInt64
  v1 : UInt64
  v2 : UInt64
  v3 : UInt64
  deriving DecidableEq

/-- `SIPHASH_CTX`. -/
structure SiphashCtx where
  v : State
  b8 : List UInt8
  bytes : Nat
  buflen : Nat
  roundsCompr : Nat
  roundsFinal : Nat
  initialized : Nat

/-- `SIP_ROTL`. -/
def sipRotl (x b : UInt64) : UInt64 := (x <<< b) ||| (x >>> (64 - b))

/-- The body of the loop of `SipRounds`. -/
def sipRound (v : State) : State :=
  let v := { v with v0 := v.v0 + v.v1 }
  let v := { v with v2 := v.v2 + v.v3 }
  let v := { v with v1 := sipRotl v.v1 13 }
  let v := { v with v3 := sipRotl v.v3 16 }
  let v := { v with v1 := v.v1 ^^^ v.v0 }
  let v := { v with v3 := v.v3 ^^^ v.v2 }
  let v := { v with v0 := sipRotl v.v0 32 }
  let v := { v with v2 := v.v2 + v.v1 }
  let v := { v with v0 := v.v0 + v.v3 }
  let v := { v with v1 := sipRotl v.v1 17 }
  let v := { v with v3 := sipRotl v.v3 21 }
  let v := { v with v1 := v.v1 ^^^ v.v2 }
  let v := { v with v3 := v.v3 ^^^ v.v0 }
  { v with v2 := sipRotl v.v2 32 }

/-- `SipRounds`. -/
def sipRounds (rounds : Nat) (v : State) : State := sipRound^[rounds] v

/-- `le64toh` of the bytes of a word, and `le64dec`. -/
def le64 (bs : List UInt8) : UInt64 := UInt64.ofNat (LittleEndian.ofLe bs)

/-- The word of zeros. -/
def zeroWord : List UInt8 := List.replicate 8 0

/-- `SipHash_SetKey`. -/
def sipHashSetKey (ctx : SiphashCtx) (key : List UInt8) : Option SiphashCtx :=
  if ctx.v.v0 = 0x736f6d6570736575 ∧ ctx.initialized = 1 then
    let k0 := le64 (key.take 8)
    let k1 := le64 ((key.drop 8).take 8)
    some { ctx with
      v := ⟨ctx.v.v0 ^^^ k0, ctx.v.v1 ^^^ k1, ctx.v.v2 ^^^ k0, ctx.v.v3 ^^^ k1⟩
      initialized := 2 }
  else none

/-- A word goes into the state. -/
def compress (rounds : Nat) (v : State) (word : List UInt8) : State :=
  let v := sipRounds rounds { v with v3 := v.v3 ^^^ le64 word }
  { v with v0 := v.v0 ^^^ le64 word }

/-- The end of `SipBuf`. -/
def flushBuf (ctx : SiphashCtx) (final : Bool) : SiphashCtx :=
  if ctx.buflen = 8 ∨ final then
    { ctx with v := compress ctx.roundsCompr ctx.v ctx.b8, b8 := zeroWord, buflen := 0 }
  else ctx

/-- `SipBuf` for more input: how many bytes it took, and the context. -/
def sipBuf (ctx : SiphashCtx) (src : List UInt8) : Option (Nat × SiphashCtx) :=
  if 0 < src.length then
    let x := min src.length (8 - ctx.buflen)
    some (x, flushBuf { ctx with
      b8 := ctx.b8.take ctx.buflen ++ src.take x ++ ctx.b8.drop (ctx.buflen + x)
      buflen := ctx.buflen + x } false)
  else none

/-- `SipBuf` for the last word. -/
def sipBufFinal (ctx : SiphashCtx) : SiphashCtx :=
  flushBuf { ctx with b8 := ctx.b8.set 7 (UInt8.ofNat ctx.bytes) } true

/-- `SipHash_End`: the hash and the context, which is cleared. -/
def sipHashEnd (ctx : SiphashCtx) : Option (UInt64 × SiphashCtx) :=
  if ctx.initialized = 2 then
    let ctx := sipBufFinal ctx
    let v := sipRounds ctx.roundsFinal { ctx.v with v2 := ctx.v.v2 ^^^ 0xff }
    some ((v.v0 ^^^ v.v1) ^^^ (v.v2 ^^^ v.v3), ⟨⟨0, 0, 0, 0⟩, zeroWord, 0, 0, 0, 0, 0⟩)
  else none

/-- Calls of `SipBuf`, each with its own input: the bytes they took, and the context. -/
def sipBufs (ctx : SiphashCtx) : List (List UInt8) → Option (List UInt8 × SiphashCtx)
  | [] => some ([], ctx)
  | src :: srcs =>
      match sipBuf ctx src with
      | none => none
      | some (x, ctx) => (sipBufs ctx srcs).map fun r => (src.take x ++ r.1, r.2)

/-! ## The hash of a whole message -/

/-- The state after the full words of the message, and the last word, which has the rest of the message
and its length. -/
def hashOf (roundsCompr roundsFinal : Nat) (v : State) (words : List (List UInt8))
    (rest : List UInt8) : UInt64 :=
  let length := words.flatten.length + rest.length
  let last := rest ++ List.replicate (7 - rest.length) 0 ++ [UInt8.ofNat length]
  let v := (words ++ [last]).foldl (compress roundsCompr) v
  let v := sipRounds roundsFinal { v with v2 := v.v2 ^^^ 0xff }
  (v.v0 ^^^ v.v1) ^^^ (v.v2 ^^^ v.v3)

/-! ## The buffer -/

/-- **The buffer between two calls**: the state has the full words of the input, the buffer the rest with
zeros behind it. -/
structure Absorbed (start ctx : SiphashCtx) (input : List UInt8) : Prop where
  state : (ctx.v, ctx.b8.take ctx.buflen) = Absorb.all 8 (compress start.roundsCompr) (start.v, []) input
  room : ctx.buflen < 8
  bytes : ctx.b8 = ctx.b8.take ctx.buflen ++ List.replicate (8 - ctx.buflen) 0
  rounds : ctx.roundsCompr = start.roundsCompr ∧ ctx.roundsFinal = start.roundsFinal
  keyed : ctx.initialized = start.initialized ∧ ctx.bytes = start.bytes

variable {start ctx ctx' : SiphashCtx} {input src : List UInt8} {x : Nat}

theorem Absorbed.length (h : Absorbed start ctx input) : (ctx.b8.take ctx.buflen).length = ctx.buflen := by
  have hlength := congrArg List.length h.bytes
  rw [List.length_append, List.length_replicate, List.length_take] at hlength
  rw [List.length_take]
  have hroom := h.room
  omega

/-- What a call of `SipBuf` takes is absorbed. -/
theorem Absorbed.sipBuf (h : Absorbed start ctx input) (hs : sipBuf ctx src = some (x, ctx')) :
    Absorbed start ctx' (input ++ src.take x) ∧ 0 < x ∧ x ≤ src.length := by
  have hlen := h.length
  obtain ⟨hstate, hroom, hbytes, hrounds, hkeyed⟩ := h
  unfold Siphash.sipBuf at hs
  split at hs
  swap
  · cases hs
  rename_i hpos
  obtain ⟨hx, hctx⟩ := Prod.mk.inj (Option.some.inj hs)
  have hxpos : 0 < x ∧ x ≤ src.length ∧ ctx.buflen + x ≤ 8 := by omega
  rw [hx] at hctx
  generalize hp : ctx.b8.take ctx.buflen = pending at *
  have htake : (src.take x).length = x := by
    rw [List.length_take]
    omega
  have hdrop : ctx.b8.drop (ctx.buflen + x) = List.replicate (8 - (ctx.buflen + x)) 0 := by
    rw [hbytes, ← hlen, List.drop_append, List.drop_eq_nil_of_le (by omega), List.drop_replicate,
      List.nil_append]
    congr 1
    omega
  rw [hdrop] at hctx
  refine ⟨?_, hxpos.1, hxpos.2.1⟩
  have hne : src.take x ≠ [] := List.ne_nil_of_length_pos (by omega)
  unfold flushBuf at hctx
  by_cases hfull : ctx.buflen + x = 8
  · -- the buffer is full: it goes into the state
    simp only [hfull, true_or, if_true, Nat.sub_self, List.replicate_zero, List.append_nil] at hctx
    subst hctx
    refine ⟨?_, show 0 < 8 by decide, rfl, hrounds, hkeyed⟩
    rw [Absorb.all_append, ← hstate, Absorb.all_of_eq hne (by omega), ← hrounds.1]
    rfl
  · simp only [hfull, Bool.false_eq_true, or_self, if_false] at hctx
    subst hctx
    have hfront : (pending ++ src.take x ++ List.replicate (8 - (ctx.buflen + x)) (0 : UInt8)).take
        (ctx.buflen + x) = pending ++ src.take x :=
      List.take_left' (by rw [List.length_append]; omega)
    refine ⟨?_, by dsimp only; omega, ?_, hrounds, hkeyed⟩
    · dsimp only
      rw [Absorb.all_append, ← hstate, Absorb.all_of_lt (by omega), hfront]
    · dsimp only
      rw [hfront]

/-- All calls. -/
theorem Absorbed.sipBufs {srcs : List (List UInt8)} {taken : List UInt8} (h : Absorbed start ctx input)
    (hs : sipBufs ctx srcs = some (taken, ctx')) : Absorbed start ctx' (input ++ taken) := by
  induction srcs generalizing ctx input taken with
  | nil =>
      obtain ⟨rfl, rfl⟩ := Prod.mk.inj (Option.some.inj hs)
      rwa [List.append_nil]
  | cons src srcs ih =>
      unfold Siphash.sipBufs at hs
      cases hbuf : Siphash.sipBuf ctx src with
      | none => simp [hbuf] at hs
      | some r =>
          simp only [hbuf] at hs
          obtain ⟨r', hr', heq⟩ := Option.map_eq_some_iff.mp hs
          obtain ⟨rfl, rfl⟩ := Prod.mk.inj heq
          rw [← List.append_assoc]
          exact ih (h.sipBuf hbuf).1 hr'

/-- A context with a key that has no input yet. -/
structure Keyed (ctx : SiphashCtx) : Prop where
  initialized : ctx.initialized = 2
  buflen : ctx.buflen = 0
  b8 : ctx.b8 = zeroWord

theorem Keyed.absorbed (h : Keyed start) : Absorbed start start [] := by
  refine ⟨?_, by rw [h.buflen]; decide, ?_, ⟨rfl, rfl⟩, ⟨rfl, rfl⟩⟩
  · rw [h.buflen]
    rfl
  · rw [h.buflen, h.b8]
    rfl

/-- The last byte of a word is replaced. -/
theorem set_last {pad : List UInt8} {x y : UInt8} (h : pad.length = 7) :
    (pad ++ [x]).set 7 y = pad ++ [y] := by
  rw [List.set_append_right _ _ (by omega), h]
  rfl

/-- **However the message comes, the hash is the same.** Calls of `SipBuf` whose inputs are taken in any
pieces, followed by `SipHash_End`, give the hash of all the bytes that they took, if `bytes` counts them;
the context is cleared, so that no second hash can be taken from it. -/
theorem hash_of_pieces {srcs words : List (List UInt8)} {rest taken : List UInt8} (hkey : Keyed start)
    (hs : sipBufs start srcs = some (taken, ctx)) (htaken : taken = words.flatten ++ rest)
    (hwords : ∀ w ∈ words, w.length = 8) (hrest : rest.length < 8)
    (hbytes : ctx.bytes % 256 = taken.length % 256) :
    ∃ cleared, sipHashEnd ctx =
        some (hashOf start.roundsCompr start.roundsFinal start.v words rest, cleared) ∧
      sipHashEnd cleared = none ∧ ∀ key, sipHashSetKey cleared key = none := by
  have habsorbed := hkey.absorbed.sipBufs hs
  have hlength := habsorbed.length
  obtain ⟨hstate, hroom, hb8, hrounds, hkeyed⟩ := habsorbed
  rw [List.nil_append, htaken, Absorb.all_blocks (by decide) hwords hrest] at hstate
  obtain ⟨hv, hpending⟩ := Prod.mk.inj hstate
  rw [hpending] at hlength hb8
  have hlast : ctx.b8.set 7 (UInt8.ofNat ctx.bytes) = rest ++ List.replicate (7 - rest.length) 0 ++
      [UInt8.ofNat (words.flatten.length + rest.length)] := by
    have hbyte : UInt8.ofNat ctx.bytes = UInt8.ofNat (words.flatten.length + rest.length) := by
      rw [htaken, List.length_append] at hbytes
      exact UInt8.toNat_inj.mp (by simpa using hbytes)
    have hzeros : (List.replicate (8 - ctx.buflen) (0 : UInt8)) =
        List.replicate (7 - rest.length) 0 ++ [0] := by
      rw [← List.replicate_succ']
      congr 1
      omega
    have hpad : (rest ++ List.replicate (7 - rest.length) (0 : UInt8)).length = 7 := by
      rw [List.length_append, List.length_replicate]
      omega
    rw [hbyte, hb8, hzeros, ← List.append_assoc]
    exact set_last hpad
  refine ⟨⟨⟨0, 0, 0, 0⟩, zeroWord, 0, 0, 0, 0, 0⟩, ?_, rfl, fun key => rfl⟩
  rw [sipHashEnd, if_pos (hkeyed.1.trans hkey.initialized)]
  simp only [sipBufFinal, flushBuf, or_true, if_true, hlast, hv, hrounds.1, hrounds.2, hashOf,
    List.foldl_append, List.foldl_cons, List.foldl_nil]

/-! ### A message of nine bytes in two pieces -/

namespace Sample

/-- A context for SipHash-2-4 with the key 0 .. 15, for a message of nine bytes. -/
def context : SiphashCtx :=
  ⟨⟨0x7469686173716475, 0x6b617f6d656e6665, 0x6b7f62616d677361, 0x7b6b696e727e6c7b⟩, zeroWord, 9, 0,
    2, 4, 2⟩

theorem context_keyed : Keyed context := ⟨rfl, rfl, rfl⟩

end Sample

theorem hash_of_pieces_two :
    ∃ ctx, sipBufs Sample.context [[0, 1, 2], [3, 4, 5, 6, 7, 8], [8]] =
        some ([0, 1, 2, 3, 4, 5, 6, 7, 8], ctx) ∧
      (sipHashEnd ctx).map Prod.fst =
        some (hashOf 2 4 Sample.context.v [[0, 1, 2, 3, 4, 5, 6, 7]] [8]) := by
  obtain ⟨⟨taken, ctx⟩, hr⟩ := Option.isSome_iff_exists.mp (by decide +kernel :
    (sipBufs Sample.context [[0, 1, 2], [3, 4, 5, 6, 7, 8], [8]]).isSome = true)
  have htaken : taken = [0, 1, 2, 3, 4, 5, 6, 7, 8] := by
    have hmap : (sipBufs Sample.context [[0, 1, 2], [3, 4, 5, 6, 7, 8], [8]]).map Prod.fst =
        some [0, 1, 2, 3, 4, 5, 6, 7, 8] := by decide +kernel
    rw [hr] at hmap
    exact Option.some.inj hmap
  have hbytes : ctx.bytes = 9 := (Sample.context_keyed.absorbed.sipBufs hr).keyed.2
  obtain ⟨cleared, hend, -⟩ := @hash_of_pieces _ _ _ [[0, 1, 2, 3, 4, 5, 6, 7]] [8] taken
    Sample.context_keyed hr (by rw [htaken]; rfl) (by decide) (by decide) (by rw [hbytes, htaken]; rfl)
  exact ⟨ctx, by rw [hr, htaken], by rw [hend]; rfl⟩

end LazyBsd.Siphash
