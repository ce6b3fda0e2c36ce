/-
# LazyBsd.Route.Message — routing messages: `rtsock_msg_buffer` writes them, `rt_xaddrs` reads them.

A message is a `struct rt_msghdr` of 152 bytes, followed by the sockaddrs of the slots that `rtm_addrs`
names, each rounded up to 8 bytes. The slots of a `struct rt_addrinfo` are pointers. They may point
anywhere, and into the message itself: a reply is written over the request whose addresses it repeats.
So a slot is a reference (`SaRef`), read in the block as it is at that moment.

FreeBSD's scope functions for IPv6 are parameters (`Scope6`): they rewrite the address and the scope id
of a `sockaddr_in6`, which has 28 bytes, and leave length and family alone.
-/
import Mathlib.Algebra.Group.Nat.Defs
import Mathlib.Logic.Function.Basic
import LazyBsd.Lib.Block

namespace LazyBsd.Route

open Lib

/-- The bytes of a block of memory, by offset. What lies behind the block is there, too: the code may
read past it. -/
abbrev Bytes := Nat → UInt8

/-! ## Sockaddrs -/

/-- `AF_INET`, `AF_LINK` and `AF_INET6`. -/
def afInet : UInt8 := 2
def afLink : UInt8 := 18
def afInet6 : UInt8 := 28

/-- A `struct sockaddr *`: at an offset of the message, or outside the message. -/
inductive SaRef
  | msg (off : Nat)
  | ext (bytes : Bytes)

/-- Byte `k` of the sockaddr. -/
def SaRef.byte (b : Bytes) : SaRef → Nat → UInt8
  | .msg off, k => b (off + k)
  | .ext bytes, k => bytes k

/-- `sa_len` and `sa_family`. -/
def SaRef.len (b : Bytes) (sa : SaRef) : UInt8 := sa.byte b 0
def SaRef.family (b : Bytes) (sa : SaRef) : UInt8 := sa.byte b 1

/-- The first `n` bytes. -/
def SaRef.bytes (b : Bytes) (sa : SaRef) (n : Nat) : List UInt8 := Block.read (sa.byte b) 0 n

/-- The sockaddr: as many bytes as its length says. -/
def SaRef.contents (b : Bytes) (sa : SaRef) : List UInt8 := sa.bytes b (sa.len b).toNat

/-- `SA_SIZE`. -/
def saSize (len : UInt8) : Nat := if len = 0 then 8 else 1 + ((len.toNat - 1) ||| 7)

/-- `ALIGN`. -/
def align (n : Nat) : Nat := (n + 7) / 8 * 8

theorem saSize_spec (len : UInt8) :
    len.toNat ≤ saSize len ∧ 8 ≤ saSize len ∧ saSize len ≤ 256 ∧ saSize len % 8 = 0 := by
  have hall : ∀ n : Fin 256, (UInt8.ofNat n).toNat ≤ saSize (.ofNat n) ∧ 8 ≤ saSize (.ofNat n) ∧
      saSize (.ofNat n) ≤ 256 ∧ saSize (.ofNat n) % 8 = 0 := by decide +kernel
  have hlen := hall ⟨len.toNat, len.toNat_lt⟩
  rwa [UInt8.ofNat_toNat] at hlen

/-- `sa_zero`. -/
def saZero : SaRef := .ext fun k => if k = 0 then 16 else if k = 1 then afInet else 0

/-- `sa6_embedscope` (with `V_ip6_use_defzone`) and `sa6_recoverscope` on the 28 bytes of a
`sockaddr_in6`; a `sa6_recoverscope` that fails changes nothing. -/
structure Scope6 where
  embedscope : List UInt8 → List UInt8
  recoverscope : List UInt8 → Option (List UInt8)
  embed_length : ∀ {s}, s.length = 28 → (embedscope s).length = 28
  embed_head : ∀ {s}, s.length = 28 → (embedscope s).take 2 = s.take 2
  recover_length : ∀ {s s'}, s.length = 28 → recoverscope s = some s' → s'.length = 28
  recover_head : ∀ {s s'}, s.length = 28 → recoverscope s = some s' → s'.take 2 = s.take 2

/-! ## The header -/

/-- The number that `bs` encodes, low byte first. -/
def leNat (bs : List UInt8) : Nat := bs.foldr (fun x n => x.toNat + 256 * n) 0

/-- The bytes of a 16 bit and of a 32 bit field. -/
def le16 (v : UInt16) : List UInt8 := [v.toUInt8, (v >>> 8).toUInt8]
def le32 (v : UInt32) : List UInt8 :=
  [v.toUInt8, (v >>> 8).toUInt8, (v >>> 16).toUInt8, (v >>> 24).toUInt8]

theorem leNat_le16 (v : UInt16) : leNat (le16 v) = v.toNat := by
  have hlt := v.toNat_lt
  simp only [leNat, le16, List.foldr_cons, List.foldr_nil, UInt16.toNat_toUInt8,
    UInt16.toNat_shiftRight, Nat.shiftRight_eq_div_pow]
  simp
  omega

theorem leNat_le32 (v : UInt32) : leNat (le32 v) = v.toNat := by
  have hlt := v.toNat_lt
  simp only [leNat, le32, List.foldr_cons, List.foldr_nil, UInt32.toNat_toUInt8,
    UInt32.toNat_shiftRight, Nat.shiftRight_eq_div_pow]
  simp
  omega

/-- `sizeof(struct rt_msghdr)`, the only header of the messages here. -/
def rtMsghdrSize : Nat := 152

/-- `RTAX_MAX`. -/
def rtaxMax : Nat := 8

/-- `rtm_msglen`, `rtm_version`, `rtm_type`, `rtm_flags` and `rtm_addrs`. -/
def rtmMsglen (b : Bytes) : Nat := leNat (Block.read b 0 2)
def rtmVersion (b : Bytes) : UInt8 := b 2
def rtmType (b : Bytes) : UInt8 := b 3
def rtmFlags (b : Bytes) : UInt32 := .ofNat (leNat (Block.read b 8 4))
def rtmAddrs (b : Bytes) : UInt32 := .ofNat (leNat (Block.read b 12 4))

theorem rtmMsglen_congr {b b' : Bytes} (h : ∀ k < 2, b' k = b k) : rtmMsglen b' = rtmMsglen b := by
  rw [rtmMsglen, rtmMsglen, Block.read_congr]
  intro i hi
  exact h _ (by omega)

/-- `addrs & (1 << i)`. -/
def hasAddr (addrs : UInt32) (i : Nat) : Bool := addrs.toNat.testBit i

/-- `addrs | (1 << i)`. -/
def addAddr (addrs : UInt32) (i : Nat) : UInt32 := addrs ||| .ofNat (2 ^ i)

theorem hasAddr_addAddr (addrs : UInt32) {i : Nat} (hi : i < 32) (j : Nat) :
    hasAddr (addAddr addrs i) j = (hasAddr addrs j || decide (i = j)) := by
  have hlt : 2 ^ i < 2 ^ 32 := Nat.pow_lt_pow_right (by decide) hi
  rw [hasAddr, addAddr, UInt32.toNat_or, UInt32.toNat_ofNat', Nat.mod_eq_of_lt hlt, Nat.testBit_or,
    Nat.testBit_two_pow]
  rfl

/-- The slots `rti_info` of a `struct rt_addrinfo`. -/
abbrev RtInfo := Nat → Option SaRef

/-! ## `rt_xaddrs` -/

/-- The block when the sockaddr at `cp` is accepted. -/
def accept (sc : Scope6) (cp : Nat) (b : Bytes) : Bytes :=
  if b (cp + 1) = afInet6 then Block.write b cp (sc.embedscope (Block.read b cp 28)) else b

/-- The loop of `rt_xaddrs` over the slots still to do; `false` is its `EINVAL`. -/
def rtXaddrs (sc : Scope6) (cplim : Nat) (addrs : UInt32) :
    List Nat → Nat → RtInfo → Bytes → Bool × RtInfo × Bytes
  | [], _, info, b => (true, info, b)
  | i :: is, cp, info, b =>
      if cplim ≤ cp then (true, info, b)
      else if hasAddr addrs i = false then rtXaddrs sc cplim addrs is cp info b
      else if cplim < cp + (b cp).toNat then (false, info, b)
      -- a length of 0 ends the message without an error
      else if b cp = 0 then (true, Function.update info i (some saZero), b)
      else
        let b := accept sc cp b
        rtXaddrs sc cplim addrs is (cp + saSize (b cp)) (Function.update info i (some (.msg cp))) b

/-! ## `rtsock_msg_buffer` -/

/-- What the copy of a sockaddr stores: a `sockaddr_in6` goes through `ss`, with its scope recovered.
What lies behind its 28 bytes in `ss` is whatever the stack held. -/
def encoded (sc : Scope6) (stack : Bytes) (b : Bytes) (sa : SaRef) : List UInt8 :=
  let dlen := saSize (sa.len b)
  if sa.family b = afInet6 then
    match sc.recoverscope (sa.bytes b 28) with
    | some sin6 => (List.range dlen).map fun k => sin6.getD k (stack k)
    | none => sa.bytes b dlen
  else sa.bytes b dlen

/-- The state of `rtsock_msg_buffer`: `cp` is NULL when there is no buffer or no room any more.
`copied` records the slots that were copied. -/
structure MsgBuffer where
  block : Bytes
  addrs : UInt32
  len : Nat
  cp : Option Nat
  buflen : Int
  copied : List Nat

/-- A turn of the loop. -/
def msgBufferTurn (sc : Scope6) (stack : Bytes) (info : RtInfo) (st : MsgBuffer) (i : Nat) : MsgBuffer :=
  match info i with
  | none => st
  | some sa =>
      let dlen := saSize (sa.len st.block)
      let st := { st with addrs := addAddr st.addrs i, len := st.len + dlen }
      match st.cp with
      | none => st
      | some cp =>
          if (dlen : Int) ≤ st.buflen then
            { st with
              block := Block.write st.block cp (encoded sc stack st.block sa)
              cp := some (cp + dlen)
              buflen := st.buflen - dlen
              copied := st.copied ++ [i] }
          else { st with cp := none }

/-- The loop over the slots still to do. -/
def msgBufferLoop (sc : Scope6) (stack : Bytes) (info : RtInfo) : List Nat → MsgBuffer → MsgBuffer
  | [], st => st
  | i :: is, st => msgBufferLoop sc stack info is (msgBufferTurn sc stack info st i)

/-- The stores of `rtm_msglen`, `rtm_version` and `rtm_type`. -/
def fillHeader (type : UInt8) (len : Nat) (b : Bytes) : Bytes :=
  Block.write b 0 (le16 (.ofNat len) ++ [5, type])

theorem rtmMsglen_fillHeader {type : UInt8} {len : Nat} (hlen : len < 2 ^ 16) (b : Bytes) :
    rtmMsglen (fillHeader type len b) = len := by
  have hread : Block.read (fillHeader type len b) 0 2 = le16 (.ofNat len) := by
    have hall := Block.read_write b 0 (le16 (.ofNat len) ++ [5, type])
    have htake := congrArg (List.take 2) hall
    rwa [Block.read_take (by simp [le16])] at htake
  rw [rtmMsglen, hread, leNat_le16, UInt16.toNat_ofNat', Nat.mod_eq_of_lt hlen]

theorem fillHeader_behind {type : UInt8} {len k : Nat} (b : Bytes) (hk : 4 ≤ k) :
    fillHeader type len b k = b k := Block.write_after hk

/-- What follows the loop: the length is rounded, and the header is filled in if there is a buffer. -/
def msgBufferEnd (type : UInt8) (st : MsgBuffer) : MsgBuffer :=
  let pad := align st.len - st.len
  let cp := if st.buflen < pad then none else st.cp
  match cp with
  | some _ => { st with block := fillHeader type (align st.len) st.block, len := align st.len }
  | none => { st with len := align st.len, cp := none }

/-- The state before the loop. `tmemsize` is `w->w_tmemsize` of a buffer at the start of the block,
`none` is a NULL `w`. -/
def MsgBuffer.start (tmemsize : Option Int) (b : Bytes) : MsgBuffer where
  block := b
  addrs := 0
  len := rtMsghdrSize
  cp := tmemsize.map fun _ => rtMsghdrSize
  buflen := tmemsize.getD 0 - rtMsghdrSize
  copied := []

/-- `rtsock_msg_buffer` for a message type whose header is a `struct rt_msghdr`; a call with a buffer
fails when it leaves no `cp`. -/
def rtsockMsgBuffer (sc : Scope6) (stack : Bytes) (type : UInt8) (info : RtInfo)
    (tmemsize : Option Int) (b : Bytes) : MsgBuffer :=
  msgBufferEnd type (msgBufferLoop sc stack info (List.range rtaxMax) (.start tmemsize b))

end LazyBsd.Route
