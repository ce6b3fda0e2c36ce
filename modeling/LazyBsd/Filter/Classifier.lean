/-
# LazyBsd.Filter.Classifier — the frame classifier of `lazybsd_dpdk.cc` (`LAZYBSD_KNI` and `INET6`).

Models `protocol_filter`, `protocol_filter_ip`, `get_ipv6_hdr_len` and their leaves. The classifier gets
a pointer and a 16-bit length; `data` is what the pointer reads, also past the end of the frame. Each
function logs what it reads, each subtraction on the running length, each remaining length it passes
with a pointer, and each recursive call. Lengths are `UInt16`, so a subtraction that goes below zero
wraps as in the code.

`protocol_filter_ip` calls itself in tail position only, so it is a loop over its body; there is no bound
on the number of turns in the code. `Tunnel` says in terms of header fields which header the body goes on
to, `ExtEnds` where a chain of IPv6 extension headers ends as this code counts, and the body is proved to
agree with both.
-/
import Mathlib.Tactic.Common
import LazyBsd.Lib.Trace

namespace LazyBsd.Filter

open Lib Lib.Traced

/-! ## Events -/

/-- Memory from the start of the frame on. -/
abbrev Bytes := Nat → UInt8

/-- What the classifier does with the frame. -/
inductive Event
  /-- The byte at an offset is read. -/
  | read (off : Nat)
  /-- `n` is taken off the running length. -/
  | sub (len : UInt16) (n : Nat)
  /-- A pointer is passed on with the remaining length. -/
  | call (off : Nat) (len : UInt16)
  /-- A function with remaining length `len` calls itself with `len'`. -/
  | recurse (len len' : UInt16)
  deriving DecidableEq, Repr

/-- Read one byte. -/
def read (data : Bytes) (off : Nat) : Traced Event UInt8 := do
  emit (.read off)
  pure (data off)

/-- Read a field in network order into a number: `rte_be_to_cpu_16`. -/
def readBe16 (data : Bytes) (off : Nat) : Traced Event UInt16 := do
  let hi ← read data off
  let lo ← read data (off + 1)
  pure (hi.toUInt16 <<< 8 ||| lo.toUInt16)

/-- Read a field as it lies in memory. -/
def readRaw16 (data : Bytes) (off : Nat) : Traced Event UInt16 := do
  let lo ← read data off
  let hi ← read data (off + 1)
  pure (hi.toUInt16 <<< 8 ||| lo.toUInt16)

/-- `len - n`. -/
def lenSub (len : UInt16) (n : Nat) : Traced Event UInt16 := do
  emit (.sub len n)
  pure (len - UInt16.ofNat n)

/-! ## Constants -/

def etherTypeIpv4 : UInt16 := 0x0800
def etherTypeArp : UInt16 := 0x0806
def etherTypeVlan : UInt16 := 0x8100
def etherTypeIpv6 : UInt16 := 0x86DD

def ipprotoIpip : UInt8 := 4
def ipprotoTcp : UInt8 := 6
def ipprotoUdp : UInt8 := 17
def ipprotoIpv6 : UInt8 := 41
def ipprotoFragment : UInt8 := 44
def ipprotoAh : UInt8 := 51
def ipprotoIcmpv6 : UInt8 := 58

/-- `IPPROTO_HOPOPTS`, `IPPROTO_ROUTING`, `IPPROTO_DSTOPTS`, `IPPROTO_MH`, `IPPROTO_HIP` and
`IPPROTO_SHIM6`. -/
def optionProtos : List UInt8 := [0, 43, 60, 135, 139, 140]

/-- `enum FilterReturn`. -/
inductive FilterReturn
  | unknown
  | arp
  | kni
  | ndp
  deriving DecidableEq, Repr

/-- The globals that the classifier reads: `enable_kni` and the two port bitmaps. -/
structure FilterConfig where
  enableKni : Bool
  tcpPortBitmap : Nat → UInt8
  udpPortBitmap : Nat → UInt8

/-! ## The leaves -/

/-- `magic_bits`. -/
def magicBits : List UInt8 := [0x80, 0x40, 0x20, 0x10, 0x8, 0x4, 0x2, 0x1]

/-- `get_bitmap`: `port` is used as it is. -/
def getBitmap (port : UInt16) (bitmap : Nat → UInt8) : Bool :=
  decide (0 < bitmap (port.toNat / 8) &&& magicBits[port.toNat % 8]!)

/-- `protocol_filter_l4`. -/
def protocolFilterL4 (port : UInt16) (bitmap : Nat → UInt8) : FilterReturn :=
  if getBitmap port bitmap then .kni else .unknown

/-- `protocol_filter_tcp` and `protocol_filter_udp`: the destination port is the second field of both
headers. -/
def filterPort (hdrSize : UInt16) (bitmap : Nat → UInt8) (data : Bytes) (off : Nat) (len : UInt16) :
    Traced Event FilterReturn :=
  if len < hdrSize then pure .unknown
  else do
    let port ← readRaw16 data (off + 2)
    pure (protocolFilterL4 port bitmap)

/-- `protocol_filter_tcp`. -/
def protocolFilterTcp (cfg : FilterConfig) : Bytes → Nat → UInt16 → Traced Event FilterReturn :=
  filterPort 20 cfg.tcpPortBitmap

/-- `protocol_filter_udp`. -/
def protocolFilterUdp (cfg : FilterConfig) : Bytes → Nat → UInt16 → Traced Event FilterReturn :=
  filterPort 8 cfg.udpPortBitmap

/-- `protocol_filter_icmp6`; `ND_ROUTER_SOLICIT` is 133 and `ND_REDIRECT` is 137. -/
def protocolFilterIcmp6 (data : Bytes) (off : Nat) (len : UInt16) : Traced Event FilterReturn :=
  if len < 8 then pure .unknown
  else do
    let ty ← read data off
    pure (if 133 ≤ ty ∧ ty ≤ 137 then .ndp else .unknown)

/-! ## `get_ipv6_hdr_len` -/

/-- The `switch`: the length of the extension header `proto` at `off`, none for any other protocol. -/
def extHdrLen (data : Bytes) (proto : UInt8) (off : Nat) : Traced Event (Option Nat) :=
  if proto ∈ optionProtos then do
    let b ← read data (off + 1)
    pure (some (b.toNat + 1))
  else if proto = ipprotoFragment then pure (some 8)
  else if proto = ipprotoAh then do
    let b ← read data (off + 1)
    pure (some ((b.toNat + 2) * 4))
  else pure none

/-- `get_ipv6_hdr_len`, at most `fuel` calls deep: the protocol left in `*proto`, and the returned
length. -/
def getIpv6HdrLen (data : Bytes) : Nat → UInt8 → Nat → UInt16 → Traced Event (UInt8 × Nat)
  | 0, _, _, _ => cut
  | fuel + 1, proto, off, len => do
      match ← extHdrLen data proto off with
      | none => pure (proto, 0)
      | some ext =>
          -- the header claims the rest or more: it counts as the last one
          if len.toNat ≤ ext then pure (proto, len.toNat)
          else do
            let proto ← read data off
            let rest ← lenSub len ext
            emit (.call (off + ext) rest)
            emit (.recurse len rest)
            let r ← getIpv6HdrLen data fuel proto (off + ext) rest
            pure (r.1, ext + r.2)

/-! ## `protocol_filter_ip` -/

/-- The arguments of `protocol_filter_ip`. -/
structure IpPos where
  off : Nat
  len : UInt16
  etherType : UInt16
  deriving DecidableEq, Repr

/-- `(version_ihl & 0x0f) << 2`. -/
def ihlBytes (versionIhl : UInt8) : Nat := (versionIhl &&& 0x0f).toNat <<< 2

/-- The first half: `proto` and `hdr_len`, or `FILTER_UNKNOWN`. -/
def ipHeader (data : Bytes) (p : IpPos) : Traced Event (Option (UInt8 × Nat)) :=
  if p.etherType = etherTypeIpv4 then
    if p.len < 20 then pure none
    else do
      let versionIhl ← read data p.off
      -- only the upper bound is tested: a header of no bytes passes
      if p.len.toNat < ihlBytes versionIhl then pure none
      else do
        let proto ← read data (p.off + 9)
        pure (some (proto, ihlBytes versionIhl))
  else if p.etherType = etherTypeIpv6 then
    if p.len < 40 then pure none
    else do
      let proto ← read data (p.off + 6)
      let rest ← lenSub p.len 40
      emit (.call (p.off + 40) rest)
      -- more calls than bytes are never needed: `getIpv6HdrLen_res`
      let r ← getIpv6HdrLen data (rest.toNat + 1) proto (p.off + 40) rest
      if p.len.toNat < 40 + r.2 then pure none
      else pure (some (r.1, 40 + r.2))
  else pure none

/-- A call of one of the leaves, whose result is returned. -/
def returnLeaf (leaf : Nat → UInt16 → Traced Event FilterReturn) (off : Nat) (len : UInt16) :
    Traced Event (FilterReturn ⊕ IpPos) := do
  emit (.call off len)
  let r ← leaf off len
  pure (.inl r)

/-- A tail call of `protocol_filter_ip` from `p`. -/
def tailCall (p q : IpPos) : Traced Event (FilterReturn ⊕ IpPos) := do
  emit (.call q.off q.len)
  emit (.recurse p.len q.len)
  pure (.inr q)

/-- The body of `protocol_filter_ip`: a result, or the arguments of the tail call. -/
def protocolFilterIpBody (cfg : FilterConfig) (data : Bytes) (p : IpPos) :
    Traced Event (FilterReturn ⊕ IpPos) := do
  match ← ipHeader data p with
  | none => pure (.inl .unknown)
  | some (proto, hdrLen) =>
      let nextLen ← lenSub p.len hdrLen
      if proto = ipprotoTcp then
        if cfg.enableKni then returnLeaf (protocolFilterTcp cfg data) (p.off + hdrLen) nextLen
        else pure (.inl .unknown)
      else if proto = ipprotoUdp then
        if cfg.enableKni then returnLeaf (protocolFilterUdp cfg data) (p.off + hdrLen) nextLen
        else pure (.inl .unknown)
      else if proto = ipprotoIpip then tailCall p ⟨p.off + hdrLen, nextLen, etherTypeIpv4⟩
      else if proto = ipprotoIpv6 then tailCall p ⟨p.off + hdrLen, nextLen, etherTypeIpv6⟩
      else if proto = ipprotoIcmpv6 then
        returnLeaf (protocolFilterIcmp6 data) (p.off + hdrLen) nextLen
      else pure (.inl .unknown)

/-- `protocol_filter_ip`, at most `fuel` calls deep. -/
def protocolFilterIp (cfg : FilterConfig) (data : Bytes) : Nat → IpPos → Traced Event FilterReturn :=
  loop (protocolFilterIpBody cfg data)

/-! ## `protocol_filter` -/

/-- The VLAN tag, if there is one: the type, offset and remaining length of what follows. -/
def vlanTag (data : Bytes) (etherType len : UInt16) : Traced Event (UInt16 × Nat × UInt16) :=
  if etherType = etherTypeVlan then do
    let ethProto ← readBe16 data 16
    let len ← lenSub len 4
    pure (ethProto, 18, len)
  else pure (etherType, 14, len)

/-- The tests on the type. -/
def etherSwitch (cfg : FilterConfig) (r : UInt16 × Nat × UInt16) : Traced Event (FilterReturn ⊕ IpPos) :=
  if r.1 = etherTypeArp then pure (.inl .arp)
  else if r.1 = etherTypeIpv6 then do
    emit (.call r.2.1 r.2.2)
    pure (.inr ⟨r.2.1, r.2.2, r.1⟩)
  else if !cfg.enableKni then pure (.inl .unknown)
  else if r.1 ≠ etherTypeIpv4 then pure (.inl .unknown)
  else do
    emit (.call r.2.1 r.2.2)
    pure (.inr ⟨r.2.1, r.2.2, r.1⟩)

/-- `protocol_filter` up to the call of `lazybsd_kni_proto_filter`: a result, or its arguments. -/
def protocolFilterEther (cfg : FilterConfig) (data : Bytes) (len : UInt16) :
    Traced Event (FilterReturn ⊕ IpPos) :=
  -- `RTE_ETHER_ADDR_LEN`, not the length of the header that is read
  if len < 6 then pure (.inl .unknown)
  else do
    let etherType ← readBe16 data 12
    let len ← lenSub len 14
    let r ← vlanTag data etherType len
    etherSwitch cfg r

/-- `protocol_filter`; `lazybsd_kni_proto_filter` is `protocol_filter_ip`. -/
def protocolFilter (cfg : FilterConfig) (data : Bytes) (fuel : Nat) (len : UInt16) :
    Traced Event FilterReturn := do
  match ← protocolFilterEther cfg data len with
  | .inl r => pure r
  | .inr p => protocolFilterIp cfg data fuel p

end LazyBsd.Filter
