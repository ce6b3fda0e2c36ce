/-
# LazyBsd.Route.Reply — `update_rtm_from_rc`: the reply to RTM_GET and RTM_DELETE.

The reply is written over the request, or into a larger buffer when it needs one. It repeats addresses
of the request, which the slots still point to, and it stores one address behind the other: what lies
further on in the request may be overwritten before its turn comes. `reply_is_faithful_when` says when
every address arrives.

What FreeBSD's routing table, its jails and its allocator answer are parameters.
-/
import LazyBsd.Route.Parse
import LazyBsd.Route.Request

namespace LazyBsd.Route

open Lib

/-! ## The route -/

/-- What is read of a `struct ifnet`: `if_addr->ifa_addr`, the `ifa_addr` on `if_addrhead`,
`IFF_POINTOPOINT` and `if_index`. -/
structure Ifnet where
  ifAddr : Bytes
  addrs : List Bytes
  pointopoint : Bool
  index : UInt16

/-- What is read of a `struct nhop_object`; `ifaAddr` and `ifaDstaddr` are fields of its `nh_ifa`. -/
structure Nhop where
  gwSa : Bytes
  ifp : Option Ifnet
  ifaAddr : Bytes
  ifaDstaddr : Option Bytes
  rtflags : UInt32
  mtu : UInt64
  idx : UInt64

/-- What is read of a `struct rtentry`: the prefix as `rt_get_inet_prefix_pmask` or
`rt_get_inet6_prefix_pmask` (with the scope id) returns it, `rte_flags`, `rt_is_host`, and `rt_expire`,
0 or in the time of userland. -/
structure Rtentry where
  addr : List UInt8
  mask : List UInt8
  scopeid : UInt32
  flags : UInt32
  isHost : Bool
  expire : UInt64

/-- `struct rib_cmd_info`, and the next hop that goes with it. -/
structure RibCmdInfo where
  rt : Rtentry
  nh : Nhop
  nhWeight : UInt64

/-- The answers of the jail of the caller. `prisonIf`, `checkIp4` and `checkIp6` are `prison_if`,
`prison_check_ip4` and `prison_check_ip6` returning 0; `prison_get_ip4` and `prison_get_ip6` may fail. -/
structure Jail where
  prisonIf : Bytes → Bool
  checkIp4 : List UInt8 → Bool
  getIp4 : List UInt8 → Option (List UInt8)
  checkIp6 : List UInt8 → Bool
  getIp6 : List UInt8 → Option (List UInt8)

/-- What the variables on the stack hold before they are set, and what `malloc` gives for the larger
buffer: NULL, or memory with some contents. -/
structure Memory where
  saDst : Bytes
  saMask : Bytes
  saun : Bytes
  ss : Bytes
  tmp : Option Bytes

/-- `init_sockaddrs_family`, for one of its two sockaddrs. -/
def initSockaddrsFamily (family : UInt8) (sa : Bytes) : Bytes :=
  if family = afInet then Block.write sa 0 ([sockaddrInSize, afInet] ++ List.replicate 14 0)
  else if family = afInet6 then Block.write sa 0 ([sockaddrIn6Size, afInet6] ++ List.replicate 26 0)
  else sa

/-- `export_rtaddrs`. -/
def exportRtaddrs (rt : Rtentry) (dst mask : Bytes) : Bytes × Bytes :=
  if dst 1 = afInet then (Block.write dst 4 (rt.addr.take 4), Block.write mask 4 (rt.mask.take 4))
  else if dst 1 = afInet6 then
    (Block.write (Block.write dst 8 (rt.addr.take 16)) 24 (le32 rt.scopeid),
      Block.write mask 8 (rt.mask.take 16))
  else (dst, mask)

/-- The `n` bytes at `off`. -/
def addrOf (off n : Nat) (sa : Bytes) : List UInt8 := Block.read sa off n

/-- `rtm_get_jailed` for a destination of the family `family`: the address for `RTAX_IFA`. -/
def rtmGetJailed (sc : Scope6) (jail : Jail) (mem : Memory) (family : UInt8) (ifp : Ifnet) (nh : Nhop) :
    Except Nat Bytes :=
  if jail.prisonIf nh.ifaAddr then .ok nh.ifaAddr
  else if family = afInet then
    let found := ((ifp.addrs.filter fun sa => sa 1 = afInet).map (addrOf 4 4)).find? jail.checkIp4
    match found.or (jail.getIp4 (addrOf 4 4 nh.ifaAddr)) with
    | none => .error esrch
    | some ia =>
        .ok (Block.write mem.saun 0 ([sockaddrInSize, afInet, 0, 0] ++ ia.take 4 ++ List.replicate 8 0))
  else if family = afInet6 then
    let found := ((ifp.addrs.filter fun sa => sa 1 = afInet6).map (addrOf 8 16)).find? jail.checkIp6
    match found.or (jail.getIp6 (addrOf 8 16 nh.ifaAddr)) with
    | none => .error esrch
    | some ia6 =>
        match sc.recoverscope
          ([sockaddrIn6Size, afInet6, 0, 0, 0, 0, 0, 0] ++ ia6.take 16 ++ List.replicate 4 0) with
        | none => .error esrch
        | some sin6 => .ok (Block.write mem.saun 0 sin6)
  else .error esrch

/-! ## The reply -/

/-- A buffer with a message: what `malloc` was asked for, and how many bytes of it have been stored. -/
structure Rtm where
  block : Bytes
  size : Nat
  filled : Nat

/-- `RTA_IFP | RTA_IFA`. -/
def rtaIfpIfa : UInt32 := 0x30

/-- The family of the destination, that of `*info->rti_info[RTAX_DST]`. -/
def dstFamily (slots : RtInfo) (b : Bytes) : UInt8 :=
  match slots rtaxDst with
  | some dst => dst.family b
  | none => 0

/-- `update_rtm_from_rc` up to the comment "Check if we need to realloc storage": the slots and the
request when the reply is about to be built. -/
def aboutToBuild (sc : Scope6) (jail : Jail) (mem : Memory) (rc : RibCmdInfo) (slots : RtInfo)
    (rtm : Rtm) : Except Nat (RtInfo × Rtm) :=
  let family := dstFamily slots rtm.block
  let (dst, mask) := exportRtaddrs rc.rt (initSockaddrsFamily family mem.saDst)
    (initSockaddrsFamily family mem.saMask)
  let slots := Function.update slots rtaxDst (some (.ext dst))
  let slots := Function.update slots rtaxNetmask (if rc.rt.isHost then none else some (.ext mask))
  let slots := Function.update slots rtaxGateway (some (.ext rc.nh.gwSa))
  let slots := Function.update slots rtaxGenmask none
  if rtmAddrs rtm.block &&& rtaIfpIfa ≠ 0 then
    match rc.nh.ifp with
    | some ifp =>
        match rtmGetJailed sc jail mem (dst 1) ifp rc.nh with
        | .error e => .error e
        | .ok ifa =>
            let slots := Function.update slots rtaxIfp (some (.ext ifp.ifAddr))
            let slots := Function.update slots rtaxIfa (some (.ext ifa))
            let slots := if ifp.pointopoint then
                Function.update slots rtaxBrd (rc.nh.ifaDstaddr.map .ext)
              else slots
            .ok (slots, { rtm with block := Block.write rtm.block 4 (le16 ifp.index) })
    | none => .ok (Function.update (Function.update slots rtaxIfp none) rtaxIfa none, rtm)
  else
    match rc.nh.ifp with
    | some ifp => .ok (slots, { rtm with block := Block.write rtm.block 4 (le16 ifp.index) })
    | none => .ok (slots, rtm)

/-- The length that the sizing pass computes. -/
def replyLen (sc : Scope6) (mem : Memory) (slots : RtInfo) (rtm : Rtm) : Nat :=
  (rtsockMsgBuffer sc mem.ss (rtmType rtm.block) slots none rtm.block).len

/-- A sockaddr of the message `b` when another buffer takes its place. -/
def SaRef.leave (b : Bytes) : SaRef → SaRef
  | .msg off => .ext fun k => b (off + k)
  | .ext bytes => .ext bytes

/-- The buffer for a reply of `len` bytes, and the slots as seen from it; `none` is NULL. -/
def replyBuffer (mem : Memory) (len : Nat) (slots : RtInfo) (rtm : Rtm) : Option (RtInfo × Rtm) :=
  if rtm.size < len then
    mem.tmp.map fun tmp =>
      (fun i => (slots i).map (SaRef.leave rtm.block),
        ⟨Block.write tmp 0 (Block.read rtm.block 0 (rtmMsglen rtm.block)), len, rtmMsglen rtm.block⟩)
  else some (slots, rtm)

/-- A 64 bit field. -/
def le64 (v : UInt64) : List UInt8 :=
  [v.toUInt8, (v >>> 8).toUInt8, (v >>> 16).toUInt8, (v >>> 24).toUInt8, (v >>> 32).toUInt8,
    (v >>> 40).toUInt8, (v >>> 48).toUInt8, (v >>> 56).toUInt8]

/-- `rt_getmetrics`, with `rmx_weight` from `rc_nh_weight`. -/
def rtGetmetrics (rc : RibCmdInfo) : List UInt8 :=
  le64 0 ++ le64 rc.nh.mtu ++ le64 0 ++ le64 rc.rt.expire ++ List.replicate 48 0 ++ le64 rc.nhWeight ++
    le64 rc.nh.idx ++ List.replicate 16 0

/-- `rtm_flags` of the reply. -/
def replyFlags (rc : RibCmdInfo) : UInt32 :=
  let flags := rc.rt.flags ||| rc.nh.rtflags
  if flags &&& rtfGwflagCompat ≠ 0 then rtfGateway ||| (flags &&& ~~~rtfGwflagCompat) else flags

/-- The header fields that are stored behind the second pass: `rtm_flags`, `rtm_rmx` and `rtm_addrs`. -/
def fillReply (rc : RibCmdInfo) (addrs : UInt32) (b : Bytes) : Bytes :=
  Block.write (Block.write (Block.write b 8 (le32 (replyFlags rc))) 40 (rtGetmetrics rc)) 12 (le32 addrs)

/-- The error, the message in `*prtm`, and the slots that were copied into it. -/
structure Reply where
  error : Nat
  rtm : Rtm
  copied : List Nat

/-- The second pass and the header. What `rtsock_msg_buffer` returns is not looked at. -/
def buildReply (sc : Scope6) (mem : Memory) (rc : RibCmdInfo) (slots : RtInfo) (rtm : Rtm) : Reply :=
  let st := rtsockMsgBuffer sc mem.ss (rtmType rtm.block) slots (some rtm.size) rtm.block
  { error := 0
    rtm := { rtm with
      block := fillReply rc st.addrs st.block
      filled := max rtm.filled (st.cp.getD 0) }
    copied := st.copied }

/-- `update_rtm_from_rc`. -/
def updateRtmFromRc (sc : Scope6) (jail : Jail) (mem : Memory) (rc : RibCmdInfo) (maxlen : Nat)
    (slots : RtInfo) (rtm : Rtm) : Reply :=
  match aboutToBuild sc jail mem rc slots rtm with
  | .error e => ⟨e, rtm, []⟩
  | .ok (slots, rtm) =>
      let len := replyLen sc mem slots rtm
      if maxlen < len then ⟨enobufs, rtm, []⟩
      else
        match replyBuffer mem len slots rtm with
        | none => ⟨enobufs, rtm, []⟩
        | some (slots, rtm) => buildReply sc mem rc slots rtm

end LazyBsd.Route
