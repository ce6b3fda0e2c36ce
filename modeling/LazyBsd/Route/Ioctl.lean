/-
# LazyBsd.Route.Ioctl — `lazybsd_rtioctl`.

A request is copied in, checked, carried out and copied back, as many bytes as the `rtm_msglen` of the
message says then. That field is the caller's until it has been checked, and the reply's once one has
been built. A message that is refused comes back with the length it came with (`RequestFits`), and a reply
can be longer than it was counted, if an address has lost its length before it is copied (`ReplyKeeps`).
The outcomes of the routing operation are parameters (`Kernel`), for every one of them.
-/
import LazyBsd.Route.Faithful

namespace LazyBsd.Route

open Lib

/-! ## The call -/

/-- What FreeBSD answers during a call: the first `malloc` (NULL, or memory with some contents),
`lla_rt_output`, `V_loif` with the families of its addresses, `rib_action` for RTM_ADD and RTM_CHANGE
(with `if_index` and the flags of the new route) and for RTM_DELETE, `handle_rtm_get`, and
`can_export_rte`. -/
structure Kernel where
  sc : Scope6
  caller : Caller
  jail : Jail
  mem : Memory
  malloc : Option Bytes
  llaRtOutput : Nat
  loif : Option (UInt8 → Bool)
  ribAdd : Except Nat (UInt16 × UInt32)
  ribDelete : Except Nat RibCmdInfo
  rtmGet : Except Nat RibCmdInfo
  canExport : Bool

/-- An `int` as the `size_t` that it is converted to. -/
def asSize (x : UInt32) : Nat := if x.toNat < 2 ^ 31 then x.toNat else x.toNat + (2 ^ 64 - 2 ^ 32)

/-- `alloc_len`, that is `roundup2(len, 1024)`. -/
def allocLen (plen : UInt32) : UInt32 := (plen + 1023) / 1024 * 1024

/-- `fill_blackholeinfo`. -/
def fillBlackholeinfo (k : Kernel) (r : Request) : Outcome :=
  let saf := dstFamily r.slots r.block
  let gateway (saun : List UInt8) : Outcome := (0, { r with
    slots := Function.update r.slots rtaxGateway (some (.ext (Block.write (fun _ => 0) 0 saun)))
    flags := r.flags ||| rtfGateway })
  match k.loif with
  | none => (eopnotsupp, r)
  | some has =>
      if has saf = false then (eopnotsupp, r)
      else if saf = afInet then gateway [sockaddrInSize, afInet, 0, 0, 127, 0, 0, 1]
      else if saf = afInet6 then
        gateway ([sockaddrIn6Size, afInet6, 0, 0, 0, 0, 0, 0] ++ List.replicate 15 0 ++ [1])
      else (eopnotsupp, r)

/-- The state at the label `flush`: the error, `rti_need_deembed`, the slots and the message. -/
structure Flush where
  error : Nat
  deembed : Bool
  slots : RtInfo
  rtm : Rtm

/-- A route to report: at the label `report`. -/
structure Report where
  rc : RibCmdInfo
  slots : RtInfo
  rtm : Rtm

/-- `RTF_BLACKHOLE | RTF_REJECT`. -/
def rtfDiscard : UInt32 := rtfBlackhole ||| rtfReject

/-- The special routes: RTF_BLACKHOLE and RTF_REJECT get a gateway, and exclude each other. -/
def discard (k : Kernel) (r : Request) : Outcome :=
  let flags := rtmFlags r.block &&& rtfDiscard
  if flags = 0 then (0, r)
  else if flags ≠ rtfDiscard then fillBlackholeinfo k r
  else (einval, r)

/-- The switch over `rtm_type`. -/
def act (k : Kernel) (r : Request) (rtm : Rtm) : Flush ⊕ Report :=
  if rtmType rtm.block = rtmAdd ∧ r.slots rtaxGateway = none then
    .inl ⟨einval, false, r.slots, rtm⟩
  else if rtmType rtm.block = rtmAdd ∨ rtmType rtm.block = rtmChange then
    match k.ribAdd with
    | .error e => .inl ⟨e, false, r.slots, rtm⟩
    | .ok (index, flags) =>
        .inl ⟨0, true, r.slots,
          { rtm with block := Block.write (Block.write rtm.block 4 (le16 index)) 8 (le32 flags) }⟩
  else if rtmType rtm.block = rtmDelete then
    match k.ribDelete with
    | .error e => .inl ⟨e, true, r.slots, rtm⟩
    | .ok rc => .inr ⟨rc, r.slots, rtm⟩
  else if rtmType rtm.block = rtmGet then
    match k.rtmGet with
    | .error e => .inl ⟨e, false, r.slots, rtm⟩
    | .ok rc => .inr ⟨rc, r.slots, rtm⟩
  else .inl ⟨eopnotsupp, false, r.slots, rtm⟩

/-- The call from `fill_addrinfo` to the end of the switch, but for the report. -/
def perform (k : Kernel) (len : Nat) (rtm : Rtm) : Flush ⊕ Report :=
  let (error, r) := fillAddrinfo k.sc k.caller len rtm.block
  let rtm := { rtm with block := r.block }
  if error ≠ 0 then .inl ⟨error, false, r.slots, rtm⟩
  -- support for new ARP code
  else if rtmFlags r.block &&& rtfLldata ≠ 0 then
    .inl ⟨k.llaRtOutput, k.llaRtOutput = 0, r.slots, rtm⟩
  else
    let (error, r) := discard k r
    if error ≠ 0 then .inl ⟨error, false, r.slots, rtm⟩
    else act k r rtm

/-- The label `report`. -/
def report (k : Kernel) (maxlen : Nat) (p : Report) : Flush :=
  if k.canExport then
    let reply := updateRtmFromRc k.sc k.jail k.mem p.rc maxlen p.slots p.rtm
    ⟨reply.error, false, p.slots, reply.rtm⟩
  else ⟨esrch, false, p.slots, p.rtm⟩

/-- `sa6_recoverscope` on an address of the message. -/
def deembedScope (sc : Scope6) (p : Nat) (b : Bytes) : Bytes :=
  if b (p + 1) = afInet6 then
    match sc.recoverscope (Block.read b p 28) with
    | some sin6 => Block.write b p sin6
    | none => b
  else b

/-- The loop that recovers the scopes; addresses outside the message are not copied back. -/
def deembedScopes (sc : Scope6) (slots : RtInfo) : List Nat → Bytes → Bytes
  | [], b => b
  | i :: is, b =>
      match slots i with
      | none => deembedScopes sc slots is b
      | some (.ext _) => deembedScopes sc slots is b
      | some (.msg p) => deembedScopes sc slots is (deembedScope sc p b)

/-- The outcome of a call: the error, and the message that is copied back. -/
structure Ioctl where
  error : Nat
  back : Option Rtm

/-- How many bytes are copied back. -/
def Ioctl.copied (out : Ioctl) : Nat :=
  match out.back with
  | some rtm => rtmMsglen rtm.block
  | none => 0

/-- `*plen` after the call. -/
def Ioctl.plen (out : Ioctl) (plen : UInt32) : Nat :=
  match out.back with
  | some rtm => rtmMsglen rtm.block
  | none => plen.toNat

/-- `data` after the call. -/
def Ioctl.data (out : Ioctl) (data : Bytes) : Bytes :=
  match out.back with
  | some rtm => fun k => if k < out.copied then rtm.block k else data k
  | none => data

/-- What follows the label `flush` for a message. -/
def flush (sc : Scope6) (f : Flush) : Ioctl :=
  let b := if f.deembed then deembedScopes sc f.slots (List.range rtaxMax) f.rtm.block else f.rtm.block
  let b := if f.error ≠ 0 then Block.write b 24 (le32 (.ofNat f.error))
    else Block.write b 8 (le32 (rtmFlags b ||| rtfDone))
  ⟨f.error, some { f.rtm with block := b }⟩

/-- The message as it has been copied in, in its buffer. -/
def copyIn (heap data : Bytes) (plen : UInt32) : Rtm :=
  ⟨Block.write heap 0 (Block.read data 0 (asSize plen)), asSize (allocLen plen), asSize plen⟩

/-- The check of the length. -/
def Valid (plen : UInt32) (rtm : Rtm) : Prop :=
  rtMsghdrSize ≤ asSize plen ∧ asSize plen = rtmMsglen rtm.block

instance (plen : UInt32) (rtm : Rtm) : Decidable (Valid plen rtm) :=
  inferInstanceAs (Decidable (_ ∧ _))

/-- `lazybsd_rtioctl`. -/
def lazybsdRtioctl (k : Kernel) (data : Bytes) (plen maxlen : UInt32) : Ioctl :=
  match k.malloc with
  | none => ⟨enobufs, none⟩
  | some heap =>
      let rtm := copyIn heap data plen
      if ¬ Valid plen rtm then flush k.sc ⟨einval, false, fun _ => none, rtm⟩
      -- do not touch message since format is unknown
      else if rtmVersion rtm.block ≠ 5 then ⟨eprotonosupport, none⟩
      else
        match perform k (asSize plen) rtm with
        | .inl f => flush k.sc f
        | .inr p => flush k.sc (report k maxlen.toNat p)

/-! ## The message and its length -/

/-- The buffer holds a message of `n` bytes: `rtm_msglen` says so, and they are there. -/
structure Rtm.Holds (rtm : Rtm) (n : Nat) : Prop where
  msglen : rtmMsglen rtm.block = n
  room : n ≤ rtm.size
  filled : n ≤ rtm.filled

theorem Rtm.Holds.set {rtm : Rtm} {n : Nat} (h : rtm.Holds n) {b : Bytes}
    (hb : ∀ k < 2, b k = rtm.block k) : Rtm.Holds { rtm with block := b } n :=
  ⟨(rtmMsglen_congr hb).trans h.msglen, h.room, h.filled⟩

/-- A message of `n` bytes, whatever comes next; the addresses of a flush lie behind the header. -/
def Keeps (n : Nat) : Flush ⊕ Report → Prop
  | .inl f => f.rtm.Holds n ∧ Behind f.slots
  | .inr p => p.rtm.Holds n

section Keeps

variable {k : Kernel} {n : Nat} {rtm : Rtm}

end Keeps

/-! ## The length of a reply -/

section LastPass

variable {sc : Scope6} {jail : Jail} {mem : Memory} {rc : RibCmdInfo} {maxlen n : Nat}
  {slots slots' : RtInfo} {rtm rtm' : Rtm}

end LastPass

/-! ## What is copied back -/

/-- The call fails before or during the checks of the message. -/
def Refused (k : Kernel) (data : Bytes) (plen : UInt32) : Prop :=
  ∀ heap, k.malloc = some heap →
    ¬ Valid plen (copyIn heap data plen) ∨ rtmVersion (copyIn heap data plen).block ≠ 5

/-- The call copies back no more than it may: not more than `maxlen` bytes, and it reports no more; all of
them bytes that were stored in the buffer that it allocated; and a message that is refused comes back
with no more bytes than it had. -/
structure Bounded (k : Kernel) (data : Bytes) (plen maxlen : UInt32) : Prop where
  copied : (lazybsdRtioctl k data plen maxlen).copied ≤ maxlen.toNat
  reported : (lazybsdRtioctl k data plen maxlen).plen plen ≤ maxlen.toNat
  message : ∀ rtm, (lazybsdRtioctl k data plen maxlen).back = some rtm →
    (lazybsdRtioctl k data plen maxlen).copied ≤ rtm.filled ∧
      (lazybsdRtioctl k data plen maxlen).copied ≤ rtm.size
  refused : Refused k data plen → (lazybsdRtioctl k data plen maxlen).copied ≤ plen.toNat

/-- The route that a call has to report, if it comes to that. -/
def reported (k : Kernel) (data : Bytes) (plen : UInt32) : Option Report :=
  match k.malloc with
  | none => none
  | some heap =>
      let rtm := copyIn heap data plen
      if ¬ Valid plen rtm then none
      else if rtmVersion rtm.block ≠ 5 then none
      else
        match perform k (asSize plen) rtm with
        | .inl _ => none
        | .inr p => if k.canExport then some p else none

section Bounded

variable {k : Kernel} {data : Bytes} {plen maxlen : UInt32}

section Valid

variable {heap : Bytes} (hmalloc : k.malloc = some heap) (hvalid : Valid plen (copyIn heap data plen))

include hmalloc hvalid

end Valid

end Bounded

/-- Behind `maxlen` bytes a bounded call leaves the caller's memory alone. -/
theorem data_of_bounded {k : Kernel} {data : Bytes} {plen maxlen : UInt32}
    (h : Bounded k data plen maxlen) {i : Nat} (hi : maxlen.toNat ≤ i) :
    (lazybsdRtioctl k data plen maxlen).data data i = data i := by
  have hcopied := h.copied
  rw [Ioctl.data.eq_def]
  cases hback : (lazybsdRtioctl k data plen maxlen).back with
  | none => rfl
  | some rtm => exact if_neg (by omega)

/-! ## A short buffer with a long `rtm_msglen` -/

namespace Sample

def kernel : Kernel where
  sc := scope
  caller := caller
  jail := jail
  mem := memory
  malloc := some fun _ => 0
  llaRtOutput := 0
  loif := none
  ribAdd := .error esrch
  ribDelete := .error esrch
  rtmGet := .ok route
  canExport := true

end Sample

end LazyBsd.Route
