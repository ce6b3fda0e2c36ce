/-
# LazyBsd.Tx.Copy — `lazybsd_dpdk_if_send` of the build without the page array.

The packet is copied into mbufs of the receive pool, `RTE_MBUF_DEFAULT_DATAROOM` bytes into each, and
the BSD chain is freed, whether the copy succeeded or not. The head then gets the offload requests from
inline code, a copy of `lazybsd_offload_set` that differs in two flags; `programOffloads` is the tree
that both have, with these flags as parameters.
-/
import LazyBsd.Tx.Convert

namespace LazyBsd.Tx

/-! ## Flags -/

/-- `RTE_MBUF_F_TX_IP_CKSUM`, `RTE_MBUF_F_TX_UDP_CKSUM` and `RTE_MBUF_F_TX_L4_MASK`. -/
def txIpCksum : UInt64 := (1 : UInt64) <<< (54 : UInt64)
def txUdpCksum : UInt64 := (3 : UInt64) <<< (52 : UInt64)
def txL4Mask : UInt64 := (3 : UInt64) <<< (52 : UInt64)

/-! ## The copy -/

/-- `RTE_MBUF_DEFAULT_DATAROOM`. -/
def mbufDefaultDataroom : Nat := 2048

/-- The bytes `bs` stored from `a` on. -/
def Mem.write (mem : Mem) (a : Addr) (bs : List UInt8) : Mem := fun x => bs.getD (x - a).toNat (mem x)

/-- `lazybsd_mbuf_copydata`; `none` is its -1. -/
def lazybsdMbufCopydata (m : BsdChain) (data : Addr) (off len : Nat) (mem : Mem) : Option Mem :=
  if m.pkthdr.len.toInt32.toInt < off + len then none
  else some (Mem.write mem data (((m.bytes mem).drop off).take len))

/-- `cur`, allocated if it is NULL. -/
def currentMbuf (d : Dpdk) (cur : Option Nat) (h : RteHeap) : Option Nat × RteHeap :=
  match cur with
  | some c => (some c, h)
  | none => d.rtePktmbufAlloc .pkt h

/-- Link `cur` behind `prev` and count it in the head. -/
def linkSegment (h : RteHeap) (head : Nat) (prev : Option Nat) (cur : Nat) : RteHeap :=
  let h := match prev with
    | some p => h.modify p fun r => { r with next := some cur }
    | none => h
  h.modify head fun r => { r with nbSegs := r.nbSegs + 1 }

/-- The `while (total > 0)` loop; `false` is a failure. -/
def copyLoop (d : Dpdk) (m : BsdChain) (head total off : Nat) (cur prev : Option Nat) (h : RteHeap)
    (mem : Mem) : Bool × RteHeap × Mem :=
  if total = 0 then (true, h, mem)
  else
    match currentMbuf d cur h with
    | (none, h) => (false, h, mem)
    | (some c, h) =>
        let h := linkSegment h head prev c
        let len := min total mbufDefaultDataroom
        match lazybsdMbufCopydata m (h.mbuf c).mtod off len mem with
        | none => (false, h, mem)
        | some mem =>
            copyLoop d m head (total - len) (off + len) none (some c)
              (h.modify c fun r => { r with dataLen := .ofNat len }) mem
termination_by total
decreasing_by
  simp only [mbufDefaultDataroom]
  omega

/-! ## The inline offload code -/

/-- The decision tree over the offload requests of a packet, for the flags `ipFlags` of an IP checksum
and `udpFlags` of a UDP checksum. -/
def programOffloads (ipFlags udpFlags : UInt64) (txCsumL4 : Bool) (m : BsdChain) (mem : Mem)
    (r : RteMbuf) : RteMbuf :=
  let offload := lazybsdMbufTxOffload m
  let iphLen := iphLenOf mem r.mtod
  let tcpDataOff := mem (iphOf r.mtod + iphLen.toUInt64 + 12)
  let r := if offload.ipCsum then
      setHeaderLens iphLen { r with olFlags := r.olFlags ||| ipFlags }
    else r
  if txCsumL4 then
    let r := if offload.tcpCsum then
        setHeaderLens iphLen { r with olFlags := r.olFlags ||| txTcpCksum }
      else r
    let r := if offload.tsoSegSize ≠ 0 then
        { r with
          olFlags := r.olFlags ||| txTcpSeg
          l4Len := ((tcpDataOff &&& 0xf0) >>> 2).toUInt16
          tsoSegsz := offload.tsoSegSize }
      else r
    if offload.udpCsum then
      setHeaderLens iphLen { r with olFlags := r.olFlags ||| udpFlags }
    else r
  else r

/-- The head fields that the inline code of `lazybsd_dpdk_if_send` leaves. -/
def copiedOffloadHead (txCsumL4 : Bool) (m : BsdChain) (mem : Mem) (r : RteMbuf) : RteMbuf :=
  programOffloads (txIpCksum ||| txIpv4) txUdpCksum txCsumL4 m mem r

/-- `lazybsd_offload_set` is the same tree with the TCP flag in both places. -/
theorem offloadHead_eq (txCsumL4 : Bool) (m : BsdChain) (mem : Mem) (r : RteMbuf) :
    offloadHead txCsumL4 m mem r =
      programOffloads (txTcpCksum ||| txIpv4) txTcpCksum txCsumL4 m mem r := rfl

/-- The packet memory that the inline code leaves: the same store as in `lazybsd_offload_set`. -/
def copiedOffloadMem (d : Dpdk) (txCsumL4 : Bool) (m : BsdChain) (data : Addr) (mem : Mem) : Mem :=
  if wantsTso txCsumL4 m then
    Mem.store16 mem (tcpCksumAddr mem data) (d.phdrCksum mem (iphOf data))
  else mem

/-- `lazybsd_dpdk_if_send` up to `send_single_packet(head)`; `none` is its -1. The chain is freed in
every case. -/
def copyPacket (d : Dpdk) (txCsumL4 : Bool) (m : BsdChain) (total : UInt32) (h : RteHeap) (mem : Mem) :
    Option Nat × RteHeap × Mem :=
  match d.rtePktmbufAlloc .pkt h with
  | (none, h) => (none, h, mem)
  | (some head, h) =>
      let h := h.modify head fun r => { r with pktLen := total, nbSegs := 0 }
      -- a negative `int` is no turn of the loop
      match copyLoop d m head total.toInt32.toInt.toNat 0 (some head) none h mem with
      | (false, h, mem) => (none, h.rtePktmbufFree head, mem)
      | (true, h, mem) =>
          (some head, h.modify head (copiedOffloadHead txCsumL4 m mem),
            copiedOffloadMem d txCsumL4 m (h.mbuf head).mtod mem)

/-! ## The head -/

section Head

variable {d : Dpdk} {m : BsdChain} {h h' : RteHeap} {mem mem' : Mem}

/-- The fields that the offload code reads or writes are the same. -/
structure SameRequests (r r' : RteMbuf) : Prop where
  mtod : r.mtod = r'.mtod
  olFlags : r.olFlags = r'.olFlags
  l2Len : r.l2Len = r'.l2Len
  l3Len : r.l3Len = r'.l3Len
  l4Len : r.l4Len = r'.l4Len
  tsoSegsz : r.tsoSegsz = r'.tsoSegsz

theorem SameRequests.refl (r : RteMbuf) : SameRequests r r := ⟨rfl, rfl, rfl, rfl, rfl, rfl⟩

theorem SameRequests.trans {r r' r'' : RteMbuf} (h : SameRequests r r') (h' : SameRequests r' r'') :
    SameRequests r r'' where
  mtod := h.mtod.trans h'.mtod
  olFlags := h.olFlags.trans h'.olFlags
  l2Len := h.l2Len.trans h'.l2Len
  l3Len := h.l3Len.trans h'.l3Len
  l4Len := h.l4Len.trans h'.l4Len
  tsoSegsz := h.tsoSegsz.trans h'.tsoSegsz

theorem modify_sameRequests (p : Nat) {f : RteMbuf → RteMbuf} (hf : ∀ r, SameRequests (f r) r) (q : Nat) :
    SameRequests ((h.modify p f).mbuf q) (h.mbuf q) := by
  by_cases hq : q = p
  · subst hq
    rw [RteHeap.modify_mbuf_self]
    exact hf _
  · rw [RteHeap.modify_mbuf_of_ne _ hq]
    exact .refl _

theorem linkSegment_sameRequests (head : Nat) (prev : Option Nat) (cur q : Nat) :
    SameRequests ((linkSegment h head prev cur).mbuf q) (h.mbuf q) := by
  have hcount (h : RteHeap) := modify_sameRequests (h := h) head
    (f := fun r => { r with nbSegs := r.nbSegs + 1 }) (fun _ => ⟨rfl, rfl, rfl, rfl, rfl, rfl⟩) q
  cases prev with
  | none => exact hcount h
  | some p =>
      have hlink := modify_sameRequests (h := h) p (f := fun r => { r with next := some cur })
        (fun _ => ⟨rfl, rfl, rfl, rfl, rfl, rfl⟩) q
      exact (hcount _).trans hlink

@[simp] theorem linkSegment_allocs (head : Nat) (prev : Option Nat) (cur : Nat) :
    (linkSegment h head prev cur).allocs = h.allocs := by
  cases prev <;> rfl

/-- An allocation keeps what was there. -/
theorem rtePktmbufAlloc_old (pool : Pool) :
    h.allocs ≤ (d.rtePktmbufAlloc pool h).2.allocs ∧
      ∀ q < h.allocs, (d.rtePktmbufAlloc pool h).2.mbuf q = h.mbuf q := by
  cases hok : d.ok h.allocs with
  | false =>
      rcases d.rtePktmbufAlloc_null pool hok with ⟨h₁, hres, -, hmbuf, hallocs⟩
      rw [hres]
      exact ⟨by dsimp only; omega, fun q _ => by dsimp only; rw [hmbuf]⟩
  | true =>
      rcases d.rtePktmbufAlloc_some pool hok with ⟨h₁, hres, hallocs, hmbuf, -⟩
      rw [hres]
      refine ⟨by dsimp only; omega, ?_⟩
      intro q hq
      dsimp only
      rw [hmbuf, Function.update_of_ne (Nat.ne_of_lt hq)]

theorem currentMbuf_old {cur c : Option Nat} {h₁ : RteHeap} (hcur : currentMbuf d cur h = (c, h₁)) :
    h.allocs ≤ h₁.allocs ∧ ∀ q < h.allocs, h₁.mbuf q = h.mbuf q := by
  cases cur with
  | some c' =>
      rcases Prod.mk.inj hcur with ⟨-, rfl⟩
      exact ⟨Nat.le_refl _, fun _ _ => rfl⟩
  | none =>
      have hold := rtePktmbufAlloc_old (d := d) (h := h) .pkt
      rw [show d.rtePktmbufAlloc .pkt h = (c, h₁) from hcur] at hold
      exact hold

/-- The copy leaves the requests of the mbufs there were alone. -/
theorem copyLoop_sameRequests {head total off : Nat} {cur prev : Option Nat} {ok : Bool}
    (hrun : copyLoop d m head total off cur prev h mem = (ok, h', mem')) (q : Nat) (hq : q < h.allocs) :
    SameRequests (h'.mbuf q) (h.mbuf q) := by
  fun_induction copyLoop d m head total off cur prev h mem with
  | case1 off cur prev h mem =>
      -- nothing left to copy
      rcases Prod.mk.inj hrun with ⟨-, hrest⟩
      rcases Prod.mk.inj hrest with ⟨rfl, -⟩
      exact .refl _
  | case2 total off cur prev h mem hne h₁ hcur =>
      -- the allocation failed
      rcases Prod.mk.inj hrun with ⟨-, hrest⟩
      rcases Prod.mk.inj hrest with ⟨rfl, -⟩
      rw [(currentMbuf_old hcur).2 q hq]
      exact .refl _
  | case3 total off cur prev h mem hne c h₁ hcur h₂ len hcopy =>
      -- the copy failed
      rcases Prod.mk.inj hrun with ⟨-, hrest⟩
      rcases Prod.mk.inj hrest with ⟨rfl, -⟩
      rw [← (currentMbuf_old hcur).2 q hq]
      exact linkSegment_sameRequests head prev c q
  | case4 total off cur prev h mem hne c h₁ hcur h₂ len mem₁ hcopy ih =>
      rcases currentMbuf_old hcur with ⟨hallocs, hold⟩
      have hlen := modify_sameRequests (h := h₂) c (f := fun r => { r with dataLen := .ofNat len })
        (fun _ => ⟨rfl, rfl, rfl, rfl, rfl, rfl⟩) q
      have hlink : SameRequests (h₂.mbuf q) (h₁.mbuf q) := linkSegment_sameRequests head prev c q
      rw [hold q hq] at hlink
      refine (ih hrun ?_).trans (hlen.trans hlink)
      rw [RteHeap.modify_allocs]
      show q < (linkSegment h₁ head prev c).allocs
      rw [linkSegment_allocs]
      exact Nat.lt_of_lt_of_le hq hallocs

/-- **The head of a copied packet** gets its requests from the inline code, on top of those of a fresh
mbuf. -/
theorem copyPacket_head {txCsumL4 : Bool} {total : UInt32} {head : Nat}
    (hrun : copyPacket d txCsumL4 m total h mem = (some head, h', mem')) :
    ∃ r mem₀, SameRequests r (d.fresh h.allocs) ∧
      h'.mbuf head = copiedOffloadHead txCsumL4 m mem₀ r ∧
      mem' = copiedOffloadMem d txCsumL4 m r.mtod mem₀ := by
  unfold copyPacket at hrun
  cases halloc : d.rtePktmbufAlloc .pkt h with
  | mk c h₁ =>
      rw [halloc] at hrun
      cases c with
      | none => simp at hrun
      | some c =>
          have hc : c = h.allocs := by
            cases hok : d.ok h.allocs with
            | false =>
                rcases d.rtePktmbufAlloc_null .pkt hok with ⟨h₂, hres, -⟩
                rw [hres] at halloc
                cases halloc
            | true =>
                rcases d.rtePktmbufAlloc_some .pkt hok with ⟨h₂, hres, -⟩
                rw [hres] at halloc
                exact (Option.some.inj (Prod.mk.inj halloc).1).symm
          rcases d.rtePktmbufAlloc_inv .pkt halloc with ⟨hallocs, hmbuf, -⟩
          simp only at hrun
          cases hloop : copyLoop d m c total.toInt32.toInt.toNat 0 (some c) none
              (h₁.modify c fun r => { r with pktLen := total, nbSegs := 0 }) mem with
          | mk ok rest =>
              rcases rest with ⟨h₂, mem₀⟩
              rw [hloop] at hrun
              cases ok with
              | false => simp at hrun
              | true =>
                  simp only [Prod.mk.injEq, Option.some.injEq] at hrun
                  rcases hrun with ⟨rfl, rfl, rfl⟩
                  refine ⟨h₂.mbuf c, mem₀, ?_, RteHeap.modify_mbuf_self _ _ _, rfl⟩
                  have hsame := copyLoop_sameRequests hloop c (by rw [RteHeap.modify_allocs]; omega)
                  rw [RteHeap.modify_mbuf_self, hmbuf, hc, Function.update_self] at hsame
                  rw [hc]
                  exact hsame.trans ⟨rfl, rfl, rfl, rfl, rfl, rfl⟩

/-- The copy succeeds where all allocations do, for a packet as long as its header says. -/
theorem copyLoop_ok (hok : ∀ n, d.ok n = true) (head : Nat) {total : Nat} (off : Nat)
    (cur prev : Option Nat) (h : RteHeap) (mem : Mem)
    (hlen : (off + total : Int) ≤ m.pkthdr.len.toInt32.toInt) :
    (copyLoop d m head total off cur prev h mem).1 = true := by
  fun_induction copyLoop d m head total off cur prev h mem with
  | case1 off cur prev h mem => rfl
  | case2 total off cur prev h mem hne h₁ hcur =>
      cases cur with
      | some c => cases hcur
      | none =>
          rcases d.rtePktmbufAlloc_some .pkt (hok h.allocs) with ⟨h₂, hres, -⟩
          rw [currentMbuf, hres] at hcur
          cases hcur
  | case3 total off cur prev h mem hne c h₁ hcur h₂ len hcopy =>
      have hfits : ¬ m.pkthdr.len.toInt32.toInt < off + len := by omega
      rw [lazybsdMbufCopydata, if_neg hfits] at hcopy
      cases hcopy
  | case4 total off cur prev h mem hne c h₁ hcur h₂ len mem₁ hcopy ih =>
      apply ih
      omega

theorem copyPacket_ok (hok : ∀ n, d.ok n = true) (mem : Mem) (txCsumL4 : Bool) (total : UInt32)
    (hlen : (total.toInt32.toInt.toNat : Int) ≤ m.pkthdr.len.toInt32.toInt) :
    ∃ head h' mem', copyPacket d txCsumL4 m total h mem = (some head, h', mem') := by
  rcases d.rtePktmbufAlloc_some .pkt (hok h.allocs) with ⟨h₁, halloc, -⟩
  have hloop := copyLoop_ok hok h.allocs 0 (some h.allocs) none
    (h₁.modify h.allocs fun r => { r with pktLen := total, nbSegs := 0 }) mem
    (by omega : ((0 : Nat) + total.toInt32.toInt.toNat : Int) ≤ m.pkthdr.len.toInt32.toInt)
  simp only [copyPacket, halloc]
  split
  · rename_i heq
    rw [heq] at hloop
    cases hloop
  · exact ⟨_, _, _, rfl⟩

end Head

end LazyBsd.Tx
