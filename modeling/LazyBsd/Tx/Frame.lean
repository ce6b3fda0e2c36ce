/-
# LazyBsd.Tx.Frame — which frame a chain becomes, and when the conversion ends the process.

A valid chain mixes two kinds of mbufs: data in a page of the page array, and data in a receive cluster
(a window inside the first segment of an `rte_mbuf` chain that the NIC delivered). The code looks at
the first mbuf only. If it lies in the page array every mbuf is converted by itself and the frame shows
the chain; but the page of a later mbuf may not exist. Otherwise the received `rte_mbuf` chain is cloned
as it was received, whatever the stack made of it, and a clone that fails is a panic.

The NIC reads a queued frame later, so "the same bytes" is meant for every content of packet memory.
-/
import LazyBsd.Tx.Queue

namespace LazyBsd.Tx

open Lib

/-! ## Valid chains and right frames -/

/-- The data of the mbuf lies in a page of the page array. -/
def PageMbuf (pg : PageArray) (mb : BsdMbuf) : Prop :=
  pg.InPages mb ∧ lazybsdRteFrmExtcl mb = none

/-- The data of the mbuf lies in the receive cluster of the segment `src`. The segments linked from
`src` were handed out by the pools. -/
def RxCluster (h : RteHeap) (mb : BsdMbuf) : Prop :=
  ∃ src segs k, lazybsdRteFrmExtcl mb = some src ∧ Linked h.next (some src) segs ∧
    (∀ q ∈ segs, q < h.allocs) ∧ mb.mData = (h.mbuf src).mtod + UInt64.ofNat k ∧
    k + mb.mLen.toNat ≤ (h.mbuf src).dataLen.toNat

/-- A chain of such mbufs, in any order and number. -/
def ValidChain (pg : PageArray) (h : RteHeap) (m : BsdChain) : Prop :=
  ∀ mb ∈ m.mbufs, PageMbuf pg mb ∨ RxCluster h mb

/-- The frame at `p` is the packet `m` of `total` bytes. -/
structure ShowsChain (h : RteHeap) (p : Nat) (m : BsdChain) (total : UInt32) : Prop where
  bytes : ∀ mem, h.frameBytes mem p = m.bytes mem
  nbSegs : ∃ segs, Linked h.next (some p) segs ∧ (h.mbuf p).nbSegs.toNat = segs.length
  pktLen : (h.mbuf p).pktLen = total

/-- Two lists of addresses show the same bytes in every memory exactly when they are equal. -/
theorem map_mem_eq_iff (l l' : List Addr) : (∀ mem : Mem, l.map mem = l'.map mem) ↔ l = l' := by
  constructor
  · intro h
    have hlen : l.length = l'.length := by simpa using congrArg List.length (h fun _ => 0)
    refine List.ext_getElem hlen fun i hi hi' => ?_
    -- a memory that marks one address tells it from every other
    have hmark := congrArg (fun bs => bs[i]?) (h fun a => if a = l[i] then 1 else 0)
    by_contra hne
    simp [List.getElem?_map, List.getElem?_eq_getElem hi, List.getElem?_eq_getElem hi',
      Ne.symm hne] at hmark
  · rintro rfl mem
    rfl

/-- A new frame is the packet when its windows cover the packet's addresses, it has fewer than 65536
segments and the right length. -/
theorem NewFrame.showsChain_iff {h h' : RteHeap} {ws : List (Addr × UInt16)} {len total : UInt32}
    (hf : NewFrame h ws len h') (m : BsdChain) :
    ShowsChain h' h.allocs m total ↔
      RteHeap.windowAddrs ws = m.addrs ∧ ws.length < 65536 ∧ len = total := by
  have hbytes : (∀ mem, h'.frameBytes mem h.allocs = m.bytes mem) ↔
      RteHeap.windowAddrs ws = m.addrs := by
    rw [← map_mem_eq_iff]
    simp only [hf.frameBytes_eq, BsdChain.bytes_eq_map]
  have hsegs : (∃ segs, Linked h'.next (some h.allocs) segs ∧
      (h'.mbuf h.allocs).nbSegs.toNat = segs.length) ↔ ws.length < 65536 := by
    rw [hf.nbSegs, UInt16.toNat_ofNat']
    constructor
    · rintro ⟨segs, hl, hcount⟩
      rw [hl.unique hf.linked, List.length_range'] at hcount
      omega
    · intro hlt
      refine ⟨_, hf.linked, ?_⟩
      rw [List.length_range', Nat.mod_eq_of_lt (by simpa using hlt)]
  constructor
  · rintro ⟨hb, hs, hl⟩
    exact ⟨hbytes.mp hb, hsegs.mp hs, hf.pktLen ▸ hl⟩
  · rintro ⟨hb, hs, hl⟩
    exact ⟨hbytes.mpr hb, hsegs.mpr hs, hl ▸ hf.pktLen⟩

/-! ## What `headOf` builds -/

section Head

variable {d : Dpdk} {pg : PageArray} {m : BsdChain} {total : UInt32} {h h' : RteHeap} {p : Nat}

/-- In the page array: a frame with the windows of the chain. -/
theorem headOf_page (hvma : pg.lazybsdChkVma (lazybsdMbufMtod m) = true)
    (hhead : headOf d pg m total h = some (some p, h')) :
    p = h.allocs ∧ NewFrame h (windowsOf m.mbufs) total h' := by
  rw [headOf, if_pos hvma] at hhead
  have hspec := lazybsdBsdToRte_spec d pg m total h
  cases hconv : conversion d pg h.allocs m.mbufs with
  | built =>
      rw [hconv] at hspec
      obtain ⟨h'', hres, hframe⟩ := hspec
      rw [hres] at hhead
      simp only [Option.some.injEq, Prod.mk.injEq] at hhead
      obtain ⟨rfl, rfl⟩ := hhead
      exact ⟨rfl, hframe⟩
  | noMbuf =>
      rw [hconv] at hspec
      obtain ⟨h'', hres, _⟩ := hspec
      rw [hres] at hhead
      simp at hhead
  | badPage =>
      rw [hconv] at hspec
      simp only at hspec
      rw [hspec] at hhead
      simp at hhead

/-- In a receive cluster: a clone of the received chain. -/
theorem headOf_cluster {src : Nat} {segs : List Nat}
    (hvma : ¬ pg.lazybsdChkVma (lazybsdMbufMtod m) = true)
    (hsrc : lazybsdRteFrmExtcl m.first = some src) (hl : Linked h.next (some src) segs)
    (hborn : ∀ q ∈ segs, q < h.allocs) (hhead : headOf d pg m total h = some (some p, h')) :
    p = h.allocs ∧ NewFrame h (segs.map h.window) (h.mbuf src).pktLen h' := by
  simp only [headOf, if_neg hvma, lazybsdExtclToRte, hsrc] at hhead
  by_cases hok : ∀ k < segs.length, d.ok (h.allocs + k) = true
  · obtain ⟨h'', hclone, hframe⟩ := d.clone_ok hl hborn hok
    rw [hclone] at hhead
    simp only [Option.some.injEq, Prod.mk.injEq] at hhead
    obtain ⟨rfl, rfl⟩ := hhead
    exact ⟨rfl, hframe⟩
  · obtain ⟨h'', hclone, _⟩ := d.clone_null hl hborn (by simpa using hok)
    rw [hclone] at hhead
    simp at hhead

/-- A cluster head comes from the clone. -/
theorem headOf_clone (hvma : ¬ pg.lazybsdChkVma (lazybsdMbufMtod m) = true)
    (hhead : headOf d pg m total h = some (some p, h')) :
    ∃ src, lazybsdRteFrmExtcl m.first = some src ∧ d.clone h src = (some p, h') := by
  cases hfrm : lazybsdRteFrmExtcl m.first with
  | none => simp [headOf, hvma, lazybsdExtclToRte, hfrm] at hhead
  | some src =>
      refine ⟨src, rfl, ?_⟩
      simp only [headOf, if_neg hvma, lazybsdExtclToRte, hfrm] at hhead
      cases hres : d.clone h src with
      | mk head h'' =>
          rw [hres] at hhead
          cases head with
          | none => simp at hhead
          | some head =>
              simp only [Option.some.injEq, Prod.mk.injEq] at hhead
              rw [hhead.1, hhead.2]

/-! ### The mbufs of a page frame -/

/-- The mbufs allocated since `h₀` have no flags and come from the reference pool. -/
def RefMbufs (h₀ h : RteHeap) : Prop :=
  ∀ q, h₀.allocs ≤ q → q < h.allocs → (h.mbuf q).olFlags = 0 ∧ (h.mbuf q).pool = .ref

theorem RefMbufs.modify {h₀ : RteHeap} (hr : RefMbufs h₀ h) (q : Nat) {f : RteMbuf → RteMbuf}
    (hf : ∀ r, (f r).olFlags = r.olFlags ∧ (f r).pool = r.pool) :
    RefMbufs h₀ (h.modify q f) := by
  intro r hlo hhi
  have hold := hr r hlo hhi
  by_cases hq : r = q
  · subst hq
    rw [RteHeap.modify_mbuf_self, (hf _).1, (hf _).2]
    exact hold
  · rw [RteHeap.modify_mbuf_of_ne _ hq]
    exact hold

theorem RefMbufs.fillSegment {h₀ : RteHeap} (hr : RefMbufs h₀ h) (head : Nat) (prev : Option Nat)
    (cur : Nat) (data : Addr) (len : UInt32) (iova : UInt64) :
    RefMbufs h₀ (fillSegment h head prev cur data len iova) := by
  have hfill := (hr.modify cur (f := fun m =>
    { m with bufAddr := data, bufIova := iova, dataOff := 0, dataLen := len.toUInt16 })
      fun _ => ⟨rfl, rfl⟩).modify head (f := fun m => { m with nbSegs := m.nbSegs + 1 }) fun _ => ⟨rfl, rfl⟩
  cases prev with
  | none => exact hfill
  | some p => exact hfill.modify p (f := fun m => { m with next := some cur }) fun _ => ⟨rfl, rfl⟩

theorem RefMbufs.alloc (hfresh : ∀ n, (d.fresh n).olFlags = 0) {h₀ : RteHeap} (hr : RefMbufs h₀ h)
    (halloc : d.rtePktmbufAlloc .ref h = (some p, h')) : RefMbufs h₀ h' := by
  rcases d.rtePktmbufAlloc_inv .ref halloc with ⟨hallocs, hmbuf, -⟩
  intro q hlo hhi
  rw [hmbuf]
  by_cases hq : q = h.allocs
  · subst hq
    rw [Function.update_self]
    exact ⟨hfresh h.allocs, rfl⟩
  · rw [Function.update_of_ne hq]
    apply hr q hlo
    omega

theorem lazybsdBsdToRteLoop_refMbufs (hfresh : ∀ n, (d.fresh n).olFlags = 0) {h₀ : RteHeap} {head : Nat}
    {mbs : List BsdMbuf} {cur prev : Option Nat} (hr : RefMbufs h₀ h)
    (hrun : lazybsdBsdToRteLoop d pg head mbs cur prev h = some (some p, h')) : RefMbufs h₀ h' := by
  induction mbs generalizing cur prev h with
  | nil =>
      rcases Prod.mk.inj (Option.some.inj hrun) with ⟨-, rfl⟩
      exact hr
  | cons mb rest ih =>
      -- the turn after `cur` was obtained, whichever way
      have hturn {c : Nat} {h₁ : RteHeap} (hr₁ : RefMbufs h₀ h₁)
          (hrun : lazybsdBsdToRteLoop d pg head (mb :: rest) (some c) prev h₁ = some (some p, h')) :
          RefMbufs h₀ h' := by
        cases hpage : pg.lazybsdMemVirt2phy mb.mData with
        | none => simp [lazybsdBsdToRteLoop, lazybsdNextMbuf, hpage] at hrun
        | some iova =>
            simp only [lazybsdBsdToRteLoop, lazybsdNextMbuf, hpage] at hrun
            exact ih (hr₁.fillSegment head prev c mb.mData mb.mLen iova) hrun
      cases cur with
      | some c => exact hturn hr hrun
      | none =>
          cases halloc : d.rtePktmbufAlloc .ref h with
          | mk c h₁ =>
              simp only [lazybsdBsdToRteLoop, halloc, lazybsdNextMbuf] at hrun
              cases c with
              | none => simp at hrun
              | some c => exact hturn (hr.alloc hfresh halloc) hrun

/-- A frame built from the page array has such mbufs only. -/
theorem lazybsdBsdToRte_refMbufs (hfresh : ∀ n, (d.fresh n).olFlags = 0)
    (hrun : lazybsdBsdToRte d pg m total h = some (some p, h')) : RefMbufs h h' := by
  have hnone : RefMbufs h h := by
    intro q hlo hhi
    omega
  unfold lazybsdBsdToRte at hrun
  cases halloc : d.rtePktmbufAlloc .ref h with
  | mk c h₁ =>
      rw [halloc] at hrun
      cases c with
      | none => simp at hrun
      | some c =>
          have hhead := (hnone.alloc hfresh halloc).modify c
            (f := fun r => { r with pktLen := total, nbSegs := 0 }) fun _ => ⟨rfl, rfl⟩
          exact lazybsdBsdToRteLoop_refMbufs hfresh hhead hrun

end Head

/-! ## The frame of a queued packet -/

/-- The windows of the chain cover its addresses: no mbuf of a valid chain is longer than a segment
can be. -/
theorem windowAddrs_windowsOf {pg : PageArray} {h : RteHeap} {m : BsdChain}
    (hvalid : ValidChain pg h m) : RteHeap.windowAddrs (windowsOf m.mbufs) = m.addrs := by
  rw [RteHeap.windowAddrs, windowsOf, List.flatMap_map, BsdChain.addrs]
  refine List.flatMap_congr fun mb hmb => ?_
  have hlt : mb.mLen.toNat < 65536 := by
    rcases hvalid mb hmb with ⟨⟨_, _, hend⟩, _⟩ | ⟨src, segs, k, _, _, _, _, hend⟩
    · omega
    · have := (h.mbuf src).dataLen.toNat_lt
      omega
  rw [UInt32.toNat_toUInt16, Nat.mod_eq_of_lt hlt]

/-- The received segments still are the packet: the same addresses in the same order, the right
length, and a segment count that fits its field. -/
def StillReceived (h : RteHeap) (m : BsdChain) (total : UInt32) : Prop :=
  ∃ src segs, lazybsdRteFrmExtcl m.first = some src ∧ Linked h.next (some src) segs ∧
    RteHeap.windowAddrs (segs.map h.window) = m.addrs ∧ segs.length < 65536 ∧
    (h.mbuf src).pktLen = total

/-- The condition for a right frame. -/
def FrameKept (pg : PageArray) (h : RteHeap) (m : BsdChain) (total : UInt32) : Prop :=
  if pg.lazybsdChkVma (lazybsdMbufMtod m) then m.mbufs.length < 65536 else StillReceived h m total

namespace Sample

/-- The sample mbuf in a page is valid. -/
theorem packet_pageMbuf_valid (h : RteHeap) : ValidChain pages h (packet pageMbuf) := by
  intro mb hmb
  obtain rfl : mb = pageMbuf := by simpa [packet, BsdChain.mbufs] using hmb
  exact .inl ⟨⟨by decide, by decide, by decide⟩, rfl⟩

/-- The sample clusters are valid, however far they were advanced. -/
theorem clusterMbuf_rxCluster (off : Nat) (hoff : off ≤ 60) : RxCluster rxHeap (clusterMbuf off) := by
  refine ⟨0, [0], off, rfl, .cons .nil, by simp [rxHeap], rfl, ?_⟩
  have hlen : (clusterMbuf off).mLen.toNat = 60 - off := by
    show (UInt32.ofNat (60 - off)).toNat = 60 - off
    rw [UInt32.toNat_ofNat', Nat.mod_eq_of_lt (by omega)]
  rw [hlen]
  show off + (60 - off) ≤ 60
  omega

theorem packet_clusterMbuf_valid (off : Nat) (hoff : off ≤ 60) :
    ValidChain pages rxHeap (packet (clusterMbuf off)) := by
  intro mb hmb
  obtain rfl : mb = clusterMbuf off := by simpa [packet, BsdChain.mbufs] using hmb
  exact .inr (clusterMbuf_rxCluster off hoff)

end Sample

section Queued

variable {Port : Type*} [DecidableEq Port] {d : Dpdk} {pg : PageArray} {txCsumL4 : Port → Bool}
  {port : Port} {m : BsdChain} {total : UInt32} {s s' : TxState Port} {n : Nat}

/-- A send that returns a length stored the head that `headOf` found. -/
theorem lazybsdIfSendOnepkt_queued
    (hsend : lazybsdIfSendOnepkt d pg txCsumL4 port (some m) total s = some (n, s')) (hn : n ≠ 0) :
    ∃ p heap, headOf d pg m total s.heap = some (some p, heap) ∧ n = (s.txMbufs port).len + 1 ∧
      s' = storeGiven port p (heap.modify p (offloadHead (txCsumL4 port) m s.mem))
        (offloadMem d (txCsumL4 port) m (heap.mbuf p).mtod s.mem) s := by
  unfold lazybsdIfSendOnepkt at hsend
  cases hhead : headOf d pg m total s.heap with
  | none => simp [hhead] at hsend
  | some res =>
      obtain ⟨head, heap⟩ := res
      cases head with
      | none =>
          simp only [hhead, Option.some.injEq, Prod.mk.injEq] at hsend
          exact absurd hsend.1.symm hn
      | some p =>
          simp only [hhead, Option.some.injEq, Prod.mk.injEq] at hsend
          exact ⟨p, heap, rfl, hsend.1.symm, hsend.2.symm⟩

/-- **The queued frame is the packet exactly when the first mbuf is in the page array, or the received
segments still are the packet** (with a segment count that fits `nb_segs` in either case). -/
theorem queued_frame_shows_chain_iff (hvalid : ValidChain pg s.heap m)
    (hsend : lazybsdIfSendOnepkt d pg txCsumL4 port (some m) total s = some (n, s')) (hn : n ≠ 0) :
    ShowsChain s'.heap ((s'.txMbufs port).mTable (n - 1)) m total ↔ FrameKept pg s.heap m total := by
  obtain ⟨p, heap, hhead, hlen, rfl⟩ := lazybsdIfSendOnepkt_queued hsend hn
  have hslot : (((storeGiven port p (heap.modify p (offloadHead (txCsumL4 port) m s.mem))
      (offloadMem d (txCsumL4 port) m (heap.mbuf p).mtod s.mem) s).txMbufs port).mTable (n - 1)) = p := by
    simp [storeGiven, hlen]
  have hheap : (storeGiven port p (heap.modify p (offloadHead (txCsumL4 port) m s.mem))
      (offloadMem d (txCsumL4 port) m (heap.mbuf p).mtod s.mem) s).heap =
        heap.modify p (offloadHead (txCsumL4 port) m s.mem) := rfl
  rw [hslot, hheap, FrameKept]
  by_cases hvma : pg.lazybsdChkVma (lazybsdMbufMtod m) = true
  · obtain ⟨rfl, hframe⟩ := headOf_page hvma hhead
    rw [if_pos hvma, NewFrame.showsChain_iff (NewFrame.offload hframe (txCsumL4 port) m s.mem),
      windowsOf_length]
    exact ⟨fun hall => hall.2.1, fun hlt => ⟨windowAddrs_windowsOf hvalid, hlt, rfl⟩⟩
  · rw [if_neg hvma]
    rcases hvalid m.first List.mem_cons_self with ⟨_, hnone⟩ | ⟨src, segs, k, hsrc, hl, hborn, _⟩
    · -- not a receive cluster: the source panics, no frame is queued
      simp only [headOf, if_neg hvma, lazybsdExtclToRte, hnone] at hhead
      exact absurd hhead (by simp)
    · obtain ⟨rfl, hframe⟩ := headOf_cluster hvma hsrc hl hborn hhead
      rw [NewFrame.showsChain_iff (NewFrame.offload hframe (txCsumL4 port) m s.mem), List.length_map]
      constructor
      · rintro ⟨haddrs, hlt, htotal⟩
        exact ⟨src, segs, hsrc, hl, haddrs, hlt, htotal⟩
      · rintro ⟨src', segs', hsrc', hl', haddrs, hlt, htotal⟩
        obtain rfl : src = src' := Option.some.inj (hsrc.symm.trans hsrc')
        obtain rfl := hl.unique hl'
        exact ⟨haddrs, hlt, htotal⟩

end Queued

theorem queued_frame_shows_chain_pageMbuf :
    ∃ n s', lazybsdIfSendOnepkt (Sample.dpdk fun _ => true) Sample.pages (fun _ => false) ()
        (some (Sample.packet Sample.pageMbuf)) 60 (.init Sample.heap Sample.mem) = some (n, s') ∧
      (ShowsChain s'.heap ((s'.txMbufs ()).mTable (n - 1)) (Sample.packet Sample.pageMbuf) 60 ↔
        FrameKept Sample.pages Sample.heap (Sample.packet Sample.pageMbuf) 60) := by
  obtain ⟨r, hr⟩ := Option.isSome_iff_exists.mp (by decide :
    (lazybsdIfSendOnepkt (Sample.dpdk fun _ => true) Sample.pages (fun _ => false) ()
      (some (Sample.packet Sample.pageMbuf)) 60 (.init Sample.heap Sample.mem)).isSome = true)
  have hlen : (lazybsdIfSendOnepkt (Sample.dpdk fun _ => true) Sample.pages (fun _ => false) ()
      (some (Sample.packet Sample.pageMbuf)) 60 (.init Sample.heap Sample.mem)).map Prod.fst =
        some 1 := by decide
  rw [hr] at hlen
  have hn : r.1 ≠ 0 := by
    rw [show r.1 = 1 by simpa using hlen]
    decide
  exact ⟨r.1, r.2, hr, queued_frame_shows_chain_iff (Sample.packet_pageMbuf_valid Sample.heap) hr hn⟩

/-- The stack took 14 bytes off the front of a received packet and sends the rest: the frame has all
60 bytes of the cluster. -/
theorem advanced_cluster_is_sent_whole :
    ValidChain Sample.pages Sample.rxHeap (Sample.packet (Sample.clusterMbuf 14)) ∧
      ∃ n s', lazybsdIfSendOnepkt (Sample.dpdk fun _ => true) Sample.pages (fun _ => false) ()
          (some (Sample.packet (Sample.clusterMbuf 14))) 46 (.init Sample.rxHeap Sample.mem) =
            some (n, s') ∧ n ≠ 0 ∧
        ¬ ShowsChain s'.heap ((s'.txMbufs ()).mTable (n - 1))
          (Sample.packet (Sample.clusterMbuf 14)) 46 := by
  refine ⟨Sample.packet_clusterMbuf_valid 14 (by decide), ?_⟩
  obtain ⟨r, hr⟩ := Option.isSome_iff_exists.mp (by decide :
    (lazybsdIfSendOnepkt (Sample.dpdk fun _ => true) Sample.pages (fun _ => false) ()
      (some (Sample.packet (Sample.clusterMbuf 14))) 46 (.init Sample.rxHeap Sample.mem)).isSome = true)
  have hend : (lazybsdIfSendOnepkt (Sample.dpdk fun _ => true) Sample.pages (fun _ => false) ()
      (some (Sample.packet (Sample.clusterMbuf 14))) 46 (.init Sample.rxHeap Sample.mem)).map
        (fun r => (r.1, (r.2.heap.mbuf ((r.2.txMbufs ()).mTable 0)).pktLen)) = some (1, 60) := by
    decide
  rw [hr] at hend
  obtain ⟨hlen, hpkt⟩ : r.1 = 1 ∧ (r.2.heap.mbuf ((r.2.txMbufs ()).mTable 0)).pktLen = 60 := by
    simpa using hend
  refine ⟨r.1, r.2, hr, by rw [hlen]; decide, ?_⟩
  rintro ⟨_, _, htotal⟩
  rw [hlen, hpkt] at htotal
  exact absurd htotal (by decide)

/-! ## Sends that end the process -/

/-- The condition for a send that does not panic. In the page array: every mbuf reached before a failed
allocation has a page. Otherwise: a receive cluster whose segments can all be cloned. -/
def NeverAborts (d : Dpdk) (pg : PageArray) (h : RteHeap) (m : BsdChain) : Prop :=
  if pg.lazybsdChkVma (lazybsdMbufMtod m) then
    ∀ (i : Nat) (hi : i < m.mbufs.length), (∀ j ≤ i, d.ok (h.allocs + j) = true) →
      (pg.lazybsdMemVirt2phy m.mbufs[i].mData).isSome = true
  else
    ∃ src segs, lazybsdRteFrmExtcl m.first = some src ∧ Linked h.next (some src) segs ∧
      ∀ k < segs.length, d.ok (h.allocs + k) = true

/-- A chain that lies in pages only, and not at the very start of the array, meets the condition whatever
allocations fail. -/
theorem neverAborts_of_inPages (d : Dpdk) {pg : PageArray} {h : RteHeap} {m : BsdChain}
    (hvma : pg.lazybsdChkVma (lazybsdMbufMtod m) = true) (hpages : ∀ mb ∈ m.mbufs, pg.InPages mb) :
    NeverAborts d pg h m := by
  rw [NeverAborts, if_pos hvma]
  intro i hi _
  obtain ⟨hlo, hhi, _⟩ := hpages _ (List.getElem_mem hi)
  exact pg.lazybsdMemVirt2phy_isSome hlo hhi

/-- The head is found, or reported missing, exactly under the condition. -/
theorem headOf_isSome_iff (d : Dpdk) (total : UInt32) {pg : PageArray} {m : BsdChain} {h : RteHeap}
    (hvalid : ValidChain pg h m) :
    (headOf d pg m total h).isSome = true ↔ NeverAborts d pg h m := by
  unfold NeverAborts
  by_cases hvma : pg.lazybsdChkVma (lazybsdMbufMtod m) = true
  · rw [if_pos hvma, headOf, if_pos hvma, ← conversion_ne_badPage_iff]
    have hspec := lazybsdBsdToRte_spec d pg m total h
    cases hconv : conversion d pg h.allocs m.mbufs with
    | built =>
        rw [hconv] at hspec
        obtain ⟨h', hres, _⟩ := hspec
        simp [hres]
    | noMbuf =>
        rw [hconv] at hspec
        obtain ⟨h', hres, _⟩ := hspec
        simp [hres]
    | badPage =>
        rw [hconv] at hspec
        simp only at hspec
        simp [hspec]
  · rw [if_neg hvma]
    simp only [headOf, if_neg hvma, lazybsdExtclToRte]
    rcases hvalid m.first List.mem_cons_self with ⟨_, hnone⟩ | ⟨src, segs, k, hsrc, hl, hborn, _⟩
    · simp [hnone]
    · simp only [hsrc, Option.some.injEq]
      by_cases hok : ∀ k < segs.length, d.ok (h.allocs + k) = true
      · obtain ⟨h', hclone, _⟩ := d.clone_ok hl hborn hok
        simp only [hclone, Option.isSome_some, true_iff]
        exact ⟨src, segs, rfl, hl, hok⟩
      · obtain ⟨h', hclone, _⟩ := d.clone_null hl hborn (by simpa using hok)
        simp only [hclone, Option.isSome_none, Bool.false_eq_true, false_iff]
        rintro ⟨src', segs', hsrc', hl', hok'⟩
        subst hsrc'
        rw [← hl.unique hl'] at hok'
        exact hok hok'

section Abort

variable {Port : Type*} [DecidableEq Port] {d : Dpdk} {pg : PageArray} {txCsumL4 : Port → Bool}
  {port : Port} {m : BsdChain} {total : UInt32} {s s' : TxState Port} {n : Nat}

/-- What a send may do: queue one frame and return the new length, or return 0 with the chain freed and
no reference mbuf left. -/
def QueuesOrReleases (port : Port) (s : TxState Port) (n : Nat) (s' : TxState Port) : Prop :=
  (∃ head heap mem, n = (s.txMbufs port).len + 1 ∧ s' = storeGiven port head heap mem s) ∨
    (∃ heap, heap.live = s.heap.live ∧ n = 0 ∧ s' = freeGiven heap s)

/-- **A send of a valid chain ends without a panic exactly under the condition**, and then it queues a
frame or releases the chain. -/
theorem send_never_aborts_iff (hvalid : ValidChain pg s.heap m) :
    (∃ n s', lazybsdIfSendOnepkt d pg txCsumL4 port (some m) total s = some (n, s') ∧
        QueuesOrReleases port s n s') ↔ NeverAborts d pg s.heap m := by
  rw [← headOf_isSome_iff d total hvalid]
  cases hhead : headOf d pg m total s.heap with
  | none => simp [lazybsdIfSendOnepkt, hhead]
  | some res =>
      obtain ⟨head, heap⟩ := res
      refine iff_of_true ?_ rfl
      simp only [lazybsdIfSendOnepkt, hhead]
      cases head with
      | none =>
          rcases headOf_cases hhead with ⟨_, _, hlive⟩ | ⟨_, p, hp⟩
          · exact ⟨0, freeGiven heap s, rfl, .inr ⟨heap, hlive, rfl, rfl⟩⟩
          · exact absurd hp (by simp)
      | some p => exact ⟨_, _, rfl, .inl ⟨p, _, _, rfl, rfl⟩⟩

end Abort

theorem send_never_aborts_pageMbuf :
    (∃ n s', lazybsdIfSendOnepkt (Sample.dpdk fun _ => true) Sample.pages (fun _ => false) ()
        (some (Sample.packet Sample.pageMbuf)) 60 (.init Sample.heap Sample.mem) = some (n, s') ∧
        QueuesOrReleases () (.init Sample.heap Sample.mem) n s') ↔
      NeverAborts (Sample.dpdk fun _ => true) Sample.pages Sample.heap
        (Sample.packet Sample.pageMbuf) :=
  send_never_aborts_iff (s := .init Sample.heap Sample.mem)
    (Sample.packet_pageMbuf_valid Sample.heap)

/-- A page mbuf followed by a received cluster: the page of the second one does not exist, and every
allocation succeeds. -/
theorem mixed_chain_aborts :
    ValidChain Sample.pages Sample.rxHeap
        { Sample.packet Sample.pageMbuf with rest := [Sample.clusterMbuf 0] } ∧
      ¬ ∃ n s', lazybsdIfSendOnepkt (Sample.dpdk fun _ => true) Sample.pages (fun _ => false) ()
          (some { Sample.packet Sample.pageMbuf with rest := [Sample.clusterMbuf 0] }) 120
          (.init Sample.rxHeap Sample.mem) = some (n, s') ∧
        QueuesOrReleases () (.init Sample.rxHeap Sample.mem) n s' := by
  constructor
  · intro mb hmb
    have hcases : mb = Sample.pageMbuf ∨ mb = Sample.clusterMbuf 0 := by
      simpa [Sample.packet, BsdChain.mbufs] using hmb
    rcases hcases with rfl | rfl
    · exact Sample.packet_pageMbuf_valid Sample.rxHeap _ List.mem_cons_self
    · exact .inr (Sample.clusterMbuf_rxCluster 0 (by decide))
  · have hnone : (lazybsdIfSendOnepkt (Sample.dpdk fun _ => true) Sample.pages (fun _ => false) ()
        (some { Sample.packet Sample.pageMbuf with rest := [Sample.clusterMbuf 0] }) 120
        (.init Sample.rxHeap Sample.mem)).isNone = true := by decide
    rintro ⟨n, s', hsend, _⟩
    rw [hsend] at hnone
    exact absurd hnone (by simp)

end LazyBsd.Tx
