/-
# LazyBsd.Mbuf — the two packet buffer types, the rte_mbuf heap and the DPDK mbuf library.

The stack hands over BSD mbuf chains, the NIC takes linked `rte_mbuf`s. A BSD chain is a packet
header with a nonempty list of mbufs (`m_next` is the list), an `rte_mbuf` is a heap cell whose
`next` link is a pointer. The heap hands out a fresh pointer for every successful allocation and
remembers which pointers are allocated (`live`). Pointers are numbers: allocation number `n` of the
process has pointer `n`.

DPDK itself is not part of the repository. `Dpdk` is what the code relies on: whether the n-th
allocation of the run succeeds (any pattern), the contents of a fresh mbuf (its `next` is NULL),
`rte_pktmbuf_clone` by its documented contract and the pseudo header checksum as an arbitrary
function of memory.
-/
import Mathlib.Data.List.Perm.Subperm
import Mathlib.Logic.Function.Basic
import LazyBsd.Lib.Linked

namespace LazyBsd

open Lib

/-! ## Memory -/

/-- A virtual address. -/
abbrev Addr := UInt64

/-- The bytes of the process, by address. -/
abbrev Mem := Addr → UInt8

/-- The `n` addresses that start at `a`. -/
def addrs (a : Addr) (n : Nat) : List Addr := (List.range n).map fun i => a + UInt64.ofNat i

/-- The `n` bytes that start at `a`. -/
def Mem.bytes (mem : Mem) (a : Addr) (n : Nat) : List UInt8 := (addrs a n).map mem

/-! ## `struct rte_mbuf` -/

/-- The two pools the process allocates from: `lazybsd_ref_pool` (no data room) and `pktmbuf_pool`. -/
inductive Pool
  | ref
  | pkt
  deriving DecidableEq, Repr

/-- The fields of `struct rte_mbuf` that the code reads or writes. -/
structure RteMbuf where
  bufAddr : Addr
  bufIova : UInt64
  dataOff : UInt16
  dataLen : UInt16
  pktLen : UInt32
  nbSegs : UInt16
  next : Option Nat
  pool : Pool
  olFlags : UInt64
  vlanTci : UInt16
  l2Len : UInt16
  l3Len : UInt16
  l4Len : UInt16
  tsoSegsz : UInt16
  deriving DecidableEq

/-- `rte_pktmbuf_mtod`: where the data of a segment starts. -/
def RteMbuf.mtod (m : RteMbuf) : Addr := m.bufAddr + m.dataOff.toUInt64

/-- The bytes of one segment. -/
def RteMbuf.view (mem : Mem) (m : RteMbuf) : List UInt8 := mem.bytes m.mtod m.dataLen.toNat

/-- DPDK's `ol_flags` bits used by the code. -/
def rxL4CksumBad : UInt64 := (1 : UInt64) <<< (3 : UInt64)
def rxIpCksumBad : UInt64 := (1 : UInt64) <<< (4 : UInt64)
def rxVlanStripped : UInt64 := (1 : UInt64) <<< (6 : UInt64)
def txTcpSeg : UInt64 := (1 : UInt64) <<< (50 : UInt64)
def txTcpCksum : UInt64 := (1 : UInt64) <<< (52 : UInt64)
def txIpv4 : UInt64 := (1 : UInt64) <<< (55 : UInt64)

/-! ## BSD mbufs -/

/-- `m_ext.ext_type`; the receive path attaches clusters of type `EXT_DISPOSABLE`. -/
inductive ExtType
  | disposable
  | other (n : Nat)
  deriving DecidableEq, Repr

/-- `m_ext.ext_free`. -/
inductive ExtFree
  | lazybsdMbufExtFree
  | other (n : Nat)
  deriving DecidableEq, Repr

/-- `m_ext` of an mbuf that has `M_EXT` set. -/
structure MExt where
  extType : ExtType
  extFree : ExtFree
  extArg1 : Option Nat
  deriving DecidableEq

/-- The `CSUM_*` requests of `m_pkthdr.csum_flags` that the driver tests. -/
structure CsumFlags where
  ip : Bool
  tcp : Bool
  udp : Bool
  sctp : Bool
  tso : Bool
  deriving DecidableEq

/-- The packet header of the first mbuf of a chain. -/
structure MPkthdr where
  len : UInt32
  csumFlags : CsumFlags
  tsoSegsz : UInt16
  deriving DecidableEq

/-- One mbuf of a chain: `mExt` is `some` exactly when `M_EXT` is set. -/
structure BsdMbuf where
  mData : Addr
  mLen : UInt32
  mExt : Option MExt
  deriving DecidableEq

/-- A chain given to the driver: a packet header, the first mbuf and those behind `m_next`. -/
structure BsdChain where
  pkthdr : MPkthdr
  first : BsdMbuf
  rest : List BsdMbuf
  deriving DecidableEq

/-- All mbufs of the chain, in order. -/
def BsdChain.mbufs (m : BsdChain) : List BsdMbuf := m.first :: m.rest

/-- The bytes of one mbuf: `m_len` bytes at `m_data`. -/
def BsdMbuf.view (mem : Mem) (mb : BsdMbuf) : List UInt8 := mem.bytes mb.mData mb.mLen.toNat

/-- The packet as the stack sees it. -/
def BsdChain.bytes (mem : Mem) (m : BsdChain) : List UInt8 := m.mbufs.flatMap (BsdMbuf.view mem)

/-- Where the bytes of the packet lie. -/
def BsdChain.addrs (m : BsdChain) : List Addr :=
  m.mbufs.flatMap fun mb => LazyBsd.addrs mb.mData mb.mLen.toNat

theorem BsdChain.bytes_eq_map (mem : Mem) (m : BsdChain) : m.bytes mem = m.addrs.map mem := by
  rw [BsdChain.bytes, BsdChain.addrs, List.map_flatMap]
  rfl

/-- `lazybsd_mbuf_mtod` on a non-NULL mbuf. -/
def lazybsdMbufMtod (m : BsdChain) : Addr := m.first.mData

/-- `lazybsd_next_mbuf`: data and length of the current mbuf. The caller's list moves on by itself. -/
def lazybsdNextMbuf (mb : BsdMbuf) : Addr × UInt32 := (mb.mData, mb.mLen)

/-- `lazybsd_rte_frm_extcl`: the `rte_mbuf` behind a receive cluster, NULL for any other mbuf. -/
def lazybsdRteFrmExtcl (mb : BsdMbuf) : Option Nat :=
  match mb.mExt with
  | some ⟨.disposable, .lazybsdMbufExtFree, arg⟩ => arg
  | _ => none

/-! ## The rte_mbuf heap -/

/-- The `rte_mbuf` cells and the pointers now allocated. A pointer that was not handed out yet is not
allocated (`unborn`). -/
structure RteHeap where
  mbuf : Nat → RteMbuf
  live : Nat → Bool
  allocs : Nat
  unborn : ∀ p, allocs ≤ p → live p = false

namespace RteHeap

variable (h : RteHeap)

/-- The link memory of the heap. -/
def next (p : Nat) : Option Nat := (h.mbuf p).next

/-- Store to the fields of one mbuf. -/
def modify (p : Nat) (f : RteMbuf → RteMbuf) : RteHeap :=
  { h with mbuf := Function.update h.mbuf p (f (h.mbuf p)) }

@[simp] theorem modify_live (p : Nat) (f : RteMbuf → RteMbuf) : (h.modify p f).live = h.live := rfl

@[simp] theorem modify_allocs (p : Nat) (f : RteMbuf → RteMbuf) :
    (h.modify p f).allocs = h.allocs := rfl

@[simp] theorem modify_mbuf_self (p : Nat) (f : RteMbuf → RteMbuf) :
    (h.modify p f).mbuf p = f (h.mbuf p) := by
  simp [modify]

theorem modify_mbuf_of_ne {p q : Nat} (hne : q ≠ p) (f : RteMbuf → RteMbuf) :
    (h.modify p f).mbuf q = h.mbuf q := by
  simp [modify, hne]

/-- A store that keeps the link keeps every chain. -/
theorem modify_next_eq {p : Nat} {f : RteMbuf → RteMbuf} (hf : ∀ m, (f m).next = m.next) :
    (h.modify p f).next = h.next := by
  funext q
  by_cases hq : q = p
  · subst hq
    simp [next, hf]
  · simp [next, modify_mbuf_of_ne h hq]

/-- A store to the link updates the link memory. -/
theorem modify_next_link (p : Nat) (q : Option Nat) :
    (h.modify p fun m => { m with next := q }).next = Function.update h.next p q := by
  funext r
  by_cases hr : r = p
  · subst hr
    simp [next]
  · simp [next, modify_mbuf_of_ne h hr, hr]

/-- `rte_pktmbuf_free`: every segment linked from `p` goes back to its pool. -/
def rtePktmbufFree (p : Nat) : RteHeap :=
  { h with
    live := fun q => h.live q && !(walk h.next h.allocs (some p)).contains q
    unborn := fun q hq => by simp [h.unborn q hq] }

@[simp] theorem rtePktmbufFree_mbuf (p : Nat) : (h.rtePktmbufFree p).mbuf = h.mbuf := rfl

/-- Freeing a well-formed chain frees exactly its segments. -/
theorem rtePktmbufFree_live {p : Nat} {l : List Nat} (hl : Linked h.next (some p) l)
    (hlen : l.length ≤ h.allocs) (q : Nat) :
    (h.rtePktmbufFree p).live q = (h.live q && !l.contains q) := by
  simp only [rtePktmbufFree, hl.walk_eq hlen]

/-- The window of memory a segment shows to the NIC. -/
def window (p : Nat) : Addr × UInt16 := ((h.mbuf p).mtod, (h.mbuf p).dataLen)

/-- Where the bytes of a list of windows lie. -/
def windowAddrs (ws : List (Addr × UInt16)) : List Addr := ws.flatMap fun w => addrs w.1 w.2.toNat

/-- The bytes the NIC sends for the frame at `p`: the segments' windows, one after the other. -/
def frameBytes (mem : Mem) (p : Nat) : List UInt8 :=
  (walk h.next h.allocs (some p)).flatMap fun q => (h.mbuf q).view mem

end RteHeap

/-- `NewFrame h ws len h'`: `h'` is `h` with one freshly allocated frame, at the first pointer that
`h` had not handed out. Its segments are linked in order and show the windows `ws`, the head carries
`pkt_len = len` and counts the segments. Everything older is untouched. -/
structure NewFrame (h : RteHeap) (ws : List (Addr × UInt16)) (len : UInt32) (h' : RteHeap) : Prop where
  allocs : h'.allocs = h.allocs + ws.length
  old : ∀ p < h.allocs, h'.mbuf p = h.mbuf p ∧ h'.live p = h.live p
  linked : Linked h'.next (some h.allocs) (List.range' h.allocs ws.length)
  windows : ∀ (i : Nat) (hi : i < ws.length), h'.window (h.allocs + i) = ws[i]
  live : ∀ i < ws.length, h'.live (h.allocs + i) = true
  pktLen : (h'.mbuf h.allocs).pktLen = len
  nbSegs : (h'.mbuf h.allocs).nbSegs = UInt16.ofNat ws.length

namespace NewFrame

variable {h h' : RteHeap} {ws : List (Addr × UInt16)} {len : UInt32}

/-- The segments of the new frame. -/
theorem walk_eq (hf : NewFrame h ws len h') :
    walk h'.next h'.allocs (some h.allocs) = List.range' h.allocs ws.length := by
  refine hf.linked.walk_eq ?_
  rw [List.length_range', hf.allocs]
  omega

theorem map_window (hf : NewFrame h ws len h') :
    (List.range' h.allocs ws.length).map h'.window = ws := by
  refine List.ext_getElem (by simp) ?_
  intro i hi hi'
  rw [List.getElem_map, List.getElem_range', Nat.one_mul]
  exact hf.windows i hi'

/-- The frame sends exactly the bytes of its windows. -/
theorem frameBytes_eq (hf : NewFrame h ws len h') (mem : Mem) :
    h'.frameBytes mem h.allocs = (RteHeap.windowAddrs ws).map mem := by
  rw [RteHeap.windowAddrs, List.map_flatMap]
  conv_rhs => rw [← hf.map_window]
  rw [List.flatMap_map, RteHeap.frameBytes, hf.walk_eq]
  rfl

end NewFrame

/-! ## The DPDK mbuf library -/

/-- The mbuf library as the driver relies on it. -/
structure Dpdk where
  /-- Does allocation number `n` of the process succeed? -/
  ok : Nat → Bool
  /-- The contents of the mbuf that allocation number `n` returns. -/
  fresh : Nat → RteMbuf
  fresh_next : ∀ n, (fresh n).next = none
  /-- `rte_pktmbuf_clone(src, pktmbuf_pool)`: one fresh segment for each segment linked from `src`
  (pointers handed out before), showing the same window; `pkt_len` is the source's. NULL, with nothing
  kept, if an allocation fails. -/
  clone : RteHeap → Nat → Option Nat × RteHeap
  clone_ok : ∀ {h : RteHeap} {src : Nat} {segs : List Nat}, Linked h.next (some src) segs →
    (∀ q ∈ segs, q < h.allocs) → (∀ k < segs.length, ok (h.allocs + k) = true) →
    ∃ h', clone h src = (some h.allocs, h') ∧
      NewFrame h (segs.map h.window) (h.mbuf src).pktLen h'
  clone_null : ∀ {h : RteHeap} {src : Nat} {segs : List Nat}, Linked h.next (some src) segs →
    (∀ q ∈ segs, q < h.allocs) → (∃ k < segs.length, ok (h.allocs + k) = false) →
    ∃ h', clone h src = (none, h') ∧ h'.live = h.live ∧ ∀ p < h.allocs, h'.mbuf p = h.mbuf p
  /-- `rte_ipv4_phdr_cksum` of the IPv4 header at an address. -/
  phdrCksum : Mem → Addr → UInt16

/-- `rte_pktmbuf_alloc`: the next allocation, NULL when it fails. -/
def Dpdk.rtePktmbufAlloc (d : Dpdk) (pool : Pool) (h : RteHeap) : Option Nat × RteHeap :=
  if d.ok h.allocs then
    (some h.allocs,
      { mbuf := Function.update h.mbuf h.allocs { d.fresh h.allocs with pool := pool }
        live := Function.update h.live h.allocs true
        allocs := h.allocs + 1
        unborn := fun p hp => by
          have hne : p ≠ h.allocs := by omega
          rw [Function.update_of_ne hne]
          exact h.unborn p (by omega) })
  else
    (none, { h with allocs := h.allocs + 1, unborn := fun p hp => h.unborn p (by omega) })

namespace Dpdk

variable (d : Dpdk) (pool : Pool) {h : RteHeap}

theorem rtePktmbufAlloc_null (hno : d.ok h.allocs = false) :
    ∃ h', d.rtePktmbufAlloc pool h = (none, h') ∧ h'.live = h.live ∧ h'.mbuf = h.mbuf ∧
      h'.allocs = h.allocs + 1 := by
  unfold rtePktmbufAlloc
  rw [if_neg (by simp [hno])]
  exact ⟨_, rfl, rfl, rfl, rfl⟩

theorem rtePktmbufAlloc_some (hok : d.ok h.allocs = true) :
    ∃ h', d.rtePktmbufAlloc pool h = (some h.allocs, h') ∧ h'.allocs = h.allocs + 1 ∧
      h'.mbuf = Function.update h.mbuf h.allocs { d.fresh h.allocs with pool := pool } ∧
      h'.live = Function.update h.live h.allocs true := by
  unfold rtePktmbufAlloc
  rw [if_pos hok]
  exact ⟨_, rfl, rfl, rfl, rfl⟩

/-- What an allocation that succeeded has done. -/
theorem rtePktmbufAlloc_inv {p : Nat} {h' : RteHeap}
    (halloc : d.rtePktmbufAlloc pool h = (some p, h')) :
    h'.allocs = h.allocs + 1 ∧
      h'.mbuf = Function.update h.mbuf h.allocs { d.fresh h.allocs with pool := pool } ∧
      h'.live = Function.update h.live h.allocs true := by
  cases hok : d.ok h.allocs with
  | false =>
      obtain ⟨h'', heq, _⟩ := d.rtePktmbufAlloc_null pool hok
      rw [heq] at halloc
      exact absurd halloc (by simp)
  | true =>
      obtain ⟨h'', heq, hspec⟩ := d.rtePktmbufAlloc_some pool hok
      rw [heq] at halloc
      obtain rfl : h'' = h' := (Prod.mk.inj halloc).2
      exact hspec

end Dpdk

/-! ### An executable library

`Dpdk.mempool ok` is a library whose n-th allocation succeeds as `ok n` says. -/

/-- The segment that clone number `i` of the chain `segs` becomes. -/
def cloneSegment (h : RteHeap) (src : Nat) (segs : List Nat) (i q : Nat) : RteMbuf :=
  { h.mbuf q with
    next := if i + 1 < segs.length then some (h.allocs + i + 1) else none
    pktLen := if i = 0 then (h.mbuf src).pktLen else (h.mbuf q).dataLen.toUInt32
    nbSegs := if i = 0 then UInt16.ofNat segs.length else 1
    pool := .pkt }

/-- The heap after all segments of `segs` were cloned. -/
def cloneSegs (h : RteHeap) (src : Nat) (segs : List Nat) : RteHeap where
  mbuf p :=
    if p < h.allocs then h.mbuf p
    else
      match segs[p - h.allocs]? with
      | some q => cloneSegment h src segs (p - h.allocs) q
      | none => h.mbuf p
  live p := if p < h.allocs then h.live p else decide (p < h.allocs + segs.length)
  allocs := h.allocs + segs.length
  unborn p hp := by
    rw [if_neg (by omega), decide_eq_false (by omega)]

/-- A chain of handed out pointers is no longer than their number. -/
theorem RteHeap.length_le_allocs {h : RteHeap} {p : Option Nat} {segs : List Nat}
    (hl : Linked h.next p segs) (hborn : ∀ q ∈ segs, q < h.allocs) : segs.length ≤ h.allocs := by
  have hsub : segs ⊆ List.range h.allocs := fun q hq => List.mem_range.mpr (hborn q hq)
  have hle : segs.length ≤ (List.range h.allocs).length := (List.Nodup.subperm hl.nodup hsub).length_le
  rwa [List.length_range] at hle

/-- So it is read in full with one step for each pointer. -/
theorem RteHeap.walk_handedOut {h : RteHeap} {src : Nat} {segs : List Nat}
    (hl : Linked h.next (some src) segs) (hborn : ∀ q ∈ segs, q < h.allocs) :
    walk h.next h.allocs (some src) = segs := by
  apply hl.walk_eq
  exact RteHeap.length_le_allocs hl hborn

/-- The clones are linked in order. -/
theorem cloneSegs_linked {h : RteHeap} {src : Nat} {segs : List Nat} (i : Nat)
    (hi : i < segs.length) :
    Linked (cloneSegs h src segs).next (some (h.allocs + i))
      (List.range' (h.allocs + i) (segs.length - i)) := by
  obtain ⟨n, hn⟩ : ∃ n, segs.length - i = n + 1 := ⟨segs.length - i - 1, by omega⟩
  induction n generalizing i with
  | zero =>
      rw [hn]
      refine .cons ?_
      have hlast : ¬ i + 1 < segs.length := by omega
      simp only [RteHeap.next, cloneSegs, cloneSegment]
      rw [if_neg (by omega : ¬ h.allocs + i < h.allocs), Nat.add_sub_cancel_left,
        List.getElem?_eq_getElem hi]
      simp only [if_neg hlast]
      exact .nil
  | succ n ih =>
      rw [hn]
      refine .cons ?_
      have hmore : i + 1 < segs.length := by omega
      have hrest := ih (i + 1) hmore (by omega)
      rw [show segs.length - (i + 1) = n + 1 by omega] at hrest
      simp only [RteHeap.next, cloneSegs, cloneSegment] at hrest ⊢
      rw [if_neg (by omega : ¬ h.allocs + i < h.allocs), Nat.add_sub_cancel_left,
        List.getElem?_eq_getElem hi]
      simp only [if_pos hmore]
      exact hrest

/-- The clones make a frame with the windows of the source. -/
theorem cloneSegs_newFrame {h : RteHeap} {src : Nat} {segs : List Nat}
    (hl : Linked h.next (some src) segs) :
    NewFrame h (segs.map h.window) (h.mbuf src).pktLen (cloneSegs h src segs) := by
  have hpos : 0 < segs.length := by
    cases hl with
    | cons _ => simp
  have hget : ∀ (i : Nat) (hi : i < segs.length),
      (cloneSegs h src segs).mbuf (h.allocs + i) = cloneSegment h src segs i segs[i] := by
    intro i hi
    simp only [cloneSegs]
    rw [if_neg (by omega), Nat.add_sub_cancel_left, List.getElem?_eq_getElem hi]
  refine ⟨by simp [cloneSegs], ?_, ?_, ?_, ?_, ?_, ?_⟩
  · intro p hp
    simp [cloneSegs, hp]
  · have hlinked : Linked (cloneSegs h src segs).next _ _ := cloneSegs_linked 0 hpos
    simpa using hlinked
  · intro i hi
    have hi' : i < segs.length := by simpa using hi
    rw [List.getElem_map, RteHeap.window, hget i hi']
    rfl
  · intro i hi
    have hi' : i < segs.length := by simpa using hi
    simp [cloneSegs, hi']
  · have h0 := hget 0 hpos
    rw [Nat.add_zero] at h0
    rw [h0]
    rfl
  · have h0 := hget 0 hpos
    rw [Nat.add_zero] at h0
    rw [h0, List.length_map]
    rfl

/-- Can the library clone `segs` now? -/
def cloneFits (ok : Nat → Bool) (h : RteHeap) (segs : List Nat) : Bool :=
  (List.range segs.length).all fun k => ok (h.allocs + k)

/-- An executable mbuf library. -/
def Dpdk.mempool (ok : Nat → Bool) (fresh : RteMbuf) (phdrCksum : Mem → Addr → UInt16) : Dpdk where
  ok := ok
  fresh _ := { fresh with next := none }
  fresh_next _ := rfl
  clone h src :=
    let segs := walk h.next h.allocs (some src)
    if cloneFits ok h segs then (some h.allocs, cloneSegs h src segs)
    else (none, { h with allocs := h.allocs + segs.length, unborn := fun p hp => h.unborn p (by omega) })
  clone_ok := by
    intro h src segs hl hborn hok
    have hfits : cloneFits ok h segs = true := by
      simpa [cloneFits] using hok
    simp only [RteHeap.walk_handedOut hl hborn, if_pos hfits]
    exact ⟨_, rfl, cloneSegs_newFrame hl⟩
  clone_null := by
    intro h src segs hl hborn hno
    have hfits : ¬ cloneFits ok h segs = true := by
      simpa [cloneFits] using hno
    simp only [RteHeap.walk_handedOut hl hborn, if_neg hfits]
    exact ⟨_, rfl, rfl, fun p _ => rfl⟩
  phdrCksum := phdrCksum

end LazyBsd
