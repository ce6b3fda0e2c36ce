/-
# LazyBsd.DeepClone — `pktmbuf_deep_clone`: the copy of a broadcast packet for another worker.

A source chain is copied segment by segment into mbufs of a pool, and an allocation that fails ends the
loop like the end of the chain does. The links of the copy are set through `prev`, which points to the
`next` of some mbuf and is known here by that mbuf. In the first turn that is the head itself, which is
linked to itself until the second turn or the store after the loop. The attributes of a segment are copied
with its `ol_flags`, so a copy of a segment that is attached to a buffer elsewhere claims to be attached
too, and is freed as if it were.
-/
import Mathlib.Data.List.Perm.Basic
import LazyBsd.Lib.Linked
import LazyBsd.Lib.Object

namespace LazyBsd.DeepClone

open Lib Lib.Object

/-! ## Mbufs and their buffers -/

/-- What data lies in: the buffer of an mbuf, or anything else. -/
inductive Buffer
  | own (p : Nat)
  | other (n : Nat)
  deriving DecidableEq

/-- The fields of `struct rte_mbuf` that are copied, or decide how an mbuf is freed. -/
structure Mbuf where
  bufAddr : Ptr Buffer
  bufLen : UInt16
  dataOff : UInt16
  dataLen : UInt16
  pktLen : UInt32
  nbSegs : UInt16
  next : Option Nat
  refcnt : UInt16
  port : UInt16
  vlanTci : UInt16
  vlanTciOuter : UInt16
  txOffload : UInt64
  hash : UInt64
  olFlags : UInt64
  packetType : UInt32

/-- `RTE_MBUF_F_EXTERNAL` and `RTE_MBUF_F_INDIRECT`. -/
def flagExternal : UInt64 := (1 : UInt64) <<< (61 : UInt64)
def flagIndirect : UInt64 := (1 : UInt64) <<< (62 : UInt64)

def Mbuf.External (m : Mbuf) : Prop := m.olFlags &&& flagExternal ≠ 0
def Mbuf.Indirect (m : Mbuf) : Prop := m.olFlags &&& flagIndirect ≠ 0

instance (m : Mbuf) : Decidable m.External := inferInstanceAs (Decidable (_ ≠ _))
instance (m : Mbuf) : Decidable m.Indirect := inferInstanceAs (Decidable (_ ≠ _))

/-- `RTE_MBUF_DIRECT`. -/
def Mbuf.Direct (m : Mbuf) : Prop := ¬ m.Indirect ∧ ¬ m.External

/-- `rte_pktmbuf_mtod`. -/
def Mbuf.mtod (m : Mbuf) : Ptr Buffer := m.bufAddr + m.dataOff.toNat

/-- What freeing gives back: an mbuf to its pool, or a reference to the external buffer that an mbuf claims
to be attached to. -/
inductive Release
  | mbuf (p : Nat)
  | extBuf (p : Nat)
  deriving DecidableEq

/-- The mbufs, the bytes of all buffers, and what was freed so far. Allocation number `n` returns mbuf `n`. -/
structure Heap where
  mbuf : Nat → Mbuf
  byte : Contents Buffer
  allocs : Nat
  released : List Release

/-- The links. -/
def Heap.next (h : Heap) (p : Nat) : Option Nat := (h.mbuf p).next

/-- The bytes of a segment. -/
def Heap.data (h : Heap) (p : Nat) : List UInt8 :=
  bytesAt h.byte (h.mbuf p).mtod (h.mbuf p).dataLen.toNat

/-- Store to the fields of an mbuf. -/
def Heap.modify (h : Heap) (p : Nat) (f : Mbuf → Mbuf) : Heap :=
  { h with mbuf := Function.update h.mbuf p (f (h.mbuf p)) }

/-! ## The pool and the mbuf library -/

/-- The destination pool as the code relies on it: which allocations succeed, and the mbufs they return,
each with a buffer of its own that has `room` bytes behind the headroom. `rte_pktmbuf_free_seg` gives a
direct mbuf back to its pool. For an mbuf attached to another one it gives up a reference to the owner of
the buffer first, and for one with an external buffer a reference to that. -/
structure Mempool where
  ok : Nat → Bool
  room : Nat
  fresh : Nat → Mbuf
  fresh_bufAddr : ∀ p, (fresh p).bufAddr = ⟨.own p, 0⟩
  fresh_room : ∀ p, (fresh p).dataOff.toNat + room ≤ (fresh p).bufLen.toNat
  fresh_refcnt : ∀ p, (fresh p).refcnt = 1
  freeSeg : Nat → Mbuf → List Release
  free_direct : ∀ p m, m.refcnt = 1 → m.Direct → freeSeg p m = [.mbuf p]
  /-- An mbuf that is the owner itself loses its only reference. -/
  free_indirect : ∀ p m, m.refcnt = 1 → m.Indirect → ¬ m.External → m.bufAddr = ⟨.own p, 0⟩ →
    freeSeg p m = [.mbuf p, .mbuf p]
  free_external : ∀ p m, m.refcnt = 1 → m.External → .extBuf p ∈ freeSeg p m

namespace Mempool

variable (mp : Mempool)

/-- The heap after an allocation. -/
def taken (h : Heap) : Heap :=
  { h with mbuf := Function.update h.mbuf h.allocs (mp.fresh h.allocs), allocs := h.allocs + 1 }

/-- `rte_pktmbuf_alloc`. -/
def rtePktmbufAlloc (h : Heap) : Option Nat × Heap :=
  if mp.ok h.allocs then (some h.allocs, mp.taken h) else (none, { h with allocs := h.allocs + 1 })

/-- `rte_pktmbuf_free`: every segment linked from `p`. -/
def rtePktmbufFree (p : Nat) (h : Heap) : Heap :=
  { h with
    released := h.released ++
      (walk h.next h.allocs (some p)).flatMap fun q => mp.freeSeg q (h.mbuf q) }

end Mempool

/-! ## The code -/

/-- The attributes of `m` in `mi`. -/
def Mbuf.attach (mi m : Mbuf) : Mbuf :=
  { mi with
    dataLen := m.dataLen
    port := m.port
    vlanTci := m.vlanTci
    vlanTciOuter := m.vlanTciOuter
    txOffload := m.txOffload
    hash := m.hash
    olFlags := m.olFlags
    packetType := m.packetType }

def pktmbufDeepAttach (mi m : Nat) (h : Heap) : Heap :=
  { h with
    mbuf := Function.update h.mbuf mi ((h.mbuf mi).attach (h.mbuf m))
    byte := copied h.byte (h.mbuf m).mtod (h.mbuf mi).mtod (h.mbuf m).dataLen.toNat }

/-- `*prev = q`, where `prev` points to the link of `p`. -/
def setNext (p : Nat) (q : Option Nat) (h : Heap) : Heap := h.modify p fun m => { m with next := q }

/-- The locals behind the loop. -/
structure Locals where
  mi : Option Nat
  prev : Nat
  nseg : UInt8

/-- The `do` loop; `none` if it does not end within `fuel` turns. -/
def cloneLoop (mp : Mempool) (fuel md mi prev : Nat) (nseg : UInt8) (h : Heap) : Option (Locals × Heap) :=
  match fuel with
  | 0 => none
  | fuel + 1 =>
      let nseg := nseg + 1
      let h := setNext prev (some mi) (pktmbufDeepAttach mi md h)
      match h.next md with
      | none => some (⟨some mi, mi, nseg⟩, h)
      | some md' =>
          match mp.rtePktmbufAlloc h with
          | (none, h) => some (⟨none, mi, nseg⟩, h)
          | (some mi', h) => cloneLoop mp fuel md' mi' mi nseg h

/-- The end of the chain, its number of segments and the length of the packet. -/
def finish (mc prev : Nat) (nseg : UInt8) (pktLen : UInt32) (h : Heap) : Heap :=
  (setNext prev none h).modify mc fun m => { m with nbSegs := nseg.toUInt16, pktLen := pktLen }

def pktmbufDeepClone (mp : Mempool) (fuel md : Nat) (h : Heap) : Option (Option Nat × Heap) :=
  match mp.rtePktmbufAlloc h with
  | (none, h) => some (none, h)
  | (some mc, h) =>
      let pktLen := (h.mbuf md).pktLen
      (cloneLoop mp fuel md mc mc 0 h).map fun (l, h) =>
        let h := finish mc l.prev l.nseg pktLen h
        match l.mi with
        | none => (none, mp.rtePktmbufFree mc h)
        | some _ => (some mc, h)

/-! ## What a clone is -/

/-- A chain of at most 255 segments, in mbufs that were allocated before. Its data lies anywhere but in
the buffers of mbufs that are free, and each segment fits the data room of the pool. -/
structure SourceChain (mp : Mempool) (h : Heap) (md : Nat) (segs : List Nat) : Prop where
  linked : Linked h.next (some md) segs
  short : segs.length ≤ 255
  nbSegs : (h.mbuf md).nbSegs.toNat = segs.length
  born : ∀ q ∈ segs, q < h.allocs
  apart : ∀ q ∈ segs, ∀ p, h.allocs ≤ p → (h.mbuf q).bufAddr.obj ≠ .own p
  fits : ∀ q ∈ segs, (h.mbuf q).dataLen.toNat ≤ mp.room

/-- `clone`, linked from `mc`, is a copy of `segs` in new mbufs: as many segments with the same bytes, the
same `pkt_len` and `nb_segs`. All of it is direct, so freeing it gives back its mbufs and nothing else. -/
structure IsCopy (mp : Mempool) (h : Heap) (md : Nat) (segs : List Nat) (mc : Nat) (clone : List Nat)
    (h' : Heap) : Prop where
  linked : Linked h'.next (some mc) clone
  fresh : ∀ p ∈ clone, h.allocs ≤ p ∧ p < h'.allocs
  data : clone.map h'.data = segs.map h.data
  pktLen : (h'.mbuf mc).pktLen = (h.mbuf md).pktLen
  nbSegs : (h'.mbuf mc).nbSegs = (h.mbuf md).nbSegs
  direct : ∀ p ∈ clone, (h'.mbuf p).Direct
  kept : h'.released = h.released
  freed : (mp.rtePktmbufFree mc h').released = h'.released ++ clone.map .mbuf

/-- The mbufs allocated between two states. -/
def Mempool.allocated (mp : Mempool) (h h' : Heap) : List Nat :=
  (List.range' h.allocs (h'.allocs - h.allocs)).filter mp.ok

/-- The result is NULL, and what was allocated is freed, once each, and nothing else is; or it is a copy.
The source is as it was, and so is every byte that is not in the buffer of a new mbuf. -/
structure CopyOrNothing (mp : Mempool) (h : Heap) (md : Nat) (segs : List Nat) (mc : Option Nat)
    (h' : Heap) : Prop where
  nothing : mc = none → ∃ freed : List Release, h'.released = h.released ++ freed ∧
    freed.Perm ((mp.allocated h h').map .mbuf)
  copy : ∀ p, mc = some p → ∃ clone, IsCopy mp h md segs p clone h'
  source : ∀ q ∈ segs, h'.mbuf q = h.mbuf q ∧ h'.data q = h.data q
  written : ∀ x, h'.byte x ≠ h.byte x →
    ∃ p, h.allocs ≤ p ∧ p < h'.allocs ∧ (mp.fresh p).bufAddr.Covers (mp.fresh p).bufLen.toNat x

/-! ## The pieces -/

section Pieces

variable {mp : Mempool} {h : Heap} {p q mi md : Nat}

theorem modify_mbuf_self (h : Heap) (p : Nat) (f : Mbuf → Mbuf) :
    (h.modify p f).mbuf p = f (h.mbuf p) := Function.update_self _ _ _

theorem modify_mbuf_of_ne (f : Mbuf → Mbuf) (hne : q ≠ p) : (h.modify p f).mbuf q = h.mbuf q :=
  Function.update_of_ne hne _ _

theorem attach_mbuf_self (mi md : Nat) (h : Heap) :
    (pktmbufDeepAttach mi md h).mbuf mi = (h.mbuf mi).attach (h.mbuf md) := Function.update_self _ _ _

theorem attach_mbuf_of_ne (md : Nat) (hne : q ≠ mi) : (pktmbufDeepAttach mi md h).mbuf q = h.mbuf q :=
  Function.update_of_ne hne _ _

theorem taken_mbuf_self (mp : Mempool) (h : Heap) :
    (mp.taken h).mbuf h.allocs = mp.fresh h.allocs := Function.update_self _ _ _

theorem taken_mbuf_of_ne (mp : Mempool) (hne : q ≠ h.allocs) : (mp.taken h).mbuf q = h.mbuf q :=
  Function.update_of_ne hne _ _

theorem setNext_next (p : Nat) (n : Option Nat) (h : Heap) :
    (setNext p n h).next = Function.update h.next p n := by
  funext q
  by_cases hq : q = p
  · subst hq
    rw [Heap.next, setNext, modify_mbuf_self, Function.update_self]
  · rw [Heap.next, setNext, modify_mbuf_of_ne _ hq, Function.update_of_ne hq]
    rfl

theorem attach_next (mi md : Nat) (h : Heap) : (pktmbufDeepAttach mi md h).next = h.next := by
  funext q
  by_cases hq : q = mi
  · subst hq
    rw [Heap.next, attach_mbuf_self]
    rfl
  · rw [Heap.next, attach_mbuf_of_ne md hq]
    rfl

theorem taken_next (mp : Mempool) (h : Heap) :
    (mp.taken h).next = Function.update h.next h.allocs (mp.fresh h.allocs).next := by
  funext q
  by_cases hq : q = h.allocs
  · subst hq
    rw [Heap.next, taken_mbuf_self, Function.update_self]
  · rw [Heap.next, taken_mbuf_of_ne mp hq, Function.update_of_ne hq]
    rfl

/-- One turn, from the allocation of the mbuf on. -/
def turn (mp : Mempool) (md prev : Nat) (h : Heap) : Heap :=
  setNext prev (some h.allocs) (pktmbufDeepAttach h.allocs md (mp.taken h))

theorem turn_next (mp : Mempool) (md prev : Nat) (h : Heap) :
    (turn mp md prev h).next =
      Function.update (Function.update h.next h.allocs (mp.fresh h.allocs).next) prev (some h.allocs) := by
  rw [turn, setNext_next, attach_next, taken_next]

/-- Only the new mbuf and the link at `prev` are stored to. -/
theorem turn_mbuf_of_ne (mp : Mempool) (md : Nat) (h : Heap) (hnew : q ≠ h.allocs) (hprev : q ≠ p) :
    (turn mp md p h).mbuf q = h.mbuf q := by
  rw [turn, setNext, modify_mbuf_of_ne _ hprev, attach_mbuf_of_ne md hnew, taken_mbuf_of_ne mp hnew]

end Pieces

/-! ## A copied segment -/

/-- What a copied segment keeps, whatever is stored to its link and its counts: its own buffer, one
reference, and the length and flags of the source. -/
structure Attached (mp : Mempool) (p : Nat) (m src : Mbuf) : Prop where
  bufAddr : m.bufAddr = ⟨.own p, 0⟩
  dataOff : m.dataOff = (mp.fresh p).dataOff
  refcnt : m.refcnt = 1
  dataLen : m.dataLen = src.dataLen
  olFlags : m.olFlags = src.olFlags

section Attach

variable {mp : Mempool} {p q : Nat} {m src : Mbuf} {h : Heap}

theorem Attached.modify {r : Nat} {f : Mbuf → Mbuf} (ha : Attached mp p (h.mbuf p) src)
    (hf : ∀ m, Attached mp p m src → Attached mp p (f m) src) :
    Attached mp p ((h.modify r f).mbuf p) src := by
  by_cases hr : p = r
  · subst hr
    rw [modify_mbuf_self]
    exact hf _ ha
  · rwa [modify_mbuf_of_ne f hr]

theorem Attached.setNext {r : Nat} {n : Option Nat} (ha : Attached mp p (h.mbuf p) src) :
    Attached mp p ((setNext r n h).mbuf p) src :=
  ha.modify fun _ h => ⟨h.bufAddr, h.dataOff, h.refcnt, h.dataLen, h.olFlags⟩

theorem Attached.mtod (ha : Attached mp p m src) : m.mtod = (mp.fresh p).mtod := by
  rw [Mbuf.mtod, Mbuf.mtod, ha.bufAddr, ha.dataOff, mp.fresh_bufAddr]

theorem Attached.direct_iff (ha : Attached mp p m src) : m.Direct ↔ src.Direct := by
  rw [Mbuf.Direct, Mbuf.Indirect, Mbuf.External, ha.olFlags]
  rfl

theorem attached_turn (mp : Mempool) (md prev : Nat) (h : Heap) :
    Attached mp h.allocs ((turn mp md prev h).mbuf h.allocs) ((mp.taken h).mbuf md) := by
  apply Attached.setNext
  rw [attach_mbuf_self, taken_mbuf_self]
  exact ⟨mp.fresh_bufAddr _, rfl, mp.fresh_refcnt _, rfl, rfl⟩

end Attach

/-! ## The loop -/

/-- The heap after `k` segments of `segs` were copied: the mbufs from the first allocation on carry them,
linked up to the last one, whose link is not set. -/
structure Copying (mp : Mempool) (h₀ : Heap) (segs : List Nat) (k : Nat) (h : Heap) : Prop where
  old : ∀ q < h₀.allocs, h.mbuf q = h₀.mbuf q
  released : h.released = h₀.released
  linked : 0 < k → Linked (Function.update h.next (h₀.allocs + (k - 1)) none) (some h₀.allocs)
    (List.range' h₀.allocs k)
  attached : ∀ i q, i < k → segs[i]? = some q →
    Attached mp (h₀.allocs + i) (h.mbuf (h₀.allocs + i)) (h₀.mbuf q)
  data : ∀ i q, i < k → segs[i]? = some q → h.data (h₀.allocs + i) = h₀.data q
  written : ∀ x, h.byte x ≠ h₀.byte x →
    ∃ i < k, (mp.fresh (h₀.allocs + i)).bufAddr.Covers (mp.fresh (h₀.allocs + i)).bufLen.toNat x

section Loop

variable {mp : Mempool} {h₀ h : Heap} {segs : List Nat} {md q k i : Nat}

theorem Copying.start (mp : Mempool) (h₀ : Heap) (segs : List Nat) : Copying mp h₀ segs 0 h₀ where
  old _ _ := rfl
  released := rfl
  linked hpos := absurd hpos (Nat.lt_irrefl 0)
  attached i _ hi := absurd hi (Nat.not_lt_zero i)
  data i _ hi := absurd hi (Nat.not_lt_zero i)
  written _ hx := absurd rfl hx

/-- The source is as it was. -/
theorem Copying.source (hc : Copying mp h₀ segs k h) (hsrc : SourceChain mp h₀ md segs) (hq : q ∈ segs) :
    h.mbuf q = h₀.mbuf q ∧ h.data q = h₀.data q := by
  have hmbuf := hc.old q (hsrc.born q hq)
  refine ⟨hmbuf, ?_⟩
  rw [Heap.data, Heap.data, hmbuf]
  apply bytesAt_congr
  intro j _
  by_contra hne
  obtain ⟨i, -, hobj, -⟩ := hc.written _ hne
  rw [mp.fresh_bufAddr] at hobj
  exact hsrc.apart q hq _ (Nat.le_add_right _ i) hobj

/-- The bytes of the source segment are put at the start of the data room. -/
theorem turn_byte (prev : Nat) (hmd : md ≠ h.allocs) :
    (turn mp md prev h).byte =
      copied h.byte (h.mbuf md).mtod (mp.fresh h.allocs).mtod (h.mbuf md).dataLen.toNat := by
  show copied h.byte ((mp.taken h).mbuf md).mtod ((mp.taken h).mbuf h.allocs).mtod
    ((mp.taken h).mbuf md).dataLen.toNat = _
  rw [taken_mbuf_self, taken_mbuf_of_ne mp hmd]

theorem turn_byte_other {x : Ptr Buffer} (prev : Nat) (hmd : md ≠ h.allocs) (hx : x.obj ≠ .own h.allocs) :
    (turn mp md prev h).byte x = h.byte x := by
  rw [turn_byte prev hmd]
  apply copied_other
  rintro ⟨hobj, -, -⟩
  rw [Mbuf.mtod, mp.fresh_bufAddr] at hobj
  exact hx hobj

/-- The new mbuf has the bytes of the segment. -/
theorem turn_data_self (prev : Nat) (hmd : md ≠ h.allocs) :
    (turn mp md prev h).data h.allocs = h.data md := by
  have ha := attached_turn mp md prev h
  rw [Heap.data, Heap.data, ha.mtod, ha.dataLen, taken_mbuf_of_ne mp hmd, turn_byte prev hmd]
  apply bytesAt_congr
  intro i hi
  exact copied_at hi

theorem turn_data_other {src : Mbuf} (prev : Nat) (hmd : md ≠ h.allocs) (hq : q ≠ h.allocs)
    (hold : Attached mp q (h.mbuf q) src) (hnew : Attached mp q ((turn mp md prev h).mbuf q) src) :
    (turn mp md prev h).data q = h.data q := by
  rw [Heap.data, Heap.data, hnew.mtod, hold.mtod, hnew.dataLen, hold.dataLen]
  apply bytesAt_congr
  intro i _
  apply turn_byte_other prev hmd
  rw [Ptr.add_obj, Mbuf.mtod, mp.fresh_bufAddr]
  simpa using hq

/-- The links after a turn. The first turn links the head to itself; its link is not read before it is set
again. -/
theorem Copying.turn_linked (hc : Copying mp h₀ segs k h) (hallocs : h.allocs = h₀.allocs + k) (md : Nat) :
    Linked (Function.update (turn mp md (h₀.allocs + (k - 1)) h).next (h₀.allocs + k) none) (some h₀.allocs)
      (List.range' h₀.allocs (k + 1)) := by
  rw [turn_next, hallocs]
  cases k with
  | zero =>
      refine .cons ?_
      rw [Nat.add_zero, Function.update_self]
      exact .nil
  | succ k =>
      have hnew (j : Nat) (hj : j ∈ List.range' h₀.allocs (k + 1)) : j ≠ h₀.allocs + (k + 1) := by
        have hlt := (List.mem_range'_1.mp hj).2
        omega
      have hbuilt := hc.linked (Nat.succ_pos k)
      rw [Nat.add_sub_cancel] at hbuilt ⊢
      -- the link of the new mbuf plays no part in the chain so far
      have hcut : Linked (Function.update (Function.update h.next (h₀.allocs + (k + 1))
          (mp.fresh (h₀.allocs + (k + 1))).next) (h₀.allocs + k) none) (some h₀.allocs)
          (List.range' h₀.allocs k ++ [h₀.allocs + k]) := by
        rw [← List.range'_1_concat]
        apply hbuilt.congr
        intro j hj
        by_cases hlast : j = h₀.allocs + k
        · rw [hlast, Function.update_self, Function.update_self]
        · rw [Function.update_of_ne hlast, Function.update_of_ne hlast, Function.update_of_ne (hnew j hj)]
      rw [List.range'_1_concat, List.range'_1_concat, List.append_assoc]
      apply hcut.append_cut
      rw [← List.range'_1_concat]
      exact fun hmem => hnew _ hmem rfl

theorem turn_attached {src : Mbuf} (md prev : Nat) (hq : q ≠ h.allocs) (hold : Attached mp q (h.mbuf q) src) :
    Attached mp q ((turn mp md prev h).mbuf q) src := by
  apply Attached.setNext
  rwa [attach_mbuf_of_ne md hq, taken_mbuf_of_ne mp hq]

/-- A turn of the loop copies one more segment. -/
theorem Copying.succ (hc : Copying mp h₀ segs k h) (hsrc : SourceChain mp h₀ q segs)
    (hallocs : h.allocs = h₀.allocs + k) (hmd : segs[k]? = some md) :
    Copying mp h₀ segs (k + 1) (turn mp md (h₀.allocs + (k - 1)) h) := by
  have hmem := List.mem_of_getElem? hmd
  have hborn := hsrc.born md hmem
  have hne : md ≠ h.allocs := by omega
  obtain ⟨hmbuf, hdata⟩ := hc.source hsrc hmem
  refine ⟨?_, hc.released, fun _ => hc.turn_linked hallocs md, ?_, ?_, ?_⟩
  · intro p hp
    rw [turn_mbuf_of_ne mp md h (by omega) (by omega)]
    exact hc.old p hp
  · intro i src hi hsrc'
    rcases Nat.lt_or_eq_of_le (Nat.le_of_lt_succ hi) with hlt | rfl
    · exact turn_attached md _ (by omega) (hc.attached i src hlt hsrc')
    · obtain rfl := Option.some.inj (hmd.symm.trans hsrc')
      have ha := attached_turn mp md (h₀.allocs + (i - 1)) h
      rwa [taken_mbuf_of_ne mp hne, hmbuf, hallocs] at ha
  · intro i src hi hsrc'
    rcases Nat.lt_or_eq_of_le (Nat.le_of_lt_succ hi) with hlt | rfl
    · have hother : h₀.allocs + i ≠ h.allocs := by omega
      have hold := hc.attached i src hlt hsrc'
      rw [turn_data_other _ hne hother hold (turn_attached md _ hother hold)]
      exact hc.data i src hlt hsrc'
    · obtain rfl := Option.some.inj (hmd.symm.trans hsrc')
      rw [← hallocs, turn_data_self _ hne, hdata]
  · intro x hx
    by_cases hsame : h.byte x = h₀.byte x
    · refine ⟨k, Nat.lt_succ_self k, ?_⟩
      have hcovers : (mp.fresh h.allocs).mtod.Covers (h.mbuf md).dataLen.toNat x := by
        by_contra hnot
        rw [turn_byte _ hne, copied_other hnot] at hx
        exact hx hsame
      obtain ⟨hobj, hlo, hhi⟩ := hcovers
      have hfits := hsrc.fits md hmem
      have hroom := mp.fresh_room h.allocs
      rw [hmbuf] at hhi
      rw [← hallocs]
      rw [Mbuf.mtod] at hobj hlo hhi
      rw [Ptr.add_off] at hlo hhi
      exact ⟨hobj, by omega, by omega⟩
    · obtain ⟨i, hi, hcovers⟩ := hc.written x hsame
      exact ⟨i, Nat.lt_succ_of_lt hi, hcovers⟩

/-- Where the loop ends: after the last segment, or at an allocation that failed. -/
structure Ended (mp : Mempool) (h₀ : Heap) (segs : List Nat) (k : Nat) (l : Locals) (h : Heap) : Prop where
  copying : Copying mp h₀ segs k h
  pos : 0 < k
  prev : l.prev = h₀.allocs + (k - 1)
  nseg : l.nseg = .ofNat k
  ok : ∀ i < k, mp.ok (h₀.allocs + i) = true
  done : l.mi.isSome = true → k = segs.length ∧ h.allocs = h₀.allocs + k
  failed : l.mi = none →
    k < segs.length ∧ h.allocs = h₀.allocs + k + 1 ∧ mp.ok (h₀.allocs + k) = false

/-- The loop ends, by induction on the turns that are left. -/
theorem cloneLoop_ended (hsrc : SourceChain mp h₀ q segs) {fuel : Nat} (hfuel : segs.length ≤ fuel + k)
    (hc : Copying mp h₀ segs k h) (hallocs : h.allocs = h₀.allocs + k) (hmd : segs[k]? = some md)
    (hok : ∀ i ≤ k, mp.ok (h₀.allocs + i) = true) :
    ∃ k' l h', cloneLoop mp fuel md (h₀.allocs + k) (h₀.allocs + (k - 1)) (.ofNat k) (mp.taken h) =
      some (l, h') ∧ Ended mp h₀ segs k' l h' := by
  have hlt : k < segs.length := (List.getElem?_eq_some_iff.mp hmd).1
  induction fuel generalizing k h md with
  | zero => omega
  | succ fuel ih =>
      have hnext := hc.succ hsrc hallocs hmd
      have hmem := List.mem_of_getElem? hmd
      -- the next source segment, read behind the copy of this one
      have hlink : (turn mp md (h₀.allocs + (k - 1)) h).next md = segs[k + 1]? := by
        rw [Heap.next, (hnext.source hsrc hmem).1]
        exact hsrc.linked.next_eq_getElem? hmd
      have hcount : UInt8.ofNat k + 1 = UInt8.ofNat (k + 1) := (UInt8.ofNat_add k 1).symm
      have hallocs' : (turn mp md (h₀.allocs + (k - 1)) h).allocs = h₀.allocs + (k + 1) := by
        show h.allocs + 1 = _
        omega
      have hprefix : ∀ i < k + 1, mp.ok (h₀.allocs + i) = true := fun i hi => hok i (Nat.le_of_lt_succ hi)
      rw [cloneLoop, hcount]
      rw [← hallocs, ← turn, hallocs, hlink]
      cases hrest : segs[k + 1]? with
      | none =>
          have hlast : k + 1 = segs.length := by
            have hge := List.getElem?_eq_none_iff.mp hrest
            omega
          refine ⟨k + 1, _, _, rfl, hnext, Nat.succ_pos k, rfl, rfl, hprefix, fun _ => ⟨hlast, hallocs'⟩, ?_⟩
          rintro ⟨⟩
      | some md' =>
          have hlt' : k + 1 < segs.length := (List.getElem?_eq_some_iff.mp hrest).1
          dsimp only
          rw [Mempool.rtePktmbufAlloc, hallocs']
          cases halloc : mp.ok (h₀.allocs + (k + 1)) with
          | false =>
              refine ⟨k + 1, _, _, rfl, ⟨hnext.old, hnext.released, hnext.linked, hnext.attached, hnext.data,
                hnext.written⟩, Nat.succ_pos k, rfl, rfl, hprefix, ?_, fun _ => ⟨hlt', rfl, halloc⟩⟩
              rintro ⟨⟩
          | true =>
              refine ih (by omega) hnext hallocs' hrest ?_ hlt'
              intro i hi
              rcases Nat.lt_or_eq_of_le hi with hi | rfl
              · exact hprefix i hi
              · exact halloc

end Loop

/-! ## The clone -/

/-- The finished chain of `k` segments. -/
structure Built (mp : Mempool) (h₀ : Heap) (md : Nat) (segs : List Nat) (k : Nat) (h : Heap) : Prop where
  linked : Linked h.next (some h₀.allocs) (List.range' h₀.allocs k)
  attached : ∀ i q, i < k → segs[i]? = some q →
    Attached mp (h₀.allocs + i) (h.mbuf (h₀.allocs + i)) (h₀.mbuf q)
  data : ∀ i q, i < k → segs[i]? = some q → h.data (h₀.allocs + i) = h₀.data q
  pktLen : (h.mbuf h₀.allocs).pktLen = (h₀.mbuf md).pktLen
  nbSegs : (h.mbuf h₀.allocs).nbSegs = (UInt8.ofNat k).toUInt16
  released : h.released = h₀.released
  source : ∀ q ∈ segs, h.mbuf q = h₀.mbuf q ∧ h.data q = h₀.data q
  written : ∀ x, h.byte x ≠ h₀.byte x →
    ∃ i < k, (mp.fresh (h₀.allocs + i)).bufAddr.Covers (mp.fresh (h₀.allocs + i)).bufLen.toNat x
  length : k ≤ segs.length
  ok : ∀ i < k, mp.ok (h₀.allocs + i) = true

section Clone

variable {mp : Mempool} {h₀ h : Heap} {segs : List Nat} {md k : Nat}

theorem data_congr {h' : Heap} {p : Nat} (hmbuf : h'.mbuf p = h.mbuf p) (hbyte : h'.byte = h.byte) :
    h'.data p = h.data p := by
  rw [Heap.data, Heap.data, hmbuf, hbyte]

theorem finish_next (mc prev : Nat) (nseg : UInt8) (pktLen : UInt32) (h : Heap) :
    (finish mc prev nseg pktLen h).next = Function.update h.next prev none := by
  rw [← setNext_next]
  funext q
  by_cases hq : q = mc
  · subst hq
    rw [Heap.next, finish, modify_mbuf_self]
    rfl
  · rw [Heap.next, finish, modify_mbuf_of_ne _ hq]
    rfl

/-- What the stores behind the loop leave. -/
theorem Copying.built (hc : Copying mp h₀ segs k h) (hsrc : SourceChain mp h₀ md segs) (hpos : 0 < k)
    (hle : k ≤ segs.length) (hok : ∀ i < k, mp.ok (h₀.allocs + i) = true) :
    Built mp h₀ md segs k
      (finish h₀.allocs (h₀.allocs + (k - 1)) (.ofNat k) (h₀.mbuf md).pktLen h) := by
  have hattached (i q : Nat) (hi : i < k) (hq : segs[i]? = some q) :
      Attached mp (h₀.allocs + i)
        ((finish h₀.allocs (h₀.allocs + (k - 1)) (.ofNat k) (h₀.mbuf md).pktLen h).mbuf (h₀.allocs + i))
        (h₀.mbuf q) :=
    (hc.attached i q hi hq).setNext.modify fun _ h => ⟨h.bufAddr, h.dataOff, h.refcnt, h.dataLen, h.olFlags⟩
  refine ⟨?_, hattached, ?_, ?_, ?_, hc.released, ?_, hc.written, hle, hok⟩
  · rw [finish_next]
    exact hc.linked hpos
  · intro i q hi hq
    have hold := hc.attached i q hi hq
    have hnew := hattached i q hi hq
    rw [← hc.data i q hi hq, Heap.data, Heap.data, hnew.mtod, hnew.dataLen, hold.mtod, hold.dataLen]
    rfl
  · rw [finish, modify_mbuf_self]
  · rw [finish, modify_mbuf_self]
  · intro q hq
    have hborn := hsrc.born q hq
    have hsame : (finish h₀.allocs (h₀.allocs + (k - 1)) (.ofNat k) (h₀.mbuf md).pktLen h).mbuf q =
        h.mbuf q := by
      rw [finish, modify_mbuf_of_ne _ (by omega), setNext, modify_mbuf_of_ne _ (by omega)]
    obtain ⟨hmbuf, hdata⟩ := hc.source hsrc hq
    exact ⟨hsame.trans hmbuf, (data_congr hsame rfl).trans hdata⟩

theorem freed_eq {l : List Nat} {m : Nat → Mbuf} (hrefcnt : ∀ p ∈ l, (m p).refcnt = 1)
    (hdirect : ∀ p ∈ l, (m p).Direct) : (l.flatMap fun p => mp.freeSeg p (m p)) = l.map .mbuf := by
  rw [List.map_eq_flatMap]
  apply List.flatMap_congr
  intro p hp
  exact mp.free_direct p (m p) (hrefcnt p hp) (hdirect p hp)

/-- Freeing mbufs that have their own buffer gives back each of them once, and nothing else, exactly if all
of them are direct. -/
theorem freed_perm_iff {l : List Nat} {m : Nat → Mbuf} (hl : l.Nodup) (hrefcnt : ∀ p ∈ l, (m p).refcnt = 1)
    (hown : ∀ p ∈ l, (m p).bufAddr = ⟨.own p, 0⟩) :
    (l.flatMap fun p => mp.freeSeg p (m p)).Perm (l.map .mbuf) ↔ ∀ p ∈ l, (m p).Direct := by
  constructor
  · intro hperm p hp
    by_cases hext : (m p).External
    · have hmem := hperm.mem_iff.mp
        (List.mem_flatMap.mpr ⟨p, hp, mp.free_external p (m p) (hrefcnt p hp) hext⟩)
      obtain ⟨q, -, hq⟩ := List.mem_map.mp hmem
      cases hq
    · refine ⟨?_, hext⟩
      intro hind
      -- the mbuf would be given back twice
      have hnodup : (l.map Release.mbuf).Nodup := hl.map fun _ _ h => Release.mbuf.inj h
      have htwice := (List.nodup_flatMap.mp (hperm.nodup_iff.mpr hnodup)).1 p hp
      rw [mp.free_indirect p (m p) (hrefcnt p hp) hind hext (hown p hp)] at htwice
      exact (List.nodup_cons.mp htwice).1 List.mem_cons_self
  · intro hdirect
    rw [freed_eq hrefcnt hdirect]

/-- A segment of the clone and its source. -/
theorem Built.exists_source (hb : Built mp h₀ md segs k h) {p : Nat} (hp : p ∈ List.range' h₀.allocs k) :
    ∃ i q, i < k ∧ segs[i]? = some q ∧ p = h₀.allocs + i := by
  obtain ⟨hlo, hhi⟩ := List.mem_range'_1.mp hp
  have hlength := hb.length
  refine ⟨p - h₀.allocs, _, by omega, List.getElem?_eq_getElem (by omega), by omega⟩

/-- The clone is direct as far as its source is. -/
theorem Built.direct_iff (hb : Built mp h₀ md segs k h) :
    (∀ p ∈ List.range' h₀.allocs k, (h.mbuf p).Direct) ↔
      ∀ i q, i < k → segs[i]? = some q → (h₀.mbuf q).Direct := by
  constructor
  · intro hall i q hi hq
    exact (hb.attached i q hi hq).direct_iff.mp (hall _ (List.mem_range'_1.mpr ⟨by omega, by omega⟩))
  · intro hall p hp
    obtain ⟨i, q, hi, hq, rfl⟩ := hb.exists_source hp
    exact (hb.attached i q hi hq).direct_iff.mpr (hall i q hi hq)

/-- What freeing the clone gives back. -/
theorem Built.free_released (hb : Built mp h₀ md segs k h) (hallocs : h₀.allocs + k ≤ h.allocs) :
    (mp.rtePktmbufFree h₀.allocs h).released =
      h.released ++ (List.range' h₀.allocs k).flatMap fun p => mp.freeSeg p (h.mbuf p) := by
  rw [Mempool.rtePktmbufFree, hb.linked.walk_eq]
  rw [List.length_range']
  omega

theorem Built.freed_perm_iff (hb : Built mp h₀ md segs k h) :
    ((List.range' h₀.allocs k).flatMap fun p => mp.freeSeg p (h.mbuf p)).Perm
        ((List.range' h₀.allocs k).map .mbuf) ↔
      ∀ i q, i < k → segs[i]? = some q → (h₀.mbuf q).Direct := by
  rw [← hb.direct_iff]
  apply DeepClone.freed_perm_iff List.nodup_range'
  · intro p hp
    obtain ⟨i, q, hi, hq, rfl⟩ := hb.exists_source hp
    exact (hb.attached i q hi hq).refcnt
  · intro p hp
    obtain ⟨i, q, hi, hq, rfl⟩ := hb.exists_source hp
    exact (hb.attached i q hi hq).bufAddr

/-- All ways through `pktmbuf_deep_clone`: the head cannot be allocated, a later segment cannot, or all of
them can. -/
inductive Outcome (mp : Mempool) (h₀ : Heap) (md : Nat) (segs : List Nat) : Option Nat → Heap → Prop
  | empty (hno : mp.ok h₀.allocs = false) :
      Outcome mp h₀ md segs none { h₀ with allocs := h₀.allocs + 1 }
  | failed {k : Nat} {h : Heap} (hb : Built mp h₀ md segs k h) (hlt : k < segs.length)
      (hallocs : h.allocs = h₀.allocs + k + 1) (hno : mp.ok (h₀.allocs + k) = false) :
      Outcome mp h₀ md segs none (mp.rtePktmbufFree h₀.allocs h)
  | done {h : Heap} (hb : Built mp h₀ md segs segs.length h) (hallocs : h.allocs = h₀.allocs + segs.length) :
      Outcome mp h₀ md segs (some h₀.allocs) h

theorem pktmbufDeepClone_outcome (hsrc : SourceChain mp h₀ md segs) {fuel : Nat}
    (hfuel : segs.length ≤ fuel) :
    ∃ mc h', pktmbufDeepClone mp fuel md h₀ = some (mc, h') ∧ Outcome mp h₀ md segs mc h' := by
  rw [pktmbufDeepClone, Mempool.rtePktmbufAlloc]
  cases hok : mp.ok h₀.allocs with
  | false => exact ⟨_, _, rfl, .empty hok⟩
  | true =>
      have hhead : segs[0]? = some md := hsrc.linked.head_eq_getElem?.symm
      have hprefix : ∀ i ≤ 0, mp.ok (h₀.allocs + i) = true := by
        intro i hi
        obtain rfl := Nat.le_zero.mp hi
        exact hok
      obtain ⟨k, l, h', hrun, hend⟩ :=
        cloneLoop_ended hsrc hfuel (Copying.start mp h₀ segs) rfl hhead hprefix
      have hlen : ((mp.taken h₀).mbuf md).pktLen = (h₀.mbuf md).pktLen := by
        have hborn := hsrc.born md (List.mem_of_getElem? hhead)
        rw [taken_mbuf_of_ne mp (Nat.ne_of_lt hborn)]
      have hloop : cloneLoop mp fuel md h₀.allocs h₀.allocs 0 (mp.taken h₀) = some (l, h') := hrun
      rw [if_pos rfl]
      dsimp only
      rw [hloop, Option.map_some, hlen, hend.prev, hend.nseg]
      dsimp only
      cases hmi : l.mi with
      | none =>
          obtain ⟨hlt, hallocs, hno⟩ := hend.failed hmi
          exact ⟨_, _, rfl, .failed (hend.copying.built hsrc hend.pos (Nat.le_of_lt hlt) hend.ok) hlt
            hallocs hno⟩
      | some mi =>
          obtain ⟨rfl, hallocs⟩ := hend.done (by rw [hmi]; rfl)
          exact ⟨_, _, rfl, .done (hend.copying.built hsrc hend.pos (Nat.le_refl _) hend.ok) hallocs⟩

/-- The allocations that succeeded. -/
theorem allocated_eq (hok : ∀ i < k, mp.ok (h₀.allocs + i) = true)
    (hallocs : h.allocs = h₀.allocs + k ∨ h.allocs = h₀.allocs + k + 1 ∧ mp.ok (h₀.allocs + k) = false) :
    mp.allocated h₀ h = List.range' h₀.allocs k := by
  have hall : (List.range' h₀.allocs k).filter mp.ok = List.range' h₀.allocs k := by
    rw [List.filter_eq_self]
    intro p hp
    obtain ⟨hlo, hhi⟩ := List.mem_range'_1.mp hp
    obtain ⟨i, rfl⟩ := Nat.exists_eq_add_of_le hlo
    exact hok i (by omega)
  rw [Mempool.allocated]
  rcases hallocs with hallocs | ⟨hallocs, hno⟩
  · rw [hallocs, Nat.add_sub_cancel_left, hall]
  · rw [hallocs, Nat.add_assoc, Nat.add_sub_cancel_left, List.range'_1_concat, List.filter_append, hall,
      List.filter_singleton, hno, cond_false, List.append_nil]

/-- The bytes written lie in the buffers of new mbufs. -/
theorem Built.written_new {h' : Heap} (hb : Built mp h₀ md segs k h) (hbyte : h'.byte = h.byte)
    (hallocs : h₀.allocs + k ≤ h'.allocs) (x : Ptr Buffer) (hx : h'.byte x ≠ h₀.byte x) :
    ∃ p, h₀.allocs ≤ p ∧ p < h'.allocs ∧ (mp.fresh p).bufAddr.Covers (mp.fresh p).bufLen.toNat x := by
  rw [hbyte] at hx
  obtain ⟨i, hi, hcovers⟩ := hb.written x hx
  exact ⟨h₀.allocs + i, Nat.le_add_right _ _, by omega, hcovers⟩

/-- The segments copied before an allocation fails are those that are copied at all. -/
theorem copied_iff (hok : ∀ i < k, mp.ok (h₀.allocs + i) = true)
    (hend : k = segs.length ∨ mp.ok (h₀.allocs + k) = false) :
    (∀ i q, i < k → segs[i]? = some q → (h₀.mbuf q).Direct) ↔
      ∀ i q, segs[i]? = some q → (∀ j ≤ i, mp.ok (h₀.allocs + j) = true) → (h₀.mbuf q).Direct := by
  constructor
  · intro h i q hq hprefix
    refine h i q ?_ hq
    rcases hend with rfl | hno
    · exact (List.getElem?_eq_some_iff.mp hq).1
    · by_contra hge
      have htrue := hprefix k (Nat.not_lt.mp hge)
      rw [hno] at htrue
      cases htrue
  · intro h i q hi hq
    exact h i q hq fun j hj => hok j (Nat.lt_of_le_of_lt hj hi)

theorem failed_iff (hb : Built mp h₀ md segs k h)
    (hallocs : h.allocs = h₀.allocs + k + 1) (hno : mp.ok (h₀.allocs + k) = false) :
    CopyOrNothing mp h₀ md segs none (mp.rtePktmbufFree h₀.allocs h) ↔
      ∀ i q, i < k → segs[i]? = some q → (h₀.mbuf q).Direct := by
  have hreleased := hb.free_released (by omega)
  have htaken : mp.allocated h₀ (mp.rtePktmbufFree h₀.allocs h) = List.range' h₀.allocs k :=
    allocated_eq hb.ok (.inr ⟨hallocs, hno⟩)
  rw [← hb.freed_perm_iff, ← htaken]
  constructor
  · intro hclone
    obtain ⟨freed, hfreed, hperm⟩ := hclone.nothing rfl
    rw [hreleased, hb.released] at hfreed
    rwa [htaken, List.append_cancel_left hfreed, ← htaken]
  · intro hperm
    refine ⟨fun _ => ⟨_, ?_, hperm⟩, ?_, hb.source, hb.written_new rfl ?_⟩
    · rw [hreleased, hb.released, htaken]
    · rintro p ⟨⟩
    · show _ ≤ h.allocs
      omega

theorem done_iff (hsrc : SourceChain mp h₀ md segs) (hb : Built mp h₀ md segs segs.length h)
    (hallocs : h.allocs = h₀.allocs + segs.length) :
    CopyOrNothing mp h₀ md segs (some h₀.allocs) h ↔
      ∀ i q, i < segs.length → segs[i]? = some q → (h₀.mbuf q).Direct := by
  constructor
  · intro hclone
    obtain ⟨clone, hcopy⟩ := hclone.copy h₀.allocs rfl
    obtain rfl := hcopy.linked.unique hb.linked
    exact hb.direct_iff.mp hcopy.direct
  · intro hdirect
    have hreleased := hb.free_released (Nat.le_of_eq hallocs.symm)
    have hrefcnt : ∀ p ∈ List.range' h₀.allocs segs.length, (h.mbuf p).refcnt = 1 := by
      intro p hp
      obtain ⟨i, q, hi, hq, rfl⟩ := hb.exists_source hp
      exact (hb.attached i q hi hq).refcnt
    refine ⟨?_, ?_, hb.source, hb.written_new rfl (Nat.le_of_eq hallocs.symm)⟩
    · rintro ⟨⟩
    · rintro p ⟨⟩
      refine ⟨List.range' h₀.allocs segs.length, hb.linked, ?_, ?_, hb.pktLen, ?_, hb.direct_iff.mpr hdirect,
        hb.released, ?_⟩
      · intro p hp
        rw [hallocs]
        exact List.mem_range'_1.mp hp
      · apply List.ext_getElem?
        intro i
        rw [List.getElem?_map, List.getElem?_map]
        cases hq : segs[i]? with
        | none =>
            have hge := List.getElem?_eq_none_iff.mp hq
            rw [List.getElem?_eq_none (by rw [List.length_range']; exact hge)]
            rfl
        | some q =>
            have hi := (List.getElem?_eq_some_iff.mp hq).1
            rw [List.getElem?_range' hi, Nat.one_mul, Option.map_some, Option.map_some, hb.data i q hi hq]
      · apply UInt16.toNat.inj
        have hshort := hsrc.short
        rw [hb.nbSegs, hsrc.nbSegs, UInt8.toNat_toUInt16, UInt8.toNat_ofNat']
        omega
      · rw [hreleased, freed_eq hrefcnt (hb.direct_iff.mpr hdirect)]

theorem Outcome.copyOrNothing_iff {mc : Option Nat} (hout : Outcome mp h₀ md segs mc h)
    (hsrc : SourceChain mp h₀ md segs) :
    CopyOrNothing mp h₀ md segs mc h ↔
      ∀ i q, segs[i]? = some q → (∀ j ≤ i, mp.ok (h₀.allocs + j) = true) → (h₀.mbuf q).Direct := by
  cases hout with
  | empty hno =>
      refine iff_of_true ⟨?_, ?_, fun _ _ => ⟨rfl, rfl⟩, fun _ hx => absurd rfl hx⟩ ?_
      · intro _
        have htaken : mp.allocated h₀ { h₀ with allocs := h₀.allocs + 1 } = List.range' h₀.allocs 0 :=
          allocated_eq (fun i hi => absurd hi (Nat.not_lt_zero i)) (.inr ⟨rfl, hno⟩)
        refine ⟨[], (List.append_nil _).symm, ?_⟩
        rw [htaken]
        exact .nil
      · rintro p ⟨⟩
      · intro i q _ hprefix
        have htrue := hprefix 0 (Nat.zero_le i)
        rw [Nat.add_zero, hno] at htrue
        cases htrue
  | failed hb hlt hallocs hno =>
      rw [failed_iff hb hallocs hno]
      exact copied_iff hb.ok (.inr hno)
  | done hb hallocs =>
      rw [done_iff hsrc hb hallocs]
      exact copied_iff hb.ok (.inl rfl)

end Clone

/-- For every source chain of at most 255 segments that fit the pool and every pattern of allocation
failures: the clone is an independent copy or nothing exactly if every segment that is copied before the
first failed allocation is direct. -/
theorem deep_clone_is_a_copy_or_nothing_iff (mp : Mempool) (h : Heap) (md : Nat) (segs : List Nat)
    (hsrc : SourceChain mp h md segs) (fuel : Nat) (hfuel : segs.length ≤ fuel) :
    (∃ mc h', pktmbufDeepClone mp fuel md h = some (mc, h') ∧ CopyOrNothing mp h md segs mc h') ↔
      ∀ i q, segs[i]? = some q → (∀ j ≤ i, mp.ok (h.allocs + j) = true) → (h.mbuf q).Direct := by
  obtain ⟨mc, h', hrun, hout⟩ := pktmbufDeepClone_outcome hsrc hfuel
  rw [← hout.copyOrNothing_iff hsrc]
  constructor
  · rintro ⟨mc', h'', hrun', hclone⟩
    obtain ⟨rfl, rfl⟩ := Prod.mk.inj (Option.some.inj (hrun.symm.trans hrun'))
    exact hclone
  · exact fun hclone => ⟨mc, h', hrun, hclone⟩

/-! ## Two clones -/

namespace Sample

/-- An mbuf in its own buffer, with 60 bytes. -/
def mbuf (p : Nat) : Mbuf where
  bufAddr := ⟨.own p, 0⟩
  bufLen := 2176
  dataOff := 128
  dataLen := 60
  pktLen := 60
  nbSegs := 1
  next := none
  refcnt := 1
  port := 0
  vlanTci := 0
  vlanTciOuter := 0
  txOffload := 0
  hash := 0
  olFlags := 0
  packetType := 0

/-- Allocation `bad` fails. -/
def pool (bad : Nat) : Mempool where
  ok p := p ≠ bad
  room := 2048
  fresh := mbuf
  fresh_bufAddr _ := rfl
  fresh_room _ := Nat.le_refl 2176
  fresh_refcnt _ := rfl
  freeSeg p m :=
    if m.External then [.extBuf p, .mbuf p]
    else if m.Indirect ∧ m.bufAddr = ⟨.own p, 0⟩ then [.mbuf p, .mbuf p]
    else [.mbuf p]
  free_direct _ _ _ hdirect := by
    rw [if_neg hdirect.2, if_neg fun hind => hdirect.1 hind.1]
  free_indirect _ _ _ hind hext hown := by
    rw [if_neg hext, if_pos ⟨hind, hown⟩]
  free_external _ _ _ hext := by
    rw [if_pos hext]
    exact List.mem_cons_self

/-- Two linked segments. -/
def pair : Heap :=
  ⟨fun p => { mbuf p with nbSegs := 2, next := if p = 0 then some 1 else none }, fun _ => 7, 2, []⟩

/-- One segment that is attached to the buffer of mbuf 1. -/
def indirect : Heap :=
  ⟨fun p => { mbuf p with bufAddr := ⟨.own 1, 0⟩, olFlags := flagIndirect }, fun _ => 7, 2, []⟩

theorem pair_direct (p : Nat) : (pair.mbuf p).Direct := by
  show ¬ (0 : UInt64) &&& flagIndirect ≠ 0 ∧ ¬ (0 : UInt64) &&& flagExternal ≠ 0
  decide

theorem pair_source (bad : Nat) : SourceChain (pool bad) pair 0 [0, 1] where
  linked := .cons (.cons .nil)
  short := by simp
  nbSegs := rfl
  born q hq := by
    show q < 2
    simp only [List.mem_cons, List.not_mem_nil, or_false] at hq
    omega
  apart q hq p hp := by
    have hne : q ≠ p := by
      simp only [List.mem_cons, List.not_mem_nil, or_false] at hq
      have hge : 2 ≤ p := hp
      omega
    exact fun heq => hne (Buffer.own.inj heq)
  fits _ _ := show 60 ≤ 2048 by omega

theorem indirect_source (bad : Nat) : SourceChain (pool bad) indirect 0 [0] where
  linked := .cons .nil
  short := by simp
  nbSegs := rfl
  born q hq := by
    obtain rfl := List.mem_singleton.mp hq
    exact Nat.zero_lt_two
  apart q _ p hp := by
    have hge : 2 ≤ p := hp
    intro heq
    have hone : 1 = p := Buffer.own.inj heq
    omega
  fits _ _ := show 60 ≤ 2048 by omega

end Sample

/-- The second allocation fails: what the first one returned is freed. -/
theorem two_direct_segments_without_memory :
    ∃ mc h', pktmbufDeepClone (Sample.pool 3) 2 0 Sample.pair = some (mc, h') ∧
      CopyOrNothing (Sample.pool 3) Sample.pair 0 [0, 1] mc h' := by
  refine (deep_clone_is_a_copy_or_nothing_iff (Sample.pool 3) Sample.pair 0 [0, 1] (Sample.pair_source 3) 2
    (by simp)).mpr ?_
  exact fun _ q _ _ => Sample.pair_direct q

/-- The clone of a segment attached to another mbuf is freed twice. -/
theorem clone_of_an_indirect_segment :
    (pktmbufDeepClone (Sample.pool 9) 1 0 Sample.indirect).map (fun r =>
        (r.1, ((Sample.pool 9).rtePktmbufFree 2 r.2).released)) = some (some 2, [.mbuf 2, .mbuf 2]) ∧
      ¬ ∃ mc h', pktmbufDeepClone (Sample.pool 9) 1 0 Sample.indirect = some (mc, h') ∧
        CopyOrNothing (Sample.pool 9) Sample.indirect 0 [0] mc h' := by
  refine ⟨by decide, ?_⟩
  rintro ⟨mc, h', hrun, hclone⟩
  obtain ⟨mc', h'', hrun', hout⟩ := pktmbufDeepClone_outcome (Sample.indirect_source 9) (Nat.le_refl 1)
  obtain ⟨rfl, rfl⟩ := Prod.mk.inj (Option.some.inj (hrun.symm.trans hrun'))
  have hdirect := (hout.copyOrNothing_iff (Sample.indirect_source 9)).mp hclone 0 0 rfl
  refine (hdirect ?_).1 ?_
  · intro j hj
    obtain rfl := Nat.le_zero.mp hj
    rfl
  · show flagIndirect &&& flagIndirect ≠ 0
    decide

end LazyBsd.DeepClone
