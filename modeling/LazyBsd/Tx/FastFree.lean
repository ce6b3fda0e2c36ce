/-
# LazyBsd.Tx.FastFree — what the driver may assume of the frames on a port with `MBUF_FAST_FREE`.

`init_port_start` enables the offload on every port of the configuration whose device has it. The
application then owes the driver that all mbufs on a queue are direct, have the reference count 1 and
come from one pool. Three producers fill the table of a port: the conversion of a chain in the page
array (the reference pool), the clone of a received `rte_mbuf` (indirect), and the dispatcher, which
answers with the received `rte_mbuf` itself (the receive pool).

The state of `Queue` gets the reference counts of the `rte_mbuf`s and, as a record of what happened, the
producer of the frame in each slot. `passedOn` is what a run passes to `rte_eth_tx_burst` on a port:
each frame with its producer and with what the driver finds in its segments.
-/
import LazyBsd.Lib.Flags
import LazyBsd.Port.Start
import LazyBsd.Tx.Shadow

namespace LazyBsd.Tx

open Lib Port

/-! ## What the driver finds in a segment -/

/-- `RTE_MBUF_F_INDIRECT` and `RTE_MBUF_F_EXTERNAL`. -/
def mbufIndirect : UInt64 := (1 : UInt64) <<< (62 : UInt64)
def mbufExternal : UInt64 := (1 : UInt64) <<< (61 : UInt64)

/-- `RTE_MBUF_DIRECT`. -/
def RteMbuf.direct (m : RteMbuf) : Bool := m.olFlags &&& (mbufIndirect ||| mbufExternal) == 0

/-- What a driver that looks at a segment before freeing it looks at. -/
structure SegmentAttr where
  direct : Bool
  refcnt : UInt16
  pool : Pool
  deriving DecidableEq, Repr

/-- The attributes of the segment `q`. -/
def segmentAttr (h : RteHeap) (refcnt : Nat → UInt16) (q : Nat) : SegmentAttr :=
  ⟨RteMbuf.direct (h.mbuf q), refcnt q, (h.mbuf q).pool⟩

/-- Who made a frame: `lazybsd_bsd_to_rte`, `lazybsd_extcl_to_rte` or the packet dispatcher. -/
inductive Producer
  | page
  | clone
  | response
  deriving DecidableEq, Repr

/-- The attributes of all segments of a frame, by its producer. -/
def Producer.attr : Producer → SegmentAttr
  | .page => ⟨true, 1, .ref⟩
  | .clone => ⟨false, 1, .pkt⟩
  | .response => ⟨true, 1, .pkt⟩

/-- What the driver is promised: direct mbufs of one pool that nobody else refers to. -/
def DirectOnePool (frames : List (Producer × List SegmentAttr)) : Prop :=
  ∃ pool, ∀ f ∈ frames, ∀ a ∈ f.2, a = ⟨true, 1, pool⟩

/-- One producer, and not the clones. -/
def OneProducer (ks : List Producer) : Prop := ∃ k, k ≠ .clone ∧ ∀ k' ∈ ks, k' = k

/-- A frame that is as its producer makes it. -/
def Genuine (f : Producer × List SegmentAttr) : Prop := f.2 ≠ [] ∧ ∀ a ∈ f.2, a = f.1.attr

/-- The producer of direct mbufs from a pool. -/
def directProducer : Pool → Producer
  | .ref => .page
  | .pkt => .response

theorem directProducer_ne_clone (pool : Pool) : directProducer pool ≠ .clone := by
  cases pool <;> decide

theorem attr_eq_iff (k : Producer) (pool : Pool) :
    k.attr = ⟨true, 1, pool⟩ ↔ k = directProducer pool := by
  cases k <;> cases pool <;> decide

/-- **Genuine frames keep the promise exactly when they have one producer that does not clone.** -/
theorem directOnePool_iff {frames : List (Producer × List SegmentAttr)} (h : ∀ f ∈ frames, Genuine f) :
    DirectOnePool frames ↔ OneProducer (frames.map Prod.fst) := by
  constructor
  · intro hpromise
    rcases hpromise with ⟨pool, hpool⟩
    refine ⟨directProducer pool, directProducer_ne_clone pool, ?_⟩
    intro k hk
    rcases List.mem_map.mp hk with ⟨f, hf, rfl⟩
    rcases h f hf with ⟨hne, hattr⟩
    rcases List.exists_mem_of_ne_nil f.2 hne with ⟨a, ha⟩
    have heq : f.1.attr = ⟨true, 1, pool⟩ := (hattr a ha).symm.trans (hpool f hf a ha)
    exact (attr_eq_iff f.1 pool).mp heq
  · intro hone
    rcases hone with ⟨k, hk, hall⟩
    refine ⟨k.attr.pool, ?_⟩
    intro f hf a ha
    rw [(h f hf).2 a ha, hall f.1 (List.mem_map_of_mem hf)]
    cases k with
    | page => rfl
    | clone => exact absurd rfl hk
    | response => rfl

/-! ## The mbuf library -/

/-- What DPDK says of the mbufs it returns: `rte_pktmbuf_alloc` resets the flags, and the segments of a
clone are indirect and come from the pool given to `rte_pktmbuf_clone`. -/
structure MbufRules (d : Dpdk) : Prop where
  fresh : ∀ n, (d.fresh n).olFlags = 0
  cloned : ∀ {h h' : RteHeap} {src p : Nat} {segs : List Nat}, Linked h.next (some src) segs →
    (∀ q ∈ segs, q < h.allocs) → d.clone h src = (some p, h') → ∀ i < segs.length,
    RteMbuf.direct (h'.mbuf (h.allocs + i)) = false ∧ (h'.mbuf (h.allocs + i)).pool = .pkt

/-- The producer that `lazybsd_if_send_onepkt` chooses for a chain. -/
def headProducer (pg : PageArray) (m : BsdChain) : Producer :=
  if pg.lazybsdChkVma (lazybsdMbufMtod m) then .page else .clone

/-- The offload requests touch neither flag. -/
theorem offloadHead_attr (txCsumL4 : Bool) (m : BsdChain) (mem : Mem) (r : RteMbuf) :
    RteMbuf.direct (offloadHead txCsumL4 m mem r) = RteMbuf.direct r ∧
      (offloadHead txCsumL4 m mem r).pool = r.pool := by
  have hip : (txTcpCksum ||| txIpv4) &&& (mbufIndirect ||| mbufExternal) = 0 := by decide
  have htcp : txTcpCksum &&& (mbufIndirect ||| mbufExternal) = 0 := by decide
  have hseg : txTcpSeg &&& (mbufIndirect ||| mbufExternal) = 0 := by decide
  constructor
  · simp only [offloadHead, setHeaderLens, RteMbuf.direct]
    (repeat' split) <;>
      simp only [or_and_of_outside hip, or_and_of_outside htcp, or_and_of_outside hseg]
  · simp only [offloadHead, setHeaderLens]
    (repeat' split) <;> rfl

/-! ## The state with counts and producers -/

/-- The transmit state, the reference counts and the producer of the frame in each slot of `m_table`. -/
structure CountedState (Port : Type*) where
  tx : TxState Port
  refcnt : Nat → UInt16
  producer : Port → Nat → Producer

/-- The state after start-up. -/
def CountedState.init {Port : Type*} (heap : RteHeap) (mem : Mem) (refcnt : Nat → UInt16) :
    CountedState Port :=
  ⟨.init heap mem, refcnt, fun _ _ => .page⟩

/-- An action with the reference counts it leaves (those a burst of the action sees). -/
structure CountedAction (Port : Type*) where
  act : Action Port
  refcnt : Nat → UInt16

variable {Port : Type*} [DecidableEq Port]

/-- The producers after an action: the slot at the end of the table is the one that is stored to. -/
def producersAfter (pg : PageArray) (s : CountedState Port) : Action Port → Port → Nat → Producer
  | .send port (some m) _ _ => Function.update s.producer port
      (Function.update (s.producer port) (s.tx.txMbufs port).len (headProducer pg m))
  | .respond _ port _ => Function.update s.producer port
      (Function.update (s.producer port) (s.tx.txMbufs port).len .response)
  | _ => s.producer

/-- A step. -/
def countedStep (d : Dpdk) (pg : PageArray) (txCsumL4 : Port → Bool) (s : CountedState Port)
    (a : CountedAction Port) : Option (CountedState Port) :=
  match step d pg txCsumL4 s.tx a.act with
  | none => none
  | some tx => some ⟨tx, a.refcnt, producersAfter pg s a.act⟩

theorem countedStep_refcnt {d : Dpdk} {pg : PageArray} {txCsumL4 : Port → Bool}
    {s s' : CountedState Port} {a : CountedAction Port}
    (h : countedStep d pg txCsumL4 s a = some s') : s'.refcnt = a.refcnt := by
  unfold countedStep at h
  cases hstep : step d pg txCsumL4 s.tx a.act with
  | none => simp [hstep] at h
  | some tx =>
      rw [hstep] at h
      rcases Option.some.inj h with rfl
      rfl

/-- The frames that a step passes to `rte_eth_tx_burst` on a port, accepted or not. -/
def passedBy (d : Dpdk) (pg : PageArray) (txCsumL4 : Port → Bool) (port : Port)
    (s : CountedState Port) (a : CountedAction Port) : List (Producer × List SegmentAttr) :=
  match burstOf d pg txCsumL4 s.tx a.act with
  | some b =>
      if b.port = port then
        (List.range b.n).map fun i => (producersAfter pg s a.act port i,
          (segments b.state.heap (b.table.mTable i)).map (segmentAttr b.state.heap a.refcnt))
      else []
  | none => []

/-- The frames that a run passes on a port. -/
def passedOn (d : Dpdk) (pg : PageArray) (txCsumL4 : Port → Bool) (port : Port)
    (ts : List (Transition (CountedState Port) (CountedAction Port))) :
    List (Producer × List SegmentAttr) :=
  ts.flatMap fun tr => passedBy d pg txCsumL4 port tr.before tr.act

/-- The producers of the frames that a step hands over on a port. -/
def producersBy (d : Dpdk) (pg : PageArray) (txCsumL4 : Port → Bool) (port : Port)
    (s : CountedState Port) (a : CountedAction Port) : List Producer :=
  match burstOf d pg txCsumL4 s.tx a.act with
  | some b => if b.port = port then (List.range b.n).map (producersAfter pg s a.act port) else []
  | none => []

/-- The producers of the frames that a run hands over on a port. -/
def producersOn (d : Dpdk) (pg : PageArray) (txCsumL4 : Port → Bool) (port : Port)
    (ts : List (Transition (CountedState Port) (CountedAction Port))) : List Producer :=
  ts.flatMap fun tr => producersBy d pg txCsumL4 port tr.before tr.act

theorem passedBy_map_fst (d : Dpdk) (pg : PageArray) (txCsumL4 : Port → Bool) (port : Port)
    (s : CountedState Port) (a : CountedAction Port) :
    (passedBy d pg txCsumL4 port s a).map Prod.fst = producersBy d pg txCsumL4 port s a := by
  unfold passedBy producersBy
  cases burstOf d pg txCsumL4 s.tx a.act with
  | none => rfl
  | some b =>
      show List.map Prod.fst (if b.port = port then _ else []) = if b.port = port then _ else []
      split
      · rw [List.map_map]
        rfl
      · rfl

theorem passedOn_map_fst (d : Dpdk) (pg : PageArray) (txCsumL4 : Port → Bool) (port : Port)
    (ts : List (Transition (CountedState Port) (CountedAction Port))) :
    (passedOn d pg txCsumL4 port ts).map Prod.fst = producersOn d pg txCsumL4 port ts := by
  unfold passedOn producersOn
  rw [List.map_flatMap]
  apply List.flatMap_congr
  intro tr _
  exact passedBy_map_fst d pg txCsumL4 port tr.before tr.act

/-- A frame the receive side hands to the dispatcher: direct mbufs of the receive pool, held by nobody
else. -/
def Received (h : RteHeap) (refcnt : Nat → UInt16) (m : Nat) : Prop :=
  ∃ segs, Linked h.next (some m) segs ∧ (∀ q ∈ segs, q < h.allocs) ∧
    ∀ q ∈ segs, segmentAttr h refcnt q = ⟨true, 1, .pkt⟩

/-- What DPDK and the rest of the process keep to: nobody stores to a queued frame or counts another
reference to it, an mbuf in its pool has the count 1, the stack sends clusters that were received, and
the dispatcher answers with a frame just received. -/
def KeepsToCounts (s : CountedState Port) (a : CountedAction Port) : Prop :=
  (∀ port, ∀ i < (s.tx.txMbufs port).len,
    ∀ q ∈ segments s.tx.heap ((s.tx.txMbufs port).mTable i), a.refcnt q = s.refcnt q) ∧
  match a.act with
  | .send _ m _ _ => (∀ c, m = some c → HoldsReceived s.tx.heap c) ∧
      ∀ q, s.tx.heap.allocs ≤ q → a.refcnt q = 1
  | .respond m _ _ => Received s.tx.heap a.refcnt m
  | .drain _ _ => True
  | .elsewhere heap _ => s.tx.heap.allocs ≤ heap.allocs ∧
      ∀ port, ∀ i < (s.tx.txMbufs port).len,
        ∀ q ∈ segments s.tx.heap ((s.tx.txMbufs port).mTable i), heap.mbuf q = s.tx.heap.mbuf q

/-! ## The queued frames are as their producers make them -/

/-- The frame at `p` is as `k` makes it. -/
def MadeBy (h : RteHeap) (refcnt : Nat → UInt16) (k : Producer) (p : Nat) : Prop :=
  ∃ l, Linked h.next (some p) l ∧ (∀ q ∈ l, q < h.allocs) ∧ ∀ q ∈ l, segmentAttr h refcnt q = k.attr

/-- Every queued frame is as its producer makes it. -/
def Made (s : TxState Port) (refcnt : Nat → UInt16) (producer : Port → Nat → Producer) : Prop :=
  ∀ port, ∀ i < (s.txMbufs port).len,
    MadeBy s.heap refcnt (producer port i) ((s.txMbufs port).mTable i)

section Frames

variable {h h' : RteHeap} {refcnt refcnt' : Nat → UInt16} {k : Producer} {p : Nat}

theorem MadeBy.genuine (hm : MadeBy h refcnt k p) :
    Genuine (k, (segments h p).map (segmentAttr h refcnt)) := by
  rcases hm with ⟨l, hl, hborn, hattr⟩
  rw [segments_eq hl hborn]
  constructor
  · intro hnil
    rw [List.map_eq_nil_iff.mp hnil] at hl
    cases hl
  · intro a ha
    rcases List.mem_map.mp ha with ⟨q, hq, rfl⟩
    exact hattr q hq

/-- Stores and counts outside the frame. -/
theorem MadeBy.congr (hm : MadeBy h refcnt k p) (hallocs : h.allocs ≤ h'.allocs)
    (hmbuf : ∀ q ∈ segments h p, h'.mbuf q = h.mbuf q)
    (hrefcnt : ∀ q ∈ segments h p, refcnt' q = refcnt q) : MadeBy h' refcnt' k p := by
  rcases hm with ⟨l, hl, hborn, hattr⟩
  rw [segments_eq hl hborn] at hmbuf hrefcnt
  refine ⟨l, ?_, fun q hq => (hborn q hq).trans_le hallocs, ?_⟩
  · apply hl.congr
    intro q hq
    rw [RteHeap.next, RteHeap.next, hmbuf q hq]
  · intro q hq
    rw [segmentAttr, hmbuf q hq, hrefcnt q hq]
    exact hattr q hq

/-- Stores to cells that did not exist. -/
theorem MadeBy.grow (hm : MadeBy h refcnt k p) (hallocs : h.allocs ≤ h'.allocs)
    (hold : ∀ q < h.allocs, h'.mbuf q = h.mbuf q)
    (hrefcnt : ∀ q ∈ segments h p, refcnt' q = refcnt q) : MadeBy h' refcnt' k p := by
  refine hm.congr hallocs ?_ hrefcnt
  rcases hm with ⟨l, hl, hborn, -⟩
  intro q hq
  rw [segments_eq hl hborn] at hq
  exact hold q (hborn q hq)

/-- **The frame a send queues** is as its producer makes it, and the offload requests do not change
that. -/
theorem madeBy_headOf {d : Dpdk} {pg : PageArray} {m : BsdChain} {total : UInt32} (hd : MbufRules d)
    (hsrc : HoldsReceived h m) (hhead : headOf d pg m total h = some (some p, h'))
    (hone : ∀ q, h.allocs ≤ q → refcnt q = 1) (txCsumL4 : Bool) (mem : Mem) :
    MadeBy (h'.modify p (offloadHead txCsumL4 m mem)) refcnt (headProducer pg m) p := by
  rcases headOf_grows hsrc hhead with ⟨-, -, hnew⟩
  rcases hnew p rfl with ⟨rfl, ws, len, -, hframe⟩
  have hoff : NewFrame h ws len (h'.modify h.allocs (offloadHead txCsumL4 m mem)) :=
    NewFrame.offload hframe txCsumL4 m mem
  -- before the requests every segment of the frame is as it should be
  have hcells : ∀ q, h.allocs ≤ q → q < h'.allocs →
      RteMbuf.direct (h'.mbuf q) = (headProducer pg m).attr.direct ∧
        (h'.mbuf q).pool = (headProducer pg m).attr.pool := by
    unfold headProducer
    by_cases hvma : pg.lazybsdChkVma (lazybsdMbufMtod m) = true
    · rw [if_pos hvma]
      rw [headOf, if_pos hvma] at hhead
      intro q hlo hhi
      rcases lazybsdBsdToRte_refMbufs hd.fresh hhead q hlo hhi with ⟨hflags, hpool⟩
      refine ⟨?_, hpool⟩
      show ((h'.mbuf q).olFlags &&& _ == 0) = true
      rw [hflags]
      decide
    · rw [if_neg hvma]
      rcases headOf_clone hvma hhead with ⟨src, hfrm, hcall⟩
      rcases hsrc src hfrm with ⟨segs, hl, hborn⟩
      rcases headOf_cluster hvma hfrm hl hborn hhead with ⟨-, hclone⟩
      intro q hlo hhi
      have hcell := hd.cloned hl hborn hcall (q - h.allocs)
      rw [hclone.allocs, List.length_map] at hhi
      rw [Nat.add_sub_cancel' hlo] at hcell
      exact hcell (by omega)
  refine ⟨_, hoff.linked, ?_, ?_⟩
  · intro q hq
    rw [List.mem_range'_1] at hq
    rw [hoff.allocs]
    omega
  · intro q hq
    rw [List.mem_range'_1] at hq
    have hlt : q < h'.allocs := by
      rw [hframe.allocs]
      omega
    rcases hcells q hq.1 hlt with ⟨hdirect, hpool⟩
    have hkeep : RteMbuf.direct ((h'.modify h.allocs (offloadHead txCsumL4 m mem)).mbuf q) =
        RteMbuf.direct (h'.mbuf q) ∧
          ((h'.modify h.allocs (offloadHead txCsumL4 m mem)).mbuf q).pool = (h'.mbuf q).pool := by
      by_cases hq' : q = h.allocs
      · subst hq'
        rw [RteHeap.modify_mbuf_self]
        exact offloadHead_attr txCsumL4 m mem _
      · rw [RteHeap.modify_mbuf_of_ne _ hq']
        exact ⟨rfl, rfl⟩
    rw [segmentAttr, hkeep.1, hkeep.2, hdirect, hpool, hone q hq.1]
    cases headProducer pg m <;> rfl

end Frames

/-! ## One step -/

section Step

variable {d : Dpdk} {pg : PageArray} {txCsumL4 : Port → Bool} {s s' : TxState Port} {port : Port}
  {refcnt refcnt' : Nat → UInt16} {producer : Port → Nat → Producer}

omit [DecidableEq Port] in
theorem Made.congr (h : Made s refcnt producer) (hm : s'.txMbufs = s.txMbufs)
    (hallocs : s.heap.allocs ≤ s'.heap.allocs)
    (hmbuf : ∀ port, ∀ i < (s.txMbufs port).len, ∀ q ∈ segments s.heap ((s.txMbufs port).mTable i),
      s'.heap.mbuf q = s.heap.mbuf q)
    (hrefcnt : ∀ port, ∀ i < (s.txMbufs port).len,
      ∀ q ∈ segments s.heap ((s.txMbufs port).mTable i), refcnt' q = refcnt q) :
    Made s' refcnt' producer := by
  intro port i hi
  rw [hm] at hi ⊢
  exact (h port i hi).congr hallocs (hmbuf port i hi) (hrefcnt port i hi)

theorem Made.setLen (h : Made s refcnt producer) (port : Port) {n : Nat} (hn : n ≤ (s.txMbufs port).len) :
    Made (setLen port n s) refcnt producer := by
  intro q i hi
  rw [setLen_mTable]
  exact h q i (lt_of_lt_setLen hn hi)

/-- After a burst nothing waits on its port, and the other ports are as before. -/
theorem Made.flushed {n k accepted : Nat} (h : Made (Tx.setLen port n s) refcnt producer) :
    Made (Tx.setLen port 0 (Tx.sendBurst port k accepted s)) refcnt producer := by
  rcases sendBurst_heap port k accepted s with ⟨hmbuf, hallocs⟩
  intro q i hi
  have hsame : (Tx.setLen port 0 (Tx.sendBurst port k accepted s)).txMbufs q =
      (Tx.setLen port n s).txMbufs q := flushed_txMbufs hi
  rw [hsame] at hi ⊢
  exact (h q i hi).congr (le_of_eq hallocs.symm) (fun q _ => congrFun hmbuf q) fun _ _ => rfl

/-- The stored frame waits with the others. -/
theorem Made.store (h : Made s refcnt producer) (s' : TxState Port) {k : Producer} {p : Nat} {bsdMTable : Nat → Option Nat}
    (hallocs : s.heap.allocs ≤ s'.heap.allocs)
    (hold : ∀ q < s.heap.allocs, s'.heap.mbuf q = s.heap.mbuf q)
    (hrefcnt : ∀ port, ∀ i < (s.txMbufs port).len,
      ∀ q ∈ segments s.heap ((s.txMbufs port).mTable i), refcnt' q = refcnt q)
    (hm : s'.txMbufs = Function.update s.txMbufs port ⟨(s.txMbufs port).len,
      Function.update (s.txMbufs port).mTable (s.txMbufs port).len p, bsdMTable⟩)
    (hp : MadeBy s'.heap refcnt' k p) :
    Made (Tx.setLen port ((s.txMbufs port).len + 1) s') refcnt' (Function.update producer port
      (Function.update (producer port) (s.txMbufs port).len k)) := by
  intro q i hi
  by_cases hq : q = port
  · subst hq
    simp only [Tx.setLen, hm, Function.update_self] at hi ⊢
    rcases Nat.lt_succ_iff_lt_or_eq.mp hi with hlt | rfl
    · rw [Function.update_of_ne hlt.ne, Function.update_of_ne hlt.ne]
      exact (h q i hlt).grow hallocs hold (hrefcnt q i hlt)
    · rw [Function.update_self, Function.update_self]
      exact hp
  · simp only [Tx.setLen, hm, Function.update_of_ne hq] at hi ⊢
    exact (h q i hi).grow hallocs hold (hrefcnt q i hi)

/-- An emptied table has no frames, whatever its producers were. -/
theorem Made.emptied (h : Made s refcnt producer) (ks : Nat → Producer) :
    Made (Tx.setLen port 0 s) refcnt (Function.update producer port ks) := by
  intro q i hi
  have hq : q ≠ port := ne_of_lt_setLen_zero hi
  rw [setLen_txMbufs_of_ne hq] at hi ⊢
  rw [Function.update_of_ne hq]
  exact h q i hi

/-- A conversion, whether it queues or not. -/
theorem onepkt_made (hd : MbufRules d) {s : CountedState Port} {s₁ : TxState Port}
    {m : Option BsdChain} {total : UInt32} {n : Nat} (accepted : Nat)
    (h : Made s.tx s.refcnt s.producer)
    (hrefcnt : ∀ port, ∀ i < (s.tx.txMbufs port).len,
      ∀ q ∈ segments s.tx.heap ((s.tx.txMbufs port).mTable i), refcnt q = s.refcnt q)
    (hsrc : ∀ c, m = some c → HoldsReceived s.tx.heap c)
    (hone : ∀ q, s.tx.heap.allocs ≤ q → refcnt q = 1)
    (hsend : lazybsdIfSendOnepkt d pg txCsumL4 port m total s.tx = some (n, s₁)) :
    Made (Tx.setLen port n s₁) refcnt (producersAfter pg s (.send port m total accepted)) := by
  unfold lazybsdIfSendOnepkt at hsend
  cases m with
  | none =>
      rcases Prod.mk.inj (Option.some.inj hsend) with ⟨rfl, rfl⟩
      have hsame : Made s.tx refcnt s.producer :=
        h.congr rfl le_rfl (fun _ _ _ _ _ => rfl) hrefcnt
      exact hsame.setLen port (Nat.zero_le _)
  | some m =>
      cases hhead : headOf d pg m total s.tx.heap with
      | none => simp [hhead] at hsend
      | some res =>
          rcases res with ⟨head, heap⟩
          rcases headOf_grows (hsrc m rfl) hhead with ⟨hallocs, hold, -⟩
          cases head with
          | none =>
              simp only [hhead, Option.some.injEq, Prod.mk.injEq] at hsend
              rcases hsend with ⟨rfl, rfl⟩
              have hfree : Made (freeGiven heap s.tx) refcnt s.producer := by
                intro port i hi
                exact (h port i hi).grow hallocs hold (hrefcnt port i hi)
              exact hfree.emptied _
          | some head =>
              simp only [hhead, Option.some.injEq, Prod.mk.injEq] at hsend
              rcases hsend with ⟨rfl, rfl⟩
              have hmade := madeBy_headOf hd (hsrc m rfl) hhead hone (txCsumL4 port) s.tx.mem
              apply h.store (storeGiven port head (heap.modify head _) _ s.tx) hallocs ?_ hrefcnt
                rfl hmade
              intro q hq
              rcases headOf_grows (hsrc m rfl) hhead with ⟨-, -, hnew⟩
              rcases hnew head rfl with ⟨rfl, -⟩
              exact (RteHeap.modify_mbuf_of_ne _ hq.ne _).trans (hold q hq)

/-- What a step does to the frames: those a burst passes and those left are as their producers make
them. -/
def StepMade (d : Dpdk) (pg : PageArray) (txCsumL4 : Port → Bool) (s : CountedState Port)
    (a : CountedAction Port) (s' : TxState Port) : Prop :=
  Made s' a.refcnt (producersAfter pg s a.act) ∧
    ∀ b, burstOf d pg txCsumL4 s.tx a.act = some b →
      Made (Tx.setLen b.port b.n b.state) a.refcnt (producersAfter pg s a.act)

/-- Both producers store and then flush a full table. -/
theorem StepMade.of_flushFull {s : CountedState Port} {a : CountedAction Port} {s₁ : TxState Port}
    {n accepted : Nat} (hmade : Made (Tx.setLen port n s₁) a.refcnt (producersAfter pg s a.act))
    (hb : burstOf d pg txCsumL4 s.tx a.act =
      if n = maxPktBurst then some ⟨port, maxPktBurst, accepted, s₁⟩ else none) :
    StepMade d pg txCsumL4 s a (flushFull port n accepted s₁) := by
  unfold Tx.flushFull
  by_cases hfull : n = maxPktBurst
  · rw [if_pos hfull] at hb ⊢
    refine ⟨hmade.flushed, ?_⟩
    intro b hb'
    rcases Option.some.inj (hb.symm.trans hb') with rfl
    exact hfull ▸ hmade
  · rw [if_neg hfull] at hb ⊢
    refine ⟨hmade, ?_⟩
    intro b hb'
    rw [hb] at hb'
    cases hb'

/-- **What a step makes.** -/
theorem countedStep_made (hd : MbufRules d) {s s' : CountedState Port} {a : CountedAction Port}
    (h : Made s.tx s.refcnt s.producer) (hk : KeepsToCounts s a)
    (hs : countedStep d pg txCsumL4 s a = some s') :
    s'.refcnt = a.refcnt ∧ s'.producer = producersAfter pg s a.act ∧
      StepMade d pg txCsumL4 s a s'.tx := by
  rcases a with ⟨act, refcnt⟩
  rcases hk with ⟨hrefcnt, hact⟩
  simp only [countedStep] at hs
  cases hstep : step d pg txCsumL4 s.tx act with
  | none => simp [hstep] at hs
  | some tx =>
      rw [hstep] at hs
      rcases Option.some.inj hs with rfl
      refine ⟨rfl, rfl, ?_⟩
      have hsame : Made s.tx refcnt s.producer :=
        h.congr rfl le_rfl (fun _ _ _ _ _ => rfl) hrefcnt
      cases act with
      | send port m total accepted =>
          rcases hact with ⟨hsrc, hone⟩
          simp only [step, lazybsdDpdkIfSend] at hstep
          cases hsend : lazybsdIfSendOnepkt d pg txCsumL4 port m total s.tx with
          | none => simp [hsend] at hstep
          | some res =>
              rcases res with ⟨n, s₁⟩
              simp only [hsend, Option.some.injEq] at hstep
              rw [← hstep]
              apply StepMade.of_flushFull
              · exact onepkt_made hd accepted h hrefcnt hsrc hone hsend
              · simp only [burstOf, hsend]
      | respond m port accepted =>
          rcases Option.some.inj hstep with rfl
          apply StepMade.of_flushFull
          · exact h.store (storeResponse m port s.tx) le_rfl (fun _ _ => rfl) hrefcnt rfl hact
          · rfl
      | drain port accepted =>
          rcases Option.some.inj hstep with rfl
          unfold Tx.drain
          by_cases hlen : (s.tx.txMbufs port).len = 0
          · -- an empty queue is not flushed
            rw [if_pos hlen]
            refine ⟨hsame, ?_⟩
            intro b hb
            simp only [burstOf, if_pos hlen] at hb
            cases hb
          · rw [if_neg hlen]
            have hfull := hsame.setLen port le_rfl
            refine ⟨hfull.flushed, ?_⟩
            intro b hb
            simp only [burstOf, if_neg hlen] at hb
            rcases Option.some.inj hb with rfl
            exact hfull
      | elsewhere heap mem =>
          rcases Option.some.inj hstep with rfl
          refine ⟨hsame.congr rfl hact.1 hact.2 (fun _ _ _ _ _ => rfl), ?_⟩
          intro b hb
          cases hb

/-- The frames a step passes are as their producers make them. -/
theorem passedBy_genuine {s : CountedState Port} {a : CountedAction Port}
    (hb : ∀ b, burstOf d pg txCsumL4 s.tx a.act = some b →
      Made (Tx.setLen b.port b.n b.state) a.refcnt (producersAfter pg s a.act)) :
    ∀ f ∈ passedBy d pg txCsumL4 port s a, Genuine f := by
  intro f hf
  unfold passedBy at hf
  cases hburst : burstOf d pg txCsumL4 s.tx a.act with
  | none => simp [hburst] at hf
  | some b =>
      simp only [hburst] at hf
      split at hf
      · rename_i hport
        rcases List.mem_map.mp hf with ⟨i, hi, rfl⟩
        have hmade := hb b hburst b.port i
        simp only [Tx.setLen, Function.update_self] at hmade
        rw [← hport]
        exact (hmade (List.mem_range.mp hi)).genuine
      · cases hf

end Step

/-! ## Runs -/

section Runs

variable {d : Dpdk} {pg : PageArray} {txCsumL4 : Port → Bool}
  {ts : List (Transition (CountedState Port) (CountedAction Port))} {s : CountedState Port}

/-- In a run every queued frame is as its producer made it, and so was every frame passed on. -/
theorem made_of_run (hd : MbufRules d) {heap : RteHeap} {mem : Mem} {refcnt : Nat → UInt16}
    (h : Run (countedStep d pg txCsumL4) (.init heap mem refcnt) ts s)
    (hk : ∀ tr ∈ ts, KeepsToCounts tr.before tr.act) :
    Made s.tx s.refcnt s.producer ∧ ∀ port, ∀ f ∈ passedOn d pg txCsumL4 port ts, Genuine f := by
  induction h with
  | nil =>
      constructor
      · intro port i hi
        cases hi
      · intro port f hf
        cases hf
  | @snoc ts s₀ s' a hrun hs ih =>
      rw [List.forall_mem_append] at hk
      rcases ih hk.1 with ⟨hmade, hpassed⟩
      have hlast : KeepsToCounts s₀ a := hk.2 _ (List.mem_singleton.mpr rfl)
      rcases countedStep_made hd hmade hlast hs with ⟨href, hprod, hmade', hburst⟩
      rw [← href, ← hprod] at hmade'
      refine ⟨hmade', ?_⟩
      intro port f hf
      rw [passedOn, List.flatMap_append, List.flatMap_singleton] at hf
      rcases List.mem_append.mp hf with hold | hnew
      · exact hpassed port f hold
      · exact passedBy_genuine hburst f hnew

end Runs

/-! ## The ports with the offload -/

section Ports

variable {cfg : DpdkCfg} {dev : EthDev} {port : UInt16}

/-- `init_port_start` enables `MBUF_FAST_FREE` on the port. -/
def EnablesFastFree (cfg : DpdkCfg) (dev : EthDev) (port : UInt16) : Prop :=
  ∃ ps conf, initPortStart cfg dev .init = .ok ps ∧ ps.placed port = some conf ∧
    has conf.txOffloads txOffloadMbufFastFree = true

/-- The other offloads do not set the flag. -/
theorem has_txOffloads_fastFree (cfg : DpdkCfg) (info : DevInfo) :
    has (txOffloads cfg info) txOffloadMbufFastFree =
      has info.txOffloadCapa txOffloadMbufFastFree := by
  have hip : txOffloadIpv4Cksum &&& txOffloadMbufFastFree = 0 := by decide
  have hl4 : (txOffloadUdpCksum ||| txOffloadTcpCksum) &&& txOffloadMbufFastFree = 0 := by decide
  have htso : txOffloadTcpTso &&& txOffloadMbufFastFree = 0 := by decide
  have hout {a b : UInt64} (hb : b &&& txOffloadMbufFastFree = 0) :
      has (a ||| b) txOffloadMbufFastFree = has a txOffloadMbufFastFree := by
    rw [has, has, or_and_of_outside hb]
  have hfast (capa : Bool) : has (if capa then txOffloadMbufFastFree else 0) txOffloadMbufFastFree =
      capa := by
    cases capa <;> decide
  rw [← hfast (has info.txOffloadCapa txOffloadMbufFastFree)]
  unfold txOffloads
  generalize (if has info.txOffloadCapa txOffloadMbufFastFree then txOffloadMbufFastFree else 0) = word
  (repeat' split) <;> simp only [hout hip, hout hl4, hout htso]

/-- **The offload is enabled on every port of the configuration whose device has it.** -/
theorem enablesFastFree_iff {ps : PortState} (h : initPortStart cfg dev .init = .ok ps) :
    EnablesFastFree cfg dev port ↔ port ∈ confPorts cfg ∧
      ∃ info, dev.infoGet port = .ok info ∧ has info.txOffloadCapa txOffloadMbufFastFree = true := by
  -- a port of the configuration was placed with the offloads of its device, no other port was placed
  have hplaced : ∀ p, (p ∈ confPorts cfg → ∃ info conf, dev.infoGet p = .ok info ∧
      ps.placed p = some conf ∧ conf.txOffloads = txOffloads cfg info) ∧
        (p ∉ confPorts cfg → ps.placed p = none) := by
    refine initPortStart_induct (I := fun done s => ∀ p, (p ∈ done → ∃ info conf,
      dev.infoGet p = .ok info ∧ s.placed p = some conf ∧ conf.txOffloads = txOffloads cfg info) ∧
        (p ∉ done → s.placed p = none)) ?_ (fun hI => hI) ?_ h
    · intro done uPort p nbQueues s s' _ _ hI hrun q
      rcases initPort_ok hrun with ⟨info, hinfo, conf, s₁, nb, hfill, rfl⟩
      rcases fillConf_ok hfill with ⟨htx, -, -, -, -, hp⟩
      show (q ∈ done ++ [p] → ∃ info conf, dev.infoGet q = .ok info ∧ s₁.placed q = some conf ∧
        conf.txOffloads = txOffloads cfg info) ∧ (q ∉ done ++ [p] → s₁.placed q = none)
      rw [hp]
      by_cases hq : q = p
      · subst hq
        refine ⟨fun _ => ⟨info, conf, hinfo, Function.update_self _ _ _, htx⟩, fun hno => ?_⟩
        exact absurd (List.mem_append_right _ (List.mem_singleton.mpr rfl)) hno
      · rw [Function.update_of_ne hq]
        simp only [List.mem_append, List.mem_singleton, hq, or_false]
        exact hI q
    · intro p
      exact ⟨fun hp => absurd hp List.not_mem_nil, fun _ => rfl⟩
  constructor
  · rintro ⟨ps', conf, hps', hconf, hfast⟩
    rcases Except.ok.inj (h.symm.trans hps') with rfl
    have hmem : port ∈ confPorts cfg := by
      by_contra hno
      rw [(hplaced port).2 hno] at hconf
      cases hconf
    rcases (hplaced port).1 hmem with ⟨info, conf', hinfo, hconf', htx⟩
    rcases Option.some.inj (hconf.symm.trans hconf') with rfl
    rw [htx, has_txOffloads_fastFree] at hfast
    exact ⟨hmem, info, hinfo, hfast⟩
  · rintro ⟨hmem, info, hinfo, hcapa⟩
    rcases (hplaced port).1 hmem with ⟨info', conf, hinfo', hconf, htx⟩
    rcases Except.ok.inj (hinfo.symm.trans hinfo') with rfl
    refine ⟨ps, conf, h, hconf, ?_⟩
    rw [htx, has_txOffloads_fastFree]
    exact hcapa

end Ports

/-- **`MBUF_FAST_FREE`.** In a run of sends, responses and drains the frames passed on the ports with
the offload are direct mbufs of one pool, counted once, exactly when on each of these ports all of them
have one producer, which is not the clone of a received cluster. -/
theorem fast_free_is_honoured_iff {d : Dpdk} {pg : PageArray} {txCsumL4 : UInt16 → Bool}
    {ts : List (Transition (CountedState UInt16) (CountedAction UInt16))} {s : CountedState UInt16}
    {heap : RteHeap} {mem : Mem} {refcnt : Nat → UInt16} (cfg : DpdkCfg) (dev : EthDev)
    (hd : MbufRules d) (h : Run (countedStep d pg txCsumL4) (.init heap mem refcnt) ts s)
    (hk : ∀ tr ∈ ts, KeepsToCounts tr.before tr.act) :
    (∀ port, EnablesFastFree cfg dev port → DirectOnePool (passedOn d pg txCsumL4 port ts)) ↔
      ∀ port, EnablesFastFree cfg dev port → OneProducer (producersOn d pg txCsumL4 port ts) := by
  have hgenuine := (made_of_run hd h hk).2
  constructor
  · intro hall port hport
    rw [← passedOn_map_fst]
    exact (directOnePool_iff (hgenuine port)).mp (hall port hport)
  · intro hall port hport
    apply (directOnePool_iff (hgenuine port)).mpr
    rw [passedOn_map_fst]
    exact hall port hport

/-! ### A received cluster sent on -/

namespace Sample

/-- The segments allocated since `n`, marked as indirect. -/
def markIndirect (h : RteHeap) (n : Nat) : RteHeap :=
  { h with
    mbuf := fun q =>
      if q < n then h.mbuf q else { h.mbuf q with olFlags := (h.mbuf q).olFlags ||| mbufIndirect } }

theorem markIndirect_newFrame {h h' : RteHeap} {ws : List (Addr × UInt16)} {len : UInt32}
    (hf : NewFrame h ws len h') : NewFrame h ws len (markIndirect h' h.allocs) := by
  have hnext : (markIndirect h' h.allocs).next = h'.next := by
    funext q
    simp only [RteHeap.next, markIndirect]
    split <;> rfl
  refine ⟨hf.allocs, ?_, hnext ▸ hf.linked, ?_, hf.live, ?_, ?_⟩
  · intro p hp
    simp only [markIndirect, if_pos hp]
    exact hf.old p hp
  · intro i hi
    rw [← hf.windows i hi]
    simp only [RteHeap.window, RteMbuf.mtod, markIndirect]
    split <;> rfl
  · simp only [markIndirect, Nat.lt_irrefl, if_false]
    exact hf.pktLen
  · simp only [markIndirect, Nat.lt_irrefl, if_false]
    exact hf.nbSegs

/-- The library whose allocations all succeed, with the flag on its clones. -/
def marking : Dpdk :=
  { rich with
    clone := fun h src => ((rich.clone h src).1, markIndirect (rich.clone h src).2 h.allocs)
    clone_ok := by
      intro h src segs hl hborn hok
      rcases rich.clone_ok hl hborn hok with ⟨h', hclone, hframe⟩
      exact ⟨markIndirect h' h.allocs, by rw [hclone], markIndirect_newFrame hframe⟩
    clone_null := by
      intro h src segs hl hborn hno
      rcases rich.clone_null hl hborn hno with ⟨h', hclone, hlive, hold⟩
      refine ⟨markIndirect h' h.allocs, by rw [hclone], hlive, ?_⟩
      intro p hp
      simp only [markIndirect, if_pos hp]
      exact hold p hp }

theorem marking_rules : MbufRules marking := by
  refine ⟨fun _ => rfl, ?_⟩
  intro h h' src p segs hl hborn hclone i hi
  have hfits : cloneFits (fun _ => true) h segs = true := by simp [cloneFits]
  have hres : rich.clone h src = (some h.allocs, cloneSegs h src segs) := by
    simp only [rich, dpdk, Dpdk.mempool, RteHeap.walk_handedOut hl hborn, if_pos hfits]
  have hheap : h' = markIndirect (cloneSegs h src segs) h.allocs := by
    have hmark : marking.clone h src = (some h.allocs, markIndirect (cloneSegs h src segs) h.allocs) := by
      show ((rich.clone h src).1, markIndirect (rich.clone h src).2 h.allocs) = _
      rw [hres]
    rw [hclone] at hmark
    exact (Prod.mk.inj hmark).2
  have hcell : (cloneSegs h src segs).mbuf (h.allocs + i) = cloneSegment h src segs i segs[i] := by
    simp only [cloneSegs]
    rw [if_neg (by omega), Nat.add_sub_cancel_left, List.getElem?_eq_getElem hi]
  rw [hheap]
  simp only [markIndirect, if_neg (by omega : ¬ h.allocs + i < h.allocs), hcell]
  refine ⟨?_, rfl⟩
  have hbit : (mbufIndirect &&& (mbufIndirect ||| mbufExternal)) = mbufIndirect := by decide
  simp only [RteMbuf.direct, or_and_mask, hbit, beq_eq_false_iff_ne]
  intro hzero
  exact absurd (UInt64.or_eq_zero_iff.mp hzero).2 (by decide)

/-- Devices with the offload and nothing else, on which every call succeeds. -/
def fastDev : EthDev where
  rssProtoMask := 0
  infoGet _ := .ok ⟨1, 1, 40, 0, txOffloadMbufFastFree, 0, 0⟩
  configure _ _ _ := 0
  adjustNbDesc _ n := n
  txQueueSetup _ _ _ _ := 0
  rxQueueSetup _ _ _ _ := 0
  start _ := 0
  rssRetaUpdate _ _ _ := 0

/-- One port. -/
def fastCfg : DpdkCfg := ⟨[0], fun _ => ⟨1, []⟩, false, false, false, false, false, true, 1⟩

theorem fastCfg_enables : EnablesFastFree fastCfg fastDev 0 :=
  ⟨_, _, rfl, rfl, by decide⟩

/-- The stack sends a received packet on, and the table is drained. -/
def forward : List (CountedAction UInt16) :=
  [⟨.send 0 (some (packet (clusterMbuf 0))) 60 0, fun _ => 1⟩, ⟨.drain 0 1, fun _ => 1⟩]

def forwardRun :
    Option (List (Transition (CountedState UInt16) (CountedAction UInt16)) × CountedState UInt16) :=
  exec (countedStep marking pages fun _ => false) (.init rxHeap mem fun _ => 1) forward

theorem clusterMbuf_received : HoldsReceived rxHeap (packet (clusterMbuf 0)) := by
  intro src hsrc
  rcases Option.some.inj hsrc with rfl
  exact ⟨[0], .cons .nil, by simp [rxHeap]⟩

/-- A run of these actions keeps to the counts. -/
theorem forwardRun_keeps {ts : List (Transition (CountedState UInt16) (CountedAction UInt16))}
    {s : CountedState UInt16} (h : forwardRun = some (ts, s)) :
    ∀ tr ∈ ts, KeepsToCounts tr.before tr.act := by
  rcases exec_cons h with ⟨s₁, r₁, hsend, hrest, heq⟩
  rcases exec_cons hrest with ⟨s₂, r₂, hdrain, hend, rfl⟩
  rcases Option.some.inj hend with rfl
  have hts : ts = [⟨_, _, s₁⟩, ⟨s₁, _, s₂⟩] := congrArg Prod.fst heq
  have hcounts : s₁.refcnt = fun _ => 1 := countedStep_refcnt hsend
  intro tr htr
  rw [hts] at htr
  rcases List.mem_cons.mp htr with rfl | hlast
  · refine ⟨fun _ _ _ _ _ => rfl, ?_, fun _ _ => rfl⟩
    intro c hc
    rcases Option.some.inj hc with rfl
    exact clusterMbuf_received
  · rcases List.mem_singleton.mp hlast with rfl
    refine ⟨fun _ _ _ q _ => ?_, trivial⟩
    rw [hcounts]

end Sample

theorem fast_free_is_honoured_forward : ∃ r, Sample.forwardRun = some r ∧
    ((∀ port, EnablesFastFree Sample.fastCfg Sample.fastDev port →
        DirectOnePool (passedOn Sample.marking Sample.pages (fun _ => false) port r.1)) ↔
      ∀ port, EnablesFastFree Sample.fastCfg Sample.fastDev port →
        OneProducer (producersOn Sample.marking Sample.pages (fun _ => false) port r.1)) := by
  rcases Option.isSome_iff_exists.mp (by decide : Sample.forwardRun.isSome = true) with ⟨r, hr⟩
  exact ⟨r, hr, fast_free_is_honoured_iff _ _ Sample.marking_rules (Run.of_exec hr)
    (Sample.forwardRun_keeps hr)⟩

/-- The driver is handed an indirect mbuf on a port where it was promised none. -/
theorem forwarded_cluster_is_indirect : MbufRules Sample.marking ∧
    EnablesFastFree Sample.fastCfg Sample.fastDev 0 ∧ ∃ r, Sample.forwardRun = some r ∧
      (∀ tr ∈ r.1, KeepsToCounts tr.before tr.act) ∧
      ¬ DirectOnePool (passedOn Sample.marking Sample.pages (fun _ => false) 0 r.1) := by
  refine ⟨Sample.marking_rules, Sample.fastCfg_enables, ?_⟩
  rcases Option.isSome_iff_exists.mp (by decide : Sample.forwardRun.isSome = true) with ⟨r, hr⟩
  refine ⟨r, hr, Sample.forwardRun_keeps hr, ?_⟩
  have hpassed : Sample.forwardRun.map (fun r =>
      passedOn Sample.marking Sample.pages (fun _ => false) 0 r.1) =
        some [(.clone, [⟨false, 1, .pkt⟩])] := by decide
  rw [hr] at hpassed
  have hone : passedOn Sample.marking Sample.pages (fun _ => false) 0 r.1 =
      [(.clone, [⟨false, 1, .pkt⟩])] := Option.some.inj hpassed
  rintro ⟨pool, hpool⟩
  rw [hone] at hpool
  have hfalse := hpool _ List.mem_cons_self ⟨false, 1, .pkt⟩ List.mem_cons_self
  exact Bool.noConfusion (congrArg SegmentAttr.direct hfalse)

end LazyBsd.Tx
