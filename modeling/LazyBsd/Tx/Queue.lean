/-
# LazyBsd.Tx.Queue — the transmit table, the txring and every way to reach them (page-array build).

One table per port holds the frames that wait for a burst: `m_table` has the `rte_mbuf`s and
`bsd_m_table` the BSD chains they point into. After a burst the chain of a sent frame moves to the
port's txring, which keeps it until the ring comes round; the chain of a rejected frame is freed. Two
producers store into the table (`lazybsd_dpdk_if_send`, `send_single_packet`), and a full table or the
drain timer flushes it (`send_burst`). The step function `step` lets them run in any order, with any
number of frames accepted by `rte_eth_tx_burst`, and with the rest of the process changing packet memory
and the `rte_mbuf` heap in between.

BSD chains are identified by the order in which the stack gave them. The fields `given`, `freed`,
`stored` and `handed` only record what happened: the number of chains given, the chains passed to
`lazybsd_mbuf_free`, the frames stored into a table and those passed to `rte_eth_tx_burst`.
-/
import LazyBsd.Lib.Run
import LazyBsd.Lib.Slots
import LazyBsd.Tx.Convert

namespace LazyBsd.Tx

open Lib

/-! ## State -/

/-- `MAX_PKT_BURST`. -/
def maxPktBurst : Nat := 32

/-- `TX_QUEUE_SIZE`. -/
def txQueueSize : Nat := 512

/-- `struct mbuf_table`. A slot of `m_table` that was never stored to holds no meaningful pointer and
is never read. -/
structure MbufTable where
  len : Nat
  mTable : Nat → Nat
  bsdMTable : Nat → Option Nat

/-- `struct mbuf_txring`. -/
structure MbufTxring where
  mTable : Nat → Option Nat
  head : Nat

/-- The transmit state of the process. -/
structure TxState (Port : Type*) where
  heap : RteHeap
  mem : Mem
  txMbufs : Port → MbufTable
  nicTxRing : Port → MbufTxring
  given : Nat
  freed : List Nat
  stored : Port → List Nat
  handed : Port → List Nat

/-- The state after start-up: both arrays are zeroed. -/
def TxState.init {Port : Type*} (heap : RteHeap) (mem : Mem) : TxState Port where
  heap := heap
  mem := mem
  txMbufs _ := ⟨0, fun _ => 0, fun _ => none⟩
  nicTxRing _ := ⟨fun _ => none, 0⟩
  given := 0
  freed := []
  stored _ := []
  handed _ := []

/-- The frames waiting in a table. -/
def MbufTable.queued (t : MbufTable) : List Nat := (List.range t.len).map t.mTable

/-- The BSD chains waiting in a table. -/
def MbufTable.pending (t : MbufTable) : List Nat := slots t.bsdMTable t.len

/-- The BSD chains in a txring. -/
def MbufTxring.kept (q : MbufTxring) : List Nat := slots q.mTable txQueueSize

/-! ## `lazybsd_txring_enqueue` -/

/-- `Head_INC`. -/
def headInc (h : Nat) : Nat := if txQueueSize ≤ h + 1 then 0 else h + 1

/-- One turn of the loop: free and clear the slot at the head. The list is what was freed. -/
def txringClear (q : MbufTxring) : MbufTxring × List Nat :=
  match q.mTable q.head with
  | some p => (⟨Function.update q.mTable q.head none, headInc q.head⟩, [p])
  | none => ({ q with head := headInc q.head }, [])

/-- The `for` loop over the first `seg_num - 1` slots. -/
def txringClearLoop : Nat → MbufTxring → MbufTxring × List Nat
  | 0, q => (q, [])
  | k + 1, q =>
      let (q, freed) := txringClear q
      let (q, freed') := txringClearLoop k q
      (q, freed ++ freed')

/-- `lazybsd_txring_enqueue`. -/
def lazybsdTxringEnqueue (q : MbufTxring) (p segNum : Nat) : MbufTxring × List Nat :=
  let (q, freed) := txringClearLoop (segNum - 1) q
  (⟨Function.update q.mTable q.head (some p), headInc q.head⟩,
    freed ++ (q.mTable q.head).toList)

/-! ## `send_burst` -/

/-- The loop over the frames that the NIC accepted: their BSD chains go to the txring. -/
def burstAccepted (heap : RteHeap) (t : MbufTable) : List Nat → MbufTxring → MbufTxring × List Nat
  | [], q => (q, [])
  | i :: is, q =>
      match t.bsdMTable i with
      | some p =>
          let (q, freed) := lazybsdTxringEnqueue q p (heap.mbuf (t.mTable i)).nbSegs.toNat
          let (q, freed') := burstAccepted heap t is q
          (q, freed ++ freed')
      | none => burstAccepted heap t is q

/-- The loop over the frames that were not accepted: they are freed with their BSD chains. -/
def burstRejected (t : MbufTable) : List Nat → RteHeap → RteHeap × List Nat
  | [], heap => (heap, [])
  | i :: is, heap =>
      let (heap, freed) := burstRejected t is (heap.rtePktmbufFree (t.mTable i))
      (heap, (t.bsdMTable i).toList ++ freed)

variable {Port : Type*} [DecidableEq Port]

/-- `send_burst`, when `rte_eth_tx_burst` accepts `accepted` frames of the `n`. -/
def sendBurst (port : Port) (n accepted : Nat) (s : TxState Port) : TxState Port :=
  let t := s.txMbufs port
  let ret := min accepted n
  -- the NIC owns the first `ret` frames now, the others are still ours
  let (ring, evicted) := burstAccepted s.heap t (List.range ret) (s.nicTxRing port)
  let (heap, rejected) := burstRejected t (List.range' ret (n - ret)) s.heap
  { s with
    heap := heap
    nicTxRing := Function.update s.nicTxRing port ring
    freed := s.freed ++ evicted ++ rejected
    handed := Function.update s.handed port (s.handed port ++ (List.range n).map t.mTable) }

/-- The store of `len` at the end of each caller. -/
def setLen (port : Port) (len : Nat) (s : TxState Port) : TxState Port :=
  { s with txMbufs := Function.update s.txMbufs port { s.txMbufs port with len := len } }

/-- Both producers flush when the new length is `MAX_PKT_BURST`, then store the length. -/
def flushFull (port : Port) (len accepted : Nat) (s : TxState Port) : TxState Port :=
  if len = maxPktBurst then setLen port 0 (sendBurst port maxPktBurst accepted s)
  else setLen port len s

/-! ## The two producers and the drain -/

/-- The store of `send_single_packet`: only `m_table` is written. -/
def storeResponse (m : Nat) (port : Port) (s : TxState Port) : TxState Port :=
  let t := s.txMbufs port
  { s with
    txMbufs := Function.update s.txMbufs port { t with mTable := Function.update t.mTable t.len m }
    stored := Function.update s.stored port (s.stored port ++ [m]) }

/-- `send_single_packet`: the dispatcher answers with a frame of its own. -/
def sendSinglePacket (m : Nat) (port : Port) (accepted : Nat) (s : TxState Port) : TxState Port :=
  flushFull port ((s.txMbufs port).len + 1) accepted (storeResponse m port s)

/-- `lazybsd_mbuf_free(m)` on the chain just given, after a failed conversion. -/
def freeGiven (heap : RteHeap) (s : TxState Port) : TxState Port :=
  { s with heap := heap, given := s.given + 1, freed := s.freed ++ [s.given] }

/-- The stores to `m_table[len]` and `bsd_m_table[len]`, after a conversion. -/
def storeGiven (port : Port) (head : Nat) (heap : RteHeap) (mem : Mem) (s : TxState Port) :
    TxState Port :=
  let t := s.txMbufs port
  { s with
    heap := heap
    mem := mem
    given := s.given + 1
    txMbufs := Function.update s.txMbufs port
      { t with
        mTable := Function.update t.mTable t.len head
        bsdMTable := Function.update t.bsdMTable t.len (some s.given) }
    stored := Function.update s.stored port (s.stored port ++ [head]) }

/-- `lazybsd_if_send_onepkt`: the returned `len`, or the panic. A conversion that fails returns 0. -/
def lazybsdIfSendOnepkt (d : Dpdk) (pg : PageArray) (txCsumL4 : Port → Bool) (port : Port)
    (m : Option BsdChain) (total : UInt32) (s : TxState Port) : Option (Nat × TxState Port) :=
  match m with
  | none => some (0, s)
  | some m =>
      match headOf d pg m total s.heap with
      | none => none
      -- the 0 of a failure is returned where the new length would be
      | some (none, heap) => some (0, freeGiven heap s)
      | some (some head, heap) =>
          let (heap, mem) := lazybsdOffloadSet d (txCsumL4 port) m head heap s.mem
          some ((s.txMbufs port).len + 1, storeGiven port head heap mem s)

/-- `lazybsd_dpdk_if_send`. -/
def lazybsdDpdkIfSend (d : Dpdk) (pg : PageArray) (txCsumL4 : Port → Bool) (port : Port)
    (m : Option BsdChain) (total : UInt32) (accepted : Nat) (s : TxState Port) :
    Option (TxState Port) :=
  match lazybsdIfSendOnepkt d pg txCsumL4 port m total s with
  | none => none
  | some (len, s) => some (flushFull port len accepted s)

/-- The drain in `main_loop`. -/
def drain (port : Port) (accepted : Nat) (s : TxState Port) : TxState Port :=
  if (s.txMbufs port).len = 0 then s
  else setLen port 0 (sendBurst port (s.txMbufs port).len accepted s)

section Length

variable {port q : Port} {n i : Nat} {s : TxState Port}

/-- A new length moves no frame and no chain of any table. -/
theorem setLen_mTable (q : Port) :
    ((setLen port n s).txMbufs q).mTable = (s.txMbufs q).mTable := by
  by_cases hq : q = port
  · subst hq
    simp [setLen]
  · simp [setLen, hq]

theorem setLen_bsdMTable (q : Port) :
    ((setLen port n s).txMbufs q).bsdMTable = (s.txMbufs q).bsdMTable := by
  by_cases hq : q = port
  · subst hq
    simp [setLen]
  · simp [setLen, hq]

theorem setLen_len_self : ((setLen port n s).txMbufs port).len = n := by
  simp [setLen]

theorem setLen_txMbufs_of_ne (hq : q ≠ port) : (setLen port n s).txMbufs q = s.txMbufs q := by
  simp [setLen, hq]

/-- What waits after a table was cut waited before. -/
theorem lt_of_lt_setLen (hn : n ≤ (s.txMbufs port).len) (hi : i < ((setLen port n s).txMbufs q).len) :
    i < (s.txMbufs q).len := by
  by_cases hq : q = port
  · subst hq
    rw [setLen_len_self] at hi
    exact hi.trans_le hn
  · rwa [setLen_txMbufs_of_ne hq] at hi

/-- In an emptied table nothing waits. -/
theorem ne_of_lt_setLen_zero (hi : i < ((setLen port 0 s).txMbufs q).len) : q ≠ port := by
  rintro rfl
  rw [setLen_len_self] at hi
  exact Nat.not_lt_zero _ hi

end Length

/-- What can happen next. `elsewhere` is any other code of the process: it may change packet memory
and the `rte_mbuf` heap at will. -/
inductive Action (Port : Type*)
  | send (port : Port) (m : Option BsdChain) (total : UInt32) (accepted : Nat)
  | respond (m : Nat) (port : Port) (accepted : Nat)
  | drain (port : Port) (accepted : Nat)
  | elsewhere (heap : RteHeap) (mem : Mem)

/-- One step of the transmit side; `none` is the end of the process in `rte_panic`. -/
def step (d : Dpdk) (pg : PageArray) (txCsumL4 : Port → Bool) (s : TxState Port) :
    Action Port → Option (TxState Port)
  | .send port m total accepted => lazybsdDpdkIfSend d pg txCsumL4 port m total accepted s
  | .respond m port accepted => some (sendSinglePacket m port accepted s)
  | .drain port accepted => some (Tx.drain port accepted s)
  | .elsewhere heap mem => some { s with heap := heap, mem := mem }

/-! ## What the pieces do -/

section Ring

variable {q : MbufTxring}

theorem headInc_lt (h : Nat) : headInc h < txQueueSize := by
  unfold headInc
  split
  · decide
  · omega

/-- Clearing a slot moves its chain to the freed list. -/
theorem txringClear_count (hq : q.head < txQueueSize) (x : Nat) :
    (txringClear q).1.kept.count x + (txringClear q).2.count x = q.kept.count x ∧
      (txringClear q).1.head < txQueueSize := by
  have hcount := count_slots_update (f := q.mTable) hq none x
  unfold txringClear
  cases hslot : q.mTable q.head with
  | none => exact ⟨by simp [MbufTxring.kept], headInc_lt _⟩
  | some p =>
      refine ⟨?_, headInc_lt _⟩
      rw [hslot] at hcount
      simpa [MbufTxring.kept] using hcount

theorem txringClearLoop_count (k : Nat) (hq : q.head < txQueueSize) (x : Nat) :
    (txringClearLoop k q).1.kept.count x + (txringClearLoop k q).2.count x = q.kept.count x ∧
      (txringClearLoop k q).1.head < txQueueSize := by
  induction k generalizing q with
  | zero => exact ⟨by simp [txringClearLoop], hq⟩
  | succ k ih =>
      obtain ⟨hone, hhead⟩ := txringClear_count hq x
      obtain ⟨hrest, hlast⟩ := ih hhead
      refine ⟨?_, hlast⟩
      simp only [txringClearLoop, List.count_append]
      omega

/-- Enqueueing adds one chain; what it evicts is freed. -/
theorem lazybsdTxringEnqueue_count (p segNum : Nat) (hq : q.head < txQueueSize) (x : Nat) :
    (lazybsdTxringEnqueue q p segNum).1.kept.count x + (lazybsdTxringEnqueue q p segNum).2.count x =
        q.kept.count x + [p].count x ∧
      (lazybsdTxringEnqueue q p segNum).1.head < txQueueSize := by
  obtain ⟨hloop, hhead⟩ := txringClearLoop_count (segNum - 1) hq x
  refine ⟨?_, headInc_lt _⟩
  have hstore := count_slots_update (f := (txringClearLoop (segNum - 1) q).1.mTable) hhead (some p) x
  simp only [lazybsdTxringEnqueue, MbufTxring.kept, List.count_append, Option.toList_some] at hloop hstore ⊢
  omega

end Ring

/-- The accepted frames' chains are in the ring or were evicted from it. -/
theorem burstAccepted_count (heap : RteHeap) (t : MbufTable) (is : List Nat) {q : MbufTxring}
    (hq : q.head < txQueueSize) (x : Nat) :
    (burstAccepted heap t is q).1.kept.count x + (burstAccepted heap t is q).2.count x =
        q.kept.count x + (is.filterMap t.bsdMTable).count x ∧
      (burstAccepted heap t is q).1.head < txQueueSize := by
  induction is generalizing q with
  | nil => exact ⟨by simp [burstAccepted], hq⟩
  | cons i is ih =>
      unfold burstAccepted
      cases hslot : t.bsdMTable i with
      | none =>
          rw [List.filterMap_cons_none hslot]
          exact ih hq
      | some p =>
          obtain ⟨hone, hhead⟩ :=
            lazybsdTxringEnqueue_count p (heap.mbuf (t.mTable i)).nbSegs.toNat hq x
          obtain ⟨hrest, hlast⟩ := ih hhead
          refine ⟨?_, hlast⟩
          rw [List.filterMap_cons_some hslot]
          simp only [List.count_append, List.count_cons, List.count_nil] at hone hrest ⊢
          omega

/-- The rejected frames' chains are freed. -/
theorem burstRejected_freed (t : MbufTable) (is : List Nat) (heap : RteHeap) :
    (burstRejected t is heap).2 = is.filterMap t.bsdMTable := by
  induction is generalizing heap with
  | nil => rfl
  | cons i is ih =>
      simp only [burstRejected, ih]
      cases hslot : t.bsdMTable i <;> simp [hslot]

theorem burstRejected_heap (t : MbufTable) (is : List Nat) (heap : RteHeap) :
    (burstRejected t is heap).1.mbuf = heap.mbuf ∧
      (burstRejected t is heap).1.allocs = heap.allocs := by
  induction is generalizing heap with
  | nil => exact ⟨rfl, rfl⟩
  | cons i is ih => exact ih _

/-! ### `send_burst` -/

section Burst

variable (port : Port) (n accepted : Nat) (s : TxState Port)

@[simp] theorem sendBurst_txMbufs : (sendBurst port n accepted s).txMbufs = s.txMbufs := rfl

@[simp] theorem sendBurst_stored : (sendBurst port n accepted s).stored = s.stored := rfl

/-- A burst returns mbufs, it writes to none. -/
theorem sendBurst_heap : (sendBurst port n accepted s).heap.mbuf = s.heap.mbuf ∧
    (sendBurst port n accepted s).heap.allocs = s.heap.allocs :=
  burstRejected_heap (s.txMbufs port) (List.range' (min accepted n) (n - min accepted n)) s.heap

variable {port n accepted s} in
/-- A burst of a whole table leaves the tables of the other ports, and its own empty. -/
theorem flushed_txMbufs {k i : Nat} {q : Port}
    (hi : i < ((setLen port 0 (sendBurst port n accepted s)).txMbufs q).len) :
    (setLen port 0 (sendBurst port n accepted s)).txMbufs q = (setLen port k s).txMbufs q := by
  have hq : q ≠ port := ne_of_lt_setLen_zero hi
  rw [setLen_txMbufs_of_ne hq, sendBurst_txMbufs, setLen_txMbufs_of_ne hq]

theorem sendBurst_handed :
    (sendBurst port n accepted s).handed = Function.update s.handed port
      (s.handed port ++ (List.range n).map (s.txMbufs port).mTable) := rfl

theorem sendBurst_nicTxRing_of_ne {q : Port} (hne : q ≠ port) :
    (sendBurst port n accepted s).nicTxRing q = s.nicTxRing q :=
  Function.update_of_ne hne _ _

/-- **Burst conservation.** The chains of the first `n` slots end up in the ring or freed, and nothing
else moves. -/
theorem sendBurst_count (hring : (s.nicTxRing port).head < txQueueSize) (x : Nat) :
    ((sendBurst port n accepted s).nicTxRing port).kept.count x +
          (sendBurst port n accepted s).freed.count x =
        (s.nicTxRing port).kept.count x + s.freed.count x +
          (slots (s.txMbufs port).bsdMTable n).count x ∧
      ((sendBurst port n accepted s).nicTxRing port).head < txQueueSize := by
  obtain ⟨hacc, hhead⟩ := burstAccepted_count s.heap (s.txMbufs port)
    (List.range (min accepted n)) hring x
  have hsplit := count_filterMap_range_add (s.txMbufs port).bsdMTable (min accepted n)
    (n - min accepted n) x
  rw [Nat.add_sub_cancel' (Nat.min_le_right _ _)] at hsplit
  simp only [sendBurst, Function.update_self, List.count_append, burstRejected_freed]
  exact ⟨by omega, hhead⟩

end Burst

/-! ### `lazybsd_dpdk_if_send` -/

/-- The conversion of what the stack passes fails: a NULL mbuf, or a chain that starts in the page
array and meets a failed allocation before a bad page. -/
def SendFails (d : Dpdk) (pg : PageArray) (h : RteHeap) : Option BsdChain → Prop
  | none => True
  | some m => pg.lazybsdChkVma (lazybsdMbufMtod m) = true ∧
      conversion d pg h.allocs m.mbufs = .noMbuf

section Send

variable {d : Dpdk} {pg : PageArray} {txCsumL4 : Port → Bool} {port : Port} {m : Option BsdChain}
  {total : UInt32} {accepted : Nat} {s s' : TxState Port}

/-- The head `headOf` finds is NULL exactly when the conversion fails, and then no reference mbuf is
left. -/
theorem headOf_cases {m : BsdChain} {h h' : RteHeap} {head : Option Nat}
    (hhead : headOf d pg m total h = some (head, h')) :
    (SendFails d pg h (some m) ∧ head = none ∧ h'.live = h.live) ∨
      (¬ SendFails d pg h (some m) ∧ ∃ p, head = some p) := by
  unfold headOf at hhead
  by_cases hvma : pg.lazybsdChkVma (lazybsdMbufMtod m) = true
  · rw [if_pos hvma] at hhead
    have hspec := lazybsdBsdToRte_spec d pg m total h
    simp only [SendFails, hvma, true_and]
    cases hconv : conversion d pg h.allocs m.mbufs with
    | built =>
        rw [hconv] at hspec
        obtain ⟨h'', hres, _⟩ := hspec
        rw [hres] at hhead
        injection hhead with hhead
        exact .inr ⟨by simp, _, (congrArg Prod.fst hhead).symm⟩
    | noMbuf =>
        rw [hconv] at hspec
        obtain ⟨h'', hres, hlive, _⟩ := hspec
        rw [hres] at hhead
        injection hhead with hhead
        obtain ⟨rfl, rfl⟩ := Prod.mk.inj hhead
        exact .inl ⟨rfl, rfl, hlive⟩
    | badPage =>
        rw [hconv] at hspec
        simp only at hspec
        rw [hspec] at hhead
        exact absurd hhead (by simp)
  · rw [if_neg hvma] at hhead
    refine .inr ⟨fun hfail => hvma hfail.1, ?_⟩
    cases hclone : lazybsdExtclToRte d m h with
    | mk p h'' =>
        rw [hclone] at hhead
        cases p with
        | none => exact absurd hhead (by simp)
        | some p =>
            injection hhead with hhead
            exact ⟨p, (congrArg Prod.fst hhead).symm⟩

/-- **What a send can do.** Fail: the length becomes 0, whatever it was, and the chain given is freed.
Or store one frame with its chain at the end of the table, and flush if that fills it. -/
theorem lazybsdDpdkIfSend_cases
    (h : lazybsdDpdkIfSend d pg txCsumL4 port m total accepted s = some s') :
    (SendFails d pg s.heap m ∧ (m = none ∧ s' = setLen port 0 s ∨
        ∃ heap, heap.live = s.heap.live ∧ s' = setLen port 0 (freeGiven heap s))) ∨
      (¬ SendFails d pg s.heap m ∧ ∃ head heap mem,
        s' = flushFull port ((s.txMbufs port).len + 1) accepted (storeGiven port head heap mem s)) := by
  have hzero : ∀ s₀ : TxState Port, flushFull port 0 accepted s₀ = setLen port 0 s₀ := fun s₀ =>
    if_neg (by decide)
  unfold lazybsdDpdkIfSend lazybsdIfSendOnepkt at h
  cases m with
  | none =>
      simp only [Option.some.injEq] at h
      exact .inl ⟨trivial, .inl ⟨rfl, by rw [← h, hzero]⟩⟩
  | some m =>
      cases hhead : headOf d pg m total s.heap with
      | none => simp [hhead] at h
      | some res =>
          obtain ⟨head, heap⟩ := res
          rcases headOf_cases hhead with ⟨hfail, rfl, hlive⟩ | ⟨hno, p, rfl⟩
          · simp only [hhead, Option.some.injEq] at h
            exact .inl ⟨hfail, .inr ⟨heap, hlive, by rw [← h, hzero]⟩⟩
          · simp only [hhead, Option.some.injEq] at h
            exact .inr ⟨hno, p, _, _, h.symm⟩

end Send

/-! ### The length -/

section Length

variable {d : Dpdk} {pg : PageArray} {txCsumL4 : Port → Bool} {s s' : TxState Port}

/-- Every table has room for the next store. -/
def RoomLeft (s : TxState Port) : Prop := ∀ p, (s.txMbufs p).len < maxPktBurst

theorem RoomLeft.setLen (h : RoomLeft s) (port : Port) {n : Nat} (hn : n < maxPktBurst) :
    RoomLeft (setLen port n s) := by
  intro p
  by_cases hp : p = port
  · subst hp
    rwa [setLen_len_self]
  · rw [setLen_txMbufs_of_ne hp]
    exact h p

/-- A producer that stored at the end of a table with room leaves a table with room. -/
theorem RoomLeft.flushFull (h : RoomLeft s) (port : Port) {n : Nat} (hn : n < maxPktBurst)
    (accepted : Nat) : RoomLeft (flushFull port (n + 1) accepted s) := by
  unfold Tx.flushFull
  by_cases hfull : n + 1 = maxPktBurst
  · rw [if_pos hfull]
    exact RoomLeft.setLen (s := sendBurst port maxPktBurst accepted s) h port (by decide)
  · rw [if_neg hfull]
    exact RoomLeft.setLen h port (by omega)

/-- Rewriting the slots of one table keeps its length. -/
theorem RoomLeft.store (h : RoomLeft s) (port : Port) {mTable : Nat → Nat}
    {bsdMTable : Nat → Option Nat}
    (hs : s'.txMbufs = Function.update s.txMbufs port
      ⟨(s.txMbufs port).len, mTable, bsdMTable⟩) : RoomLeft s' := by
  intro p
  rw [hs]
  by_cases hp : p = port
  · subst hp
    rw [Function.update_self]
    exact h p
  · rw [Function.update_of_ne hp]
    exact h p

/-- Every step leaves room. -/
theorem RoomLeft.step {a : Action Port} (h : RoomLeft s) (hstep : step d pg txCsumL4 s a = some s') :
    RoomLeft s' := by
  cases a with
  | send port m total accepted =>
      rcases lazybsdDpdkIfSend_cases hstep with
        ⟨_, ⟨_, rfl⟩ | ⟨heap, _, rfl⟩⟩ | ⟨_, head, heap, mem, rfl⟩
      · exact h.setLen port (by decide)
      · exact RoomLeft.setLen (s := freeGiven heap s) h port (by decide)
      · have hstore : RoomLeft (storeGiven port head heap mem s) := h.store port rfl
        exact hstore.flushFull port (h port) accepted
  | respond m port accepted =>
      obtain rfl := Option.some.inj hstep
      have hstore : RoomLeft (storeResponse m port s) := h.store port rfl
      exact hstore.flushFull port (h port) accepted
  | drain port accepted =>
      obtain rfl := Option.some.inj hstep
      unfold Tx.drain
      split
      · exact h
      · exact RoomLeft.setLen (s := sendBurst port (s.txMbufs port).len accepted s) h port (by decide)
  | elsewhere heap mem =>
      obtain rfl := Option.some.inj hstep
      exact h

end Length

end LazyBsd.Tx
