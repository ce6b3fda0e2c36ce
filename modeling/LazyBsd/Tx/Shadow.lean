/-
# LazyBsd.Tx.Shadow — the txring keeps a chain for as long as the NIC may read it.

The NIC uses one descriptor for each segment of a frame it accepts. `send_burst` enters as many slots
in the txring, with the frame's chain in the last one, so the two rings stay aligned: the slot of a
chain comes round again exactly `TX_QUEUE_SIZE` segments after the frame's last descriptor was used.
A NIC queue is at most that long, and its descriptors have been reused by then.

`sentOn` is what the NIC accepted in a run: the chains with the segments of their frames.
-/
import Mathlib.Algebra.Order.BigOperators.Group.Finset
import LazyBsd.Lib.Delay
import LazyBsd.Tx.Frame
import LazyBsd.Tx.Ownership

namespace LazyBsd.Tx

open Lib

/-! ## The txring as a delay line -/

/-- The txring after start-up. -/
def MbufTxring.empty : MbufTxring := ⟨fun _ => none, 0⟩

/-- The calls of `lazybsd_txring_enqueue` for chains with their segments. -/
def enterAll (q : MbufTxring) : List (Nat × Nat) → MbufTxring × List Nat
  | [] => (q, [])
  | c :: cs =>
      let (q, freed) := lazybsdTxringEnqueue q c.1 c.2
      let (q, freed') := enterAll q cs
      (q, freed ++ freed')

/-- What a chain writes to the ring: cleared slots and the chain in the last one. -/
def ringEntry (c : Nat × Nat) : List (Option Nat) := List.replicate (c.2 - 1) none ++ [some c.1]

/-- What the chains write to the ring. -/
def ringEntries (cs : List (Nat × Nat)) : List (Option Nat) := cs.flatMap ringEntry

/-- The descriptors the NIC uses for the chains. -/
def descriptors (cs : List (Nat × Nat)) : List Nat := cs.flatMap fun c => List.replicate c.2 c.1

section Ring

variable {q : MbufTxring} {hist : List (Option Nat)}

theorem headInc_eq {h : Nat} (hh : h < txQueueSize) : headInc h = (h + 1) % txQueueSize := by
  unfold headInc
  split
  · rename_i hle
    rw [show h + 1 = txQueueSize by omega, Nat.mod_self]
  · rw [Nat.mod_eq_of_lt (by omega)]

/-- The txring is a delay line. -/
abbrev MbufTxring.Delays (q : MbufTxring) (hist : List (Option Nat)) : Prop :=
  Delay txQueueSize hist q.mTable q.head

theorem MbufTxring.Delays.head_lt (h : q.Delays hist) : q.head < txQueueSize := by
  rw [h.head]
  exact Nat.mod_lt _ (by decide)

theorem txringClear_eq (q : MbufTxring) : txringClear q =
    (⟨Function.update q.mTable q.head none, headInc q.head⟩, (q.mTable q.head).toList) := by
  unfold txringClear
  cases hslot : q.mTable q.head with
  | none =>
      have hsame : Function.update q.mTable q.head none = q.mTable := by
        rw [← hslot, Function.update_eq_self]
      simp [hsame]
  | some p => rfl

theorem txringClear_delays (h : q.Delays hist) :
    (txringClear q).1.Delays (hist ++ [none]) ∧
      evicted txQueueSize (hist ++ [none]) = evicted txQueueSize hist ++ (txringClear q).2 := by
  rw [txringClear_eq]
  refine ⟨?_, h.overwritten (by decide) none⟩
  have hwrite := h.write none
  rwa [← headInc_eq h.head_lt] at hwrite

theorem txringClearLoop_delays (k : Nat) (h : q.Delays hist) :
    (txringClearLoop k q).1.Delays (hist ++ List.replicate k none) ∧
      evicted txQueueSize (hist ++ List.replicate k none) =
        evicted txQueueSize hist ++ (txringClearLoop k q).2 := by
  induction k generalizing q hist with
  | zero => simpa [txringClearLoop] using h
  | succ k ih =>
      obtain ⟨hone, hfreed⟩ := txringClear_delays h
      obtain ⟨hrest, hfreed'⟩ := ih hone
      rw [List.replicate_succ, show hist ++ none :: List.replicate k none =
        hist ++ [none] ++ List.replicate k none by simp]
      refine ⟨hrest, ?_⟩
      rw [hfreed', hfreed, List.append_assoc]
      rfl

/-- **Entering a chain** writes its entry and frees what comes out of the delay line. -/
theorem lazybsdTxringEnqueue_delays (c : Nat × Nat) (h : q.Delays hist) :
    (lazybsdTxringEnqueue q c.1 c.2).1.Delays (hist ++ ringEntry c) ∧
      evicted txQueueSize (hist ++ ringEntry c) =
        evicted txQueueSize hist ++ (lazybsdTxringEnqueue q c.1 c.2).2 := by
  obtain ⟨hloop, hfreed⟩ := txringClearLoop_delays (c.2 - 1) h
  rw [ringEntry, ← List.append_assoc]
  constructor
  · have hwrite := hloop.write (some c.1)
    rwa [← headInc_eq hloop.head_lt] at hwrite
  · rw [hloop.overwritten (by decide) (some c.1), hfreed, List.append_assoc]
    rfl

theorem enterAll_delays (q : MbufTxring) (hist : List (Option Nat)) (cs : List (Nat × Nat)) (h : q.Delays hist) :
    (enterAll q cs).1.Delays (hist ++ ringEntries cs) ∧
      evicted txQueueSize (hist ++ ringEntries cs) =
        evicted txQueueSize hist ++ (enterAll q cs).2 := by
  induction cs generalizing q hist with
  | nil => simpa [enterAll, ringEntries] using h
  | cons c cs ih =>
      obtain ⟨hone, hfreed⟩ := lazybsdTxringEnqueue_delays c h
      obtain ⟨hrest, hfreed'⟩ := ih _ _ hone
      rw [ringEntries, List.flatMap_cons, ← List.append_assoc]
      refine ⟨hrest, ?_⟩
      rw [ringEntries] at hfreed'
      rw [hfreed', hfreed, List.append_assoc]
      rfl

/-- From the empty ring: what was freed are the entries that came out. -/
theorem enterAll_empty (cs : List (Nat × Nat)) :
    (enterAll .empty cs).1.Delays (ringEntries cs) ∧
      (enterAll .empty cs).2 = evicted txQueueSize (ringEntries cs) := by
  obtain ⟨hring, hfreed⟩ := enterAll_delays .empty [] cs .empty
  rw [List.nil_append] at hring hfreed
  refine ⟨hring, ?_⟩
  rw [hfreed]
  rfl

theorem enterAll_append (cs cs' : List (Nat × Nat)) :
    enterAll q (cs ++ cs') = ((enterAll (enterAll q cs).1 cs').1,
      (enterAll q cs).2 ++ (enterAll (enterAll q cs).1 cs').2) := by
  induction cs generalizing q with
  | nil => rfl
  | cons c cs ih => simp only [List.cons_append, enterAll, ih, List.append_assoc]

theorem enterAll_count (cs : List (Nat × Nat)) (hq : q.head < txQueueSize) (x : Nat) :
    (enterAll q cs).1.kept.count x + (enterAll q cs).2.count x =
        q.kept.count x + (cs.map Prod.fst).count x ∧
      (enterAll q cs).1.head < txQueueSize := by
  induction cs generalizing q with
  | nil => exact ⟨by simp [enterAll], hq⟩
  | cons c cs ih =>
      obtain ⟨hone, hhead⟩ := lazybsdTxringEnqueue_count c.1 c.2 hq x
      obtain ⟨hrest, hlast⟩ := ih hhead
      refine ⟨?_, hlast⟩
      simp only [enterAll, List.map_cons, List.count_append, List.count_cons, List.count_nil] at hone ⊢
      omega

/-- A chain in the ring or out of it, by the number of segments entered after it. -/
theorem enterAll_count_of_nodup {cs : List (Nat × Nat)} (hnd : (cs.map Prod.fst).Nodup) {k p : Nat}
    (hk : (ringEntries cs)[k]? = some (some p)) :
    (enterAll .empty cs).2.count p = (if k + txQueueSize < (ringEntries cs).length then 1 else 0) ∧
      (enterAll .empty cs).1.kept.count p =
        if k + txQueueSize < (ringEntries cs).length then 0 else 1 := by
  obtain ⟨hdelay, hfreed⟩ := enterAll_empty cs
  have hcount := (enterAll_count (q := .empty) cs (by decide) p).1
  have hle : (cs.map Prod.fst).count p ≤ 1 := List.nodup_iff_count_le_one.mp hnd p
  have hempty : MbufTxring.empty.kept.count p = 0 := by
    have hnil : MbufTxring.empty.kept = [] := by simp [MbufTxring.kept, MbufTxring.empty, slots]
    rw [hnil]
    rfl
  rw [hempty] at hcount
  by_cases hout : k + txQueueSize < (ringEntries cs).length
  · have hpos : 0 < (enterAll .empty cs).2.count p := by
      rw [hfreed]
      exact List.count_pos_iff.mpr (Delay.mem_evicted hk hout)
    rw [if_pos hout, if_pos hout]
    omega
  · have hslot := hdelay.mem_slot hk (by omega)
    have hpos : 0 < (enterAll .empty cs).1.kept.count p := by
      refine List.count_pos_iff.mpr (List.mem_filterMap.mpr ⟨k % txQueueSize, ?_, hslot⟩)
      exact List.mem_range.mpr (Nat.mod_lt _ (by decide))
    rw [if_neg hout, if_neg hout]
    omega

/-- The two rings are aligned: a descriptor of a chain is not behind its last slot. -/
theorem slot_of_descriptor {cs : List (Nat × Nat)} (hpos : ∀ c ∈ cs, 0 < c.2) {i p : Nat}
    (hi : (descriptors cs)[i]? = some p) : ∃ k, i ≤ k ∧ (ringEntries cs)[k]? = some (some p) := by
  induction cs generalizing i with
  | nil => simp [descriptors] at hi
  | cons c cs ih =>
      have hc := hpos c List.mem_cons_self
      have hlen : (ringEntry c).length = c.2 := by
        simp only [ringEntry, List.length_append, List.length_replicate, List.length_singleton]
        omega
      simp only [descriptors, ringEntries, List.flatMap_cons] at hi ⊢
      by_cases hlt : i < c.2
      · rw [List.getElem?_append_left (by simpa using hlt), List.getElem?_replicate, if_pos hlt] at hi
        obtain rfl := Option.some.inj hi
        refine ⟨c.2 - 1, by omega, ?_⟩
        rw [List.getElem?_append_left (by omega), ringEntry,
          List.getElem?_append_right (by simp)]
        simp
      · rw [List.getElem?_append_right (by simpa using Nat.le_of_not_lt hlt),
          List.length_replicate] at hi
        obtain ⟨k, hk, hentry⟩ := ih (fun c' hc' => hpos c' (List.mem_cons_of_mem _ hc')) hi
        refine ⟨c.2 + k, by omega, ?_⟩
        rw [List.getElem?_append_right (by omega), hlen, Nat.add_sub_cancel_left]
        exact hentry

theorem descriptors_length {cs : List (Nat × Nat)} (hpos : ∀ c ∈ cs, 0 < c.2) :
    (descriptors cs).length = (ringEntries cs).length := by
  induction cs with
  | nil => rfl
  | cons c cs ih =>
      have hc := hpos c List.mem_cons_self
      have hrest := ih fun c' hc' => hpos c' (List.mem_cons_of_mem _ hc')
      simp only [descriptors, ringEntries, ringEntry, List.flatMap_cons, List.length_append,
        List.length_replicate, List.length_singleton] at hrest ⊢
      omega

end Ring

/-! ## Bursts and what the NIC accepts -/

/-- The segments of the frame at `p`. -/
def segments (h : RteHeap) (p : Nat) : List Nat := walk h.next h.allocs (some p)

/-- A call of `send_burst`, in the state it is made in. -/
structure Burst (Port : Type*) where
  port : Port
  n : Nat
  accepted : Nat
  state : TxState Port

variable {Port : Type*} [DecidableEq Port]

/-- The call of `send_burst` that a step makes, if it makes one. -/
def burstOf (d : Dpdk) (pg : PageArray) (txCsumL4 : Port → Bool) (s : TxState Port) :
    Action Port → Option (Burst Port)
  | .send port m total accepted =>
      match lazybsdIfSendOnepkt d pg txCsumL4 port m total s with
      | none => none
      | some (len, s) => if len = maxPktBurst then some ⟨port, maxPktBurst, accepted, s⟩ else none
  | .respond m port accepted =>
      if (s.txMbufs port).len + 1 = maxPktBurst then
        some ⟨port, maxPktBurst, accepted, storeResponse m port s⟩
      else none
  | .drain port accepted =>
      if (s.txMbufs port).len = 0 then none else some ⟨port, (s.txMbufs port).len, accepted, s⟩
  | .elsewhere _ _ => none

/-- The table the burst sends from. -/
def Burst.table (b : Burst Port) : MbufTable := b.state.txMbufs b.port

/-- The chains of the accepted frames, each with the number of segments of its frame. -/
def Burst.sent (b : Burst Port) : List (Nat × Nat) :=
  (List.range (min b.accepted b.n)).filterMap fun i =>
    (b.table.bsdMTable i).map fun p => (p, (segments b.state.heap (b.table.mTable i)).length)

/-- What a step sends on a port. -/
def sentBy (d : Dpdk) (pg : PageArray) (txCsumL4 : Port → Bool) (port : Port) (s : TxState Port)
    (a : Action Port) : List (Nat × Nat) :=
  match burstOf d pg txCsumL4 s a with
  | some b => if b.port = port then b.sent else []
  | none => []

/-- What a run sends on a port. -/
def sentOn (d : Dpdk) (pg : PageArray) (txCsumL4 : Port → Bool) (port : Port)
    (ts : List (Transition (TxState Port) (Action Port))) : List (Nat × Nat) :=
  ts.flatMap fun tr => sentBy d pg txCsumL4 port tr.before tr.act

/-! ## What is assumed of the NIC and of the rest of the process -/

/-- A cluster the stack holds is a chain of segments the pools handed out. -/
def HoldsReceived (h : RteHeap) (m : BsdChain) : Prop :=
  ∀ src, lazybsdRteFrmExtcl m.first = some src →
    ∃ segs, Linked h.next (some src) segs ∧ ∀ q ∈ segs, q < h.allocs

/-- The frames a burst gets accepted fit the NIC queue of `nbTxd` descriptors. -/
def Fits (nbTxd : Nat) (b : Burst Port) : Prop :=
  ∀ i < min b.accepted b.n, (segments b.state.heap (b.table.mTable i)).length ≤ nbTxd

/-- No dispatcher answers, the NIC accepts only frames that fit its queue, and other code leaves the
segments of the queued frames alone. -/
def Undisturbed (d : Dpdk) (pg : PageArray) (txCsumL4 : Port → Bool) (nbTxd : Nat)
    (s : TxState Port) (a : Action Port) : Prop :=
  (∀ b, burstOf d pg txCsumL4 s a = some b → Fits nbTxd b) ∧
    match a with
    | .send _ m _ _ => ∀ c, m = some c → HoldsReceived s.heap c
    | .respond _ _ _ => False
    | .drain _ _ => True
    | .elsewhere heap _ => s.heap.allocs ≤ heap.allocs ∧
        ∀ port, ∀ i < (s.txMbufs port).len, ∀ q ∈ segments s.heap ((s.txMbufs port).mTable i),
          heap.mbuf q = s.heap.mbuf q

/-! ## The queued frames -/

/-- The frame at `p` has its number of segments in `nb_segs`. -/
def Framed (h : RteHeap) (p : Nat) : Prop :=
  ∃ l, Linked h.next (some p) l ∧ (∀ q ∈ l, q < h.allocs) ∧ l ≠ [] ∧
    (h.mbuf p).nbSegs = UInt16.ofNat l.length

/-- Every slot in use has such a frame and the chain it was made from. -/
def Queued (s : TxState Port) : Prop :=
  ∀ port, ∀ i < (s.txMbufs port).len, Framed s.heap ((s.txMbufs port).mTable i) ∧
    ((s.txMbufs port).bsdMTable i).isSome = true

section Frames

variable {h h' : RteHeap} {p : Nat} {l : List Nat}

theorem segments_eq (hl : Linked h.next (some p) l) (hborn : ∀ q ∈ l, q < h.allocs) :
    segments h p = l := by
  refine hl.walk_eq ?_
  have hsub : l ⊆ List.range h.allocs := fun q hq => List.mem_range.mpr (hborn q hq)
  simpa using (hl.nodup.subperm hsub).length_le

theorem Framed.segments_pos (hf : Framed h p) : 0 < (segments h p).length := by
  obtain ⟨l, hl, hborn, hne, -⟩ := hf
  rw [segments_eq hl hborn]
  exact List.length_pos_iff.mpr hne

/-- A frame that fits a NIC queue is not longer than `nb_segs` can tell. -/
theorem Framed.nbSegs_toNat (hf : Framed h p) {nbTxd : Nat} (hn : nbTxd ≤ txQueueSize)
    (hfits : (segments h p).length ≤ nbTxd) :
    (h.mbuf p).nbSegs.toNat = (segments h p).length := by
  obtain ⟨l, hl, hborn, -, hcount⟩ := hf
  rw [segments_eq hl hborn] at hfits ⊢
  have hsize : txQueueSize = 512 := rfl
  rw [hcount, UInt16.toNat_ofNat', Nat.mod_eq_of_lt (by omega)]

/-- Stores outside the frame. -/
theorem Framed.congr (hf : Framed h p) (hallocs : h.allocs ≤ h'.allocs)
    (hsame : ∀ q ∈ segments h p, h'.mbuf q = h.mbuf q) : Framed h' p := by
  obtain ⟨l, hl, hborn, hne, hcount⟩ := hf
  rw [segments_eq hl hborn] at hsame
  have hp : p ∈ l := by
    cases hl with
    | cons htail => exact List.mem_cons_self
  refine ⟨l, hl.congr fun q hq => ?_, fun q hq => (hborn q hq).trans_le hallocs, hne, ?_⟩
  · rw [RteHeap.next, RteHeap.next, hsame q hq]
  · rw [hsame p hp, hcount]

/-- Stores to new cells. -/
theorem Framed.grow (hf : Framed h p) (hallocs : h.allocs ≤ h'.allocs)
    (hold : ∀ q < h.allocs, h'.mbuf q = h.mbuf q) : Framed h' p := by
  refine hf.congr hallocs fun q hq => hold q ?_
  obtain ⟨l, hl, hborn, -, -⟩ := hf
  rw [segments_eq hl hborn] at hq
  exact hborn q hq

theorem NewFrame.framed {ws : List (Addr × UInt16)} {len : UInt32} (hf : NewFrame h ws len h')
    (hws : ws ≠ []) : Framed h' h.allocs := by
  refine ⟨_, hf.linked, fun q hq => ?_, ?_, ?_⟩
  · rw [List.mem_range'_1] at hq
    rw [hf.allocs]
    omega
  · intro hnil
    have hlen := congrArg List.length hnil
    rw [List.length_range', List.length_nil] at hlen
    exact hws (List.length_eq_zero_iff.mp hlen)
  · rw [hf.nbSegs, List.length_range']

end Frames

/-! ## One step -/

section Conversion

variable {d : Dpdk} {pg : PageArray} {m : BsdChain} {total : UInt32} {h h' : RteHeap}
  {head : Option Nat}

theorem rtePktmbufAlloc_allocs (pool : Pool) (h : RteHeap) :
    (d.rtePktmbufAlloc pool h).2.allocs = h.allocs + 1 := by
  unfold Dpdk.rtePktmbufAlloc
  split <;> rfl

theorem lazybsdBsdToRteLoop_allocs {hd : Nat} {mbs : List BsdMbuf} {cur prev : Option Nat}
    {r : Option Nat × RteHeap} (hr : lazybsdBsdToRteLoop d pg hd mbs cur prev h = some r) :
    h.allocs ≤ r.2.allocs := by
  induction mbs generalizing cur prev h with
  | nil =>
      obtain rfl := Option.some.inj hr
      exact le_rfl
  | cons mb rest ih =>
      -- the turn after `cur` was obtained, whichever way
      have hturn {c : Nat} {h₁ : RteHeap} (hle : h.allocs ≤ h₁.allocs)
          (hr : lazybsdBsdToRteLoop d pg hd (mb :: rest) (some c) prev h₁ = some r) :
          h.allocs ≤ r.2.allocs := by
        cases hpage : pg.lazybsdMemVirt2phy mb.mData with
        | none => simp [lazybsdBsdToRteLoop, lazybsdNextMbuf, hpage] at hr
        | some iova =>
            simp only [lazybsdBsdToRteLoop, lazybsdNextMbuf, hpage] at hr
            exact (hle.trans_eq fillSegment_allocs.symm).trans (ih hr)
      cases cur with
      | some c => exact hturn le_rfl hr
      | none =>
          have hle : h.allocs ≤ (d.rtePktmbufAlloc .ref h).2.allocs := by
            rw [rtePktmbufAlloc_allocs]
            exact Nat.le_succ _
          cases halloc : d.rtePktmbufAlloc .ref h with
          | mk c h₁ =>
              rw [halloc] at hle
              simp only [lazybsdBsdToRteLoop, halloc, lazybsdNextMbuf] at hr
              cases c with
              | none =>
                  obtain rfl := Option.some.inj hr
                  exact hle
              | some c => exact hturn hle hr

theorem lazybsdBsdToRte_allocs {r : Option Nat × RteHeap}
    (hr : lazybsdBsdToRte d pg m total h = some r) : h.allocs ≤ r.2.allocs := by
  have halloc := rtePktmbufAlloc_allocs (d := d) .ref h
  unfold lazybsdBsdToRte at hr
  cases hres : d.rtePktmbufAlloc .ref h with
  | mk hd h₁ =>
      rw [hres] at hr halloc
      dsimp only at halloc
      cases hd with
      | none =>
          obtain rfl := Option.some.inj hr
          dsimp only
          omega
      | some hd =>
          have hle := lazybsdBsdToRteLoop_allocs hr
          rw [RteHeap.modify_allocs] at hle
          omega

/-- A conversion stores to new cells only, and a head it finds is a new frame. -/
theorem headOf_grows (hsrc : HoldsReceived h m) (hhead : headOf d pg m total h = some (head, h')) :
    h.allocs ≤ h'.allocs ∧ (∀ q < h.allocs, h'.mbuf q = h.mbuf q) ∧
      ∀ p, head = some p → p = h.allocs ∧ ∃ ws len, ws ≠ [] ∧ NewFrame h ws len h' := by
  by_cases hvma : pg.lazybsdChkVma (lazybsdMbufMtod m) = true
  · have hhead' := hhead
    rw [headOf, if_pos hvma] at hhead'
    have hallocs := lazybsdBsdToRte_allocs hhead'
    have hspec := lazybsdBsdToRte_spec d pg m total h
    cases head with
    | some p =>
        obtain ⟨rfl, hframe⟩ := headOf_page hvma hhead
        refine ⟨hallocs, fun q hq => (hframe.old q hq).1, ?_⟩
        intro p hp
        obtain rfl := Option.some.inj hp
        exact ⟨rfl, _, _, by simp [windowsOf, BsdChain.mbufs], hframe⟩
    | none =>
        -- only a run of allocations that fails gives up the frame and goes on
        refine ⟨hallocs, ?_, by simp⟩
        cases hconv : conversion d pg h.allocs m.mbufs with
        | built =>
            rw [hconv] at hspec
            obtain ⟨h'', hres, -⟩ := hspec
            rw [hres] at hhead'
            simp at hhead'
        | noMbuf =>
            rw [hconv] at hspec
            obtain ⟨h'', hres, -, hold⟩ := hspec
            rw [hres] at hhead'
            simp only [Option.some.injEq, Prod.mk.injEq, true_and] at hhead'
            rw [← hhead']
            exact hold
        | badPage =>
            rw [hconv] at hspec
            simp only at hspec
            rw [hspec] at hhead'
            simp at hhead'
  · cases hfrm : lazybsdRteFrmExtcl m.first with
    | none => simp [headOf, hvma, lazybsdExtclToRte, hfrm] at hhead
    | some src =>
        obtain ⟨segs, hl, hborn⟩ := hsrc src hfrm
        cases head with
        | none =>
            simp only [headOf, if_neg hvma] at hhead
            split at hhead <;> simp at hhead
        | some p =>
            obtain ⟨rfl, hframe⟩ := headOf_cluster hvma hfrm hl hborn hhead
            refine ⟨by rw [hframe.allocs]; exact Nat.le_add_right _ _,
              fun q hq => (hframe.old q hq).1, ?_⟩
            intro p hp
            obtain rfl := Option.some.inj hp
            refine ⟨rfl, _, _, ?_, hframe⟩
            cases hl with
            | cons htail => simp

end Conversion

/-- The chains of a list of slots, as `burstAccepted` enters them. -/
theorem burstAccepted_eq (heap : RteHeap) (t : MbufTable) (is : List Nat) (q : MbufTxring) :
    burstAccepted heap t is q = enterAll q (is.filterMap fun i =>
      (t.bsdMTable i).map fun p => (p, (heap.mbuf (t.mTable i)).nbSegs.toNat)) := by
  induction is generalizing q with
  | nil => rfl
  | cons i is ih =>
      unfold burstAccepted
      cases hslot : t.bsdMTable i with
      | none => simp only [ih, List.filterMap_cons, hslot, Option.map_none]
      | some p => simp only [ih, List.filterMap_cons, hslot, Option.map_some, enterAll]

section Step

variable {d : Dpdk} {pg : PageArray} {txCsumL4 : Port → Bool} {nbTxd : Nat} {s s' : TxState Port}
  {a : Action Port} {port : Port}

omit [DecidableEq Port] in
theorem Queued.congr (h : Queued s) (hm : s'.txMbufs = s.txMbufs)
    (hallocs : s.heap.allocs ≤ s'.heap.allocs)
    (hsame : ∀ port, ∀ i < (s.txMbufs port).len, ∀ q ∈ segments s.heap ((s.txMbufs port).mTable i),
      s'.heap.mbuf q = s.heap.mbuf q) : Queued s' := by
  intro port i hi
  rw [hm] at hi ⊢
  exact ⟨(h port i hi).1.congr hallocs (hsame port i hi), (h port i hi).2⟩

theorem Queued.setLen (h : Queued s) {n : Nat} (hn : n ≤ (s.txMbufs port).len) :
    Queued (setLen port n s) := by
  intro q i hi
  rw [setLen_mTable, setLen_bsdMTable]
  exact h q i (lt_of_lt_setLen hn hi)

theorem Queued.sendBurst (h : Queued s) (n accepted : Nat) : Queued (sendBurst port n accepted s) := by
  obtain ⟨hmbuf, hallocs⟩ := burstRejected_heap (s.txMbufs port)
    (List.range' (min accepted n) (n - min accepted n)) s.heap
  refine h.congr rfl (le_of_eq hallocs.symm) ?_
  intro port i _ q _
  exact congrFun hmbuf q

/-- The stored frame is queued with the others. -/
theorem Queued.storeGiven (h : Queued s) {head : Nat} {heap : RteHeap} (mem : Mem)
    (hallocs : s.heap.allocs ≤ heap.allocs) (hold : ∀ q < s.heap.allocs, heap.mbuf q = s.heap.mbuf q)
    (hframed : Framed heap head) :
    Queued (Tx.setLen port ((s.txMbufs port).len + 1) (Tx.storeGiven port head heap mem s)) := by
  intro q i hi
  by_cases hq : q = port
  · subst hq
    simp only [Tx.setLen, Tx.storeGiven, Function.update_self] at hi ⊢
    rcases Nat.lt_succ_iff_lt_or_eq.mp hi with hlt | rfl
    · rw [Function.update_of_ne hlt.ne, Function.update_of_ne hlt.ne]
      exact ⟨(h q i hlt).1.grow hallocs hold, (h q i hlt).2⟩
    · rw [Function.update_self, Function.update_self]
      exact ⟨hframed, rfl⟩
  · simp only [Tx.setLen, Tx.storeGiven, Function.update_of_ne hq] at hi ⊢
    exact ⟨(h q i hi).1.grow hallocs hold, (h q i hi).2⟩

/-- What a send that queues does to the frames. -/
theorem queued_of_head {m : BsdChain} {total : UInt32} {head : Nat} {heap : RteHeap} (h : Queued s)
    (hsrc : HoldsReceived s.heap m) (hhead : headOf d pg m total s.heap = some (some head, heap)) :
    Queued (setLen port ((s.txMbufs port).len + 1)
      (storeGiven port head (lazybsdOffloadSet d (txCsumL4 port) m head heap s.mem).1
        (lazybsdOffloadSet d (txCsumL4 port) m head heap s.mem).2 s)) := by
  obtain ⟨hallocs, -, hnew⟩ := headOf_grows hsrc hhead
  obtain ⟨rfl, ws, len, hws, hframe⟩ := hnew head rfl
  have hoff : NewFrame s.heap ws len (lazybsdOffloadSet d (txCsumL4 port) m s.heap.allocs heap s.mem).1 :=
    NewFrame.offload hframe (txCsumL4 port) m s.mem
  exact h.storeGiven _ hallocs (fun q hq => (hoff.old q hq).1) (NewFrame.framed hoff hws)

/-- A conversion, whether it queues or not, leaves the rings alone, and the new length counts frames. -/
theorem onepkt_queued {m : Option BsdChain} {total : UInt32} {n : Nat} (h : Queued s)
    (hsrc : ∀ c, m = some c → HoldsReceived s.heap c)
    (hsend : lazybsdIfSendOnepkt d pg txCsumL4 port m total s = some (n, s')) :
    Queued (Tx.setLen port n s') ∧ s'.nicTxRing = s.nicTxRing ∧ ∃ fs, s'.freed = s.freed ++ fs := by
  unfold lazybsdIfSendOnepkt at hsend
  cases m with
  | none =>
      obtain ⟨rfl, rfl⟩ := Prod.mk.inj (Option.some.inj hsend)
      exact ⟨h.setLen (Nat.zero_le _), rfl, [], (List.append_nil _).symm⟩
  | some m =>
      cases hhead : headOf d pg m total s.heap with
      | none => simp [hhead] at hsend
      | some res =>
          obtain ⟨head, heap⟩ := res
          obtain ⟨hallocs, hold, -⟩ := headOf_grows (hsrc m rfl) hhead
          cases head with
          | none =>
              simp only [hhead, Option.some.injEq, Prod.mk.injEq] at hsend
              obtain ⟨rfl, rfl⟩ := hsend
              have hfree : Queued (freeGiven heap s) := by
                intro port i hi
                exact ⟨(h port i hi).1.grow hallocs hold, (h port i hi).2⟩
              exact ⟨hfree.setLen (Nat.zero_le _), rfl, _, rfl⟩
          | some head =>
              simp only [hhead, Option.some.injEq, Prod.mk.injEq] at hsend
              obtain ⟨rfl, rfl⟩ := hsend
              exact ⟨queued_of_head h (hsrc m rfl) hhead, rfl, [], (List.append_nil _).symm⟩

/-- After a burst nothing waits on its port, and the other ports are as before. -/
theorem Queued.flushed {n k accepted : Nat} (h : Queued (Tx.setLen port n s)) :
    Queued (Tx.setLen port 0 (Tx.sendBurst port k accepted s)) := by
  obtain ⟨hmbuf, hallocs⟩ := sendBurst_heap port k accepted s
  intro q i hi
  have hsame : (Tx.setLen port 0 (Tx.sendBurst port k accepted s)).txMbufs q =
      (Tx.setLen port n s).txMbufs q := flushed_txMbufs hi
  rw [hsame] at hi ⊢
  obtain ⟨hframed, hsrc⟩ := h q i hi
  exact ⟨hframed.congr (le_of_eq hallocs.symm) fun q _ => congrFun hmbuf q, hsrc⟩

/-- **A burst** enters what the NIC accepted in the txring of its port, segment for segment. -/
theorem sendBurst_enters {b : Burst Port} (hn : nbTxd ≤ txQueueSize) (hfits : Fits nbTxd b)
    (hframed : ∀ i < b.n, Framed b.state.heap (b.table.mTable i)) :
    (sendBurst b.port b.n b.accepted b.state).nicTxRing b.port =
        (enterAll (b.state.nicTxRing b.port) b.sent).1 ∧
      ∃ fs, (sendBurst b.port b.n b.accepted b.state).freed =
        b.state.freed ++ (enterAll (b.state.nicTxRing b.port) b.sent).2 ++ fs := by
  have hsent : b.sent = (List.range (min b.accepted b.n)).filterMap fun i =>
      (b.table.bsdMTable i).map fun p => (p, (b.state.heap.mbuf (b.table.mTable i)).nbSegs.toNat) := by
    refine List.filterMap_congr fun i hi => ?_
    have hlt : i < min b.accepted b.n := List.mem_range.mp hi
    rw [(hframed i (by omega)).nbSegs_toNat hn (hfits i hlt)]
  have hring := burstAccepted_eq b.state.heap b.table (List.range (min b.accepted b.n))
    (b.state.nicTxRing b.port)
  rw [← hsent] at hring
  refine ⟨?_, (burstRejected b.table (List.range' (min b.accepted b.n)
    (b.n - min b.accepted b.n)) b.state.heap).2, ?_⟩
  · rw [← hring]
    exact Function.update_self _ _ _
  · rw [← hring]
    rfl

omit [DecidableEq Port] in
theorem sent_pos {b : Burst Port} (hframed : ∀ i < b.n, Framed b.state.heap (b.table.mTable i)) :
    ∀ c ∈ b.sent, 0 < c.2 := by
  intro c hc
  obtain ⟨i, hi, hslot⟩ := List.mem_filterMap.mp hc
  obtain ⟨p, -, rfl⟩ := Option.map_eq_some_iff.mp hslot
  have hlt : i < min b.accepted b.n := List.mem_range.mp hi
  exact (hframed i (by omega)).segments_pos

/-- What a step does to the frames and to the txrings. -/
structure Enters (d : Dpdk) (pg : PageArray) (txCsumL4 : Port → Bool) (s : TxState Port)
    (a : Action Port) (s' : TxState Port) : Prop where
  queued : Queued s'
  pos : ∀ port, ∀ c ∈ sentBy d pg txCsumL4 port s a, 0 < c.2
  ring : ∀ port, s'.nicTxRing port =
    (enterAll (s.nicTxRing port) (sentBy d pg txCsumL4 port s a)).1
  freed : ∀ port x, s.freed.count x +
    (enterAll (s.nicTxRing port) (sentBy d pg txCsumL4 port s a)).2.count x ≤ s'.freed.count x

/-- A step without a burst. -/
theorem Enters.of_none (hb : burstOf d pg txCsumL4 s a = none) (hq : Queued s')
    (hring : s'.nicTxRing = s.nicTxRing) (hfreed : ∃ fs, s'.freed = s.freed ++ fs) :
    Enters d pg txCsumL4 s a s' := by
  obtain ⟨fs, hfreed⟩ := hfreed
  have hsent (port : Port) : sentBy d pg txCsumL4 port s a = [] := by simp only [sentBy, hb]
  refine ⟨hq, fun port c hc => ?_, fun port => ?_, fun port x => ?_⟩
  · rw [hsent] at hc
    cases hc
  · rw [hsent, hring]
    rfl
  · rw [hsent, hfreed, List.count_append]
    exact Nat.le_add_right _ _

/-- A step that ends in a burst. -/
theorem Enters.of_burst {b : Burst Port} (hb : burstOf d pg txCsumL4 s a = some b)
    (hn : nbTxd ≤ txQueueSize) (hfits : Fits nbTxd b)
    (hq : Queued (setLen b.port b.n b.state)) (hring : b.state.nicTxRing = s.nicTxRing)
    (hfreed : ∃ fs, b.state.freed = s.freed ++ fs) :
    Enters d pg txCsumL4 s a (setLen b.port 0 (sendBurst b.port b.n b.accepted b.state)) := by
  have hframed : ∀ i < b.n, Framed b.state.heap (b.table.mTable i) := by
    intro i hi
    have hslot := hq b.port i
    simp only [Tx.setLen, Function.update_self] at hslot
    exact (hslot hi).1
  obtain ⟨hself, fs, hout⟩ := sendBurst_enters hn hfits hframed
  obtain ⟨fs', hfreed⟩ := hfreed
  rw [hring] at hself hout
  refine ⟨hq.flushed, fun port c hc => ?_, fun port => ?_, fun port x => ?_⟩
  · simp only [sentBy, hb] at hc
    split at hc
    · exact sent_pos hframed c hc
    · cases hc
  · simp only [sentBy, hb]
    split
    · rename_i hport
      subst hport
      exact hself
    · rename_i hport
      change (sendBurst b.port b.n b.accepted b.state).nicTxRing port = _
      rw [sendBurst_nicTxRing_of_ne _ _ _ _ (Ne.symm hport), hring]
      rfl
  · change _ ≤ (sendBurst b.port b.n b.accepted b.state).freed.count x
    simp only [sentBy, hb, hout, hfreed, List.count_append]
    split
    · rename_i hport
      subst hport
      omega
    · simp only [enterAll, List.count_nil]
      omega

/-- **What a step enters.** -/
theorem step_enters (hn : nbTxd ≤ txQueueSize) (h : Queued s)
    (hu : Undisturbed d pg txCsumL4 nbTxd s a) (hs : step d pg txCsumL4 s a = some s') :
    Enters d pg txCsumL4 s a s' := by
  obtain ⟨hfits, hact⟩ := hu
  cases a with
  | send port m total accepted =>
      simp only [step, lazybsdDpdkIfSend] at hs
      cases hsend : lazybsdIfSendOnepkt d pg txCsumL4 port m total s with
      | none => simp [hsend] at hs
      | some res =>
          obtain ⟨n, s₁⟩ := res
          obtain ⟨hq, hring, hfreed⟩ := onepkt_queued h hact hsend
          simp only [hsend, Option.some.injEq] at hs
          unfold flushFull at hs
          by_cases hfull : n = maxPktBurst
          · rw [if_pos hfull] at hs
            have hb : burstOf d pg txCsumL4 s (.send port m total accepted) =
                some ⟨port, maxPktBurst, accepted, s₁⟩ := by
              simp only [burstOf, hsend, if_pos hfull]
            rw [← hs]
            exact .of_burst hb hn (hfits _ hb) (hfull ▸ hq) hring hfreed
          · rw [if_neg hfull] at hs
            have hb : burstOf d pg txCsumL4 s (.send port m total accepted) = none := by
              simp only [burstOf, hsend, if_neg hfull]
            rw [← hs]
            exact .of_none hb hq hring hfreed
  | respond m port accepted => exact hact.elim
  | drain port accepted =>
      obtain rfl := Option.some.inj hs
      unfold Tx.drain
      by_cases hlen : (s.txMbufs port).len = 0
      · rw [if_pos hlen]
        exact .of_none (by simp only [burstOf, if_pos hlen]) h rfl ⟨[], (List.append_nil _).symm⟩
      · rw [if_neg hlen]
        have hb : burstOf d pg txCsumL4 s (.drain port accepted) =
            some ⟨port, (s.txMbufs port).len, accepted, s⟩ := by
          simp only [burstOf, if_neg hlen]
        exact .of_burst hb hn (hfits _ hb) (h.setLen le_rfl) rfl ⟨[], (List.append_nil _).symm⟩
  | elsewhere heap mem =>
      obtain rfl := Option.some.inj hs
      exact .of_none rfl (h.congr rfl hact.1 hact.2) rfl ⟨[], (List.append_nil _).symm⟩

end Step

/-! ## Runs -/

section Runs

variable [Fintype Port] {d : Dpdk} {pg : PageArray} {txCsumL4 : Port → Bool} {nbTxd : Nat}
  {s s' : TxState Port} {a : Action Port}

/-- No chain is in two places; a failed send may have lost some. -/
def Sole (s : TxState Port) : Prop := ∀ x, held s x ≤ if x < s.given then 1 else 0

/-- Without dispatcher responses no step doubles a chain. -/
theorem Sole.step (h : Sole s) (hinv : TableInv s) (hu : Undisturbed d pg txCsumL4 nbTxd s a)
    (hs : step d pg txCsumL4 s a = some s') : Sole s' := by
  intro x
  have hx := h x
  cases a with
  | send port m total accepted =>
      rcases lazybsdDpdkIfSend_cases hs with
        ⟨-, ⟨-, rfl⟩ | ⟨heap, -, rfl⟩⟩ | ⟨-, head, heap, mem, rfl⟩
      · have hheld := held_setLen_zero s port x
        change _ ≤ if x < s.given then 1 else 0
        omega
      · have hheld := held_freeGiven s port heap x
        change _ ≤ if x < s.given + 1 then 1 else 0
        rw [count_given]
        omega
      · rw [held_storeGiven accepted head heap mem (hinv.head port) x]
        have hgiven : (flushFull port ((s.txMbufs port).len + 1) accepted
            (storeGiven port head heap mem s)).given = s.given + 1 := by
          unfold flushFull
          split <;> rfl
        rw [hgiven, count_given]
        omega
  | respond m port accepted => exact hu.2.elim
  | drain port accepted =>
      obtain rfl := Option.some.inj hs
      rw [held_drain accepted (hinv.head port) x]
      have hgiven : (Tx.drain port accepted s).given = s.given := by
        unfold Tx.drain
        split <;> rfl
      rw [hgiven]
      exact hx
  | elsewhere heap mem =>
      obtain rfl := Option.some.inj hs
      exact hx

/-- The invariant of a run, with what it sent. -/
structure Shadowed (d : Dpdk) (pg : PageArray) (txCsumL4 : Port → Bool)
    (ts : List (Transition (TxState Port) (Action Port))) (s : TxState Port) : Prop where
  queued : Queued s
  table : TableInv s
  sole : Sole s
  pos : ∀ port, ∀ c ∈ sentOn d pg txCsumL4 port ts, 0 < c.2
  ring : ∀ port, s.nicTxRing port = (enterAll .empty (sentOn d pg txCsumL4 port ts)).1
  freed : ∀ port x, (enterAll .empty (sentOn d pg txCsumL4 port ts)).2.count x ≤ s.freed.count x

theorem Shadowed.init (heap : RteHeap) (mem : Mem) :
    Shadowed d pg txCsumL4 [] (.init heap mem : TxState Port) where
  queued := by
    intro port i hi
    cases hi
  table := Sample.init_tableInv heap mem
  sole := by
    intro x
    have hnone : held (.init heap mem : TxState Port) x = 0 := by
      simp [held, heldAt, TxState.init, MbufTxring.kept, slots]
    rw [hnone]
    exact Nat.zero_le _
  pos := by simp [sentOn]
  ring _ := rfl
  freed port x := by simp [sentOn, enterAll]

theorem Shadowed.snoc {ts : List (Transition (TxState Port) (Action Port))}
    (h : Shadowed d pg txCsumL4 ts s) (hn : nbTxd ≤ txQueueSize)
    (hu : Undisturbed d pg txCsumL4 nbTxd s a) (hs : step d pg txCsumL4 s a = some s') :
    Shadowed d pg txCsumL4 (ts ++ [⟨s, a, s'⟩]) s' := by
  have henters := step_enters hn h.queued hu hs
  have hsent (port : Port) : sentOn d pg txCsumL4 port (ts ++ [⟨s, a, s'⟩]) =
      sentOn d pg txCsumL4 port ts ++ sentBy d pg txCsumL4 port s a := by
    simp [sentOn]
  refine ⟨henters.queued, h.table.step hs, h.sole.step h.table hu hs, ?_, ?_, ?_⟩
  · intro port c hc
    rw [hsent] at hc
    rcases List.mem_append.mp hc with hold | hnew
    · exact h.pos port c hold
    · exact henters.pos port c hnew
  · intro port
    rw [hsent, enterAll_append, henters.ring port, h.ring port]
  · intro port x
    have hold := h.freed port x
    have hnew := henters.freed port x
    rw [hsent, enterAll_append, List.count_append, ← h.ring port]
    omega

theorem Shadowed.of_run {heap : RteHeap} {mem : Mem}
    {ts : List (Transition (TxState Port) (Action Port))} (hn : nbTxd ≤ txQueueSize)
    (h : Run (step d pg txCsumL4) (.init heap mem) ts s)
    (hu : ∀ tr ∈ ts, Undisturbed d pg txCsumL4 nbTxd tr.before tr.act) :
    Shadowed d pg txCsumL4 ts s := by
  induction h with
  | nil => exact .init heap mem
  | snoc _ ha ih =>
      have hlast := hu _ (List.mem_append_right _ (List.mem_singleton.mpr rfl))
      exact (ih fun tr htr => hu tr (List.mem_append_left _ htr)).snoc hn hlast ha

/-- A chain is accepted once, and freed once or kept. -/
theorem Shadowed.count_le {ts : List (Transition (TxState Port) (Action Port))}
    (h : Shadowed d pg txCsumL4 ts s) (port : Port) (x : Nat) :
    (s.nicTxRing port).kept.count x + s.freed.count x ≤ 1 := by
  have hheld := h.sole x
  have hport : heldAt s port (s.txMbufs port).len x ≤ ∑ q, heldAt s q (s.txMbufs q).len x :=
    Finset.single_le_sum (f := fun q => heldAt s q (s.txMbufs q).len x) (fun _ _ => Nat.zero_le _)
      (Finset.mem_univ port)
  have hkept : (s.nicTxRing port).kept.count x ≤ heldAt s port (s.txMbufs port).len x :=
    Nat.le_add_left _ _
  simp only [held] at hheld
  have hone : (if x < s.given then 1 else 0) ≤ 1 := by split <;> omega
  omega

theorem Shadowed.nodup {ts : List (Transition (TxState Port) (Action Port))}
    (h : Shadowed d pg txCsumL4 ts s) (port : Port) :
    ((sentOn d pg txCsumL4 port ts).map Prod.fst).Nodup := by
  refine List.nodup_iff_count_le_one.mpr fun x => ?_
  have hcount := (enterAll_count (q := .empty) (sentOn d pg txCsumL4 port ts) (by decide) x).1
  have hle := h.count_le port x
  have hfreed := h.freed port x
  rw [h.ring port] at hle
  omega

/-- **The transmit buffers outlive the NIC's use of them.** In a run the txring of a port is what
entering the accepted chains, segment for segment, makes of the empty ring, and an accepted chain is
freed by nothing else. After any number of these calls, with the last slot of a chain at place `k`: the
chain has been freed, once, if `TX_QUEUE_SIZE` more segments have been entered, and then the NIC has
reused all its descriptors; otherwise it is in the ring. -/
theorem tx_buffers_outlive_the_nic {heap : RteHeap} {mem : Mem}
    {ts : List (Transition (TxState Port) (Action Port))} (hn : nbTxd ≤ txQueueSize)
    (h : Run (step d pg txCsumL4) (.init heap mem) ts s)
    (hu : ∀ tr ∈ ts, Undisturbed d pg txCsumL4 nbTxd tr.before tr.act) (port : Port) :
    s.nicTxRing port = (enterAll .empty (sentOn d pg txCsumL4 port ts)).1 ∧
    (s.nicTxRing port).head < txQueueSize ∧ (s.nicTxRing port).kept.length ≤ txQueueSize ∧
    (∀ c ∈ sentOn d pg txCsumL4 port ts,
      s.freed.count c.1 = (enterAll .empty (sentOn d pg txCsumL4 port ts)).2.count c.1) ∧
    ∀ cs, cs <+: sentOn d pg txCsumL4 port ts →
      (enterAll .empty cs).1.head < txQueueSize ∧
      ∀ k p, (ringEntries cs)[k]? = some (some p) →
        (enterAll .empty cs).2.count p =
          (if k + txQueueSize < (ringEntries cs).length then 1 else 0) ∧
        (enterAll .empty cs).1.kept.count p =
          (if k + txQueueSize < (ringEntries cs).length then 0 else 1) ∧
        (p ∈ (enterAll .empty cs).2 →
          ∀ i, (descriptors cs)[i]? = some p → i + nbTxd < (descriptors cs).length) := by
  have hinv := Shadowed.of_run hn h hu
  refine ⟨hinv.ring port, hinv.table.head port, ?_, ?_, ?_⟩
  · have hslots := List.length_filterMap_le (s.nicTxRing port).mTable (List.range txQueueSize)
    rwa [List.length_range] at hslots
  · intro c hc
    have hcount := (enterAll_count (q := .empty) (sentOn d pg txCsumL4 port ts) (by decide) c.1).1
    have hle := hinv.count_le port c.1
    have hfreed := hinv.freed port c.1
    have hpos : 0 < ((sentOn d pg txCsumL4 port ts).map Prod.fst).count c.1 :=
      List.count_pos_iff.mpr (List.mem_map_of_mem hc)
    rw [hinv.ring port] at hle
    omega
  · intro cs hcs
    have hnd : (cs.map Prod.fst).Nodup := (hinv.nodup port).sublist (hcs.sublist.map _)
    have hpos : ∀ c ∈ cs, 0 < c.2 := fun c hc => hinv.pos port c (hcs.subset hc)
    refine ⟨(enterAll_empty cs).1.head_lt, fun k p hk => ?_⟩
    obtain ⟨hfreed, hkept⟩ := enterAll_count_of_nodup hnd hk
    refine ⟨hfreed, hkept, fun hp i hi => ?_⟩
    -- the last slot of the chain is not before the descriptor, and it has come round
    obtain ⟨k', hik, hk'⟩ := slot_of_descriptor hpos hi
    have hout := (enterAll_count_of_nodup hnd hk').1
    have hone := List.count_pos_iff.mpr hp
    rw [descriptors_length hpos]
    by_cases hlt : k' + txQueueSize < (ringEntries cs).length
    · omega
    · rw [if_neg hlt] at hout
      omega

end Runs

/-! ### Two packets and a drain -/

namespace Sample

/-- Two one-segment packets, drained together; a NIC queue of 512 descriptors accepts both. -/
def sendTwo : List (Action Unit) :=
  [.send () (some (packet pageMbuf)) 60 0, .send () (some (packet pageMbuf)) 60 0, .drain () 2]

/-- The library whose allocations all succeed. -/
def rich : Dpdk := dpdk fun _ => true

def sendTwoRun : Option (List (Transition (TxState Unit) (Action Unit)) × TxState Unit) :=
  exec (step rich pages fun _ => false) (.init heap mem) sendTwo

/-- The test for `Fits` on the burst of a step. -/
def fits (s : TxState Unit) (a : Action Unit) : Bool :=
  match burstOf rich pages (fun _ => false) s a with
  | some b => (List.range (min b.accepted b.n)).all fun i =>
      decide ((segments b.state.heap (b.table.mTable i)).length ≤ 512)
  | none => true

theorem undisturbed_of_fits {s : TxState Unit} {a : Action Unit} (hfits : fits s a = true)
    (hact : a ∈ sendTwo) : Undisturbed rich pages (fun _ => false) 512 s a := by
  constructor
  · intro b hb i hi
    simp only [fits, hb, List.all_eq_true, List.mem_range, decide_eq_true_eq] at hfits
    exact hfits i hi
  · obtain rfl | rfl : a = .send () (some (packet pageMbuf)) 60 0 ∨ a = .drain () 2 := by
      simpa [sendTwo] using hact
    · intro c hc src hsrc
      obtain rfl := Option.some.inj hc
      cases hsrc
    · trivial

end Sample

theorem tx_buffers_outlive_the_nic_sendTwo :
    ∃ r, Sample.sendTwoRun = some r ∧
      r.2.nicTxRing () = (enterAll .empty (sentOn Sample.rich Sample.pages (fun _ => false) () r.1)).1 ∧
      (r.2.nicTxRing ()).head < txQueueSize ∧
      ((r.2.nicTxRing ()).mTable 0, (r.2.nicTxRing ()).mTable 1) = (some 0, some 1) := by
  obtain ⟨r, hr⟩ := Option.isSome_iff_exists.mp (by decide : Sample.sendTwoRun.isSome = true)
  have hend : Sample.sendTwoRun.map (fun r => (r.1.all (fun tr => Sample.fits tr.before tr.act),
      (r.2.nicTxRing ()).mTable 0, (r.2.nicTxRing ()).mTable 1)) = some (true, some 0, some 1) := by
    decide
  rw [hr] at hend
  obtain ⟨hfits, hslots⟩ := Prod.mk.inj (Option.some.inj hend)
  have hu : ∀ tr ∈ r.1, Undisturbed Sample.rich Sample.pages (fun _ => false) 512 tr.before tr.act := by
    intro tr htr
    refine Sample.undisturbed_of_fits (List.all_eq_true.mp hfits tr htr) ?_
    rw [← exec_acts hr]
    exact List.mem_map_of_mem htr
  obtain ⟨hring, hhead, -⟩ := tx_buffers_outlive_the_nic (by decide) (Run.of_exec hr) hu ()
  exact ⟨r, hr, hring, hhead, hslots⟩

end LazyBsd.Tx
