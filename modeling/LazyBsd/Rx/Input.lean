/-
# LazyBsd.Rx.Input — handing a received packet over to the stack.

Models `lazybsd_veth_input` of `lazybsd_dpdk.cc` with `lazybsd_mbuf_gethdr`, `lazybsd_mbuf_get`,
`lazybsd_mbuf_free` and `lazybsd_mbuf_ext_free` of `lazybsd_veth.c`. The `rte_mbuf` segments of the
packet become clusters of a BSD chain one after the other while their `next` links stay as they are.
The function logs every access to a segment, every segment freed, every BSD mbuf allocated or freed, and
the chain that `if_input` gets.

Which BSD allocations fail is arbitrary (`RxAlloc`). The mbuf code of FreeBSD is not part of the
repository: `m_freem` runs `ext_free` once for each external mbuf of the chain and frees the mbuf;
`rte_pktmbuf_free_seg` frees one segment, and `unlinks` says whether it also clears the segment's `next`.
-/
import LazyBsd.Lib.Trace
import LazyBsd.Mbuf

namespace LazyBsd.Rx

open Lib Lib.Traced

/-! ## Events -/

/-- A BSD mbuf of the chain: the number of its allocation and its contents. -/
structure RxMbuf where
  id : Nat
  mbuf : BsdMbuf
  deriving DecidableEq

/-- The packet that `if_input` gets: `m_pkthdr.len`, whether the checksum flags are set, the VLAN tag
if `M_VLANTAG` is set, and the chain. -/
structure RxPacket where
  len : UInt16
  csumValid : Bool
  etherVtag : Option UInt16
  chain : List RxMbuf
  deriving DecidableEq

/-- What happens to segments and mbufs. -/
inductive Event
  | readSeg (seg : Nat)
  | freeSeg (seg : Nat)
  | allocMbuf (id : Nat)
  | freeMbuf (id : Nat)
  | ifInput (pkt : RxPacket)
  deriving DecidableEq

/-- Which BSD allocations succeed: `m_gethdr`, `m_pkthdr_init`, and the `m_get` for segment `i`. -/
structure RxAlloc where
  mGethdr : Bool
  mPkthdrInit : Bool
  mGet : Nat → Bool

/-! ## The functions -/

/-- The mbuf that `m_extadd` makes of a segment: data, length, `EXT_DISPOSABLE` and the segment itself
as `ext_arg1`. -/
def extMbuf (h : RteHeap) (id seg : Nat) : RxMbuf where
  id := id
  mbuf :=
    { mData := (h.mbuf seg).mtod
      mLen := (h.mbuf seg).dataLen.toUInt32
      mExt := some ⟨.disposable, .lazybsdMbufExtFree, some seg⟩ }

@[simp] theorem extMbuf_seg (h : RteHeap) (id seg : Nat) :
    lazybsdRteFrmExtcl (extMbuf h id seg).mbuf = some seg := rfl

/-- `lazybsd_mbuf_gethdr`. An mbuf whose `m_pkthdr_init` fails is not freed. -/
def lazybsdMbufGethdr (alloc : RxAlloc) (h : RteHeap) (pkt : Nat) (total : UInt16) (rxCsum : Bool) :
    Traced Event (Option RxPacket) :=
  if alloc.mGethdr then do
    emit (.allocMbuf 0)
    if alloc.mPkthdrInit then
      pure (some ⟨total, rxCsum, none, [extMbuf h 0 pkt]⟩)
    else pure none
  else pure none

/-- `lazybsd_mbuf_get` for segment number `i`. -/
def lazybsdMbufGet (alloc : RxAlloc) (h : RteHeap) (i seg : Nat) : Traced Event (Option RxMbuf) :=
  if alloc.mGet i then do
    emit (.allocMbuf i)
    pure (some (extMbuf h i seg))
  else pure none

/-- `lazybsd_mbuf_ext_free`: the segment behind the cluster is freed. -/
def lazybsdMbufExtFree (mb : BsdMbuf) : Traced Event Unit :=
  match lazybsdRteFrmExtcl mb with
  | some seg => emit (.freeSeg seg)
  | none => pure ()

/-- `lazybsd_mbuf_free`, that is `m_freem`. -/
def lazybsdMbufFree : List RxMbuf → Traced Event Unit
  | [] => pure ()
  | mb :: chain => do
      lazybsdMbufExtFree mb.mbuf
      emit (.freeMbuf mb.id)
      lazybsdMbufFree chain

/-- `rte_pktmbuf_free` in the link memory `next`: each segment's link is read, then it is freed. -/
def rtePktmbufFree (next : Nat → Option Nat) : Nat → Option Nat → Traced Event Unit
  | _, none => pure ()
  | 0, some _ => cut
  | fuel + 1, some seg => do
      emit (.readSeg seg)
      emit (.freeSeg seg)
      rtePktmbufFree next fuel (next seg)

/-- The `while (pn != NULL)` loop from segment number `i` on, with the chain built so far: the whole
chain, or the part built when an allocation failed. -/
def attachLoop (alloc : RxAlloc) (h : RteHeap) :
    Nat → Nat → Option Nat → List RxMbuf → Traced Event (List RxMbuf ⊕ List RxMbuf)
  | _, _, none, chain => pure (.inr chain)
  | 0, _, some _, _ => cut
  | fuel + 1, i, some pn, chain => do
      emit (.readSeg pn)
      match ← lazybsdMbufGet alloc h i pn with
      | none => pure (.inl chain)
      | some mb => do
          emit (.readSeg pn)
          attachLoop alloc h fuel (i + 1) (h.next pn) (chain ++ [mb])

/-- The links after the segments of `chain` were freed one by one. -/
def linksAfter (unlinks : Bool) (h : RteHeap) (chain : List RxMbuf) (seg : Nat) : Option Nat :=
  if unlinks && decide (some seg ∈ chain.map fun mb => lazybsdRteFrmExtcl mb.mbuf) then none
  else h.next seg

/-- Are the checksum flags of the packet bad? -/
def badCsum (m : RteMbuf) : Bool := decide (m.olFlags &&& (rxIpCksumBad ||| rxL4CksumBad) ≠ 0)

/-- `lazybsd_veth_input`. -/
def lazybsdVethInput (unlinks : Bool) (alloc : RxAlloc) (rxCsum : Bool) (h : RteHeap) (pkt : Nat) :
    Traced Event Unit := do
  emit (.readSeg pkt)
  if rxCsum && badCsum (h.mbuf pkt) then rtePktmbufFree h.next h.allocs (some pkt)
  else
    match ← lazybsdMbufGethdr alloc h pkt (h.mbuf pkt).pktLen.toUInt16 rxCsum with
    | none => rtePktmbufFree h.next h.allocs (some pkt)
    | some hdr => do
        emit (.readSeg pkt)
        let vtag := if (h.mbuf pkt).olFlags &&& rxVlanStripped ≠ 0 then some (h.mbuf pkt).vlanTci else none
        match ← attachLoop alloc h h.allocs 1 (h.next pkt) hdr.chain with
        | .inl chain => do
            -- these segments are freed with the chain, but the packet still links them
            lazybsdMbufFree chain
            rtePktmbufFree (linksAfter unlinks h chain) h.allocs (some pkt)
        | .inr chain => emit (.ifInput { hdr with etherVtag := vtag, chain := chain })

/-! ## What a clean hand-over is -/

/-- The chain delivered by an event. -/
def Event.delivered : Event → List RxMbuf
  | .ifInput pkt => pkt.chain
  | _ => []

/-- The mbufs that the stack got. -/
def delivered (log : List Event) : List RxMbuf := log.flatMap Event.delivered

/-- How many mbufs of the stack refer to a segment. -/
def referenced (log : List Event) (seg : Nat) : Nat :=
  ((delivered log).map fun mb => lazybsdRteFrmExtcl mb.mbuf).count (some seg)

/-- How often a segment was freed. -/
def freed (log : List Event) (seg : Nat) : Nat := log.count (.freeSeg seg)

/-- The second event does not read what the first one freed. -/
def NoReadAfter (e e' : Event) : Prop := ∀ seg, e = .freeSeg seg → e' ≠ .readSeg seg

/-- Each segment has one owner at the end, nothing freed is read, and no mbuf is left over. -/
structure HandedOver (segs : List Nat) (log : List Event) : Prop where
  oneChain : log.countP (fun e => e matches .ifInput _) ≤ 1
  once : ∀ seg ∈ segs, referenced log seg + freed log seg = 1
  noReadAfterFree : log.Pairwise NoReadAfter
  noLeak : ∀ id, .allocMbuf id ∈ log → .freeMbuf id ∈ log ∨ ∃ mb ∈ delivered log, mb.id = id

/-! ## What the pieces log -/

/-- The events of freeing a chain. -/
def freeEvents (segs : List Nat) : List Event := segs.flatMap fun seg => [.readSeg seg, .freeSeg seg]

theorem rtePktmbufFree_eq {next : Nat → Option Nat} {p : Option Nat} {segs : List Nat}
    (hl : Linked next p segs) {fuel : Nat} (hfuel : segs.length ≤ fuel) :
    (rtePktmbufFree next fuel p).res = some () ∧
      (rtePktmbufFree next fuel p).log = freeEvents segs := by
  induction hl generalizing fuel with
  | nil => cases fuel <;> exact ⟨rfl, rfl⟩
  | @cons seg rest _ ih =>
      obtain ⟨fuel, rfl⟩ : ∃ k, fuel = k + 1 := ⟨fuel - 1, by simp at hfuel; omega⟩
      obtain ⟨hres, hlog⟩ := ih (by simpa using hfuel)
      exact ⟨by simp [rtePktmbufFree, hres], by simp [rtePktmbufFree, hlog, freeEvents]⟩

/-- Whatever the links are by then, the first segment is freed. -/
theorem rtePktmbufFree_head (next : Nat → Option Nat) (fuel seg : Nat) :
    .freeSeg seg ∈ (rtePktmbufFree next (fuel + 1) (some seg)).log := by
  simp [rtePktmbufFree]

/-- The mbufs of the segments `segs`, numbered from `i` on. -/
def attached (h : RteHeap) : Nat → List Nat → List RxMbuf
  | _, [] => []
  | i, seg :: segs => extMbuf h i seg :: attached h (i + 1) segs

/-- The events of attaching them. -/
def attachEvents : Nat → List Nat → List Event
  | _, [] => []
  | i, seg :: segs => .readSeg seg :: .allocMbuf i :: .readSeg seg :: attachEvents (i + 1) segs

theorem attachLoop_built {alloc : RxAlloc} {h : RteHeap} {p : Option Nat} {rest : List Nat}
    (hl : Linked h.next p rest) (i : Nat) (chain : List RxMbuf) {fuel : Nat} (hfuel : rest.length ≤ fuel)
    (hok : ∀ j < rest.length, alloc.mGet (i + j) = true) :
    (attachLoop alloc h fuel i p chain).res = some (.inr (chain ++ attached h i rest)) ∧
      (attachLoop alloc h fuel i p chain).log = attachEvents i rest := by
  induction hl generalizing fuel i chain with
  | nil => cases fuel <;> exact ⟨by simp [attachLoop, attached], rfl⟩
  | @cons seg rest _ ih =>
      obtain ⟨fuel, rfl⟩ : ∃ k, fuel = k + 1 := ⟨fuel - 1, by simp at hfuel; omega⟩
      have hfirst : alloc.mGet i = true := hok 0 (by simp)
      obtain ⟨hres, hlog⟩ := ih (i + 1) (chain ++ [extMbuf h i seg])
        (by simpa using hfuel) fun j hj => by
          have := hok (j + 1) (by simpa using hj)
          rwa [show i + (j + 1) = i + 1 + j by omega] at this
      constructor
      · simp [attachLoop, lazybsdMbufGet, hfirst, hres, attached]
      · simp [attachLoop, lazybsdMbufGet, hfirst, hlog, attachEvents]

/-- If some allocation fails, the part built so far comes back. -/
theorem attachLoop_failed {alloc : RxAlloc} {h : RteHeap} {p : Option Nat} {rest : List Nat}
    (hl : Linked h.next p rest) (i : Nat) (chain : List RxMbuf) {fuel : Nat} (hfuel : rest.length ≤ fuel)
    (hno : ∃ j < rest.length, alloc.mGet (i + j) = false) :
    ∃ more, (attachLoop alloc h fuel i p chain).res = some (.inl (chain ++ more)) := by
  induction hl generalizing fuel i chain with
  | nil =>
      obtain ⟨j, hj, _⟩ := hno
      exact absurd hj (by simp)
  | @cons seg rest _ ih =>
      obtain ⟨fuel, rfl⟩ : ∃ k, fuel = k + 1 := ⟨fuel - 1, by simp at hfuel; omega⟩
      cases hfirst : alloc.mGet i with
      | false => exact ⟨[], by simp [attachLoop, lazybsdMbufGet, hfirst]⟩
      | true =>
          obtain ⟨j, hj, hfail⟩ := hno
          obtain ⟨j, rfl⟩ : ∃ k, j = k + 1 := by
            refine ⟨j - 1, ?_⟩
            have hne : j ≠ 0 := by
              rintro rfl
              exact absurd (hfirst.symm.trans hfail) (by decide)
            omega
          obtain ⟨more, hres⟩ := ih (i + 1) (chain ++ [extMbuf h i seg])
            (by simpa using hfuel) ⟨j, by simpa using hj, by rwa [show i + 1 + j = i + (j + 1) by omega]⟩
          exact ⟨extMbuf h i seg :: more, by simp [attachLoop, lazybsdMbufGet, hfirst, hres]⟩

/-- `m_freem` frees the segment of each mbuf of the chain. -/
theorem lazybsdMbufFree_spec (h : RteHeap) (id seg : Nat) (more : List RxMbuf) :
    (lazybsdMbufFree (extMbuf h id seg :: more)).res = some () ∧
      .freeSeg seg ∈ (lazybsdMbufFree (extMbuf h id seg :: more)).log := by
  have hres : ∀ chain, (lazybsdMbufFree chain).res = some () := by
    intro chain
    induction chain with
    | nil => rfl
    | cons mb chain ih =>
        have hext : (lazybsdMbufExtFree mb.mbuf).res = some () := by
          unfold lazybsdMbufExtFree
          split <;> rfl
        simp [lazybsdMbufFree, hext, ih]
  exact ⟨hres _, by simp [lazybsdMbufFree, lazybsdMbufExtFree]⟩

/-! ## The two clean endings -/

section Endings

variable {segs : List Nat} {pre : List Event}

/-- Events that neither free a segment nor deliver a chain. -/
def Quiet (log : List Event) : Prop :=
  ∀ e ∈ log, (∀ seg, e ≠ .freeSeg seg) ∧ ∀ pkt, e ≠ .ifInput pkt

theorem Quiet.freed_eq_zero (h : Quiet pre) (seg : Nat) : freed pre seg = 0 :=
  List.count_eq_zero.mpr fun hmem => (h _ hmem).1 seg rfl

theorem Quiet.delivered_eq_nil (h : Quiet pre) : delivered pre = [] := by
  refine List.flatMap_eq_nil_iff.mpr fun e he => ?_
  cases e with
  | ifInput pkt => exact absurd rfl ((h _ he).2 pkt)
  | readSeg _ => rfl
  | freeSeg _ => rfl
  | allocMbuf _ => rfl
  | freeMbuf _ => rfl

theorem Quiet.countP_eq_zero (h : Quiet pre) :
    pre.countP (fun e => e matches .ifInput _) = 0 := by
  refine List.countP_eq_zero.mpr fun e he => ?_
  cases e with
  | ifInput pkt => exact absurd rfl ((h _ he).2 pkt)
  | readSeg _ => simp
  | freeSeg _ => simp
  | allocMbuf _ => simp
  | freeMbuf _ => simp

/-- A quiet log followed by anything that frees nothing is free of reads after a free. -/
theorem Quiet.pairwise (h : Quiet pre) {post : List Event} (hpost : post.Pairwise NoReadAfter) :
    (pre ++ post).Pairwise NoReadAfter := by
  have hstart : ∀ e ∈ pre, ∀ e', NoReadAfter e e' := fun e he _ seg hfree => absurd hfree ((h e he).1 seg)
  exact List.pairwise_append.mpr
    ⟨List.pairwise_of_forall_mem_list fun e he e' _ => hstart e he e', hpost,
      fun e he e' _ => hstart e he e'⟩

theorem freeEvents_count (segs : List Nat) (seg : Nat) : freed (freeEvents segs) seg = segs.count seg := by
  induction segs with
  | nil => rfl
  | cons s segs ih =>
      unfold freed freeEvents at ih ⊢
      rw [List.flatMap_cons, List.count_append, ih, List.count_cons]
      by_cases hs : s = seg
      · subst hs
        simp
        omega
      · simp [hs]

theorem freeEvents_pairwise (hnd : segs.Nodup) : (freeEvents segs).Pairwise NoReadAfter := by
  refine List.pairwise_flatMap.mpr ⟨fun seg _ => ?_, hnd.imp fun hne => ?_⟩
  · simp [NoReadAfter]
  · rintro e he e' he' seg rfl heq
    subst heq
    simp only [List.mem_cons, reduceCtorEq, Event.freeSeg.injEq, false_or, List.not_mem_nil,
      or_false] at he
    simp only [List.mem_cons, Event.readSeg.injEq, reduceCtorEq, List.not_mem_nil, or_false] at he'
    exact hne (he.symm.trans he')

theorem mem_freeEvents {e : Event} (h : e ∈ freeEvents segs) :
    ∃ seg ∈ segs, e = .readSeg seg ∨ e = .freeSeg seg := by
  obtain ⟨seg, hseg, he⟩ := List.mem_flatMap.mp h
  exact ⟨seg, hseg, by simpa using he⟩

/-- Dropped: the whole chain is freed, and no mbuf was allocated. -/
theorem handedOver_dropped (hnd : segs.Nodup) (hpre : Quiet pre)
    (hmbuf : ∀ id, .allocMbuf id ∉ pre) : HandedOver segs (pre ++ freeEvents segs) := by
  have hdel : delivered (freeEvents segs) = [] := by
    refine List.flatMap_eq_nil_iff.mpr fun e he => ?_
    obtain ⟨seg, _, rfl | rfl⟩ := mem_freeEvents he <;> rfl
  refine ⟨?_, ?_, hpre.pairwise (freeEvents_pairwise hnd), ?_⟩
  · have hzero : (freeEvents segs).countP (fun e => e matches .ifInput _) = 0 := by
      refine List.countP_eq_zero.mpr fun e he => ?_
      obtain ⟨seg, _, rfl | rfl⟩ := mem_freeEvents he <;> simp
    rw [List.countP_append, hpre.countP_eq_zero, hzero]
    exact Nat.zero_le 1
  · intro seg hseg
    have hfree : freed (pre ++ freeEvents segs) seg = 1 := by
      rw [freed, List.count_append]
      show freed pre seg + freed (freeEvents segs) seg = 1
      rw [hpre.freed_eq_zero, freeEvents_count, List.count_eq_one_of_mem hnd hseg]
    have href : referenced (pre ++ freeEvents segs) seg = 0 := by
      have hnil : delivered (pre ++ freeEvents segs) = [] := by
        rw [delivered, List.flatMap_append]
        show delivered pre ++ delivered (freeEvents segs) = []
        rw [hpre.delivered_eq_nil, hdel]
        rfl
      rw [referenced, hnil]
      rfl
    omega
  · intro id hid
    rcases List.mem_append.mp hid with hmem | hmem
    · exact absurd hmem (hmbuf id)
    · obtain ⟨seg, _, h | h⟩ := mem_freeEvents hmem <;> exact absurd h (by simp)

/-- Delivered: the chain refers to each segment once and holds every mbuf allocated. -/
theorem handedOver_delivered (hnd : segs.Nodup) (hpre : Quiet pre) {pkt : RxPacket}
    (hsegs : (pkt.chain.map fun mb => lazybsdRteFrmExtcl mb.mbuf) = segs.map some)
    (hids : ∀ id, .allocMbuf id ∈ pre → ∃ mb ∈ pkt.chain, mb.id = id) :
    HandedOver segs (pre ++ [.ifInput pkt]) := by
  have hdel : delivered (pre ++ [.ifInput pkt]) = pkt.chain := by
    rw [delivered, List.flatMap_append]
    show delivered pre ++ (pkt.chain ++ []) = pkt.chain
    rw [hpre.delivered_eq_nil, List.append_nil, List.nil_append]
  refine ⟨?_, ?_, hpre.pairwise (List.pairwise_singleton _ _), ?_⟩
  · rw [List.countP_append, hpre.countP_eq_zero]
    simp
  · intro seg hseg
    have hfree : freed (pre ++ [.ifInput pkt]) seg = 0 := by
      rw [freed, List.count_append]
      show freed pre seg + _ = 0
      rw [hpre.freed_eq_zero]
      simp
    have href : referenced (pre ++ [.ifInput pkt]) seg = 1 := by
      rw [referenced, hdel, hsegs]
      exact List.count_eq_one_of_mem (hnd.map (fun _ _ h => Option.some.inj h)) (List.mem_map_of_mem hseg)
    omega
  · intro id hid
    rw [hdel]
    rcases List.mem_append.mp hid with hmem | hmem
    · exact .inr (hids id hmem)
    · exact absurd hmem (by simp)

end Endings

/-! ## `lazybsd_veth_input` -/

/-- The condition: the packet is dropped for its checksum, or `m_gethdr` fails, or every allocation
after it succeeds. -/
def CleanInput (alloc : RxAlloc) (rxCsum : Bool) (h : RteHeap) (pkt : Nat) (segs : List Nat) : Prop :=
  (rxCsum && badCsum (h.mbuf pkt)) = true ∨ alloc.mGethdr = false ∨
    alloc.mPkthdrInit = true ∧ ∀ i, 1 ≤ i → i < segs.length → alloc.mGet i = true

section Input

variable {unlinks : Bool} {alloc : RxAlloc} {rxCsum : Bool} {h : RteHeap} {pkt : Nat}
  {segs rest : List Nat}

theorem attached_segs (h : RteHeap) (i : Nat) (segs : List Nat) :
    ((attached h i segs).map fun mb => lazybsdRteFrmExtcl mb.mbuf) = segs.map some := by
  induction segs generalizing i with
  | nil => rfl
  | cons seg segs ih => simp [attached, ih]

theorem attachEvents_quiet (i : Nat) (segs : List Nat) : Quiet (attachEvents i segs) := by
  induction segs generalizing i with
  | nil => exact fun e he => absurd he List.not_mem_nil
  | cons seg segs ih =>
      intro e he
      simp only [attachEvents, List.mem_cons] at he
      rcases he with rfl | rfl | rfl | he
      · exact ⟨by simp, by simp⟩
      · exact ⟨by simp, by simp⟩
      · exact ⟨by simp, by simp⟩
      · exact ih (i + 1) e he

theorem attachEvents_ids (h : RteHeap) {id i : Nat} {segs : List Nat}
    (hid : .allocMbuf id ∈ attachEvents i segs) : ∃ mb ∈ attached h i segs, mb.id = id := by
  induction segs generalizing i with
  | nil => exact absurd hid List.not_mem_nil
  | cons seg segs ih =>
      simp only [attachEvents, List.mem_cons, reduceCtorEq, Event.allocMbuf.injEq, false_or] at hid
      rcases hid with rfl | hid
      · exact ⟨_, List.mem_cons_self, rfl⟩
      · obtain ⟨mb, hmb, hmid⟩ := ih hid
        exact ⟨mb, List.mem_cons_of_mem _ hmb, hmid⟩

/-! ### The endings of the function -/

/-- A packet that is dropped at once: nothing is allocated. -/
theorem input_dropped (unlinks : Bool) (hl : Linked h.next (some pkt) segs) (hborn : ∀ q ∈ segs, q < h.allocs)
    (hdrop : (rxCsum && badCsum (h.mbuf pkt)) = true ∨ alloc.mGethdr = false) :
    (lazybsdVethInput unlinks alloc rxCsum h pkt).res = some () ∧
      (lazybsdVethInput unlinks alloc rxCsum h pkt).log = [.readSeg pkt] ++ freeEvents segs := by
  obtain ⟨hres, hlog⟩ := rtePktmbufFree_eq hl (RteHeap.length_le_allocs hl hborn)
  cases hcsum : (rxCsum && badCsum (h.mbuf pkt)) with
  | true => exact ⟨by simp [lazybsdVethInput, hcsum, hres], by simp [lazybsdVethInput, hcsum, hlog]⟩
  | false =>
      have hgethdr : alloc.mGethdr = false := hdrop.resolve_left (by simp [hcsum])
      constructor
      · simp [lazybsdVethInput, hcsum, lazybsdMbufGethdr, hgethdr, hres]
      · simp [lazybsdVethInput, hcsum, lazybsdMbufGethdr, hgethdr, hlog]

/-- When `m_pkthdr_init` fails the packet is freed, after `m_gethdr` allocated an mbuf. -/
theorem input_uninitialised (hl : Linked h.next (some pkt) segs) (hborn : ∀ q ∈ segs, q < h.allocs)
    (hcsum : (rxCsum && badCsum (h.mbuf pkt)) = false) (hgethdr : alloc.mGethdr = true)
    (hinit : alloc.mPkthdrInit = false) :
    (lazybsdVethInput unlinks alloc rxCsum h pkt).log =
      [.readSeg pkt, .allocMbuf 0] ++ freeEvents segs := by
  obtain ⟨-, hlog⟩ := rtePktmbufFree_eq hl (RteHeap.length_le_allocs hl hborn)
  simp [lazybsdVethInput, hcsum, lazybsdMbufGethdr, hgethdr, hinit, hlog]

/-- That mbuf is neither freed nor delivered. -/
theorem not_handedOver_leak : ¬ HandedOver segs ([.readSeg pkt, .allocMbuf 0] ++ freeEvents segs) := by
  intro hclean
  rcases hclean.noLeak 0 (by simp) with hmem | ⟨mb, hmb, _⟩
  · rcases List.mem_append.mp hmem with hpre | hpost
    · exact absurd hpre (by simp)
    · obtain ⟨seg, _, he | he⟩ := mem_freeEvents hpost <;> exact absurd he (by simp)
  · obtain ⟨e, he, hmbe⟩ := List.mem_flatMap.mp hmb
    rcases List.mem_append.mp he with hpre | hpost
    · simp only [List.mem_cons, List.not_mem_nil, or_false] at hpre
      rcases hpre with rfl | rfl <;> exact absurd hmbe List.not_mem_nil
    · obtain ⟨seg, _, rfl | rfl⟩ := mem_freeEvents hpost <;> exact absurd hmbe List.not_mem_nil

/-- When every allocation succeeds the stack gets one chain with all segments. -/
theorem input_delivered (unlinks : Bool) (hrest : Linked h.next (h.next pkt) rest) (hlen : rest.length ≤ h.allocs)
    (hcsum : (rxCsum && badCsum (h.mbuf pkt)) = false) (hgethdr : alloc.mGethdr = true)
    (hinit : alloc.mPkthdrInit = true)
    (hall : ∀ i, 1 ≤ i → i < rest.length + 1 → alloc.mGet i = true) :
    (lazybsdVethInput unlinks alloc rxCsum h pkt).res = some () ∧
      ∃ hdr : RxPacket, hdr.chain = [extMbuf h 0 pkt] ++ attached h 1 rest ∧
        (lazybsdVethInput unlinks alloc rxCsum h pkt).log =
          ([.readSeg pkt, .allocMbuf 0, .readSeg pkt] ++ attachEvents 1 rest) ++ [.ifInput hdr] := by
  obtain ⟨hres, hlog⟩ := attachLoop_built hrest 1 [extMbuf h 0 pkt] hlen
    fun j hj => hall (1 + j) (by omega) (by omega)
  refine ⟨by simp [lazybsdVethInput, hcsum, lazybsdMbufGethdr, hgethdr, hinit, hres],
    { len := (h.mbuf pkt).pktLen.toUInt16
      csumValid := rxCsum
      etherVtag := if (h.mbuf pkt).olFlags &&& rxVlanStripped ≠ 0 then some (h.mbuf pkt).vlanTci
        else none
      chain := [extMbuf h 0 pkt] ++ attached h 1 rest }, rfl, ?_⟩
  simp [lazybsdVethInput, hcsum, lazybsdMbufGethdr, hgethdr, hinit, hres, hlog]

/-- Such a chain is a clean hand-over. -/
theorem handedOver_attached (hnd : (pkt :: rest).Nodup) {hdr : RxPacket}
    (hchain : hdr.chain = [extMbuf h 0 pkt] ++ attached h 1 rest) :
    HandedOver (pkt :: rest)
      (([.readSeg pkt, .allocMbuf 0, .readSeg pkt] ++ attachEvents 1 rest) ++ [.ifInput hdr]) := by
  refine handedOver_delivered hnd ?_ ?_ ?_
  · intro e he
    rcases List.mem_append.mp he with hpre | hpost
    · simp only [List.mem_cons, List.not_mem_nil, or_false] at hpre
      rcases hpre with rfl | rfl | rfl <;> exact ⟨by simp, by simp⟩
    · exact attachEvents_quiet 1 rest e hpost
  · rw [hchain, List.map_append, attached_segs]
    rfl
  · intro id hid
    rw [hchain]
    rcases List.mem_append.mp hid with hpre | hpost
    · simp only [List.mem_cons, reduceCtorEq, Event.allocMbuf.injEq, List.not_mem_nil, or_false,
        false_or] at hpre
      exact ⟨extMbuf h 0 pkt, by simp, hpre.symm⟩
    · obtain ⟨mb, hmb, hmid⟩ := attachEvents_ids h hpost
      exact ⟨mb, List.mem_append_right _ hmb, hmid⟩

/-- When the mbuf of a later segment is missing, the first segment is freed with the chain built so
far, and again with the packet. -/
theorem input_frees_twice (unlinks : Bool) (hrest : Linked h.next (h.next pkt) rest) (hlen : rest.length ≤ h.allocs)
    (hborn : pkt < h.allocs) (hcsum : (rxCsum && badCsum (h.mbuf pkt)) = false)
    (hgethdr : alloc.mGethdr = true) (hinit : alloc.mPkthdrInit = true)
    (hno : ∃ j < rest.length, alloc.mGet (1 + j) = false) :
    2 ≤ freed (lazybsdVethInput unlinks alloc rxCsum h pkt).log pkt := by
  obtain ⟨more, hres⟩ := attachLoop_failed hrest 1 [extMbuf h 0 pkt] hlen hno
  obtain ⟨fuel, hfuel⟩ : ∃ k, h.allocs = k + 1 := ⟨h.allocs - 1, by omega⟩
  obtain ⟨hfree, hone⟩ := lazybsdMbufFree_spec h 0 pkt more
  have htwo := rtePktmbufFree_head (linksAfter unlinks h ([extMbuf h 0 pkt] ++ more)) fuel pkt
  rw [← hfuel] at htwo
  have hpos := List.count_pos_iff.mpr hone
  have hpos' := List.count_pos_iff.mpr htwo
  simp only [List.singleton_append] at hres hpos'
  simp only [freed, lazybsdVethInput, hcsum, Bool.false_eq_true, if_false, lazybsdMbufGethdr, hgethdr,
    hinit, if_true, log_bind, res_bind, res_emit, res_pure, Option.bind_some, Option.elim_some, hres,
    hfree, List.count_append]
  omega

/-- **The hand-over is clean exactly under the condition.** For a packet of any number of linked
segments and any pattern of failing allocations: the function returns and every segment ends with one
owner, nothing is read after it was freed and no mbuf is left over, if and only if the packet is dropped
for its checksum, `m_gethdr` fails, or all later allocations succeed. -/
theorem veth_input_hands_over_iff (hl : Linked h.next (some pkt) segs)
    (hborn : ∀ q ∈ segs, q < h.allocs) :
    ((lazybsdVethInput unlinks alloc rxCsum h pkt).res = some () ∧
        HandedOver segs (lazybsdVethInput unlinks alloc rxCsum h pkt).log) ↔
      CleanInput alloc rxCsum h pkt segs := by
  have hnd := hl.nodup
  by_cases hdrop : (rxCsum && badCsum (h.mbuf pkt)) = true ∨ alloc.mGethdr = false
  · obtain ⟨hres, hlog⟩ := input_dropped unlinks hl hborn hdrop
    refine iff_of_true ⟨hres, ?_⟩ (or_assoc.mp (.inl hdrop))
    rw [hlog]
    exact handedOver_dropped hnd (by simp [Quiet]) (by simp)
  · obtain ⟨hcsum, hgethdr⟩ := not_or.mp hdrop
    rw [Bool.not_eq_true] at hcsum
    rw [Bool.not_eq_false] at hgethdr
    simp only [CleanInput, hcsum, hgethdr, Bool.false_eq_true, reduceCtorEq, false_or]
    cases hinit : alloc.mPkthdrInit with
    | false =>
        refine iff_of_false ?_ (by simp)
        rintro ⟨-, hclean⟩
        rw [input_uninitialised hl hborn hcsum hgethdr hinit] at hclean
        exact not_handedOver_leak hclean
    | true =>
        obtain ⟨rest, rfl⟩ : ∃ rest, segs = pkt :: rest := by
          cases hl with
          | cons _ => exact ⟨_, rfl⟩
        have hrest : Linked h.next (h.next pkt) rest := (Linked.cons_inv hl).2
        have hlen : rest.length ≤ h.allocs :=
          RteHeap.length_le_allocs hrest fun q hq => hborn q (List.mem_cons_of_mem _ hq)
        simp only [true_and, List.length_cons]
        by_cases hall : ∀ i, 1 ≤ i → i < rest.length + 1 → alloc.mGet i = true
        · obtain ⟨hres, hdr, hchain, hlog⟩ :=
            input_delivered unlinks hrest hlen hcsum hgethdr hinit hall
          refine iff_of_true ⟨hres, ?_⟩ hall
          rw [hlog]
          exact handedOver_attached hnd hchain
        · refine iff_of_false ?_ hall
          rintro ⟨-, hclean⟩
          obtain ⟨i, hi⟩ := not_forall.mp hall
          simp only [Classical.not_imp, Bool.not_eq_true] at hi
          have htwo := input_frees_twice unlinks hrest hlen
            (hborn pkt List.mem_cons_self) hcsum hgethdr hinit
            ⟨i - 1, by omega, by rw [show 1 + (i - 1) = i by omega]; exact hi.2.2⟩
          have hone := hclean.once pkt List.mem_cons_self
          omega

end Input

/-! ### A packet of two segments -/

namespace Sample

/-- Two linked segments, at pointers 0 and 1. -/
def twoSegments : RteHeap where
  mbuf p := ⟨0x9000000, 0, 128, 60, 120, 2, if p = 0 then some 1 else none, .pkt, 0, 0, 0, 0, 0, 0⟩
  live p := decide (p < 2)
  allocs := 2
  unborn _ hp := decide_eq_false (Nat.not_lt.mpr hp)

theorem twoSegments_linked : Linked twoSegments.next (some 0) [0, 1] := .cons (.cons .nil)

theorem twoSegments_born : ∀ q ∈ [0, 1], q < twoSegments.allocs := by decide

end Sample

/-- Every allocation succeeds. -/
theorem veth_input_hands_over_two :
    ((lazybsdVethInput true ⟨true, true, fun _ => true⟩ false Sample.twoSegments 0).res = some () ∧
        HandedOver [0, 1]
          (lazybsdVethInput true ⟨true, true, fun _ => true⟩ false Sample.twoSegments 0).log) ↔
      CleanInput ⟨true, true, fun _ => true⟩ false Sample.twoSegments 0 [0, 1] :=
  veth_input_hands_over_iff Sample.twoSegments_linked Sample.twoSegments_born

/-- The `m_get` for the second segment fails: the first segment is freed twice. -/
theorem second_segment_fails_double_free :
    ¬ HandedOver [0, 1]
      (lazybsdVethInput true ⟨true, true, fun _ => false⟩ false Sample.twoSegments 0).log := by
  intro hclean
  have hfreed : freed (lazybsdVethInput true ⟨true, true, fun _ => false⟩ false
      Sample.twoSegments 0).log 0 = 2 := by decide
  have hone := hclean.once 0 List.mem_cons_self
  omega

end LazyBsd.Rx
