/-
# LazyBsd.Tx.Convert — from a BSD mbuf chain to an rte_mbuf frame (page-array build).

Models `lazybsd_chk_vma`, `lazybsd_mem_virt2phy`, `lazybsd_bsd_to_rte`, `lazybsd_extcl_to_rte` and
`lazybsd_offload_set` of `lazybsd_memory.cc`, with `lazybsd_mbuf_tx_offload` of `lazybsd_veth.c`.
`rte_panic` ends the process: a function that can reach it returns `none` there.

The conversion of a chain that starts in the page array is a loop over the mbufs which allocates one
reference mbuf for each, except that the head is allocated before the loop. What it does is decided by
a left-to-right scan (`conversion`): allocation of the i-th mbuf, then lookup of its page. The spec of
the loop (`lazybsdBsdToRte_spec`) is one statement over that scan: a `NewFrame` with the windows of the
chain, or NULL with no reference mbuf left allocated, or the panic.
-/
import Mathlib.Algebra.Group.Nat.Defs
import Mathlib.Tactic.Common
import LazyBsd.Mbuf

namespace LazyBsd.Tx

open Lib

/-! ## The page array -/

/-- `lazybsd_page_start`, the number of pages on `lazybsd_mpage_ctl` and `lazybsd_mpage_phy`, as
`lazybsd_mmap_init` leaves them: a page aligned region that does not wrap, with an `int` count. -/
structure PageArray where
  start : Addr
  npages : Nat
  phy : Nat → UInt64
  aligned : start.toNat % 4096 = 0
  npages_lt : npages < 2 ^ 31
  no_wrap : start.toNat + npages * 4096 < 2 ^ 64

namespace PageArray

variable (pg : PageArray)

/-- `lazybsd_page_end`. -/
def stop : Addr := pg.start + UInt64.ofNat (pg.npages * 4096)

theorem stop_toNat : pg.stop.toNat = pg.start.toNat + pg.npages * 4096 := by
  have h := pg.no_wrap
  rw [stop, UInt64.toNat_add, UInt64.toNat_ofNat', Nat.mod_eq_of_lt (by omega : pg.npages * 4096 < 2 ^ 64),
    Nat.mod_eq_of_lt h]

/-- `lazybsd_chk_vma`. -/
def lazybsdChkVma (va : Addr) : Bool := decide (pg.start < va) && decide (va < pg.stop)

/-- The `uint32_t pages` of `lazybsd_mem_virt2phy`. -/
def pageIndex (va : Addr) : UInt32 := ((va - pg.start) >>> 12).toUInt32

/-- `lazybsd_mem_virt2phy`; `none` is its `rte_panic`. -/
def lazybsdMemVirt2phy (va : Addr) : Option UInt64 :=
  if pg.npages ≤ (pg.pageIndex va).toNat then none
  else some (pg.phy (pg.pageIndex va).toNat + (va &&& 4095))

/-- The data of an mbuf lies in the page array: it starts in some page and ends in that page. -/
def InPages (mb : BsdMbuf) : Prop :=
  pg.start ≤ mb.mData ∧ mb.mData < pg.stop ∧ mb.mData.toNat % 4096 + mb.mLen.toNat ≤ 4096

theorem pageIndex_toNat {va : Addr} (hlo : pg.start ≤ va) (hhi : va < pg.stop) :
    (pg.pageIndex va).toNat = (va.toNat - pg.start.toNat) / 4096 := by
  have hstop := pg.stop_toNat
  have hn := pg.npages_lt
  have hlo' : pg.start.toNat ≤ va.toNat := hlo
  have hhi' : va.toNat < pg.stop.toNat := hhi
  have hsub : (va - pg.start).toNat = va.toNat - pg.start.toNat := UInt64.toNat_sub_of_le _ _ hlo
  rw [pageIndex, UInt64.toNat_toUInt32, UInt64.toNat_shiftRight, hsub]
  simp only [UInt64.toNat_ofNat, Nat.shiftRight_eq_div_pow, Nat.reducePow, Nat.reduceMod]
  omega

/-- Every address of the page array has a physical address. -/
theorem lazybsdMemVirt2phy_isSome {va : Addr} (hlo : pg.start ≤ va) (hhi : va < pg.stop) :
    (pg.lazybsdMemVirt2phy va).isSome = true := by
  have hidx := pg.pageIndex_toNat hlo hhi
  have hstop := pg.stop_toNat
  have hlo' : pg.start.toNat ≤ va.toNat := hlo
  have hhi' : va.toNat < pg.stop.toNat := hhi
  have hlt : (pg.pageIndex va).toNat < pg.npages := by omega
  rw [lazybsdMemVirt2phy, if_neg (by omega)]
  rfl

end PageArray

/-! ## `lazybsd_bsd_to_rte` -/

/-- One turn of the loop after `cur` was obtained: fill `cur` from the current mbuf, count it in the
head and link it behind `prev`. -/
def fillSegment (h : RteHeap) (head : Nat) (prev : Option Nat) (cur : Nat) (data : Addr)
    (len : UInt32) (iova : UInt64) : RteHeap :=
  let h := h.modify cur fun m =>
    { m with bufAddr := data, bufIova := iova, dataOff := 0, dataLen := len.toUInt16 }
  let h := h.modify head fun m => { m with nbSegs := m.nbSegs + 1 }
  match prev with
  | some p => h.modify p fun m => { m with next := some cur }
  | none => h

/-- The `while ( p_bsdbuf )` loop. -/
def lazybsdBsdToRteLoop (d : Dpdk) (pg : PageArray) (head : Nat) :
    List BsdMbuf → Option Nat → Option Nat → RteHeap → Option (Option Nat × RteHeap)
  | [], _, _, h => some (some head, h)
  | mb :: rest, cur, prev, h =>
      let (cur, h) := match cur with
        | some c => (some c, h)
        | none => d.rtePktmbufAlloc .ref h
      match cur with
      | none => some (none, h.rtePktmbufFree head)
      -- the page is looked up for every mbuf, wherever its data lies
      | some c =>
          let (data, len) := lazybsdNextMbuf mb
          match pg.lazybsdMemVirt2phy data with
          | none => none
          | some iova =>
              lazybsdBsdToRteLoop d pg head rest none (some c)
                (fillSegment h head prev c data len iova)

/-- `lazybsd_bsd_to_rte`. -/
def lazybsdBsdToRte (d : Dpdk) (pg : PageArray) (m : BsdChain) (total : UInt32) (h : RteHeap) :
    Option (Option Nat × RteHeap) :=
  match d.rtePktmbufAlloc .ref h with
  | (none, h) => some (none, h)
  | (some head, h) =>
      lazybsdBsdToRteLoop d pg head m.mbufs (some head) none
        (h.modify head fun r => { r with pktLen := total, nbSegs := 0 })

/-- How the conversion of a chain ends. -/
inductive Conversion
  | built
  | noMbuf
  | badPage
  deriving DecidableEq, Repr

/-- The scan that decides it: `n` is the number of the next allocation. -/
def conversion (d : Dpdk) (pg : PageArray) : Nat → List BsdMbuf → Conversion
  | _, [] => .built
  | n, mb :: rest =>
      if d.ok n then
        if (pg.lazybsdMemVirt2phy mb.mData).isSome then conversion d pg (n + 1) rest else .badPage
      else .noMbuf

/-- The windows a chain asks for. -/
def windowsOf (l : List BsdMbuf) : List (Addr × UInt16) := l.map fun mb => (mb.mData, mb.mLen.toUInt16)

@[simp] theorem windowsOf_length (l : List BsdMbuf) : (windowsOf l).length = l.length := by
  simp [windowsOf]

variable {d : Dpdk} {pg : PageArray}

/-- The scan runs into the panic exactly when some mbuf is reached whose page lookup fails. -/
theorem conversion_ne_badPage_iff (n : Nat) (l : List BsdMbuf) :
    conversion d pg n l ≠ .badPage ↔
      ∀ (i : Nat) (hi : i < l.length), (∀ j ≤ i, d.ok (n + j) = true) →
        (pg.lazybsdMemVirt2phy l[i].mData).isSome = true := by
  induction l generalizing n with
  | nil => simp [conversion]
  | cons mb rest ih =>
      unfold conversion
      by_cases hok : d.ok n = true
      · by_cases hpage : (pg.lazybsdMemVirt2phy mb.mData).isSome = true
        · rw [if_pos hok, if_pos hpage, ih]
          constructor
          · intro h i hi hall
            cases i with
            | zero => exact hpage
            | succ i =>
                refine h i (by simpa using hi) fun j hj => ?_
                have := hall (j + 1) (by omega)
                rwa [show n + (j + 1) = n + 1 + j by omega] at this
          · intro h i hi hall
            refine h (i + 1) (by simpa using hi) fun j hj => ?_
            cases j with
            | zero => exact hok
            | succ j =>
                have := hall j (by omega)
                rwa [show n + 1 + j = n + (j + 1) by omega] at this
        · rw [if_pos hok, if_neg hpage]
          refine iff_of_false (by simp) fun h => hpage (h 0 (by simp) fun j hj => ?_)
          rw [Nat.le_zero.mp hj]
          exact hok
      · rw [if_neg hok]
        refine iff_of_true (by simp) fun i hi hall => absurd (hall 0 (Nat.zero_le _)) hok

/-! ### One turn of the loop -/

section Fill

variable {h : RteHeap} {head cur p : Nat} {prev : Option Nat} {data : Addr} {len : UInt32}
  {iova : UInt64}

@[simp] theorem fillSegment_live : (fillSegment h head prev cur data len iova).live = h.live := by
  cases prev <;> rfl

@[simp] theorem fillSegment_allocs : (fillSegment h head prev cur data len iova).allocs = h.allocs := by
  cases prev <;> rfl

/-- The head's own store keeps the links, so only the store to `prev` changes them. -/
theorem fillSegment_next_none : (fillSegment h head none cur data len iova).next = h.next := by
  simp only [fillSegment]
  rw [RteHeap.modify_next_eq _ (by intro m; rfl), RteHeap.modify_next_eq _ (by intro m; rfl)]

theorem fillSegment_next_some :
    (fillSegment h head (some p) cur data len iova).next = Function.update h.next p (some cur) := by
  simp only [fillSegment]
  rw [RteHeap.modify_next_link, RteHeap.modify_next_eq _ (by intro m; rfl),
    RteHeap.modify_next_eq _ (by intro m; rfl)]

/-- Storing to `nb_segs` or `next` moves no window. -/
theorem window_modify_of_eq {q : Nat} {f : RteMbuf → RteMbuf}
    (hf : ∀ m, (f m).mtod = m.mtod ∧ (f m).dataLen = m.dataLen) (r : Nat) :
    (h.modify q f).window r = h.window r := by
  by_cases hr : r = q
  · subst hr
    simp [RteHeap.window, hf]
  · simp [RteHeap.window, RteHeap.modify_mbuf_of_ne h hr]

theorem fillSegment_window (r : Nat) :
    (fillSegment h head prev cur data len iova).window r =
      if r = cur then (data, len.toUInt16) else h.window r := by
  have hprev : (fillSegment h head prev cur data len iova).window r =
      (h.modify cur fun m =>
        { m with bufAddr := data, bufIova := iova, dataOff := 0, dataLen := len.toUInt16 }).window r := by
    cases prev with
    | none =>
        simp only [fillSegment]
        rw [window_modify_of_eq (by intro m; exact ⟨rfl, rfl⟩)]
    | some p =>
        simp only [fillSegment]
        rw [window_modify_of_eq (by intro m; exact ⟨rfl, rfl⟩),
          window_modify_of_eq (by intro m; exact ⟨rfl, rfl⟩)]
  rw [hprev]
  by_cases hr : r = cur
  · subst hr
    simp [RteHeap.window, RteMbuf.mtod]
  · rw [if_neg hr]
    simp [RteHeap.window, RteHeap.modify_mbuf_of_ne h hr]

/-- `pkt_len` is not touched, `nb_segs` only of the head. -/
theorem fillSegment_pktLen (r : Nat) :
    ((fillSegment h head prev cur data len iova).mbuf r).pktLen = (h.mbuf r).pktLen := by
  cases prev <;> simp only [fillSegment, RteHeap.modify, Function.update_apply] <;>
    (repeat' split) <;> simp_all

theorem fillSegment_nbSegs (r : Nat) :
    ((fillSegment h head prev cur data len iova).mbuf r).nbSegs =
      if r = head then (h.mbuf r).nbSegs + 1 else (h.mbuf r).nbSegs := by
  cases prev <;> simp only [fillSegment, RteHeap.modify, Function.update_apply] <;>
    (repeat' split) <;> simp_all

/-- A cell that is none of the three is untouched. -/
theorem fillSegment_mbuf_of_ne {r : Nat} (hcur : r ≠ cur) (hhead : r ≠ head)
    (hprev : ∀ p, prev = some p → r ≠ p) :
    (fillSegment h head prev cur data len iova).mbuf r = h.mbuf r := by
  cases prev with
  | none => simp [fillSegment, RteHeap.modify_mbuf_of_ne, hcur, hhead]
  | some p => simp [fillSegment, RteHeap.modify_mbuf_of_ne, hcur, hhead, hprev p rfl]

end Fill

/-! ### The loop -/

/-- The loop invariant: a frame with the windows of the mbufs done so far, on top of the heap the
conversion started from. -/
abbrev Partial (h₀ : RteHeap) (total : UInt32) (done : List BsdMbuf) (h : RteHeap) : Prop :=
  NewFrame h₀ (windowsOf done) total h

/-- The turn for the head, which was allocated before the loop. -/
theorem fillSegment_first {h₀ h : RteHeap} (mb : BsdMbuf) (total : UInt32) (iova : UInt64)
    (halloc : d.rtePktmbufAlloc .ref h₀ = (some h₀.allocs, h)) :
    Partial h₀ total [mb]
      (fillSegment (h.modify h₀.allocs fun r => { r with pktLen := total, nbSegs := 0 }) h₀.allocs none
        h₀.allocs mb.mData mb.mLen iova) := by
  obtain ⟨hallocs, hmbuf, hlive⟩ := d.rtePktmbufAlloc_inv .ref halloc
  have hnext : h.next h₀.allocs = none := by
    simp [RteHeap.next, hmbuf, d.fresh_next]
  refine ⟨?_, ?_, ?_, ?_, ?_, ?_, ?_⟩
  · simp [hallocs, windowsOf]
  · intro p hp
    have hne : p ≠ h₀.allocs := by omega
    rw [fillSegment_mbuf_of_ne hne hne (by simp), RteHeap.modify_mbuf_of_ne _ hne, fillSegment_live]
    simp [hmbuf, hlive, hne]
  · rw [fillSegment_next_none, RteHeap.modify_next_eq _ (by intro m; rfl)]
    refine .cons ?_
    rw [hnext]
    exact .nil
  · intro i hi
    obtain rfl : i = 0 := by simpa [windowsOf] using hi
    rw [fillSegment_window, Nat.add_zero, if_pos rfl]
    rfl
  · intro i hi
    obtain rfl : i = 0 := by simpa [windowsOf] using hi
    simp [hlive]
  · rw [fillSegment_pktLen]
    simp
  · rw [fillSegment_nbSegs, if_pos rfl]
    simp [windowsOf]

/-- Any later turn: allocate, fill, and link behind the last segment. -/
theorem fillSegment_next {h₀ h h' : RteHeap} {done : List BsdMbuf} {total : UInt32} (mb : BsdMbuf)
    (iova : UInt64) (hpart : Partial h₀ total done h) (hne : done ≠ [])
    (halloc : d.rtePktmbufAlloc .ref h = (some h.allocs, h')) :
    Partial h₀ total (done ++ [mb])
      (fillSegment h' h₀.allocs (some (h₀.allocs + done.length - 1)) (h₀.allocs + done.length)
        mb.mData mb.mLen iova) := by
  have hlen : 0 < done.length := List.length_pos_iff.mpr hne
  obtain ⟨hallocs, hmbuf, hlive⟩ := d.rtePktmbufAlloc_inv .ref halloc
  have hat : h.allocs = h₀.allocs + done.length := by simpa [windowsOf] using hpart.allocs
  rw [hat] at hallocs hmbuf hlive
  have hold : ∀ p, p ≠ h₀.allocs + done.length → h'.mbuf p = h.mbuf p ∧ h'.live p = h.live p := by
    intro p hp
    simp [hmbuf, hlive, hp]
  have hnext : ∀ p, p ≠ h₀.allocs + done.length → h'.next p = h.next p := by
    intro p hp
    simp [RteHeap.next, (hold p hp).1]
  have hwin : ∀ p, p ≠ h₀.allocs + done.length → h'.window p = h.window p := by
    intro p hp
    simp [RteHeap.window, (hold p hp).1]
  refine ⟨?_, ?_, ?_, ?_, ?_, ?_, ?_⟩
  · simp [hallocs, windowsOf]
    omega
  · -- the three cells that the turn stores to are new
    intro p hp
    rw [fillSegment_mbuf_of_ne (by omega) (by omega) (by rintro q hq; cases hq; omega),
      fillSegment_live, (hold p (by omega)).1, (hold p (by omega)).2]
    exact hpart.old p hp
  · -- the old chain ends in the last segment; the new one is linked behind it
    obtain ⟨k, hk⟩ : ∃ k, done.length = k + 1 := ⟨done.length - 1, by omega⟩
    have hlinked := hpart.linked
    simp only [windowsOf, List.length_map, List.length_append, List.length_singleton] at hlinked ⊢
    rw [hk] at hlinked hnext ⊢
    rw [fillSegment_next_some, show h₀.allocs + (k + 1) - 1 = h₀.allocs + k by omega]
    rw [List.range'_1_concat] at hlinked
    rw [List.range'_1_concat, List.range'_1_concat, List.append_assoc]
    have hdis : h₀.allocs + (k + 1) ∉ List.range' h₀.allocs k ++ [h₀.allocs + k] := by
      simp [List.mem_range'_1]
    refine Linked.append_tail ?_ ?_ hdis
    · refine hlinked.congr fun p hp => hnext p ?_
      rintro rfl
      exact hdis hp
    · simp [RteHeap.next, hmbuf, hk, d.fresh_next]
  · intro i hi
    rw [fillSegment_window]
    simp only [windowsOf, List.length_map, List.length_append, List.length_singleton] at hi
    by_cases hlast : i = done.length
    · subst hlast
      simp [windowsOf]
    · rw [if_neg (by omega), hwin _ (by omega), hpart.windows i (by simp [windowsOf]; omega)]
      simp only [windowsOf, List.getElem_map]
      rw [List.getElem_append_left (by omega)]
  · intro i hi
    simp only [windowsOf, List.length_map, List.length_append, List.length_singleton] at hi
    rw [fillSegment_live]
    by_cases hlast : i = done.length
    · subst hlast
      simp [hlive]
    · rw [(hold _ (by omega)).2]
      exact hpart.live i (by simp [windowsOf]; omega)
  · rw [fillSegment_pktLen, (hold _ (by omega)).1]
    exact hpart.pktLen
  · rw [fillSegment_nbSegs, if_pos rfl, (hold _ (by omega)).1, hpart.nbSegs]
    simp [windowsOf]

/-- Giving back a partial frame leaves the heap's allocations as they were before it. -/
theorem Partial.free_live {h₀ h : RteHeap} {total : UInt32} {done : List BsdMbuf}
    (hpart : Partial h₀ total done h) (hafter : ∀ p, h₀.allocs + done.length ≤ p → h.live p = false) :
    (h.rtePktmbufFree h₀.allocs).live = h₀.live := by
  funext p
  have hle : (List.range' h₀.allocs (windowsOf done).length).length ≤ h.allocs := by
    rw [List.length_range', hpart.allocs]
    omega
  rw [RteHeap.rtePktmbufFree_live h hpart.linked hle]
  by_cases hold : p < h₀.allocs
  · have hnot : (List.range' h₀.allocs (windowsOf done).length).contains p = false := by
      simp [List.mem_range'_1]
      omega
    rw [(hpart.old p hold).2, hnot, Bool.not_false, Bool.and_true]
  · rw [h₀.unborn p (by omega)]
    by_cases hnew : p < h₀.allocs + done.length
    · have hmem : (List.range' h₀.allocs (windowsOf done).length).contains p = true := by
        simp [List.mem_range'_1]
        omega
      rw [hmem, Bool.not_true, Bool.and_false]
    · rw [hafter p (by omega)]
      rfl

/-- What the loop makes of the mbufs still to do. -/
theorem lazybsdBsdToRteLoop_spec (d : Dpdk) (pg : PageArray) {h₀ : RteHeap} {total : UInt32} :
    ∀ (rest done : List BsdMbuf) (h : RteHeap), done ≠ [] → Partial h₀ total done h →
      match conversion d pg h.allocs rest with
      | .built => ∃ h', lazybsdBsdToRteLoop d pg h₀.allocs rest none
            (some (h₀.allocs + done.length - 1)) h = some (some h₀.allocs, h') ∧
          Partial h₀ total (done ++ rest) h'
      | .noMbuf => ∃ h', lazybsdBsdToRteLoop d pg h₀.allocs rest none
            (some (h₀.allocs + done.length - 1)) h = some (none, h') ∧
          h'.live = h₀.live ∧ ∀ p < h₀.allocs, h'.mbuf p = h₀.mbuf p
      | .badPage => lazybsdBsdToRteLoop d pg h₀.allocs rest none
            (some (h₀.allocs + done.length - 1)) h = none := by
  intro rest
  induction rest with
  | nil =>
      intro done h _ hpart
      exact ⟨h, rfl, by simpa using hpart⟩
  | cons mb rest ih =>
      intro done h hne hpart
      have hat : h.allocs = h₀.allocs + done.length := by simpa [windowsOf] using hpart.allocs
      unfold conversion
      by_cases hok : d.ok h.allocs = true
      · obtain ⟨h', halloc, hallocs, _⟩ := d.rtePktmbufAlloc_some .ref hok
        rw [if_pos hok]
        cases hpage : pg.lazybsdMemVirt2phy mb.mData with
        | none =>
            simp only [Option.isSome_none, Bool.false_eq_true, if_false]
            simp only [lazybsdBsdToRteLoop, halloc, lazybsdNextMbuf, hpage]
        | some iova =>
            simp only [Option.isSome_some, if_true]
            have hnew := fillSegment_next mb iova hpart hne halloc
            have hspec := ih (done ++ [mb]) _ (by simp) hnew
            simp only [fillSegment_allocs, hallocs, List.append_assoc, List.singleton_append,
              List.length_append, List.length_singleton] at hspec
            rw [show h₀.allocs + (done.length + 1) - 1 = h₀.allocs + done.length by omega] at hspec
            simp only [lazybsdBsdToRteLoop, halloc, lazybsdNextMbuf, hpage]
            rw [hat] at hspec ⊢
            exact hspec
      · have hno : d.ok h.allocs = false := by simpa using hok
        obtain ⟨h', halloc, hlive, hmbuf, hallocs⟩ := d.rtePktmbufAlloc_null .ref hno
        rw [if_neg hok]
        refine ⟨h'.rtePktmbufFree h₀.allocs, ?_, ?_, ?_⟩
        · simp only [lazybsdBsdToRteLoop, halloc]
        · -- the failed allocation changed no cell, so the partial frame is still there to be freed
          have hnext : h'.next = h.next := by
            funext p
            simp [RteHeap.next, hmbuf]
          have hsame : (h'.rtePktmbufFree h₀.allocs).live = (h.rtePktmbufFree h₀.allocs).live := by
            funext p
            have hle : (List.range' h₀.allocs (windowsOf done).length).length ≤ h.allocs := by
              rw [List.length_range', hpart.allocs]
              omega
            rw [RteHeap.rtePktmbufFree_live h' (hnext ▸ hpart.linked) (by omega),
              RteHeap.rtePktmbufFree_live h hpart.linked hle, hlive]
          rw [hsame]
          refine hpart.free_live fun p hp => h.unborn p (by omega)
        · intro p hp
          rw [RteHeap.rtePktmbufFree_mbuf, hmbuf]
          exact (hpart.old p hp).1

/-- **`lazybsd_bsd_to_rte`.** The scan of the chain decides between a frame with the chain's windows,
NULL with every reference mbuf given back, and the panic. -/
theorem lazybsdBsdToRte_spec (d : Dpdk) (pg : PageArray) (m : BsdChain) (total : UInt32)
    (h : RteHeap) :
    match conversion d pg h.allocs m.mbufs with
    | .built => ∃ h', lazybsdBsdToRte d pg m total h = some (some h.allocs, h') ∧
        NewFrame h (windowsOf m.mbufs) total h'
    | .noMbuf => ∃ h', lazybsdBsdToRte d pg m total h = some (none, h') ∧
        h'.live = h.live ∧ ∀ p < h.allocs, h'.mbuf p = h.mbuf p
    | .badPage => lazybsdBsdToRte d pg m total h = none := by
  rw [BsdChain.mbufs]
  unfold conversion
  by_cases hok : d.ok h.allocs = true
  · obtain ⟨h', halloc, hallocs, _⟩ := d.rtePktmbufAlloc_some .ref hok
    rw [if_pos hok]
    cases hpage : pg.lazybsdMemVirt2phy m.first.mData with
    | none =>
        simp only [Option.isSome_none, Bool.false_eq_true, if_false]
        simp only [lazybsdBsdToRte, halloc, BsdChain.mbufs, lazybsdBsdToRteLoop, lazybsdNextMbuf, hpage]
    | some iova =>
        simp only [Option.isSome_some, if_true]
        have hnew := fillSegment_first m.first total iova halloc
        have hspec := lazybsdBsdToRteLoop_spec d pg m.rest [m.first] _ (by simp) hnew
        simp only [fillSegment_allocs, RteHeap.modify_allocs, hallocs, List.singleton_append,
          List.length_singleton, Nat.add_sub_cancel] at hspec
        simp only [lazybsdBsdToRte, halloc, BsdChain.mbufs, lazybsdBsdToRteLoop, lazybsdNextMbuf, hpage]
        exact hspec
  · have hno : d.ok h.allocs = false := by simpa using hok
    obtain ⟨h', halloc, hlive, hmbuf, _⟩ := d.rtePktmbufAlloc_null .ref hno
    rw [if_neg hok]
    refine ⟨h', ?_, hlive, fun p _ => by rw [hmbuf]⟩
    simp only [lazybsdBsdToRte, halloc]

/-! ## `lazybsd_extcl_to_rte` -/

/-- `lazybsd_extcl_to_rte`. -/
def lazybsdExtclToRte (d : Dpdk) (m : BsdChain) (h : RteHeap) : Option Nat × RteHeap :=
  match lazybsdRteFrmExtcl m.first with
  | none => (none, h)
  | some src => d.clone h src

/-- The choice `lazybsd_if_send_onepkt` makes from the address of the first mbuf: rebuild the chain
from the page array, or clone the `rte_mbuf` behind the receive cluster. A chain that can be neither is
the `rte_panic`. -/
def headOf (d : Dpdk) (pg : PageArray) (m : BsdChain) (total : UInt32) (h : RteHeap) :
    Option (Option Nat × RteHeap) :=
  if pg.lazybsdChkVma (lazybsdMbufMtod m) then lazybsdBsdToRte d pg m total h
  else
    match lazybsdExtclToRte d m h with
    | (none, _) => none
    | (some head, h) => some (some head, h)

/-! ## `lazybsd_offload_set` -/

/-- `struct lazybsd_tx_offload`. -/
structure TxOffload where
  ipCsum : Bool
  tcpCsum : Bool
  udpCsum : Bool
  sctpCsum : Bool
  tsoSegSize : UInt16
  deriving DecidableEq

/-- `lazybsd_mbuf_tx_offload`. -/
def lazybsdMbufTxOffload (m : BsdChain) : TxOffload where
  ipCsum := m.pkthdr.csumFlags.ip
  tcpCsum := m.pkthdr.csumFlags.tcp
  udpCsum := m.pkthdr.csumFlags.udp
  sctpCsum := m.pkthdr.csumFlags.sctp
  tsoSegSize := if m.pkthdr.csumFlags.tso then m.pkthdr.tsoSegsz else 0

/-- The IP header behind the Ethernet header, and its length field in bytes. -/
def iphOf (data : Addr) : Addr := data + 14
def iphLenOf (mem : Mem) (data : Addr) : UInt8 := (mem (iphOf data) &&& 0x0f) <<< 2

/-- Where `tcph->cksum` lies. -/
def tcpCksumAddr (mem : Mem) (data : Addr) : Addr :=
  iphOf data + (iphLenOf mem data).toUInt64 + 16

/-- A 16 bit store, low byte first. -/
def Mem.store16 (mem : Mem) (a : Addr) (v : UInt16) : Mem :=
  Function.update (Function.update mem a v.toUInt8) (a + 1) (v >>> 8).toUInt8

/-- Does the interface segment this packet? Only then is packet memory written. -/
def wantsTso (txCsumL4 : Bool) (m : BsdChain) : Bool :=
  txCsumL4 && decide ((lazybsdMbufTxOffload m).tsoSegSize ≠ 0)

/-- The packet memory that `lazybsd_offload_set` leaves: the pseudo header checksum is written for TSO. -/
def offloadMem (d : Dpdk) (txCsumL4 : Bool) (m : BsdChain) (data : Addr) (mem : Mem) : Mem :=
  if wantsTso txCsumL4 m then
    Mem.store16 mem (tcpCksumAddr mem data) (d.phdrCksum mem (iphOf data))
  else mem

/-- `l2_len` and `l3_len` of a packet that asks for a checksum. -/
def setHeaderLens (iphLen : UInt8) (r : RteMbuf) : RteMbuf :=
  { r with l2Len := 14, l3Len := iphLen.toUInt16 }

/-- The head fields that `lazybsd_offload_set` leaves; each request is one update, in source order. -/
def offloadHead (txCsumL4 : Bool) (m : BsdChain) (mem : Mem) (r : RteMbuf) : RteMbuf :=
  let offload := lazybsdMbufTxOffload m
  let iphLen := iphLenOf mem r.mtod
  let tcpDataOff := mem (iphOf r.mtod + iphLen.toUInt64 + 12)
  let r := if offload.ipCsum then
      setHeaderLens iphLen { r with olFlags := r.olFlags ||| (txTcpCksum ||| txIpv4) }
    else r
  if txCsumL4 then
    let r := if offload.tcpCsum then
        setHeaderLens iphLen { r with olFlags := r.olFlags ||| txTcpCksum }
      else r
    let r := if offload.tsoSegSize ≠ 0 then
        { r with
          olFlags := r.olFlags ||| txTcpSeg
          l4Len := ((tcpDataOff &&& 0xf0) >>> 2).toUInt16
          tsoSegsz := offload.tsoSegSize }
      else r
    if offload.udpCsum then
      setHeaderLens iphLen { r with olFlags := r.olFlags ||| txTcpCksum }
    else r
  else r

/-- `lazybsd_offload_set`. -/
def lazybsdOffloadSet (d : Dpdk) (txCsumL4 : Bool) (m : BsdChain) (head : Nat) (h : RteHeap)
    (mem : Mem) : RteHeap × Mem :=
  (h.modify head (offloadHead txCsumL4 m mem), offloadMem d txCsumL4 m (h.mbuf head).mtod mem)

/-- The offload requests do not touch what the NIC sends. -/
theorem offloadHead_frame (txCsumL4 : Bool) (m : BsdChain) (mem : Mem) (r : RteMbuf) :
    (offloadHead txCsumL4 m mem r).mtod = r.mtod ∧ (offloadHead txCsumL4 m mem r).dataLen = r.dataLen ∧
      (offloadHead txCsumL4 m mem r).pktLen = r.pktLen ∧
      (offloadHead txCsumL4 m mem r).nbSegs = r.nbSegs ∧
      (offloadHead txCsumL4 m mem r).next = r.next := by
  refine ⟨?_, ?_, ?_, ?_, ?_⟩ <;>
    (simp only [offloadHead, setHeaderLens, RteMbuf.mtod]; (repeat' split) <;> rfl)

/-- A queued frame stays a frame under `lazybsd_offload_set`. -/
theorem NewFrame.offload {h h' : RteHeap} {ws : List (Addr × UInt16)} {len : UInt32}
    (hf : NewFrame h ws len h') (txCsumL4 : Bool) (m : BsdChain) (mem : Mem) :
    NewFrame h ws len (h'.modify h.allocs (offloadHead txCsumL4 m mem)) := by
  have hkeep := offloadHead_frame txCsumL4 m mem
  refine ⟨hf.allocs, ?_, ?_, ?_, hf.live, ?_, ?_⟩
  · intro p hp
    rw [RteHeap.modify_mbuf_of_ne _ (by omega : p ≠ h.allocs)]
    exact hf.old p hp
  · rw [RteHeap.modify_next_eq _ fun r => (hkeep r).2.2.2.2]
    exact hf.linked
  · intro i hi
    rw [window_modify_of_eq fun r => ⟨(hkeep r).1, (hkeep r).2.1⟩]
    exact hf.windows i hi
  · rw [RteHeap.modify_mbuf_self, (hkeep _).2.2.1]
    exact hf.pktLen
  · rw [RteHeap.modify_mbuf_self, (hkeep _).2.2.2.1]
    exact hf.nbSegs

/-! ## A small machine

Four pages at `0x100000` and an empty `rte_mbuf` heap, for runs on given inputs. -/

namespace Sample

/-- An all-zero `rte_mbuf` of one segment. -/
def blank : RteMbuf := ⟨0, 0, 0, 0, 0, 1, none, .pkt, 0, 0, 0, 0, 0, 0⟩

/-- The library whose allocations succeed as `ok` says. -/
def dpdk (ok : Nat → Bool) : Dpdk := .mempool ok blank fun _ _ => 0

def pages : PageArray := ⟨0x100000, 4, fun i => .ofNat (i * 4096), by decide, by decide, by decide⟩

def heap : RteHeap := ⟨fun _ => blank, fun _ => false, 0, fun _ _ => rfl⟩

def mem : Mem := fun _ => 0

/-- A packet of one mbuf that asks for no offload. -/
def packet (mb : BsdMbuf) : BsdChain := ⟨⟨mb.mLen, ⟨false, false, false, false, false⟩, 0⟩, mb, []⟩

/-- 60 bytes in the first page. -/
def pageMbuf : BsdMbuf := ⟨0x100040, 60, none⟩

/-- A received `rte_mbuf` of one segment: 60 bytes at `0x9000000`. -/
def received : RteMbuf :=
  { blank with bufAddr := 0x8ffff80, dataOff := 128, dataLen := 60, pktLen := 60 }

/-- The heap after it was received, at pointer 0. -/
def rxHeap : RteHeap :=
  ⟨fun _ => received, fun p => p == 0, 1, fun p hp => by
    have hne : p ≠ 0 := by omega
    simpa using hne⟩

/-- An mbuf whose cluster is the received one, `off` bytes into it. -/
def clusterMbuf (off : Nat) : BsdMbuf :=
  ⟨0x9000000 + .ofNat off, .ofNat (60 - off), some ⟨.disposable, .lazybsdMbufExtFree, some 0⟩⟩

end Sample

end LazyBsd.Tx
