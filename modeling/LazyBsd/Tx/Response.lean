/-
# LazyBsd.Tx.Response — the dispatcher answers in the received packet.

The dispatcher writes a frame into the first segment and returns `LAZYBSD_DISPATCH_RESPONSE`. The length
of the frame becomes the length of the segment and of the packet; if the NIC had stripped a VLAN tag,
`lazybsd_add_vlan_tag` puts it back into the headroom, moving the MAC addresses; then the packet is
queued. The segments behind the first stay linked and counted, and where the headroom has no room for the
tag the packet is queued without it.
-/
import Mathlib.Algebra.GroupWithZero.Nat
import LazyBsd.Lib.Block
import LazyBsd.Tx.Copy
import LazyBsd.Tx.Queue

namespace LazyBsd.Tx

open Lib

variable {Port : Type*}

/-! ## The response path -/

/-- `rte_pktmbuf_prepend`: room in front of the data, taken from the headroom of the segment; `NULL`, and
nothing changed, if the headroom is too small. -/
structure Prepend where
  run : RteMbuf → UInt16 → Option (Addr × RteMbuf)
  short : ∀ m n, m.dataOff < n → run m n = none
  room : ∀ m n, n ≤ m.dataOff → run m n = some (m.bufAddr + (m.dataOff - n).toUInt64,
    { m with dataOff := m.dataOff - n, dataLen := m.dataLen + n, pktLen := m.pktLen + n.toUInt32 })

/-- `RTE_ETHER_TYPE_VLAN`. -/
def etherTypeVlan : UInt16 := 0x8100

/-- The bytes of `rte_cpu_to_be_16`. -/
def be16Bytes (x : UInt16) : List UInt8 := [(x >>> 8).toUInt8, x.toUInt8]

/-- The stores of `lazybsd_add_vlan_tag`: the Ethernet header moves to `data`, the tag and the old type
follow it, and the type becomes `RTE_ETHER_TYPE_VLAN`. -/
def moveAndTag (data : Addr) (tci : UInt16) (mem : Mem) : Mem :=
  let mem := Mem.write mem data (mem.bytes (data + 4) 14)
  let mem := Mem.write mem (data + 14) (be16Bytes tci)
  let mem := Mem.write mem (data + 16) (mem.bytes (data + 12) 2)
  Mem.write mem (data + 12) (be16Bytes etherTypeVlan)

/-- `lazybsd_add_vlan_tag`. -/
def lazybsdAddVlanTag (pre : Prepend) (rtem : Nat) (s : TxState Port) : TxState Port :=
  if (s.heap.mbuf rtem).olFlags &&& rxVlanStripped ≠ 0 then
    match pre.run (s.heap.mbuf rtem) 4 with
    | none => s
    | some (data, r) =>
        { s with heap := s.heap.modify rtem fun _ => r, mem := moveAndTag data r.vlanTci s.mem }
  else s

/-- `pkt_len = data_len = len`. -/
def setLengths (rtem : Nat) (len : UInt16) (s : TxState Port) : TxState Port :=
  { s with heap := s.heap.modify rtem fun r => { r with dataLen := len, pktLen := len.toUInt32 } }

/-- The branch of `process_packets` for `LAZYBSD_DISPATCH_RESPONSE`. -/
def respond [DecidableEq Port] (pre : Prepend) (rtem : Nat) (len : UInt16) (port : Port) (accepted : Nat)
    (s : TxState Port) : TxState Port :=
  sendSinglePacket rtem port accepted (lazybsdAddVlanTag pre rtem (setLengths rtem len s))

/-! ## What should be queued -/

/-- The frame with an 802.1Q tag after the MAC addresses. -/
def tagged (tci : UInt16) (f : List UInt8) : List UInt8 :=
  f.take 12 ++ (be16Bytes etherTypeVlan ++ be16Bytes tci) ++ f.drop 12

/-- The tag taken out again. -/
def untag (f : List UInt8) : List UInt8 := f.take 12 ++ f.drop 16

/-- The NIC took a VLAN tag out of the packet. -/
def Stripped (h : RteHeap) (rtem : Nat) : Prop := (h.mbuf rtem).olFlags &&& rxVlanStripped ≠ 0

/-- The tag cannot be put back. -/
def NoHeadroom (h : RteHeap) (rtem : Nat) : Prop := Stripped h rtem ∧ (h.mbuf rtem).dataOff < 4

/-- A packet from the NIC: its segments are linked and counted. -/
structure ReceivedChain (h : RteHeap) (rtem : Nat) (segs : List Nat) : Prop where
  linked : Linked h.next (some rtem) segs
  born : ∀ q ∈ segs, q < h.allocs
  nbSegs : (h.mbuf rtem).nbSegs.toNat = segs.length

/-- The packet is the frame `f`: in `nb_segs` linked segments, whose lengths add up to `pkt_len`. -/
structure IsFrame (h : RteHeap) (mem : Mem) (rtem : Nat) (f : List UInt8) : Prop where
  nbSegs : (h.mbuf rtem).nbSegs.toNat = (walk h.next h.allocs (some rtem)).length
  pktLen : (h.mbuf rtem).pktLen.toNat =
    ((walk h.next h.allocs (some rtem)).map fun q => (h.mbuf q).dataLen.toNat).sum
  bytes : h.frameBytes mem rtem = f

/-- The packet is queued as the frame of the dispatcher, with the tag if there was one, which can be taken
out again, or dropped if the tag cannot be inserted. -/
structure Answered (rtem : Nat) (port : Port) (f : List UInt8) (s s' : TxState Port) : Prop where
  queued : ¬ NoHeadroom s.heap rtem → s'.stored port = s.stored port ++ [rtem]
  withTag : ¬ NoHeadroom s.heap rtem → Stripped s.heap rtem →
    IsFrame s'.heap s'.mem rtem (tagged (s.heap.mbuf rtem).vlanTci f)
  untagged : ¬ NoHeadroom s.heap rtem → Stripped s.heap rtem → untag (s'.heap.frameBytes s'.mem rtem) = f
  plain : ¬ Stripped s.heap rtem → IsFrame s'.heap s'.mem rtem f
  dropped : NoHeadroom s.heap rtem → s'.stored port = s.stored port ∧ s'.heap.live rtem = false

/-! ## The tag -/

section Tag

variable {f : List UInt8} {tci : UInt16} {b : Nat → UInt8} {n : Nat}

@[simp] theorem length_be16Bytes (x : UInt16) : (be16Bytes x).length = 2 := rfl

theorem untag_tagged (tci : UInt16) (h : 12 ≤ f.length) : untag (tagged tci f) = f := by
  have hhead : (f.take 12).length = 12 := List.length_take_of_le h
  have hmacs : (tagged tci f).take 12 = f.take 12 := by
    rw [tagged, List.append_assoc, List.take_append_of_le_length hhead.ge, List.take_take]
    rfl
  have hrest : (tagged tci f).drop 16 = f.drop 12 := by
    have hlength : (f.take 12 ++ (be16Bytes etherTypeVlan ++ be16Bytes tci)).length = 16 := by
      rw [List.length_append, hhead]
      rfl
    rw [tagged, ← hlength, List.drop_left]
  rw [untag, hmacs, hrest, List.take_append_drop]

/-- The stores on the block that starts at the new data. -/
def tagBlock (tci : UInt16) (b : Nat → UInt8) : Nat → UInt8 :=
  let b := Block.write b 0 (Block.read b 4 14)
  let b := Block.write b 14 (be16Bytes tci)
  let b := Block.write b 16 (Block.read b 12 2)
  Block.write b 12 (be16Bytes etherTypeVlan)

/-- The moves overlap, and still the block has the tagged frame. -/
theorem read_tagBlock (tci : UInt16) (b : Nat → UInt8) (h : 14 ≤ n) :
    Block.read (tagBlock tci b) 0 (n + 4) = tagged tci (Block.read b 4 n) := by
  obtain ⟨r, rfl⟩ : ∃ r, n = 12 + (2 + r) := ⟨n - 14, by omega⟩
  -- the Ethernet header at its new place
  have hmoved : Block.read (Block.write b 0 (Block.read b 4 14)) 0 12 ++
      Block.read (Block.write b 0 (Block.read b 4 14)) 12 2 = Block.read b 4 12 ++ Block.read b 16 2 := by
    rw [← Block.read_append _ 0 12 2, ← Block.read_append b 4 12 2]
    exact Block.read_write b 0 (Block.read b 4 14)
  obtain ⟨hmacs, htype⟩ := List.append_inj' hmoved (by simp)
  have htail : Block.read (Block.write b 0 (Block.read b 4 14)) 18 r = Block.read b 18 r :=
    Block.read_write_of_disjoint (.inr (by simp))
  -- the three stores of two bytes
  have hin (b' : Nat → UInt8) (off : Nat) (xs : List UInt8) (hxs : xs.length = 2) :
      Block.read (Block.write b' off xs) off 2 = xs := by
    rw [← hxs]
    exact Block.read_write b' off xs
  have hout (b' : Nat → UInt8) (off : Nat) (xs : List UInt8) (hxs : xs.length = 2) (o k : Nat)
      (hk : o + k ≤ off ∨ off + 2 ≤ o) : Block.read (Block.write b' off xs) o k = Block.read b' o k :=
    Block.read_write_of_disjoint (by rwa [hxs])
  have hzero : Block.read (tagBlock tci b) 0 12 = Block.read b 4 12 := by
    unfold tagBlock
    dsimp only
    rw [hout _ 12 _ (length_be16Bytes _) 0 12 (by omega), hout _ 16 _ Block.length_read 0 12 (by omega),
      hout _ 14 _ (length_be16Bytes _) 0 12 (by omega), hmacs]
  have hvlan : Block.read (tagBlock tci b) 12 2 = be16Bytes etherTypeVlan := hin _ 12 _ (length_be16Bytes _)
  have htci : Block.read (tagBlock tci b) 14 2 = be16Bytes tci := by
    unfold tagBlock
    dsimp only
    rw [hout _ 12 _ (length_be16Bytes _) 14 2 (by omega), hout _ 16 _ Block.length_read 14 2 (by omega)]
    exact hin _ 14 _ (length_be16Bytes _)
  have hproto : Block.read (tagBlock tci b) 16 2 = Block.read b 16 2 := by
    unfold tagBlock
    dsimp only
    rw [hout _ 12 _ (length_be16Bytes _) 16 2 (by omega), hin _ 16 _ Block.length_read,
      hout _ 14 _ (length_be16Bytes _) 12 2 (by omega), htype]
  have hrest : Block.read (tagBlock tci b) 18 r = Block.read b 18 r := by
    unfold tagBlock
    dsimp only
    rw [hout _ 12 _ (length_be16Bytes _) 18 r (by omega), hout _ 16 _ Block.length_read 18 r (by omega),
      hout _ 14 _ (length_be16Bytes _) 18 r (by omega), htail]
  have hread : Block.read (tagBlock tci b) 0 (12 + (2 + (2 + (2 + r)))) =
      Block.read b 4 12 ++ (be16Bytes etherTypeVlan ++ (be16Bytes tci ++
        (Block.read b 16 2 ++ Block.read b 18 r))) := by
    rw [Block.read_append, Block.read_append, Block.read_append, Block.read_append, hzero, Nat.zero_add,
      hvlan, htci, hproto, hrest]
  have hframe : Block.read b 4 (12 + (2 + r)) =
      Block.read b 4 12 ++ (Block.read b 16 2 ++ Block.read b 18 r) := by
    rw [Block.read_append, Block.read_append]
  have hcut : (Block.read b 4 12).length = 12 := Block.length_read
  have hsize : 12 + (2 + r) + 4 = 12 + (2 + (2 + (2 + r))) := by omega
  rw [tagged, hframe, List.take_left' hcut, List.drop_left' hcut, hsize, hread]
  simp only [List.append_assoc]

/-- Memory from an address on. -/
def Mem.block (mem : Mem) (a : Addr) : Nat → UInt8 := fun i => mem (a + UInt64.ofNat i)

theorem bytes_eq_read (mem : Mem) (a : Addr) (k n : Nat) :
    Mem.bytes mem (a + UInt64.ofNat k) n = Block.read (Mem.block mem a) k n := by
  rw [Mem.bytes, addrs, List.map_map, Block.read]
  apply List.map_congr_left
  intro i _
  show mem (a + UInt64.ofNat k + UInt64.ofNat i) = mem (a + UInt64.ofNat (k + i))
  rw [UInt64.add_assoc, UInt64.ofNat_add]

/-- A store is a store to the block, as far as addresses go. -/
theorem block_write (mem : Mem) (a : Addr) {k : Nat} {xs : List UInt8} (hk : k + xs.length < 2 ^ 64)
    {i : Nat} (hi : i < 2 ^ 64) :
    Mem.block (Mem.write mem (a + UInt64.ofNat k) xs) a i = Block.write (Mem.block mem a) k xs i := by
  have hsub : (a + UInt64.ofNat i - (a + UInt64.ofNat k)).toNat = (i + (2 ^ 64 - k)) % 2 ^ 64 := by
    have hlt := a.toNat_lt
    rw [UInt64.toNat_sub, UInt64.toNat_add, UInt64.toNat_add, UInt64.toNat_ofNat', UInt64.toNat_ofNat']
    omega
  rw [Mem.block, Mem.write, hsub, Block.write]
  split
  · next hle =>
      have hdiff : (i + (2 ^ 64 - k)) % 2 ^ 64 = i - k := by omega
      rw [hdiff]
      rfl
  · next hlt =>
      have hbeyond : xs.length ≤ (i + (2 ^ 64 - k)) % 2 ^ 64 := by omega
      rw [List.getD_eq_getElem?_getD, List.getElem?_eq_none hbeyond]
      rfl

theorem write_congr {b b' : Nat → UInt8} {xs : List UInt8} {k i : Nat} (h : b i = b' i) :
    Block.write b k xs i = Block.write b' k xs i := by
  rw [Block.write, Block.write, h]

/-- The stores of `lazybsd_add_vlan_tag` are those on the block. -/
theorem block_moveAndTag (data : Addr) (tci : UInt16) (mem : Mem) {i : Nat} (hi : i < 2 ^ 64) :
    Mem.block (moveAndTag data tci mem) data i = tagBlock tci (Mem.block mem data) i := by
  -- one store after the other, each on the block of the one before
  have hone {i : Nat} (hi : i < 2 ^ 64) :
      Mem.block (Mem.write mem data (mem.bytes (data + 4) 14)) data i =
        Block.write (Mem.block mem data) 0 (Block.read (Mem.block mem data) 4 14) i := by
    have hmove : mem.bytes (data + 4) 14 = Block.read (Mem.block mem data) 4 14 :=
      bytes_eq_read mem data 4 14
    have hstart : data + UInt64.ofNat 0 = data := UInt64.add_zero data
    rw [hmove, ← block_write mem data (by simp) hi, hstart]
  have htwo {i : Nat} (hi : i < 2 ^ 64) :
      Mem.block (Mem.write (Mem.write mem data (mem.bytes (data + 4) 14)) (data + 14) (be16Bytes tci)) data i =
        Block.write (Block.write (Mem.block mem data) 0 (Block.read (Mem.block mem data) 4 14)) 14
          (be16Bytes tci) i := by
    rw [← write_congr (hone hi)]
    exact block_write _ data (k := 14) (by simp) hi
  unfold moveAndTag tagBlock
  dsimp only
  generalize Mem.write (Mem.write mem data (mem.bytes (data + 4) 14)) (data + 14) (be16Bytes tci) = mem₂ at htwo ⊢
  generalize Block.write (Block.write (Mem.block mem data) 0 (Block.read (Mem.block mem data) 4 14)) 14
    (be16Bytes tci) = b₂ at htwo ⊢
  have hproto : mem₂.bytes (data + 12) 2 = Block.read b₂ 12 2 := by
    rw [← Block.read_congr fun i _ => htwo (by omega)]
    exact bytes_eq_read mem₂ data 12 2
  have hthree : Mem.block (Mem.write mem₂ (data + 16) (mem₂.bytes (data + 12) 2)) data i =
      Block.write b₂ 16 (Block.read b₂ 12 2) i := by
    rw [← write_congr (htwo hi), ← hproto]
    exact block_write _ data (k := 16) (by simp [Mem.bytes, addrs]) hi
  rw [← write_congr hthree]
  exact block_write _ data (k := 12) (by simp) hi

/-- The bytes from the new data on are the tagged frame. -/
theorem bytes_moveAndTag (data : Addr) (tci : UInt16) (mem : Mem) (h : 14 ≤ n) (hn : n + 4 < 2 ^ 64) :
    (moveAndTag data tci mem).bytes data (n + 4) = tagged tci (mem.bytes (data + 4) n) := by
  have hstart : data + UInt64.ofNat 0 = data := UInt64.add_zero data
  have hafter := bytes_eq_read (moveAndTag data tci mem) data 0 (n + 4)
  rw [hstart] at hafter
  have hblock : Block.read (Mem.block (moveAndTag data tci mem) data) 0 (n + 4) =
      Block.read (tagBlock tci (Mem.block mem data)) 0 (n + 4) :=
    Block.read_congr fun i hi => block_moveAndTag data tci mem (by omega)
  have hbefore : mem.bytes (data + 4) n = Block.read (Mem.block mem data) 4 n :=
    bytes_eq_read mem data 4 n
  rw [hafter, hblock, read_tagBlock tci _ h, hbefore]

end Tag

/-! ## The segments -/

section Segments

variable {h h' : RteHeap} {mem mem' : Mem} {rtem : Nat} {segs : List Nat} {f : List UInt8}

/-- The first segment has all of the packet: so it is a frame exactly if the others have nothing. -/
theorem isFrame_iff (hrecv : ReceivedChain h rtem segs) (hallocs : h'.allocs = h.allocs)
    (hother : ∀ q, q ≠ rtem → h'.mbuf q = h.mbuf q)
    (hnext : (h'.mbuf rtem).next = (h.mbuf rtem).next)
    (hnbSegs : (h'.mbuf rtem).nbSegs = (h.mbuf rtem).nbSegs)
    (hlen : (h'.mbuf rtem).pktLen.toNat = (h'.mbuf rtem).dataLen.toNat)
    (hview : (h'.mbuf rtem).view mem' = f) :
    IsFrame h' mem' rtem f ↔ ∀ q ∈ segs.tail, (h.mbuf q).dataLen = 0 := by
  have hlinks : h'.next = h.next := by
    funext q
    by_cases hq : q = rtem
    · rw [hq]
      exact hnext
    · exact congrArg RteMbuf.next (hother q hq)
  have hwalk : walk h'.next h'.allocs (some rtem) = segs := by
    rw [hlinks, hallocs]
    exact RteHeap.walk_handedOut hrecv.linked hrecv.born
  obtain ⟨tail, rfl⟩ : ∃ tail, segs = rtem :: tail := by
    cases hrecv.linked with
    | cons hl => exact ⟨_, rfl⟩
  have hnodup := List.nodup_cons.mp hrecv.linked.nodup
  have hsame : ∀ q ∈ tail, h'.mbuf q = h.mbuf q := by
    intro q hq
    apply hother
    rintro rfl
    exact hnodup.1 hq
  rw [List.tail_cons]
  -- `pkt_len` counts the first segment only
  constructor
  · intro hframe q hq
    have hsum := hframe.pktLen
    rw [hwalk, List.map_cons, List.sum_cons, hlen] at hsum
    have hzero : (tail.map fun q => (h'.mbuf q).dataLen.toNat).sum = 0 := by omega
    have hnone := List.sum_eq_zero_iff_forall_eq_nat.mp hzero _ (List.mem_map_of_mem hq)
    rw [hsame q hq] at hnone
    exact UInt16.toNat.inj hnone
  · intro hzero
    refine ⟨?_, ?_, ?_⟩
    · rw [hwalk, hnbSegs, hrecv.nbSegs]
    · have hnone : (tail.map fun q => (h'.mbuf q).dataLen.toNat).sum = 0 := by
        rw [List.sum_eq_zero_iff_forall_eq_nat]
        intro n hn
        obtain ⟨q, hq, rfl⟩ := List.mem_map.mp hn
        rw [hsame q hq, hzero q hq]
        rfl
      rw [hwalk, List.map_cons, List.sum_cons, hnone, hlen]
      rfl
    · have hempty : tail.flatMap (fun q => (h'.mbuf q).view mem') = [] := by
        rw [List.flatMap_eq_nil_iff]
        intro q hq
        rw [RteMbuf.view, hsame q hq, hzero q hq]
        rfl
      rw [RteHeap.frameBytes, hwalk, List.flatMap_cons, hempty, List.append_nil, hview]

end Segments

/-! ## The response -/

section Respond

variable {s : TxState Port} {port : Port} {rtem accepted : Nat}

/-- The lengths and the tag are stored in the first segment only. -/
theorem lazybsdAddVlanTag_frame (pre : Prepend) (rtem : Nat) (len : UInt16) (s : TxState Port) :
    (lazybsdAddVlanTag pre rtem (setLengths rtem len s)).heap.allocs = s.heap.allocs ∧
      (lazybsdAddVlanTag pre rtem (setLengths rtem len s)).stored = s.stored ∧
      ∀ q, q ≠ rtem → (lazybsdAddVlanTag pre rtem (setLengths rtem len s)).heap.mbuf q = s.heap.mbuf q := by
  have hset (q : Nat) (hq : q ≠ rtem) : (setLengths rtem len s).heap.mbuf q = s.heap.mbuf q := by
    rw [setLengths, RteHeap.modify_mbuf_of_ne _ hq]
  unfold lazybsdAddVlanTag
  split
  · split
    · exact ⟨rfl, rfl, hset⟩
    · refine ⟨rfl, rfl, ?_⟩
      intro q hq
      rw [← hset q hq]
      dsimp only
      rw [RteHeap.modify_mbuf_of_ne _ hq]
  · exact ⟨rfl, rfl, hset⟩

/-- Without a tag the first segment is the frame. -/
theorem lazybsdAddVlanTag_plain (pre : Prepend) (len : UInt16) (hno : ¬ Stripped s.heap rtem) :
    lazybsdAddVlanTag pre rtem (setLengths rtem len s) = setLengths rtem len s := by
  have hflags : ((setLengths rtem len s).heap.mbuf rtem).olFlags = (s.heap.mbuf rtem).olFlags := by
    rw [setLengths, RteHeap.modify_mbuf_self]
  rw [lazybsdAddVlanTag, hflags]
  exact if_neg hno

/-- With a tag and enough headroom it begins four bytes earlier. -/
theorem lazybsdAddVlanTag_tagged (pre : Prepend) (len : UInt16) (hstripped : Stripped s.heap rtem)
    (hroom : 4 ≤ (s.heap.mbuf rtem).dataOff) :
    (lazybsdAddVlanTag pre rtem (setLengths rtem len s)).heap.mbuf rtem =
        { s.heap.mbuf rtem with
          dataOff := (s.heap.mbuf rtem).dataOff - 4
          dataLen := len + 4
          pktLen := len.toUInt32 + 4 } ∧
      (lazybsdAddVlanTag pre rtem (setLengths rtem len s)).mem =
        moveAndTag ((s.heap.mbuf rtem).bufAddr + ((s.heap.mbuf rtem).dataOff - 4).toUInt64)
          (s.heap.mbuf rtem).vlanTci s.mem := by
  have hself : (setLengths rtem len s).heap.mbuf rtem =
      { s.heap.mbuf rtem with dataLen := len, pktLen := len.toUInt32 } := by
    rw [setLengths, RteHeap.modify_mbuf_self]
  have hrun := pre.room ((setLengths rtem len s).heap.mbuf rtem) 4 (by rw [hself]; exact hroom)
  rw [lazybsdAddVlanTag, hrun, if_pos (by rw [hself]; exact hstripped)]
  dsimp only
  rw [RteHeap.modify_mbuf_self, hself]
  exact ⟨rfl, rfl⟩

variable [DecidableEq Port]

/-- Queueing stores the packet and leaves its segments and memory alone. -/
theorem sendSinglePacket_frame (rtem : Nat) (port : Port) (accepted : Nat) (s : TxState Port) :
    (sendSinglePacket rtem port accepted s).heap.mbuf = s.heap.mbuf ∧
      (sendSinglePacket rtem port accepted s).heap.allocs = s.heap.allocs ∧
      (sendSinglePacket rtem port accepted s).mem = s.mem ∧
      (sendSinglePacket rtem port accepted s).stored port = s.stored port ++ [rtem] := by
  have hstored : (storeResponse rtem port s).stored port = s.stored port ++ [rtem] :=
    Function.update_self _ _ _
  unfold sendSinglePacket flushFull
  split
  · obtain ⟨hmbuf, hallocs⟩ := sendBurst_heap port maxPktBurst accepted (storeResponse rtem port s)
    exact ⟨hmbuf, hallocs, rfl, hstored⟩
  · exact ⟨rfl, rfl, rfl, hstored⟩

/-- The packet is always queued. -/
theorem respond_stored (pre : Prepend) (rtem : Nat) (len : UInt16) (port : Port) (accepted : Nat)
    (s : TxState Port) :
    (respond pre rtem len port accepted s).stored port = s.stored port ++ [rtem] := by
  obtain ⟨-, -, -, hstored⟩ := sendSinglePacket_frame rtem port accepted
    (lazybsdAddVlanTag pre rtem (setLengths rtem len s))
  rw [respond, hstored, (lazybsdAddVlanTag_frame pre rtem len s).2.1]

/-- What the response leaves of the packet: its first segment and memory are those that
`lazybsd_add_vlan_tag` leaves, its other segments are as before. -/
theorem respond_isFrame_iff (pre : Prepend) {segs : List Nat} {len : UInt16} {f : List UInt8}
    {r : RteMbuf} {mem : Mem} (hrecv : ReceivedChain s.heap rtem segs)
    (hsegment : (lazybsdAddVlanTag pre rtem (setLengths rtem len s)).heap.mbuf rtem = r)
    (hmem : (lazybsdAddVlanTag pre rtem (setLengths rtem len s)).mem = mem)
    (hnext : r.next = (s.heap.mbuf rtem).next) (hnbSegs : r.nbSegs = (s.heap.mbuf rtem).nbSegs)
    (hlen : r.pktLen.toNat = r.dataLen.toNat) (hview : r.view mem = f) :
    IsFrame (respond pre rtem len port accepted s).heap (respond pre rtem len port accepted s).mem rtem f ↔
      ∀ q ∈ segs.tail, (s.heap.mbuf q).dataLen = 0 := by
  obtain ⟨hmbuf, hallocs, hmem', -⟩ := sendSinglePacket_frame rtem port accepted
    (lazybsdAddVlanTag pre rtem (setLengths rtem len s))
  obtain ⟨hallocs', -, hother⟩ := lazybsdAddVlanTag_frame pre rtem len s
  have hself : (respond pre rtem len port accepted s).heap.mbuf rtem = r := by
    rw [respond, hmbuf, hsegment]
  apply isFrame_iff hrecv
  · rw [respond, hallocs, hallocs']
  · intro q hq
    rw [respond, hmbuf]
    exact hother q hq
  · rw [hself, hnext]
  · rw [hself, hnbSegs]
  · rw [hself, hlen]
  · rw [hself, respond, hmem', hmem, hview]

end Respond

section Answers

variable [DecidableEq Port] {s : TxState Port} {port : Port} {rtem accepted : Nat} {segs : List Nat}
  {len bufLen : UInt16}

theorem respond_plain_iff (pre : Prepend) (hrecv : ReceivedChain s.heap rtem segs)
    (hno : ¬ Stripped s.heap rtem) :
    IsFrame (respond pre rtem len port accepted s).heap (respond pre rtem len port accepted s).mem rtem
        (s.mem.bytes (s.heap.mbuf rtem).mtod len.toNat) ↔
      ∀ q ∈ segs.tail, (s.heap.mbuf q).dataLen = 0 := by
  have hsame := lazybsdAddVlanTag_plain pre len hno
  have hself : (setLengths rtem len s).heap.mbuf rtem =
      { s.heap.mbuf rtem with dataLen := len, pktLen := len.toUInt32 } := by
    rw [setLengths, RteHeap.modify_mbuf_self]
  rw [← hsame] at hself
  exact respond_isFrame_iff pre hrecv hself (by rw [hsame, setLengths]) rfl rfl
    (UInt16.toNat_toUInt32 len) rfl

theorem respond_tagged_iff (pre : Prepend) (hrecv : ReceivedChain s.heap rtem segs)
    (hstripped : Stripped s.heap rtem) (hfour : 4 ≤ (s.heap.mbuf rtem).dataOff) (hlen : 14 ≤ len.toNat)
    (hroom : (s.heap.mbuf rtem).dataOff.toNat + len.toNat ≤ bufLen.toNat) :
    IsFrame (respond pre rtem len port accepted s).heap (respond pre rtem len port accepted s).mem rtem
        (tagged (s.heap.mbuf rtem).vlanTci (s.mem.bytes (s.heap.mbuf rtem).mtod len.toNat)) ↔
      ∀ q ∈ segs.tail, (s.heap.mbuf q).dataLen = 0 := by
  obtain ⟨hsegment, hmem⟩ := lazybsdAddVlanTag_tagged pre len hstripped hfour
  have hbuf := bufLen.toNat_lt
  have hfour' : 4 ≤ (s.heap.mbuf rtem).dataOff.toNat := UInt16.le_iff_toNat_le.mp hfour
  have hdataLen : (len + 4).toNat = len.toNat + 4 := by
    rw [UInt16.toNat_add]
    exact Nat.mod_eq_of_lt (show len.toNat + 4 < 2 ^ 16 by omega)
  have hpktLen : (len.toUInt32 + 4).toNat = len.toNat + 4 := by
    rw [UInt32.toNat_add, UInt16.toNat_toUInt32]
    exact Nat.mod_eq_of_lt (show len.toNat + 4 < 2 ^ 32 by omega)
  refine respond_isFrame_iff pre hrecv hsegment hmem rfl rfl (hpktLen.trans hdataLen.symm) ?_
  -- the old data begins four bytes into the new
  have hold : (s.heap.mbuf rtem).bufAddr + ((s.heap.mbuf rtem).dataOff - 4).toUInt64 + 4 =
      (s.heap.mbuf rtem).mtod := by
    have hoff : ((s.heap.mbuf rtem).dataOff - 4).toUInt64 + 4 = (s.heap.mbuf rtem).dataOff.toUInt64 := by
      apply UInt64.toNat.inj
      rw [UInt64.toNat_add, UInt16.toNat_toUInt64, UInt16.toNat_toUInt64,
        UInt16.toNat_sub_of_le _ _ hfour]
      have hlt := (s.heap.mbuf rtem).dataOff.toNat_lt
      show ((s.heap.mbuf rtem).dataOff.toNat - 4 + 4) % 2 ^ 64 = _
      omega
    rw [UInt64.add_assoc, hoff]
    rfl
  rw [RteMbuf.view, hdataLen, ← hold]
  exact bytes_moveAndTag _ _ _ hlen (by omega)

end Answers

/-- For every packet from the NIC, in any number of segments, and every frame of at least 14 bytes that the
dispatcher leaves in its first segment: the answer is well formed exactly if the other segments are empty
and a stripped tag has its four bytes of headroom. -/
theorem response_is_well_formed_iff [DecidableEq Port] (pre : Prepend) (s : TxState Port) (rtem : Nat)
    (segs : List Nat) (hrecv : ReceivedChain s.heap rtem segs) (len bufLen : UInt16)
    (hlen : 14 ≤ len.toNat)
    (hroom : (s.heap.mbuf rtem).dataOff.toNat + len.toNat ≤ bufLen.toNat) (port : Port)
    (accepted : Nat) :
    Answered rtem port (s.mem.bytes (s.heap.mbuf rtem).mtod len.toNat) s
        (respond pre rtem len port accepted s) ↔
      (∀ q ∈ segs.tail, (s.heap.mbuf q).dataLen = 0) ∧
        (Stripped s.heap rtem → 4 ≤ (s.heap.mbuf rtem).dataOff) := by
  have hqueued := respond_stored pre rtem len port accepted s
  by_cases hstripped : Stripped s.heap rtem
  · by_cases hfour : 4 ≤ (s.heap.mbuf rtem).dataOff
    · have hhead : ¬ NoHeadroom s.heap rtem := fun hno => UInt16.not_lt.mpr hfour hno.2
      constructor
      · intro h
        have hempty := (respond_tagged_iff pre hrecv hstripped hfour hlen hroom).mp
          (h.withTag hhead hstripped)
        exact ⟨hempty, fun _ => hfour⟩
      · rintro ⟨hempty, -⟩
        have hframe : IsFrame (respond pre rtem len port accepted s).heap
            (respond pre rtem len port accepted s).mem rtem
            (tagged (s.heap.mbuf rtem).vlanTci (s.mem.bytes (s.heap.mbuf rtem).mtod len.toNat)) :=
          (respond_tagged_iff pre hrecv hstripped hfour hlen hroom).mpr hempty
        have hmacs : 12 ≤ (s.mem.bytes (s.heap.mbuf rtem).mtod len.toNat).length := by
          rw [Mem.bytes, addrs, List.length_map, List.length_map, List.length_range]
          omega
        have hback := untag_tagged (s.heap.mbuf rtem).vlanTci hmacs
        rw [← hframe.bytes] at hback
        exact ⟨fun _ => hqueued, fun _ _ => hframe, fun _ _ => hback, fun hno => absurd hstripped hno,
          fun hno => absurd hno hhead⟩
    · -- without headroom for the tag the frame is queued all the same
      have hhead : NoHeadroom s.heap rtem := ⟨hstripped, UInt16.not_le.mp hfour⟩
      apply iff_of_false
      · intro h
        have hsame := (h.dropped hhead).1
        rw [hqueued] at hsame
        exact List.cons_ne_nil _ _ (List.append_right_eq_self.mp hsame)
      · rintro ⟨-, hneed⟩
        exact hfour (hneed hstripped)
  · have hhead : ¬ NoHeadroom s.heap rtem := fun hno => hstripped hno.1
    constructor
    · intro h
      have hempty := (respond_plain_iff pre hrecv hstripped).mp (h.plain hstripped)
      exact ⟨hempty, fun htag => absurd htag hstripped⟩
    · rintro ⟨hempty, -⟩
      exact ⟨fun _ => hqueued, fun _ htag => absurd htag hstripped, fun _ htag => absurd htag hstripped,
        fun hno => (respond_plain_iff pre hrecv hno).mpr hempty, fun hno => absurd hno hhead⟩

/-! ## Answers of 64 bytes -/

namespace Sample

/-- `rte_pktmbuf_prepend`. -/
def prepend : Prepend where
  run m n :=
    if n ≤ m.dataOff then
      some (m.bufAddr + (m.dataOff - n).toUInt64,
        { m with dataOff := m.dataOff - n, dataLen := m.dataLen + n, pktLen := m.pktLen + n.toUInt32 })
    else none
  short _ _ h := if_neg (UInt16.not_le.mpr h)
  room _ _ h := if_pos h

/-- A packet whose tag was stripped, with `dataOff` bytes of headroom. -/
def strippedHeap (dataOff : UInt16) : RteHeap :=
  ⟨fun _ => { received with dataOff := dataOff, olFlags := rxVlanStripped, vlanTci := 5 }, fun p => p == 0,
    1, fun _ hp => beq_false_of_ne (Nat.ne_of_gt hp)⟩

theorem pairHeap_unborn (p : Nat) (hp : 2 ≤ p) : decide (p < 2) = false :=
  decide_eq_false (Nat.not_lt.mpr hp)

/-- A packet of two segments of 60 bytes. -/
def pairHeap : RteHeap :=
  ⟨fun p => { received with nbSegs := 2, next := if p = 0 then some 1 else none }, fun p => decide (p < 2),
    2, pairHeap_unborn⟩

theorem strippedHeap_received (dataOff : UInt16) : ReceivedChain (strippedHeap dataOff) 0 [0] where
  linked := .cons .nil
  born := by
    intro q hq
    obtain rfl := List.mem_singleton.mp hq
    exact Nat.zero_lt_one
  nbSegs := rfl

theorem strippedHeap_stripped (dataOff : UInt16) : Stripped (strippedHeap dataOff) 0 := by
  show rxVlanStripped &&& rxVlanStripped ≠ 0
  decide

theorem pairHeap_received : ReceivedChain pairHeap 0 [0, 1] where
  linked := .cons (.cons .nil)
  born := by
    intro q hq
    show q < 2
    simp only [List.mem_cons, List.not_mem_nil, or_false] at hq
    omega
  nbSegs := rfl

end Sample

/-- One segment with the usual headroom, and a tag to put back. -/
theorem tagged_response_is_well_formed :
    Answered 0 () (Sample.mem.bytes ((Sample.strippedHeap 128).mbuf 0).mtod 64)
      (TxState.init (Sample.strippedHeap 128) Sample.mem)
      (respond Sample.prepend 0 64 () 0 (TxState.init (Sample.strippedHeap 128) Sample.mem)) := by
  have hiff := response_is_well_formed_iff Sample.prepend
    (TxState.init (Sample.strippedHeap 128) Sample.mem : TxState Unit) 0 [0]
    (Sample.strippedHeap_received 128) 64 2176 (by decide) (by decide) () 0
  refine hiff.mpr ⟨?_, fun _ => by decide⟩
  intro q hq
  exact absurd hq List.not_mem_nil

/-- With a second segment the packet claims 64 bytes and has 124; and without headroom a packet whose tag
was stripped is queued, untagged. -/
theorem answers_that_are_not_well_formed :
    (((respond Sample.prepend 0 64 () 0 (TxState.init Sample.pairHeap Sample.mem)).heap.mbuf 0).pktLen = 64 ∧
      ((walk (respond Sample.prepend 0 64 () 0 (TxState.init Sample.pairHeap Sample.mem)).heap.next 2
        (some 0)).map fun q =>
          ((respond Sample.prepend 0 64 () 0 (TxState.init Sample.pairHeap Sample.mem)).heap.mbuf q).dataLen) =
        [64, 60] ∧
      ¬ Answered 0 () (Sample.mem.bytes (Sample.pairHeap.mbuf 0).mtod 64)
        (TxState.init Sample.pairHeap Sample.mem)
        (respond Sample.prepend 0 64 () 0 (TxState.init Sample.pairHeap Sample.mem))) ∧
    (respond Sample.prepend 0 64 () 0 (TxState.init (Sample.strippedHeap 0) Sample.mem)).stored () = [0] ∧
      ¬ Answered 0 () (Sample.mem.bytes ((Sample.strippedHeap 0).mbuf 0).mtod 64)
        (TxState.init (Sample.strippedHeap 0) Sample.mem)
        (respond Sample.prepend 0 64 () 0 (TxState.init (Sample.strippedHeap 0) Sample.mem)) := by
  refine ⟨⟨rfl, by decide, ?_⟩, rfl, ?_⟩
  · intro h
    have hno : ¬ Stripped Sample.pairHeap 0 := fun hflag => hflag (by decide)
    have hempty := (respond_plain_iff Sample.prepend Sample.pairHeap_received hno).mp (h.plain hno)
    exact absurd (hempty 1 List.mem_cons_self) (by decide)
  · intro h
    have hhead : NoHeadroom (Sample.strippedHeap 0) 0 := ⟨Sample.strippedHeap_stripped 0, by decide⟩
    exact absurd (h.dropped hhead).1 (by decide)

end LazyBsd.Tx
