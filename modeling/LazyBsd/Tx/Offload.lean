/-
# LazyBsd.Tx.Offload — the offload requests of the two builds.

Both builds program a head with the same decision tree (`programOffloads`), for different flags. What the
tree does to a head is one record (`programOffloads_eq`): a word of flags that depends on the requests
and on the capability `tx_csum_l4` only, and header lengths read from the packet.

The interface promises offloads to the stack from the features of the port (`ifHwassist`). A packet that
stays within the promise has its requests on the transmitted head when the gates of the tree agree with
the promise.
-/
import LazyBsd.Lib.Flags
import LazyBsd.Port.Start
import LazyBsd.Tx.Copy
import LazyBsd.Tx.Frame

namespace LazyBsd.Tx

open Lib Port

/-! ## What the tree does to a head -/

/-- The flags that the tree sets, by the requests for an IP, TCP and UDP checksum and for segmentation. -/
def requestFlags (ipFlags udpFlags : UInt64) (txCsumL4 ip tcp udp tso : Bool) : UInt64 :=
  (if ip then ipFlags else 0) ||| (if txCsumL4 && tcp then txTcpCksum else 0) |||
    (if txCsumL4 && tso then txTcpSeg else 0) ||| (if txCsumL4 && udp then udpFlags else 0)

/-- Does the tree set the header lengths? -/
def setsLens (txCsumL4 ip tcp udp : Bool) : Bool := ip || txCsumL4 && (tcp || udp)

/-- Is segmentation requested? -/
def TxOffload.tso (o : TxOffload) : Bool := decide (o.tsoSegSize ≠ 0)

/-- **The tree** in closed form. -/
theorem programOffloads_eq (ipFlags udpFlags : UInt64) (txCsumL4 : Bool) (m : BsdChain) (mem : Mem)
    (r : RteMbuf) :
    programOffloads ipFlags udpFlags txCsumL4 m mem r =
      let o := lazybsdMbufTxOffload m
      let lens := setsLens txCsumL4 o.ipCsum o.tcpCsum o.udpCsum
      let seg := txCsumL4 && o.tso
      { r with
        olFlags := r.olFlags |||
          requestFlags ipFlags udpFlags txCsumL4 o.ipCsum o.tcpCsum o.udpCsum o.tso
        l2Len := if lens then 14 else r.l2Len
        l3Len := if lens then (iphLenOf mem r.mtod).toUInt16 else r.l3Len
        l4Len := if seg then
            ((mem (iphOf r.mtod + (iphLenOf mem r.mtod).toUInt64 + 12) &&& 0xf0) >>> 2).toUInt16
          else r.l4Len
        tsoSegsz := if seg then o.tsoSegSize else r.tsoSegsz } := by
  unfold programOffloads requestFlags setsLens TxOffload.tso
  generalize lazybsdMbufTxOffload m = o
  rcases o with ⟨ip, tcp, udp, sctp, segsz⟩
  by_cases hseg : segsz = 0
  · cases txCsumL4 <;> cases ip <;> cases tcp <;> cases udp <;>
      simp [setHeaderLens, hseg, UInt64.or_assoc]
  · cases txCsumL4 <;> cases ip <;> cases tcp <;> cases udp <;>
      simp [setHeaderLens, hseg, UInt64.or_assoc]

/-- The bits of the requests. -/
def txRequestMask : UInt64 := txTcpSeg ||| txL4Mask ||| txIpCksum ||| txIpv4

/-- The flags that `lazybsd_offload_set` sets. -/
abbrev pageFlags (txCsumL4 ip tcp udp tso : Bool) : UInt64 :=
  requestFlags (txTcpCksum ||| txIpv4) txTcpCksum txCsumL4 ip tcp udp tso

/-- The flags that the inline code sets. -/
abbrev copiedFlags (txCsumL4 ip tcp udp tso : Bool) : UInt64 :=
  requestFlags (txIpCksum ||| txIpv4) txUdpCksum txCsumL4 ip tcp udp tso

theorem requestFlags_inside (txCsumL4 ip tcp udp tso : Bool) :
    pageFlags txCsumL4 ip tcp udp tso &&& txRequestMask = pageFlags txCsumL4 ip tcp udp tso ∧
      copiedFlags txCsumL4 ip tcp udp tso &&& txRequestMask = copiedFlags txCsumL4 ip tcp udp tso := by
  revert txCsumL4 ip tcp udp tso
  decide

/-- The flags of the two builds. -/
theorem pageFlags_eq_iff (txCsumL4 ip tcp udp tso : Bool) :
    pageFlags txCsumL4 ip tcp udp tso = copiedFlags txCsumL4 ip tcp udp tso ↔
      ip = false ∧ ¬ (txCsumL4 = true ∧ udp = true) := by
  revert txCsumL4 ip tcp udp tso
  decide

/-! ## The two builds on one packet -/

/-- The frames at `data` and at `data'` have the same first `n` bytes. -/
def SameFrame (n : Nat) (mem : Mem) (data : Addr) (mem' : Mem) (data' : Addr) : Prop :=
  ∀ i < n, mem (data + .ofNat i) = mem' (data' + .ofNat i)

/-- The Ethernet and IP headers lie in the first `n` bytes, and so does the TCP header of a packet that
asks for segmentation. `n` is the length of a segment. -/
structure HeadersIn (n : Nat) (mem : Mem) (data : Addr) (m : BsdChain) : Prop where
  segment : n < 65536
  fixed : 34 ≤ n
  ip : 14 + (iphLenOf mem data).toNat ≤ n
  tcp : (lazybsdMbufTxOffload m).tso = true → 34 + (iphLenOf mem data).toNat ≤ n

/-- `rte_ipv4_phdr_cksum` reads the fixed IPv4 header only. -/
def PhdrRule (d : Dpdk) : Prop :=
  ∀ {mem mem' : Mem} {a a' : Addr}, SameFrame 20 mem a mem' a' →
    d.phdrCksum mem a = d.phdrCksum mem' a'

/-- Two heads and their frames are programmed alike. -/
structure SamePrograms (n : Nat) (r : RteMbuf) (mem : Mem) (r' : RteMbuf) (mem' : Mem) : Prop where
  olFlags : r.olFlags = r'.olFlags
  l2Len : r.l2Len = r'.l2Len
  l3Len : r.l3Len = r'.l3Len
  l4Len : r.l4Len = r'.l4Len
  tsoSegsz : r.tsoSegsz = r'.tsoSegsz
  frame : SameFrame n mem r.mtod mem' r'.mtod

section Frame

variable {n : Nat} {mem mem' : Mem} {data data' : Addr} {m : BsdChain}

theorem addr_add_ofNat (data : Addr) (i k : Nat) :
    data + UInt64.ofNat i + UInt64.ofNat k = data + UInt64.ofNat (i + k) := by
  rw [UInt64.add_assoc, UInt64.ofNat_add]

theorem addr_add_ofNat_inj {i k : Nat} (hi : i < 2 ^ 64) (hk : k < 2 ^ 64) :
    data + UInt64.ofNat i = data + UInt64.ofNat k ↔ i = k := by
  constructor
  · intro h
    have hcancel := congrArg UInt64.toNat ((UInt64.add_right_inj data).mp h)
    rwa [UInt64.toNat_ofNat', UInt64.toNat_ofNat', Nat.mod_eq_of_lt hi, Nat.mod_eq_of_lt hk] at hcancel
  · rintro rfl
    rfl

/-- A byte of the frame, `off` bytes in. -/
theorem SameFrame.byte (h : SameFrame n mem data mem' data') {i : Nat} (hi : i < n) :
    mem (data + .ofNat i) = mem' (data' + .ofNat i) := h i hi

/-- A part of the frame. -/
theorem SameFrame.drop (h : SameFrame n mem data mem' data') (k : Nat) {l : Nat} (hl : k + l ≤ n) :
    SameFrame l mem (data + .ofNat k) mem' (data' + .ofNat k) := by
  intro i hi
  rw [addr_add_ofNat, addr_add_ofNat]
  apply h
  omega

/-- A frame byte after a 16 bit store in the frame. -/
theorem store16_at (mem : Mem) (data : Addr) (v : UInt16) {i k : Nat} (hi : i < 2 ^ 64)
    (hk : k + 1 < 2 ^ 64) :
    Mem.store16 mem (data + .ofNat k) v (data + .ofNat i) =
      if i = k + 1 then (v >>> 8).toUInt8 else if i = k then v.toUInt8 else mem (data + .ofNat i) := by
  have hnext : data + UInt64.ofNat k + 1 = data + UInt64.ofNat (k + 1) := addr_add_ofNat data k 1
  rw [Mem.store16, hnext]
  simp only [Function.update_apply, addr_add_ofNat_inj hi hk,
    addr_add_ofNat_inj hi (by omega : k < 2 ^ 64)]

/-- The same 16 bit store in both frames. -/
theorem SameFrame.store16 (h : SameFrame n mem data mem' data') {k : Nat} (hn : n < 2 ^ 64)
    (hk : k + 1 < 2 ^ 64) (v : UInt16) :
    SameFrame n (Mem.store16 mem (data + .ofNat k) v) data
      (Mem.store16 mem' (data' + .ofNat k) v) data' := by
  intro i hi
  rw [store16_at mem data v (by omega) hk, store16_at mem' data' v (by omega) hk, h i hi]

theorem iphLenOf_eq (h : SameFrame n mem data mem' data') (hn : 34 ≤ n) :
    iphLenOf mem data = iphLenOf mem' data' := by
  have hbyte : mem (iphOf data) = mem' (iphOf data') := h.byte (i := 14) (by omega)
  rw [iphLenOf, iphLenOf, hbyte]

/-- An address in the L4 header. -/
theorem iphOf_add (mem : Mem) (data : Addr) (k : Nat) :
    iphOf data + (iphLenOf mem data).toUInt64 + .ofNat k =
      data + .ofNat (14 + (iphLenOf mem data).toNat + k) := by
  have hlen : (iphLenOf mem data).toUInt64 = UInt64.ofNat (iphLenOf mem data).toNat := by
    apply UInt64.toNat_inj.mp
    have := (iphLenOf mem data).toNat_lt
    rw [UInt8.toNat_toUInt64, UInt64.toNat_ofNat', Nat.mod_eq_of_lt (by omega)]
  rw [hlen, ← addr_add_ofNat, ← addr_add_ofNat]
  rfl

/-- The frame after the pseudo header checksum was written, in either build. -/
theorem offloadMem_sameFrame {d : Dpdk} (hphdr : PhdrRule d) (h : SameFrame n mem data mem' data')
    (hin : HeadersIn n mem data m) (txCsumL4 : Bool) :
    SameFrame n (offloadMem d txCsumL4 m data mem) data (copiedOffloadMem d txCsumL4 m data' mem') data' := by
  unfold offloadMem copiedOffloadMem
  by_cases hwants : wantsTso txCsumL4 m = true
  · have hsum : d.phdrCksum mem (iphOf data) = d.phdrCksum mem' (iphOf data') :=
      hphdr (h.drop 14 (by have := hin.fixed; omega))
    have hseg := hin.segment
    have hbyte := (iphLenOf mem data).toNat_lt
    rw [if_pos hwants, if_pos hwants, hsum]
    have haddr : tcpCksumAddr mem data = data + .ofNat (14 + (iphLenOf mem data).toNat + 16) :=
      iphOf_add mem data 16
    have haddr' : tcpCksumAddr mem' data' = data' + .ofNat (14 + (iphLenOf mem data).toNat + 16) := by
      rw [iphLenOf_eq h hin.fixed]
      exact iphOf_add mem' data' 16
    rw [haddr, haddr']
    exact h.store16 (by omega) (by omega) _
  · rw [if_neg hwants, if_neg hwants]
    exact h

end Frame

/-- **The two builds program a packet alike exactly when it asks for no IP checksum, and for no UDP
checksum on an interface with `tx_csum_l4`.** The heads have the same fields and no request yet, the
frames the same bytes. -/
theorem builds_program_alike_iff {d : Dpdk} (hphdr : PhdrRule d) (hw : HwFeatures) (m : BsdChain)
    {n : Nat} {mem mem' : Mem} {r r' : RteMbuf} (hsame : SamePrograms n r mem r' mem')
    (hclear : r.olFlags &&& txRequestMask = 0) (hin : HeadersIn n mem r.mtod m) :
    SamePrograms n (offloadHead hw.txCsumL4 m mem r) (offloadMem d hw.txCsumL4 m r.mtod mem)
        (copiedOffloadHead hw.txCsumL4 m mem' r') (copiedOffloadMem d hw.txCsumL4 m r'.mtod mem') ↔
      m.pkthdr.csumFlags.ip = false ∧
        ¬ (hw.txCsumL4 = true ∧ m.pkthdr.csumFlags.udp = true) := by
  have hlen := iphLenOf_eq hsame.frame hin.fixed
  have hmem := offloadMem_sameFrame hphdr hsame.frame hin hw.txCsumL4
  -- the flags decide: everything else is read from equal bytes
  have hflags := pageFlags_eq_iff hw.txCsumL4 m.pkthdr.csumFlags.ip m.pkthdr.csumFlags.tcp
    m.pkthdr.csumFlags.udp (lazybsdMbufTxOffload m).tso
  rcases requestFlags_inside hw.txCsumL4 m.pkthdr.csumFlags.ip m.pkthdr.csumFlags.tcp
    m.pkthdr.csumFlags.udp (lazybsdMbufTxOffload m).tso with ⟨hpage, hcopied⟩
  rw [← hflags, ← or_eq_or_iff hclear hpage hcopied]
  rw [offloadHead_eq, copiedOffloadHead, programOffloads_eq, programOffloads_eq]
  constructor
  · intro hprog
    have hword := hprog.olFlags
    rw [← hsame.olFlags] at hword
    exact hword
  · intro hword
    refine ⟨?_, ?_, ?_, ?_, ?_, hmem⟩
    · dsimp only
      rw [← hsame.olFlags]
      exact hword
    · dsimp only
      rw [hsame.l2Len]
    · dsimp only
      rw [hsame.l3Len, hlen]
    · dsimp only
      rw [hsame.l4Len]
      cases hseg : (hw.txCsumL4 && (lazybsdMbufTxOffload m).tso) with
      | false => rfl
      | true =>
          have htcp := hin.tcp (Bool.and_eq_true_iff.mp hseg).2
          have hoff : mem (iphOf r.mtod + (iphLenOf mem r.mtod).toUInt64 + 12) =
              mem' (iphOf r'.mtod + (iphLenOf mem' r'.mtod).toUInt64 + 12) := by
            have hpage := iphOf_add mem r.mtod 12
            have hcopied := iphOf_add mem' r'.mtod 12
            rw [← hlen] at hcopied
            rw [show (12 : UInt64) = UInt64.ofNat 12 from rfl, hpage, ← hlen, hcopied]
            apply hsame.frame
            omega
          rw [if_pos rfl, if_pos rfl, hoff]
    · dsimp only
      rw [hsame.tsoSegsz]

namespace Sample

/-- `rte_ipv4_phdr_cksum` with segmentation: the addresses and the protocol, no length. -/
def phdrCksum (mem : Mem) (iph : Addr) : UInt16 :=
  let byte (i : Nat) : Nat := (mem (iph + .ofNat i)).toNat
  let word (i : Nat) : Nat := byte i + 256 * byte (i + 1)
  let sum := word 12 + word 14 + word 16 + word 18 + 256 * byte 9
  let sum := sum / 65536 + sum % 65536
  .ofNat (sum / 65536 + sum % 65536)

/-- The library with this checksum. -/
def summing : Dpdk := { dpdk fun _ => true with phdrCksum := phdrCksum }

theorem summing_phdrRule : PhdrRule summing := by
  intro mem mem' a a' h
  have hbyte (i : Nat) (hi : i < 20) : mem (a + .ofNat i) = mem' (a' + .ofNat i) := h i hi
  show phdrCksum mem a = phdrCksum mem' a'
  simp only [phdrCksum, Nat.reduceAdd, hbyte 9 (by decide), hbyte 12 (by decide),
    hbyte 13 (by decide), hbyte 14 (by decide), hbyte 15 (by decide), hbyte 16 (by decide),
    hbyte 17 (by decide), hbyte 18 (by decide), hbyte 19 (by decide)]

/-- A packet in the first page with the given requests. -/
def asking (csum : CsumFlags) (tsoSegsz : UInt16) : BsdChain := ⟨⟨60, csum, tsoSegsz⟩, pageMbuf, []⟩

/-- Its memory: an IP header without options and a TCP header without options. -/
def tcpMem : Mem := fun a => if a = 0x10004e then 0x45 else if a = 0x10006e then 0x50 else 0

/-- Its head. -/
def pageHead : RteMbuf := { blank with bufAddr := 0x100040, dataLen := 60, pktLen := 60 }

theorem pageHead_headersIn (csum : CsumFlags) (tsoSegsz : UInt16) :
    HeadersIn 60 tcpMem pageHead.mtod (asking csum tsoSegsz) where
  segment := by decide
  fixed := by decide
  ip := by decide
  tcp _ := by decide

theorem samePrograms_refl (n : Nat) (r : RteMbuf) (mem : Mem) : SamePrograms n r mem r mem :=
  ⟨rfl, rfl, rfl, rfl, rfl, fun _ _ => rfl⟩

/-- A TCP packet to be segmented, and one that asks for an IP checksum. -/
def tsoPacket : BsdChain := asking ⟨false, true, false, false, true⟩ 1460
def ipPacket : BsdChain := asking ⟨true, false, false, false, false⟩ 0

/-- An interface with all features. -/
def allFeatures : HwFeatures := ⟨true, true, true, true⟩

end Sample

theorem builds_program_alike_tso :
    SamePrograms 60
      (offloadHead true Sample.tsoPacket Sample.tcpMem Sample.pageHead)
      (offloadMem Sample.summing true Sample.tsoPacket Sample.pageHead.mtod Sample.tcpMem)
      (copiedOffloadHead true Sample.tsoPacket Sample.tcpMem Sample.pageHead)
      (copiedOffloadMem Sample.summing true Sample.tsoPacket Sample.pageHead.mtod Sample.tcpMem) :=
  (builds_program_alike_iff Sample.summing_phdrRule Sample.allFeatures Sample.tsoPacket
    (Sample.samePrograms_refl 60 Sample.pageHead Sample.tcpMem) (by decide)
    (Sample.pageHead_headersIn _ _)).mpr (by decide)

/-- For an IP checksum the page-array build sets the TCP flag and the copying build the IP flag. -/
theorem ip_checksum_is_programmed_differently : PhdrRule Sample.summing ∧
    Sample.pageHead.olFlags &&& txRequestMask = 0 ∧
    HeadersIn 60 Sample.tcpMem Sample.pageHead.mtod Sample.ipPacket ∧
    ¬ SamePrograms 60
      (offloadHead true Sample.ipPacket Sample.tcpMem Sample.pageHead)
      (offloadMem Sample.summing true Sample.ipPacket Sample.pageHead.mtod Sample.tcpMem)
      (copiedOffloadHead true Sample.ipPacket Sample.tcpMem Sample.pageHead)
      (copiedOffloadMem Sample.summing true Sample.ipPacket Sample.pageHead.mtod Sample.tcpMem) := by
  refine ⟨Sample.summing_phdrRule, by decide, Sample.pageHead_headersIn _ _, ?_⟩
  intro hsame
  exact absurd hsame.olFlags (by decide)

/-! ## What the interface promises -/

/-- The `if_hwassist` that `lazybsd_veth_setup_interface` builds from the features of the port. -/
def ifHwassist (hw : HwFeatures) : CsumFlags where
  ip := hw.txCsumIp
  tcp := hw.txCsumL4
  udp := hw.txCsumL4
  sctp := false
  tso := hw.txTso

/-- The packet asks for nothing else than `A`, and for a segment size with segmentation. -/
structure AsksWithin (m : BsdChain) (A : CsumFlags) : Prop where
  ip : m.pkthdr.csumFlags.ip = true → A.ip = true
  tcp : m.pkthdr.csumFlags.tcp = true → A.tcp = true
  udp : m.pkthdr.csumFlags.udp = true → A.udp = true
  sctp : m.pkthdr.csumFlags.sctp = true → A.sctp = true
  tso : m.pkthdr.csumFlags.tso = true → A.tso = true ∧ m.pkthdr.tsoSegsz ≠ 0

/-- The flags a NIC looks for; the L4 checksum is a field of two bits. -/
def FlagsFor (word : UInt64) (ip tcp udp tso : Bool) : Prop :=
  (ip = true → word &&& txIpCksum = txIpCksum) ∧ (tcp = true → word &&& txL4Mask = txTcpCksum) ∧
    (udp = true → word &&& txL4Mask = txUdpCksum) ∧
    (tso = true → word &&& txTcpSeg = txTcpSeg ∧ word &&& txIpv4 = txIpv4)

instance (word : UInt64) (ip tcp udp tso : Bool) : Decidable (FlagsFor word ip tcp udp tso) :=
  inferInstanceAs (Decidable (_ ∧ _ ∧ _ ∧ _))

/-- The lengths of the packet's headers, with the segment size. -/
structure LensFor (m : BsdChain) (mem : Mem) (r : RteMbuf) : Prop where
  l2 : r.l2Len = 14
  l3 : r.l3Len.toNat = (mem (iphOf r.mtod)).toNat % 16 * 4
  l4 : r.l4Len.toNat = (mem (iphOf r.mtod + r.l3Len.toUInt64 + 12)).toNat / 16 * 4
  segsz : r.tsoSegsz = m.pkthdr.tsoSegsz

/-- The head has a request for everything that the packet asks for. -/
def Requested (m : BsdChain) (mem : Mem) (r : RteMbuf) : Prop :=
  FlagsFor r.olFlags m.pkthdr.csumFlags.ip m.pkthdr.csumFlags.tcp m.pkthdr.csumFlags.udp
    m.pkthdr.csumFlags.tso ∧ (m.pkthdr.csumFlags.tso = true → LensFor m mem r)

/-- Within the promise, the flags of the inline code are the right ones unless a packet asks for both L4
checksums, or for segmentation where the IP or the L4 checksum is not offloaded. -/
theorem copiedFlags_for_iff (txCsumL4 ip tcp udp tso : Bool) (htcp : tcp = true → txCsumL4 = true)
    (hudp : udp = true → txCsumL4 = true) :
    FlagsFor (copiedFlags txCsumL4 ip tcp udp tso) ip tcp udp tso ↔
      ¬ (tcp = true ∧ udp = true) ∧ (tso = true → txCsumL4 = true ∧ ip = true) := by
  revert txCsumL4 ip tcp udp tso
  decide

/-- The flags of `lazybsd_offload_set` are right for the TCP checksum only. -/
theorem pageFlags_for_iff (txCsumL4 ip tcp udp tso : Bool) (htcp : tcp = true → txCsumL4 = true)
    (hudp : udp = true → txCsumL4 = true) :
    FlagsFor (pageFlags txCsumL4 ip tcp udp tso) ip tcp udp tso ↔
      ip = false ∧ udp = false ∧ tso = false := by
  revert txCsumL4 ip tcp udp tso
  decide

/-- On a head without requests only the flags of the tree count. -/
theorem flagsFor_or_iff {a word : UInt64} (ha : a &&& txRequestMask = 0) (ip tcp udp tso : Bool) :
    FlagsFor (a ||| word) ip tcp udp tso ↔ FlagsFor word ip tcp udp tso := by
  have hread (f : UInt64) (hf : txRequestMask &&& f = f) : (a ||| word) &&& f = word &&& f := by
    have hzero : a &&& f = 0 := by
      rw [← hf, ← UInt64.and_assoc, ha, UInt64.zero_and]
    rw [or_and_mask, hzero, UInt64.zero_or]
  rw [FlagsFor, FlagsFor, hread txIpCksum (by decide), hread txL4Mask (by decide),
    hread txTcpSeg (by decide), hread txIpv4 (by decide)]

/-- The two length fields of the headers, in bytes. -/
theorem ihl_toNat (b : UInt8) : ((b &&& 0x0f) <<< 2).toUInt16.toNat = b.toNat % 16 * 4 := by
  have hall : ∀ n : Fin 256, ((UInt8.ofNat n &&& 0x0f) <<< 2).toUInt16.toNat = n % 16 * 4 := by decide +kernel
  have hb := hall ⟨b.toNat, b.toNat_lt⟩
  rwa [UInt8.ofNat_toNat] at hb

theorem dataOff_toNat (b : UInt8) : ((b &&& 0xf0) >>> 2).toUInt16.toNat = b.toNat / 16 * 4 := by
  have hall : ∀ n : Fin 256, ((UInt8.ofNat n &&& 0xf0) >>> 2).toUInt16.toNat = n / 16 * 4 := by decide +kernel
  have hb := hall ⟨b.toNat, b.toNat_lt⟩
  rwa [UInt8.ofNat_toNat] at hb

/-- The checksum is stored behind the two length fields. -/
theorem offloadMem_lens (d : Dpdk) (txCsumL4 : Bool) (m : BsdChain) (data : Addr) (mem : Mem) :
    offloadMem d txCsumL4 m data mem (iphOf data) = mem (iphOf data) ∧
      offloadMem d txCsumL4 m data mem (iphOf data + (iphLenOf mem data).toUInt64 + 12) =
        mem (iphOf data + (iphLenOf mem data).toUInt64 + 12) := by
  unfold offloadMem
  split
  · have hlt := (iphLenOf mem data).toNat_lt
    have hsum : tcpCksumAddr mem data = data + .ofNat (14 + (iphLenOf mem data).toNat + 16) :=
      iphOf_add mem data 16
    have hoff : iphOf data + (iphLenOf mem data).toUInt64 + 12 =
        data + .ofNat (14 + (iphLenOf mem data).toNat + 12) := iphOf_add mem data 12
    have hip : iphOf data = data + .ofNat 14 := rfl
    rw [hsum, hoff]
    constructor
    · rw [hip, store16_at _ _ _ (by decide) (by omega), if_neg (by omega), if_neg (by omega)]
    · rw [store16_at _ _ _ (by omega) (by omega), if_neg (by omega), if_neg (by omega)]
  · exact ⟨rfl, rfl⟩

/-- **The tree sets the lengths of a packet to be segmented**, where it sets the header lengths at all. -/
theorem programOffloads_lens (d : Dpdk) (ipFlags udpFlags : UInt64) {txCsumL4 : Bool} {m : BsdChain}
    (mem : Mem) (r : RteMbuf) (htso : m.pkthdr.csumFlags.tso = true) (hseg : m.pkthdr.tsoSegsz ≠ 0)
    (hl4 : txCsumL4 = true) (hip : m.pkthdr.csumFlags.ip = true) :
    LensFor m (offloadMem d txCsumL4 m r.mtod mem)
      (programOffloads ipFlags udpFlags txCsumL4 m mem r) := by
  have ho : (lazybsdMbufTxOffload m).tsoSegSize = m.pkthdr.tsoSegsz := by
    simp [lazybsdMbufTxOffload, htso]
  have hset : (txCsumL4 && (lazybsdMbufTxOffload m).tso) = true := by
    simp [hl4, TxOffload.tso, ho, hseg]
  have hlens : setsLens txCsumL4 (lazybsdMbufTxOffload m).ipCsum (lazybsdMbufTxOffload m).tcpCsum
      (lazybsdMbufTxOffload m).udpCsum = true := by
    simp [setsLens, lazybsdMbufTxOffload, hip]
  rcases offloadMem_lens d txCsumL4 m r.mtod mem with ⟨hihl, hdataOff⟩
  have hwide : (iphLenOf mem r.mtod).toUInt16.toUInt64 = (iphLenOf mem r.mtod).toUInt64 := by simp
  rw [programOffloads_eq]
  simp only [hset, hlens, if_true]
  refine ⟨rfl, ?_, ?_, ho⟩
  · show (iphLenOf mem r.mtod).toUInt16.toNat = (offloadMem d txCsumL4 m r.mtod mem (iphOf r.mtod)).toNat % 16 * 4
    rw [hihl]
    exact ihl_toNat _
  · show _ = (offloadMem d txCsumL4 m r.mtod mem
      (iphOf r.mtod + (iphLenOf mem r.mtod).toUInt16.toUInt64 + 12)).toNat / 16 * 4
    rw [hwide, hdataOff]
    exact dataOff_toNat _

/-! ## The transmitted heads -/

/-- What DPDK says of the flags of the mbufs it returns: none on a fresh mbuf, and the requests of the
source on a clone. -/
structure FlagRules (d : Dpdk) : Prop where
  fresh : ∀ n, (d.fresh n).olFlags = 0
  cloned : ∀ {h h' : RteHeap} {src p : Nat} {segs : List Nat}, Linked h.next (some src) segs →
    (∀ q ∈ segs, q < h.allocs) → d.clone h src = (some p, h') →
    (h'.mbuf p).olFlags &&& txRequestMask = (h.mbuf src).olFlags &&& txRequestMask

/-- A cluster the stack holds was received: its segments were handed out, and no request was made on
it. -/
def ReceivedClean (h : RteHeap) (m : BsdChain) : Prop :=
  ∀ src, lazybsdRteFrmExtcl m.first = some src →
    (∃ segs, Linked h.next (some src) segs ∧ ∀ q ∈ segs, q < h.allocs) ∧
      (h.mbuf src).olFlags &&& txRequestMask = 0

/-- A head has no requests before the offload code runs. -/
theorem headOf_clean {d : Dpdk} {pg : PageArray} {m : BsdChain} {total : UInt32} {h h' : RteHeap}
    {p : Nat} (hd : FlagRules d) (hsrc : ReceivedClean h m)
    (hhead : headOf d pg m total h = some (some p, h')) :
    (h'.mbuf p).olFlags &&& txRequestMask = 0 := by
  cases hvma : pg.lazybsdChkVma (lazybsdMbufMtod m) with
  | true =>
      rcases headOf_page hvma hhead with ⟨rfl, hframe⟩
      rw [headOf, if_pos hvma] at hhead
      have hlt : h.allocs < h'.allocs := by
        rw [hframe.allocs]
        simp [windowsOf, BsdChain.mbufs]
      rw [(lazybsdBsdToRte_refMbufs hd.fresh hhead h.allocs le_rfl hlt).1, UInt64.zero_and]
  | false =>
      rcases headOf_clone (by simp [hvma]) hhead with ⟨src, hfrm, hclone⟩
      rcases hsrc src hfrm with ⟨⟨segs, hl, hborn⟩, hclean⟩
      rw [hd.cloned hl hborn hclone]
      exact hclean

section Requests

variable {hw : HwFeatures} {m : BsdChain} {r : RteMbuf}

/-- With a segment size, segmentation is asked for exactly by its flag. -/
theorem AsksWithin.offload_tso {A : CsumFlags} (h : AsksWithin m A) :
    (lazybsdMbufTxOffload m).tso = m.pkthdr.csumFlags.tso := by
  unfold TxOffload.tso lazybsdMbufTxOffload
  cases htso : m.pkthdr.csumFlags.tso with
  | false => simp
  | true => simp [(h.tso htso).2]

/-- The page-array build. -/
theorem requested_page_iff (h : AsksWithin m (ifHwassist hw)) (hclear : r.olFlags &&& txRequestMask = 0)
    (mem mem' : Mem) :
    Requested m mem' (offloadHead hw.txCsumL4 m mem r) ↔ m.pkthdr.csumFlags.ip = false ∧
      m.pkthdr.csumFlags.udp = false ∧ m.pkthdr.csumFlags.tso = false := by
  have hflags := pageFlags_for_iff hw.txCsumL4 m.pkthdr.csumFlags.ip m.pkthdr.csumFlags.tcp
    m.pkthdr.csumFlags.udp m.pkthdr.csumFlags.tso h.tcp h.udp
  have hword : (offloadHead hw.txCsumL4 m mem r).olFlags = r.olFlags |||
      pageFlags hw.txCsumL4 m.pkthdr.csumFlags.ip m.pkthdr.csumFlags.tcp m.pkthdr.csumFlags.udp
        m.pkthdr.csumFlags.tso := by
    rw [offloadHead_eq, programOffloads_eq, ← h.offload_tso]
    rfl
  rw [Requested, hword, flagsFor_or_iff hclear, hflags]
  constructor
  · intro hreq
    exact hreq.1
  · intro hno
    refine ⟨hno, ?_⟩
    intro htso
    rw [hno.2.2] at htso
    cases htso

/-- The copying build. -/
theorem requested_copied_iff (d : Dpdk) (h : AsksWithin m (ifHwassist hw))
    (hclear : r.olFlags &&& txRequestMask = 0) (mem : Mem) :
    Requested m (copiedOffloadMem d hw.txCsumL4 m r.mtod mem) (copiedOffloadHead hw.txCsumL4 m mem r) ↔
      ¬ (m.pkthdr.csumFlags.tcp = true ∧ m.pkthdr.csumFlags.udp = true) ∧
        (m.pkthdr.csumFlags.tso = true → hw.txCsumL4 = true ∧ m.pkthdr.csumFlags.ip = true) := by
  have hflags := copiedFlags_for_iff hw.txCsumL4 m.pkthdr.csumFlags.ip m.pkthdr.csumFlags.tcp
    m.pkthdr.csumFlags.udp m.pkthdr.csumFlags.tso h.tcp h.udp
  have hword : (copiedOffloadHead hw.txCsumL4 m mem r).olFlags = r.olFlags |||
      copiedFlags hw.txCsumL4 m.pkthdr.csumFlags.ip m.pkthdr.csumFlags.tcp m.pkthdr.csumFlags.udp
        m.pkthdr.csumFlags.tso := by
    rw [copiedOffloadHead, programOffloads_eq, ← h.offload_tso]
    rfl
  rw [Requested, hword, flagsFor_or_iff hclear, hflags]
  constructor
  · intro hreq
    exact hreq.1
  · intro hgates
    refine ⟨hgates, ?_⟩
    intro htso
    rcases hgates.2 htso with ⟨hl4, hip⟩
    exact programOffloads_lens d _ _ mem r htso (h.tso htso).2 hl4 hip

end Requests

/-- **The promised offloads.** For the features of any port, and a packet within what its interface
promises: the head that the page-array build transmits has all requests exactly when the packet asks for
no IP checksum, no UDP checksum and no segmentation; the head that the copying build transmits, exactly
when it does not ask for both L4 checksums, and asks for segmentation only together with an IP checksum
on a port with `tx_csum_l4`. -/
theorem promised_offloads_are_requested_iff {d : Dpdk} (hd : FlagRules d) {hw : HwFeatures}
    {m : BsdChain} (hasks : AsksWithin m (ifHwassist hw)) :
    (∀ {Port : Type} [DecidableEq Port] {pg : PageArray} {port : Port} {total : UInt32}
        {s s' : TxState Port} {n : Nat}, ReceivedClean s.heap m →
      lazybsdIfSendOnepkt d pg (fun _ => hw.txCsumL4) port (some m) total s = some (n, s') → n ≠ 0 →
      (Requested m s'.mem (s'.heap.mbuf ((s'.txMbufs port).mTable (n - 1))) ↔
        m.pkthdr.csumFlags.ip = false ∧ m.pkthdr.csumFlags.udp = false ∧
          m.pkthdr.csumFlags.tso = false)) ∧
    ∀ {total : UInt32} {h h' : RteHeap} {mem mem' : Mem} {head : Nat},
      copyPacket d hw.txCsumL4 m total h mem = (some head, h', mem') →
      (Requested m mem' (h'.mbuf head) ↔
        ¬ (m.pkthdr.csumFlags.tcp = true ∧ m.pkthdr.csumFlags.udp = true) ∧
          (m.pkthdr.csumFlags.tso = true → hw.txCsumL4 = true ∧ m.pkthdr.csumFlags.ip = true)) := by
  constructor
  · intro Port _ pg port total s s' n hsrc hsend hn
    rcases lazybsdIfSendOnepkt_queued hsend hn with ⟨p, heap, hhead, hlen, rfl⟩
    have hslot : (((storeGiven port p (heap.modify p (offloadHead hw.txCsumL4 m s.mem))
        (offloadMem d hw.txCsumL4 m (heap.mbuf p).mtod s.mem) s).txMbufs port).mTable (n - 1)) = p := by
      simp [storeGiven, hlen]
    rw [hslot]
    show Requested m _ ((heap.modify p (offloadHead hw.txCsumL4 m s.mem)).mbuf p) ↔ _
    rw [RteHeap.modify_mbuf_self]
    exact requested_page_iff hasks (headOf_clean hd hsrc hhead) _ _
  · intro total h h' mem mem' head hsend
    rcases copyPacket_head hsend with ⟨r, mem₀, hfresh, hhead, rfl⟩
    rw [hhead]
    apply requested_copied_iff d hasks
    rw [hfresh.olFlags, hd.fresh, UInt64.zero_and]

/-! ### Packets within the promise -/

namespace Sample

theorem summing_flagRules : FlagRules summing := by
  refine ⟨fun _ => rfl, ?_⟩
  intro h h' src p segs hl hborn hclone
  have hfits : cloneFits (fun _ => true) h segs = true := by simp [cloneFits]
  have hres : summing.clone h src = (some h.allocs, cloneSegs h src segs) := by
    simp only [summing, dpdk, Dpdk.mempool, RteHeap.walk_handedOut hl hborn, if_pos hfits]
  rw [hres] at hclone
  rcases Prod.mk.inj hclone with ⟨hp, rfl⟩
  rcases Option.some.inj hp with rfl
  cases hl with
  | cons htail =>
      simp only [cloneSegs, Nat.lt_irrefl, if_false, Nat.sub_self, List.getElem?_cons_zero]
      rfl

/-- A chain in pages has no cluster. -/
theorem asking_clean (h : RteHeap) (csum : CsumFlags) (tsoSegsz : UInt16) :
    ReceivedClean h (asking csum tsoSegsz) := by
  intro src hsrc
  cases hsrc

/-- A port whose device has the transmit capabilities `capa`. -/
def capableDev (capa : UInt64) : EthDev where
  rssProtoMask := 0
  infoGet _ := .ok ⟨1, 1, 40, 0, capa, 0, 0⟩
  configure _ _ _ := 0
  adjustNbDesc _ n := n
  txQueueSetup _ _ _ _ := 0
  rxQueueSetup _ _ _ _ := 0
  start _ := 0
  rssRetaUpdate _ _ _ := 0

/-- A TCP packet to be segmented, with the IP checksum that goes with it. -/
def segmentPacket : BsdChain := asking ⟨true, true, false, false, true⟩ 1460

/-- One port, with segmentation configured. -/
def tsoCfg : DpdkCfg := ⟨[0], fun _ => ⟨1, []⟩, false, false, false, true, false, true, 1⟩

/-- The send of the page-array build. -/
def pageSend (hw : HwFeatures) (m : BsdChain) : Option (Nat × TxState Unit) :=
  lazybsdIfSendOnepkt summing pages (fun _ => hw.txCsumL4) () (some m) 60 (.init heap tcpMem)

end Sample

/-- A segmented packet with its IP checksum: the copying build requests everything, the page-array build
does not. -/
theorem promised_offloads_are_requested_segments :
    (∃ n s', Sample.pageSend Sample.allFeatures Sample.segmentPacket = some (n, s') ∧
      ¬ Requested Sample.segmentPacket s'.mem (s'.heap.mbuf ((s'.txMbufs ()).mTable (n - 1)))) ∧
    ∃ head h' mem', copyPacket Sample.summing true Sample.segmentPacket 60 Sample.heap Sample.tcpMem =
        (some head, h', mem') ∧ Requested Sample.segmentPacket mem' (h'.mbuf head) := by
  have hasks : AsksWithin Sample.segmentPacket (ifHwassist Sample.allFeatures) := by
    constructor <;> decide
  have hmain := promised_offloads_are_requested_iff Sample.summing_flagRules hasks
  constructor
  · rcases Option.isSome_iff_exists.mp
      (by decide : (Sample.pageSend Sample.allFeatures Sample.segmentPacket).isSome = true) with ⟨r, hr⟩
    have hlen : (Sample.pageSend Sample.allFeatures Sample.segmentPacket).map Prod.fst = some 1 := by
      decide
    rw [hr] at hlen
    have hn : r.1 ≠ 0 := by
      rw [show r.1 = 1 from Option.some.inj hlen]
      decide
    refine ⟨r.1, r.2, hr, ?_⟩
    rw [hmain.1 (Sample.asking_clean _ _ _) hr hn]
    decide
  · rcases copyPacket_ok (d := Sample.summing) (m := Sample.segmentPacket) (h := Sample.heap)
      (fun _ => rfl) Sample.tcpMem true 60 (by decide) with ⟨head, h', mem', hsend⟩
    exact ⟨head, h', mem', hsend, (hmain.2 hsend).mpr (by decide)⟩

/-- A device with the IP checksum: the promised checksum is not requested by the page-array build. A
device with segmentation and the L4 checksums only: a segmentation promised to the stack is requested
incompletely by the copying build. -/
theorem promises_are_broken : FlagRules Sample.summing ∧
    (∃ ps, initPortStart Sample.tsoCfg (Sample.capableDev txOffloadIpv4Cksum) .init = .ok ps ∧
      AsksWithin Sample.ipPacket (ifHwassist (ps.hwFeatures 0)) ∧
      ∃ n s', Sample.pageSend (ps.hwFeatures 0) Sample.ipPacket = some (n, s') ∧ n ≠ 0 ∧
        ¬ Requested Sample.ipPacket s'.mem (s'.heap.mbuf ((s'.txMbufs ()).mTable (n - 1)))) ∧
    ∃ ps, initPortStart Sample.tsoCfg (Sample.capableDev
        (txOffloadTcpTso ||| txOffloadTcpCksum ||| txOffloadUdpCksum)) .init = .ok ps ∧
      AsksWithin Sample.tsoPacket (ifHwassist (ps.hwFeatures 0)) ∧
      ∃ head h' mem', copyPacket Sample.summing (ps.hwFeatures 0).txCsumL4 Sample.tsoPacket 60 Sample.heap
          Sample.tcpMem = (some head, h', mem') ∧
        ¬ Requested Sample.tsoPacket mem' (h'.mbuf head) := by
  refine ⟨Sample.summing_flagRules, ⟨_, rfl, by constructor <;> decide, ?_⟩,
    ⟨_, rfl, by constructor <;> decide, ?_⟩⟩
  · show ∃ n s', Sample.pageSend ⟨false, true, false, false⟩ Sample.ipPacket = some (n, s') ∧ n ≠ 0 ∧ _
    rcases Option.isSome_iff_exists.mp
      (by decide : (Sample.pageSend ⟨false, true, false, false⟩ Sample.ipPacket).isSome = true) with
        ⟨r, hr⟩
    have hend : (Sample.pageSend ⟨false, true, false, false⟩ Sample.ipPacket).map
        (fun r => (r.1, (r.2.heap.mbuf ((r.2.txMbufs ()).mTable 0)).olFlags)) =
          some (1, txTcpCksum ||| txIpv4) := by decide
    rw [hr] at hend
    rcases Prod.mk.inj (Option.some.inj hend) with ⟨hlen, hword⟩
    refine ⟨r.1, r.2, hr, by rw [hlen]; decide, ?_⟩
    intro hreq
    have hflag := hreq.1.1 rfl
    rw [hlen] at hflag
    rw [Nat.sub_self, hword] at hflag
    exact absurd hflag (by decide)
  · rcases copyPacket_ok (d := Sample.summing) (m := Sample.tsoPacket) (h := Sample.heap)
      (fun _ => rfl) Sample.tcpMem true 60 (by decide) with ⟨head, h', mem', hsend⟩
    refine ⟨head, h', mem', hsend, ?_⟩
    rcases copyPacket_head hsend with ⟨r, mem₀, hfresh, hhead, -⟩
    intro hreq
    have hflag := (hreq.1.2.2.2 rfl).2
    have hword : (copiedOffloadHead true Sample.tsoPacket mem₀ r).olFlags =
        txTcpCksum ||| txTcpSeg := by
      rw [copiedOffloadHead, programOffloads_eq]
      show r.olFlags ||| copiedFlags true false true false true = _
      rw [hfresh.olFlags]
      decide
    rw [hhead, hword] at hflag
    exact absurd hflag (by decide)

end LazyBsd.Tx
