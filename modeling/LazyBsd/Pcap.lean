/-
# LazyBsd.Pcap — the capture files that `lazybsd_dump_packets` writes.

A file is a header and a row of records; when the bytes counted in `g_flen` reach `save_len`, the next
one of ten is opened. The length that a packet is cut to is kept in the parameter `snap_len` itself, and
the header of the next file gets what the parameter holds then: that of a packet shorter than the
configured length, when such a one filled the file. What is written to a file counts as written; a file
that cannot be opened ends the process.
-/
import Mathlib.Algebra.GroupWithZero.Nat
import LazyBsd.Lib.LittleEndian
import LazyBsd.Lib.Run

namespace LazyBsd.Pcap

open Lib Lib.LittleEndian

def filePathLen : Nat := 64
def pcapFileNum : UInt32 := 10

/-! ## The format -/

structure PcapFileHeader where
  magic : UInt32
  versionMajor : UInt16
  versionMinor : UInt16
  thiszone : Int32
  sigfigs : UInt32
  snaplen : UInt32
  linktype : UInt32
deriving DecidableEq, Repr

structure PcapPkthdr where
  sec : UInt32
  usec : UInt32
  caplen : UInt32
  len : UInt32
deriving DecidableEq, Repr

/-- The structures as they lie in memory. -/
def PcapFileHeader.bytes (h : PcapFileHeader) : List UInt8 :=
  le 4 h.magic.toNat ++ le 2 h.versionMajor.toNat ++ le 2 h.versionMinor.toNat ++
    le 4 h.thiszone.toUInt32.toNat ++ le 4 h.sigfigs.toNat ++ le 4 h.snaplen.toNat ++
    le 4 h.linktype.toNat

def PcapPkthdr.bytes (h : PcapPkthdr) : List UInt8 :=
  le 4 h.sec.toNat ++ le 4 h.usec.toNat ++ le 4 h.caplen.toNat ++ le 4 h.len.toNat

/-- The `data_len` bytes of a segment. -/
structure Seg where
  data : List UInt8
  short : data.length < 2 ^ 16

def Seg.dataLen (s : Seg) : UInt16 := UInt16.ofNat s.data.length

/-- A packet: `pkt_len` is the sum of the `data_len` of its segments. -/
structure Packet where
  pktLen : UInt32
  first : Seg
  rest : List Seg
  whole : ((first :: rest).map fun s => s.data.length).sum = pktLen.toNat

def Packet.segs (p : Packet) : List Seg := p.first :: p.rest

/-- The bytes of the packet. -/
def Packet.bytes (p : Packet) : List UInt8 := p.segs.flatMap Seg.data

/-! ## The code -/

/-- A file and what was written to it. -/
structure PcapFile where
  path : String
  bytes : List UInt8
deriving DecidableEq, Repr

/-- `g_pcap_fp`, `seq` and `g_flen` of a thread, and the files it has opened before. -/
structure Capturing where
  files : List PcapFile
  gPcapFp : Option PcapFile
  seq : UInt32
  gFlen : UInt32
deriving DecidableEq, Repr

/-- A thread that has opened none. -/
def Capturing.start : Capturing := ⟨[], none, 0, 0⟩

/-- What the calls of a thread have in common. -/
structure Config where
  dumpPath : Option String
  lcoreId : UInt32
  snapLen : UInt16
  saveLen : UInt32
deriving DecidableEq, Repr

/-- `pcap_f_path`: `snprintf` keeps the room for the terminator. -/
def pcapFPath (dumpPath : Option String) (lcoreId seq : UInt32) : String :=
  String.ofList ((dumpPath.getD "." ++ "/cpu" ++ toString lcoreId.toInt32.toInt ++ "_" ++
    toString seq.toInt32.toInt ++ ".pcap").toList.take (filePathLen - 1))

def pcapFileHdr (snapLen : UInt16) : PcapFileHeader where
  magic := 0xA1B2C3D4
  versionMajor := 0x0002
  versionMinor := 0x0004
  thiszone := 0
  sigfigs := 0
  snaplen := snapLen.toUInt32
  linktype := 1

/-- `lazybsd_enable_pcap`; `opened` is the outcome of `fopen`, and `none` the end of the process. -/
def lazybsdEnablePcap (dumpPath : Option String) (lcoreId : UInt32) (snapLen : UInt16) (opened : Bool)
    (s : Capturing) : Option Capturing :=
  if opened then
    some { s with
      files := s.files ++ s.gPcapFp.toList
      gPcapFp := some ⟨pcapFPath dumpPath lcoreId s.seq, (pcapFileHdr snapLen).bytes⟩
      gFlen := 0 + 24 }
  else none

/-- The loop over the segments: the bytes that it writes, and `out_len`. -/
def dumpSegs (snapLen : UInt16) : List Seg → UInt32 → List UInt8 × UInt32
  | [], outLen => ([], outLen)
  | pkt :: next, outLen =>
      if outLen ≤ snapLen.toUInt32 then
        let wrLen := snapLen.toUInt32 - outLen
        let wrLen := if pkt.dataLen.toUInt32 < wrLen then pkt.dataLen.toUInt32 else wrLen
        let rest := dumpSegs snapLen next (outLen + wrLen)
        (pkt.data.take wrLen.toNat ++ rest.1, rest.2)
      else ([], outLen)

/-- A call of `lazybsd_dump_packets`: the packet, the time and the outcome of `fopen`, if it comes to
that. -/
structure Dump where
  pkt : Packet
  tvSec : Int64
  tvUsec : Int64
  opened : Bool

/-- `lazybsd_dump_packets`. -/
def lazybsdDumpPackets (cfg : Config) (d : Dump) (s : Capturing) : Option (Int × Capturing) :=
  match s.gPcapFp with
  | none => some (-1, s)
  | some fp =>
      let snapLen := if d.pkt.pktLen < cfg.snapLen.toUInt32 then d.pkt.pktLen.toUInt16 else cfg.snapLen
      let pcapHdr : PcapPkthdr :=
        { sec := d.tvSec.toUInt64.toUInt32
          usec := d.tvUsec.toUInt64.toUInt32
          caplen := snapLen.toUInt32
          len := d.pkt.pktLen }
      let flen := s.gFlen + 16
      let out := dumpSegs snapLen d.pkt.segs 0
      let flen := flen + out.2
      let s := { s with
        gPcapFp := some { fp with bytes := fp.bytes ++ pcapHdr.bytes ++ out.1 }
        gFlen := flen }
      if cfg.saveLen ≤ flen then
        let seq := if pcapFileNum ≤ s.seq + 1 then 0 else s.seq + 1
        -- the parameter, cut to this packet
        (lazybsdEnablePcap cfg.dumpPath cfg.lcoreId snapLen d.opened { s with seq := seq }).map (0, ·)
      else some (0, s)

/-- A call in a run, with the calls so far. -/
structure Logged where
  dumps : List Dump
  pcap : Capturing

def dumpStep (cfg : Config) (s : Logged) (d : Dump) : Option Logged :=
  (lazybsdDumpPackets cfg d s.pcap).map fun r => ⟨s.dumps ++ [d], r.2⟩

/-! ## What the files should be -/

structure Record where
  hdr : PcapPkthdr
  data : List UInt8
deriving DecidableEq, Repr

def Record.bytes (r : Record) : List UInt8 := r.hdr.bytes ++ r.data

structure Capture where
  header : PcapFileHeader
  records : List Record
deriving DecidableEq, Repr

def Capture.bytes (c : Capture) : List UInt8 := c.header.bytes ++ c.records.flatMap Record.bytes

/-- `min(pkt_len, snap_len)`. -/
def caplenOf (snapLen : UInt16) (d : Dump) : Nat := min d.pkt.pktLen.toNat snapLen.toNat

/-- The record of a packet: its first bytes, at most `snap_len`. -/
def recordOf (snapLen : UInt16) (d : Dump) : Record where
  hdr :=
    { sec := d.tvSec.toUInt64.toUInt32
      usec := d.tvUsec.toUInt64.toUInt32
      caplen := .ofNat (caplenOf snapLen d)
      len := d.pkt.pktLen }
  data := d.pkt.bytes.take (caplenOf snapLen d)

/-- All files of the thread, the current one last. -/
def Capturing.all (s : Capturing) : List PcapFile := s.files ++ s.gPcapFp.toList

/-- The bytes written to the current file. -/
def Capturing.written (s : Capturing) : Nat := (s.gPcapFp.map fun f => f.bytes.length).getD 0

/-- The files are these captures: the records of the packets in order, behind headers with the configured
length, none longer than that; and `g_flen` counts what was written to the current file. -/
structure Describes (cfg : Config) (s : Logged) (captures : List Capture) : Prop where
  files : s.pcap.all.map PcapFile.bytes = captures.map Capture.bytes
  records : captures.flatMap Capture.records = s.dumps.map (recordOf cfg.snapLen)
  header : ∀ c ∈ captures, c.header = pcapFileHdr cfg.snapLen
  caplen : ∀ c ∈ captures, ∀ r ∈ c.records, r.hdr.caplen ≤ c.header.snaplen
  flen : s.pcap.gFlen.toNat = s.pcap.written

def WellFormed (cfg : Config) (s : Logged) : Prop := ∃ captures, Describes cfg s captures

/-- A call starts a new file exactly when its record makes the current one reach `save_len`. -/
def RotatesAt (cfg : Config) (tr : Transition Logged Dump) : Prop :=
  tr.after.pcap.all.length = tr.before.pcap.all.length +
    if cfg.saveLen.toNat ≤ tr.before.pcap.written + (recordOf cfg.snapLen tr.act).bytes.length then 1
    else 0

/-- The current file stays below 4 GiB, and a packet that makes it reach `save_len` is not shorter than
the configured length. -/
def Fits (cfg : Config) (s : Logged) (d : Dump) : Prop :=
  s.pcap.written + (recordOf cfg.snapLen d).bytes.length < 2 ^ 32 ∧
    (cfg.saveLen.toNat ≤ s.pcap.written + (recordOf cfg.snapLen d).bytes.length →
      cfg.snapLen.toNat ≤ d.pkt.pktLen.toNat)

variable {cfg : Config} {d : Dump} {s t : Capturing} {f : PcapFile} {snapLen : UInt16}

/-! ## Sizes -/

@[simp] theorem length_header (h : PcapFileHeader) : h.bytes.length = 24 := by
  simp only [PcapFileHeader.bytes, List.length_append, length_le, Nat.reduceAdd]

@[simp] theorem length_pkthdr (h : PcapPkthdr) : h.bytes.length = 16 := by
  simp only [PcapPkthdr.bytes, List.length_append, length_le, Nat.reduceAdd]

theorem Packet.length_bytes (p : Packet) : p.bytes.length = p.pktLen.toNat := by
  rw [Packet.bytes, List.length_flatMap, ← p.whole]
  rfl

theorem Seg.toNat_dataLen (sg : Seg) : sg.dataLen.toUInt32.toNat = sg.data.length := by
  rw [Seg.dataLen, UInt16.toNat_toUInt32, UInt16.toNat_ofNat_of_lt' sg.short]

theorem caplenOf_lt (snapLen : UInt16) (d : Dump) : caplenOf snapLen d < 2 ^ 16 :=
  (Nat.min_le_right _ _).trans_lt snapLen.toNat_lt

theorem toNat_caplenOf (snapLen : UInt16) (d : Dump) :
    (UInt32.ofNat (caplenOf snapLen d)).toNat = caplenOf snapLen d :=
  UInt32.toNat_ofNat_of_lt' ((caplenOf_lt snapLen d).trans (by decide))

/-- A record has the `caplen` bytes of its header, the first ones of the packet. -/
theorem recordOf_data (snapLen : UInt16) (d : Dump) :
    (recordOf snapLen d).data.length = (recordOf snapLen d).hdr.caplen.toNat ∧
      (recordOf snapLen d).data <+: d.pkt.bytes := by
  refine ⟨?_, List.take_prefix _ _⟩
  rw [recordOf, List.length_take, Packet.length_bytes, toNat_caplenOf, caplenOf]
  omega

theorem length_recordOf (snapLen : UInt16) (d : Dump) :
    (recordOf snapLen d).bytes.length = 16 + caplenOf snapLen d := by
  rw [Record.bytes, List.length_append, length_pkthdr, recordOf, List.length_take,
    Packet.length_bytes, caplenOf]
  omega

/-- A header at the front of two files is the same in both. -/
theorem snaplen_of_append {h h' : PcapFileHeader} {x y : List UInt8} (heq : h.bytes ++ x = h'.bytes ++ y) :
    h.snaplen = h'.snaplen := by
  have hbytes : h.bytes = h'.bytes :=
    List.append_inj_left heq ((length_header h).trans (length_header h').symm)
  rw [PcapFileHeader.bytes, PcapFileHeader.bytes] at hbytes
  obtain ⟨hfront, -⟩ := List.append_inj' hbytes (by rw [length_le, length_le])
  obtain ⟨-, hfield⟩ := List.append_inj' hfront (by rw [length_le, length_le])
  exact UInt32.toNat.inj (le_inj h.snaplen.toNat_lt h'.snaplen.toNat_lt hfield)

/-! ## One call -/

/-- The loop writes the bytes up to the cut. -/
theorem dumpSegs_spec (snapLen : UInt16) (segs : List Seg) (outLen : UInt32)
    (hout : outLen.toNat ≤ snapLen.toNat) :
    (dumpSegs snapLen segs outLen).1 =
        (segs.flatMap Seg.data).take (snapLen.toNat - outLen.toNat) ∧
      (dumpSegs snapLen segs outLen).2.toNat =
        outLen.toNat + min (snapLen.toNat - outLen.toNat) (segs.flatMap Seg.data).length := by
  have hsnap : snapLen.toUInt32.toNat = snapLen.toNat := UInt16.toNat_toUInt32 _
  have hmax := snapLen.toNat_lt
  induction segs generalizing outLen with
  | nil => simp [dumpSegs]
  | cons sg segs ih =>
      have hle : outLen ≤ snapLen.toUInt32 := by
        rw [UInt32.le_iff_toNat_le, hsnap]
        exact hout
      have hleft : (snapLen.toUInt32 - outLen).toNat = snapLen.toNat - outLen.toNat := by
        rw [UInt32.toNat_sub_of_le _ _ hle, hsnap]
      obtain ⟨wrLen, hwr⟩ : ∃ wrLen, wrLen = if sg.dataLen.toUInt32 < snapLen.toUInt32 - outLen
        then sg.dataLen.toUInt32 else snapLen.toUInt32 - outLen := ⟨_, rfl⟩
      have hwrite : wrLen.toNat = min (snapLen.toNat - outLen.toNat) sg.data.length := by
        rw [hwr]
        split
        · next hlt =>
            rw [UInt32.lt_iff_toNat_lt, hleft, Seg.toNat_dataLen] at hlt
            rw [Seg.toNat_dataLen]
            omega
        · next hge =>
            rw [UInt32.lt_iff_toNat_lt, hleft, Seg.toNat_dataLen] at hge
            rw [hleft]
            omega
      have hsum : (outLen + wrLen).toNat = outLen.toNat + wrLen.toNat := by
        rw [UInt32.toNat_add]
        exact Nat.mod_eq_of_lt (by omega)
      -- `out_len` stays at most `snap_len`, so the loop never stops for it
      obtain ⟨hbytes, hlen⟩ := ih (outLen + wrLen) (by omega)
      have hturn : dumpSegs snapLen (sg :: segs) outLen =
          (sg.data.take wrLen.toNat ++ (dumpSegs snapLen segs (outLen + wrLen)).1,
            (dumpSegs snapLen segs (outLen + wrLen)).2) := by
        rw [dumpSegs, if_pos hle, hwr]
      rw [hturn, hbytes, hlen, hsum, List.flatMap_cons, List.take_append, List.length_append, hwrite]
      constructor
      · have hown : sg.data.take (min (snapLen.toNat - outLen.toNat) sg.data.length) =
            sg.data.take (snapLen.toNat - outLen.toNat) := by
          rw [List.take_eq_take_iff]
          omega
        have hrest : snapLen.toNat - (outLen.toNat +
            min (snapLen.toNat - outLen.toNat) sg.data.length) =
            snapLen.toNat - outLen.toNat - sg.data.length := by omega
        rw [hown, hrest]
      · omega

/-- The file behind the record of a call. -/
def PcapFile.fwrite (f : PcapFile) (r : Record) : PcapFile := { f with bytes := f.bytes ++ r.bytes }

/-- `snap_len` as the call cuts it. -/
def cutTo (snapLen : UInt16) (d : Dump) : UInt16 := .ofNat (caplenOf snapLen d)

theorem toNat_cutTo (snapLen : UInt16) (d : Dump) : (cutTo snapLen d).toNat = caplenOf snapLen d :=
  UInt16.toNat_ofNat_of_lt' (caplenOf_lt snapLen d)

/-- `seq` and the header of the file that a call opens. -/
def rotated (cfg : Config) (d : Dump) (s : Capturing) (f : PcapFile) : Capturing :=
  let seq := if pcapFileNum ≤ s.seq + 1 then 0 else s.seq + 1
  { files := s.files ++ [f]
    gPcapFp := some ⟨pcapFPath cfg.dumpPath cfg.lcoreId seq, (pcapFileHdr (cutTo cfg.snapLen d)).bytes⟩
    seq := seq
    gFlen := 24 }

/-- `g_flen` behind the record. -/
def flenAfter (cfg : Config) (d : Dump) (s : Capturing) : UInt32 :=
  s.gFlen + 16 + .ofNat (caplenOf cfg.snapLen d)

/-- The new value of the parameter. -/
theorem cutTo_eq (snapLen : UInt16) (d : Dump) :
    (if d.pkt.pktLen < snapLen.toUInt32 then d.pkt.pktLen.toUInt16 else snapLen) = cutTo snapLen d := by
  have hmax := snapLen.toNat_lt
  apply UInt16.toNat.inj
  rw [toNat_cutTo, caplenOf]
  split
  · next hlt =>
      rw [UInt32.lt_iff_toNat_lt, UInt16.toNat_toUInt32] at hlt
      rw [UInt32.toNat_toUInt16]
      omega
  · next hge =>
      rw [UInt32.lt_iff_toNat_lt, UInt16.toNat_toUInt32] at hge
      omega

/-- Of a whole packet the loop writes the data of its record. -/
theorem dumpSegs_packet (snapLen : UInt16) (d : Dump) :
    dumpSegs (cutTo snapLen d) d.pkt.segs 0 =
      ((recordOf snapLen d).data, .ofNat (caplenOf snapLen d)) := by
  obtain ⟨hdata, hlen⟩ := dumpSegs_spec (cutTo snapLen d) d.pkt.segs 0 (Nat.zero_le _)
  have hwhole : (d.pkt.segs.flatMap Seg.data).length = d.pkt.pktLen.toNat := d.pkt.length_bytes
  have hzero : (0 : UInt32).toNat = 0 := rfl
  rw [hzero, Nat.sub_zero, toNat_cutTo] at hdata hlen
  refine Prod.ext hdata (UInt32.toNat.inj ?_)
  rw [hlen, hwhole, toNat_caplenOf, caplenOf]
  omega

theorem lazybsdDumpPackets_eq (hfp : s.gPcapFp = some f) :
    lazybsdDumpPackets cfg d s =
      if cfg.saveLen ≤ flenAfter cfg d s then
        if d.opened then some (0, rotated cfg d s (f.fwrite (recordOf cfg.snapLen d))) else none
      else
        some (0, { s with
          gPcapFp := some (f.fwrite (recordOf cfg.snapLen d)), gFlen := flenAfter cfg d s }) := by
  have hcaplen : (cutTo cfg.snapLen d).toUInt32 = .ofNat (caplenOf cfg.snapLen d) := by
    apply UInt32.toNat.inj
    rw [UInt16.toNat_toUInt32, toNat_cutTo, toNat_caplenOf]
  have hfile : { f with bytes := f.bytes ++ (recordOf cfg.snapLen d).hdr.bytes ++
      (recordOf cfg.snapLen d).data } = f.fwrite (recordOf cfg.snapLen d) := by
    rw [PcapFile.fwrite, Record.bytes, List.append_assoc]
  rw [lazybsdDumpPackets, hfp]
  simp only [cutTo_eq, dumpSegs_packet, hcaplen]
  by_cases hfull : cfg.saveLen ≤ flenAfter cfg d s
  · rw [if_pos hfull]
    refine (if_pos hfull).trans ?_
    cases hopened : d.opened with
    | false => rfl
    | true => exact congrArg (fun f' => some ((0 : Int), rotated cfg d s f')) hfile
  · rw [if_neg hfull]
    refine (if_neg hfull).trans ?_
    exact congrArg (fun f' => some ((0 : Int),
      { s with gPcapFp := some f', gFlen := flenAfter cfg d s })) hfile

/-! ## Runs -/

/-- A thread that has a file: `g_flen` counts modulo 2³² what was written to it, and stays below `save_len`
unless the file has a header only. -/
structure Counting (cfg : Config) (s : Capturing) : Prop where
  fp : s.gPcapFp.isSome
  flen : s.gFlen.toNat = s.written % 2 ^ 32
  room : s.written = 24 ∨ s.gFlen.toNat < cfg.saveLen.toNat

theorem toNat_flenAfter (hs : Counting cfg s) :
    (flenAfter cfg d s).toNat = (s.written + (recordOf cfg.snapLen d).bytes.length) % 2 ^ 32 := by
  have hsixteen : (16 : UInt32).toNat = 16 := rfl
  rw [flenAfter, UInt32.toNat_add, UInt32.toNat_add, hs.flen, hsixteen, toNat_caplenOf,
    length_recordOf]
  omega

/-- What a call does: the record fits below `save_len`, or the next file is opened. -/
inductive Called (cfg : Config) (d : Dump) (s : Capturing) (f : PcapFile) (s' : Capturing) : Prop
  | kept (hlt : (flenAfter cfg d s).toNat < cfg.saveLen.toNat)
      (hend : s' = { s with
        gPcapFp := some (f.fwrite (recordOf cfg.snapLen d)), gFlen := flenAfter cfg d s })
  | rotated (hle : cfg.saveLen.toNat ≤ (flenAfter cfg d s).toNat)
      (hend : s' = rotated cfg d s (f.fwrite (recordOf cfg.snapLen d)))

section Step

variable {l l' : Logged}

theorem dumpStep_cases (hfp : l.pcap.gPcapFp = some f) (h : dumpStep cfg l d = some l') :
    l'.dumps = l.dumps ++ [d] ∧ Called cfg d l.pcap f l'.pcap := by
  rw [dumpStep, lazybsdDumpPackets_eq hfp] at h
  by_cases hfull : cfg.saveLen ≤ flenAfter cfg d l.pcap
  · rw [if_pos hfull] at h
    cases hopened : d.opened with
    | false =>
        rw [hopened] at h
        cases h
    | true =>
        rw [hopened] at h
        obtain rfl := Option.some.inj h
        exact ⟨rfl, .rotated (UInt32.le_iff_toNat_le.mp hfull) rfl⟩
  · rw [if_neg hfull] at h
    obtain rfl := Option.some.inj h
    exact ⟨rfl, .kept (Nat.not_le.mp fun h => hfull (UInt32.le_iff_toNat_le.mpr h)) rfl⟩

theorem written_some (h : s.gPcapFp = some f) : s.written = f.bytes.length := by
  rw [Capturing.written, h]
  rfl

theorem Counting.step (hs : Counting cfg l.pcap) (h : dumpStep cfg l d = some l') :
    Counting cfg l'.pcap := by
  obtain ⟨f, hfp⟩ := Option.isSome_iff_exists.mp hs.fp
  have hflen := toNat_flenAfter (d := d) hs
  rw [written_some hfp] at hflen
  obtain ⟨-, hcall⟩ := dumpStep_cases hfp h
  cases hcall with
  | kept hlt hend =>
      rw [hend]
      refine ⟨rfl, ?_, .inr hlt⟩
      rw [hflen, written_some rfl, PcapFile.fwrite, List.length_append]
  | rotated hle hend =>
      rw [hend]
      have hwritten : (rotated cfg d l.pcap (f.fwrite (recordOf cfg.snapLen d))).written = 24 :=
        (written_some rfl).trans (length_header _)
      refine ⟨rfl, ?_, .inl hwritten⟩
      rw [hwritten]
      rfl

/-- The current file is the last of the captures. -/
theorem Describes.split {captures : List Capture} (h : Describes cfg l captures)
    (hfp : l.pcap.gPcapFp = some f) :
    ∃ front c, captures = front ++ [c] ∧ l.pcap.files.map PcapFile.bytes = front.map Capture.bytes ∧
      f.bytes = c.bytes := by
  have hfiles := h.files
  rw [Capturing.all, hfp, Option.toList_some, List.map_append, List.map_singleton] at hfiles
  rcases List.eq_nil_or_concat' captures with rfl | ⟨front, c, rfl⟩
  · rw [List.map_nil] at hfiles
    exact absurd hfiles (by simp)
  · rw [List.map_append, List.map_singleton] at hfiles
    obtain ⟨hfront, hlast⟩ := List.append_inj' hfiles rfl
    exact ⟨front, c, rfl, hfront, List.singleton_injective hlast⟩

/-- Below 4 GiB `g_flen` is not cut off. -/
theorem flenAfter_of_fits (hs : Counting cfg l.pcap) (hfits : Fits cfg l d) :
    (flenAfter cfg d l.pcap).toNat = l.pcap.written + (recordOf cfg.snapLen d).bytes.length := by
  rw [toNat_flenAfter hs]
  exact Nat.mod_eq_of_lt hfits.1

/-- The record in the current file. -/
theorem Describes.fwrite {captures : List Capture} {s' : Capturing} (h : Describes cfg l captures)
    (hfp : l.pcap.gPcapFp = some f) (hfiles : s'.files = l.pcap.files)
    (hfp' : s'.gPcapFp = some (f.fwrite (recordOf cfg.snapLen d)))
    (hflen : s'.gFlen.toNat = l.pcap.written + (recordOf cfg.snapLen d).bytes.length) :
    WellFormed cfg ⟨l.dumps ++ [d], s'⟩ := by
  obtain ⟨front, c, rfl, hfront, hlast⟩ := h.split hfp
  obtain ⟨hheader, hlastHeader⟩ := List.forall_mem_append.mp h.header
  obtain ⟨hcaplen, hlastCaplen⟩ := List.forall_mem_append.mp h.caplen
  rw [List.forall_mem_singleton] at hlastHeader hlastCaplen
  have hrec : (recordOf cfg.snapLen d).hdr.caplen ≤ c.header.snaplen := by
    rw [hlastHeader, UInt32.le_iff_toNat_le, recordOf, pcapFileHdr, toNat_caplenOf,
      UInt16.toNat_toUInt32]
    exact Nat.min_le_right _ _
  refine ⟨front ++ [{ c with records := c.records ++ [recordOf cfg.snapLen d] }], ?_, ?_, ?_, ?_, ?_⟩
  · rw [Capturing.all, hfiles, hfp', Option.toList_some, List.map_append, List.map_append, hfront,
      List.map_singleton, List.map_singleton, PcapFile.fwrite, hlast, Capture.bytes, Capture.bytes,
      List.flatMap_append, List.flatMap_singleton, List.append_assoc]
  · have hrecords := h.records
    rw [List.flatMap_append, List.flatMap_singleton] at hrecords ⊢
    rw [← List.append_assoc, hrecords, List.map_append, List.map_singleton]
  · rw [List.forall_mem_append, List.forall_mem_singleton]
    exact ⟨hheader, hlastHeader⟩
  · rw [List.forall_mem_append, List.forall_mem_singleton, List.forall_mem_append,
      List.forall_mem_singleton]
    exact ⟨hcaplen, hlastCaplen, hrec⟩
  · rw [hflen, written_some hfp, written_some hfp', PcapFile.fwrite, List.length_append]

/-- A new file, with the configured length in its header. -/
theorem WellFormed.newFile {s' : Capturing} (h : WellFormed cfg l)
    (hfiles : s'.files = l.pcap.all)
    (hfp : ∃ path, s'.gPcapFp = some ⟨path, (pcapFileHdr cfg.snapLen).bytes⟩)
    (hflen : s'.gFlen = 24) : WellFormed cfg ⟨l.dumps, s'⟩ := by
  obtain ⟨captures, h⟩ := h
  obtain ⟨path, hfp⟩ := hfp
  refine ⟨captures ++ [⟨pcapFileHdr cfg.snapLen, []⟩], ?_, ?_, ?_, ?_, ?_⟩
  · rw [Capturing.all, hfiles, hfp, Option.toList_some, List.map_append, List.map_append, h.files,
      List.map_singleton, List.map_singleton, Capture.bytes, List.flatMap_nil, List.append_nil]
  · rw [List.flatMap_append, h.records, List.flatMap_singleton, List.append_nil]
  · rw [List.forall_mem_append, List.forall_mem_singleton]
    exact ⟨h.header, rfl⟩
  · rw [List.forall_mem_append, List.forall_mem_singleton]
    exact ⟨h.caplen, fun r hr => absurd hr List.not_mem_nil⟩
  · rw [hflen, written_some hfp, length_header]
    rfl

/-- **One call.** A thread whose files are well formed keeps them so exactly if the call fits. -/
theorem wellFormed_step_iff (hs : Counting cfg l.pcap) (hwell : WellFormed cfg l)
    (h : dumpStep cfg l d = some l') : WellFormed cfg l' ↔ Fits cfg l d := by
  obtain ⟨f, hfp⟩ := Option.isSome_iff_exists.mp hs.fp
  obtain ⟨hdumps, hcall⟩ := dumpStep_cases hfp h
  obtain ⟨captures, hdesc⟩ := hwell
  constructor
  · rintro ⟨captures', hdesc'⟩
    have hmod := toNat_flenAfter (d := d) hs
    have hbefore := hdesc.flen
    have hcap := caplenOf_lt cfg.snapLen d
    have hroom := hs.room
    have hlt := l.pcap.gFlen.toNat_lt
    rw [length_recordOf] at hmod
    rw [Fits, length_recordOf]
    cases hcall with
    | kept hkept hend =>
        have hafter := hdesc'.flen
        have hlt' := (flenAfter cfg d l.pcap).toNat_lt
        rw [hend, written_some rfl, PcapFile.fwrite, List.length_append, length_recordOf,
          ← written_some hfp] at hafter
        simp only at hafter
        omega
    | rotated hle hend =>
        obtain ⟨front, c, rfl, -, hlast⟩ := hdesc'.split (by rw [hend]; rfl)
        have hheader := hdesc'.header c (List.mem_append_right _ (List.mem_singleton_self c))
        -- the header that was written, and the one that it should be
        have hsnap : (pcapFileHdr (cutTo cfg.snapLen d)).snaplen = (pcapFileHdr cfg.snapLen).snaplen := by
          rw [← hheader]
          apply snaplen_of_append
          rw [List.append_nil]
          exact hlast
        have hcut := congrArg UInt32.toNat hsnap
        rw [pcapFileHdr, pcapFileHdr, UInt16.toNat_toUInt32, UInt16.toNat_toUInt32, toNat_cutTo] at hcut
        refine ⟨by omega, fun _ => ?_⟩
        rw [← hcut]
        exact Nat.min_le_left _ _
  · intro hfits
    have hflen := flenAfter_of_fits hs hfits
    have hl' : l' = ⟨l.dumps ++ [d], l'.pcap⟩ := by rw [← hdumps]
    rw [hl']
    cases hcall with
    | kept hlt hend =>
        rw [hend]
        exact hdesc.fwrite hfp rfl rfl hflen
    | rotated hle hend =>
        have hcut : cutTo cfg.snapLen d = cfg.snapLen := by
          apply UInt16.toNat.inj
          rw [toNat_cutTo]
          exact Nat.min_eq_right (hfits.2 (hflen ▸ hle))
        have hfull : WellFormed cfg ⟨l.dumps ++ [d], { l.pcap with
            gPcapFp := some (f.fwrite (recordOf cfg.snapLen d)), gFlen := flenAfter cfg d l.pcap }⟩ :=
          hdesc.fwrite hfp rfl rfl hflen
        have hfp' : ∃ path, (rotated cfg d l.pcap (f.fwrite (recordOf cfg.snapLen d))).gPcapFp =
            some ⟨path, (pcapFileHdr cfg.snapLen).bytes⟩ := by
          rw [rotated, hcut]
          exact ⟨_, rfl⟩
        rw [hend]
        exact hfull.newFile rfl hfp' rfl

/-- A call that fits starts a new file exactly when it should. -/
theorem rotatesAt_of_fits (hs : Counting cfg l.pcap) (h : dumpStep cfg l d = some l')
    (hfits : Fits cfg l d) : RotatesAt cfg ⟨l, d, l'⟩ := by
  obtain ⟨f, hfp⟩ := Option.isSome_iff_exists.mp hs.fp
  obtain ⟨-, hcall⟩ := dumpStep_cases hfp h
  have hflen := flenAfter_of_fits hs hfits
  have hall : l.pcap.all.length = l.pcap.files.length + 1 := by
    rw [Capturing.all, hfp, List.length_append]
    rfl
  rw [RotatesAt, hall]
  cases hcall with
  | kept hlt hend =>
      have hnot : ¬ cfg.saveLen.toNat ≤ l.pcap.written + (recordOf cfg.snapLen d).bytes.length := by
        rw [← hflen]
        exact Nat.not_le.mpr hlt
      rw [hend, if_neg hnot]
      exact List.length_append
  | rotated hle hend =>
      rw [hflen] at hle
      rw [hend, if_pos hle]
      show ((l.pcap.files ++ [_]) ++ [_]).length = _
      rw [List.length_append, List.length_append]
      rfl

end Step

section Enabled

variable {opened : Bool} {s₀ : Capturing}

theorem enabled (h : lazybsdEnablePcap cfg.dumpPath cfg.lcoreId cfg.snapLen opened .start = some s₀) :
    Counting cfg s₀ ∧ WellFormed cfg ⟨[], s₀⟩ := by
  cases opened with
  | false => cases h
  | true =>
      obtain rfl := Option.some.inj h
      have hwritten : (⟨[], some ⟨pcapFPath cfg.dumpPath cfg.lcoreId 0,
          (pcapFileHdr cfg.snapLen).bytes⟩, 0, 24⟩ : Capturing).written = 24 := length_header _
      refine ⟨⟨rfl, ?_, .inl hwritten⟩, [⟨pcapFileHdr cfg.snapLen, []⟩], ?_, rfl, ?_, ?_,
        hwritten.symm⟩
      · exact hwritten.symm ▸ rfl
      · rw [List.map_singleton, Capture.bytes, List.flatMap_nil, List.append_nil]
        rfl
      · exact List.forall_mem_singleton.mpr rfl
      · exact List.forall_mem_singleton.mpr fun r hr => absurd hr List.not_mem_nil

/-- Every state of a run is well formed, and every new file begun where it should, exactly if each call
fits. -/
theorem pcap_wellFormed_iff (cfg : Config) (h₀ : lazybsdEnablePcap cfg.dumpPath cfg.lcoreId cfg.snapLen
      opened .start = some s₀) {ts : List (Transition Logged Dump)} {l : Logged}
    (hrun : Run (dumpStep cfg) ⟨[], s₀⟩ ts l) :
    WellFormed cfg ⟨[], s₀⟩ ∧
      ((∀ tr ∈ ts, WellFormed cfg tr.after ∧ RotatesAt cfg tr) ↔
        ∀ tr ∈ ts, Fits cfg tr.before tr.act) := by
  obtain ⟨hcounting, hwell⟩ := enabled h₀
  have hstep : ∀ {t : Logged} {d t'}, Counting cfg t.pcap → dumpStep cfg t d = some t' →
      Counting cfg t'.pcap := fun hs h => hs.step h
  obtain ⟨hiff, -⟩ := hrun.forall_iff hstep
    (fun hs hwell h => wellFormed_step_iff hs hwell h) hcounting hwell
  have hmem := hrun.of_mem hstep hcounting
  refine ⟨hwell, ?_, ?_⟩
  · intro h
    exact hiff.mp fun tr htr => (h tr htr).1
  · intro h tr htr
    obtain ⟨hs, htr', -⟩ := hmem tr htr
    exact ⟨hiff.mpr h tr htr, rotatesAt_of_fits hs htr' (h tr htr)⟩

end Enabled

theorem Sample.short : ([1, 2, 3, 4] : List UInt8).length < 2 ^ 16 := by decide

theorem Sample.whole : (([⟨[1, 2, 3, 4], Sample.short⟩] : List Seg).map fun s => s.data.length).sum =
    (4 : UInt32).toNat := rfl

/-- A packet of four bytes, where records may have eight. -/
def Sample.dump : Dump where
  pkt := ⟨4, ⟨[1, 2, 3, 4], Sample.short⟩, [], Sample.whole⟩
  tvSec := 0
  tvUsec := 0
  opened := true

def Sample.config (saveLen : UInt32) : Config := ⟨none, 0, 8, saveLen⟩

/-- The thread with its first file. -/
def Sample.enabled : Capturing :=
  ⟨[], some ⟨pcapFPath none 0 0, (pcapFileHdr 8).bytes⟩, 0, 24⟩

theorem Sample.opens (saveLen : UInt32) : lazybsdEnablePcap (config saveLen).dumpPath
    (config saveLen).lcoreId (config saveLen).snapLen true .start = some Sample.enabled := rfl

theorem Sample.half : ([1, 2, 3, 4, 5, 6] : List UInt8).length < 2 ^ 16 := by decide

/-- A packet of two segments of six bytes, of which a record has eight bytes. -/
def Sample.pair : Dump where
  pkt := ⟨12, ⟨[1, 2, 3, 4, 5, 6], Sample.half⟩, [⟨[1, 2, 3, 4, 5, 6], Sample.half⟩], rfl⟩
  tvSec := 1
  tvUsec := 0
  opened := true

instance (cfg : Config) (s : Logged) (d : Dump) : Decidable (Fits cfg s d) :=
  inferInstanceAs (Decidable (_ ∧ (_ → _)))

/-- Three packets with files of sixty bytes: the second one fills the file, the third one goes to a new
one. -/
theorem pcap_wellFormed_small :
    ∃ r, exec (dumpStep (Sample.config 60)) ⟨[], Sample.enabled⟩
        [Sample.dump, Sample.pair, Sample.dump] = some r ∧ r.2.pcap.all.length = 2 ∧
      ∀ tr ∈ r.1, WellFormed (Sample.config 60) tr.after ∧ RotatesAt (Sample.config 60) tr := by
  have hends : (exec (dumpStep (Sample.config 60)) ⟨[], Sample.enabled⟩
      [Sample.dump, Sample.pair, Sample.dump]).map (fun r => (r.2.pcap.all.length,
        r.1.all fun tr => decide (Fits (Sample.config 60) tr.before tr.act))) = some (2, true) := by
    decide +kernel
  obtain ⟨r, hr, hboth⟩ := Option.map_eq_some_iff.mp hends
  obtain ⟨hfiles, hfits⟩ := Prod.mk.inj hboth
  have hiff := (pcap_wellFormed_iff (Sample.config 60) (Sample.opens 60) (Run.of_exec hr)).2
  exact ⟨r, hr, hfiles, hiff.mpr fun tr htr => of_decide_eq_true (List.all_eq_true.mp hfits tr htr)⟩

/-- Four bytes fill the file, and the next header says that records are cut to four. -/
theorem pcap_header_cut :
    ¬ ∀ (cfg : Config) (s₀ : Capturing) (ts : List (Transition Logged Dump)) (l : Logged),
      lazybsdEnablePcap cfg.dumpPath cfg.lcoreId cfg.snapLen true .start = some s₀ →
      Run (dumpStep cfg) ⟨[], s₀⟩ ts l → ∀ tr ∈ ts, WellFormed cfg tr.after ∧ RotatesAt cfg tr := by
  intro h
  obtain ⟨l, hl⟩ : ∃ l, dumpStep (Sample.config 30) ⟨[], Sample.enabled⟩ Sample.dump = some l :=
    Option.isSome_iff_exists.mp (by decide)
  have hwell := (h (Sample.config 30) Sample.enabled _ l rfl (.snoc .nil hl) _
    (List.mem_singleton_self _)).1
  obtain ⟨hcounting, hwell₀⟩ := enabled (Sample.opens 30)
  have hfits := (wellFormed_step_iff hcounting hwell₀ hl).mp hwell
  exact absurd (hfits.2 (by decide)) (by decide)

end LazyBsd.Pcap
