/-
# LazyBsd.Pages.Address — the addresses of the page array.

The size of the array is configured in megabytes, as an `int` which `lazybsd_mmap_init` shifts in 32
bits. Below 2048 MB the pages it pushes tile a mapping of that size; from there on no mapping has it.

The transmit path asks about an address twice. `lazybsd_chk_vma` compares it with both ends of the
array; `lazybsd_mem_virt2phy` compares its page number, in 32 bits, with the number of pages. The two
agree but for the first byte, and for addresses a multiple of 2^44 away from the array.
-/
import LazyBsd.Pages
import LazyBsd.Tx.Convert

namespace LazyBsd.Pages

open Lib

/-! ## What the array should be -/

/-- `n` pages from `start` on. -/
def arrayPages (start : UInt64) (n : Nat) : List UInt64 :=
  (List.range n).map fun i => start + UInt64.ofNat (4096 * i)

/-- Distinct pages, all inside the mapping, and every byte of the mapping in one of them. -/
structure Tiles (start : UInt64) (bytes : Nat) (pages : List UInt64) : Prop where
  nodup : pages.Nodup
  inside : ∀ p ∈ pages, start ≤ p ∧ p.toNat + 4096 ≤ start.toNat + bytes
  cover : ∀ b : UInt64, start ≤ b → b.toNat < start.toNat + bytes →
    ∃! p, p ∈ pages ∧ p ≤ b ∧ b.toNat < p.toNat + 4096

/-- The mapping at `start` is as large as configured, and `lazybsd_mmap_init` pushes its pages. -/
structure Sized (host : Host) (memSize : Int) (mem : UInt64 → UInt8) (start : UInt64) : Prop where
  bytes : ((bsdMemsz memSize).toNat : Int) = memSize * 2 ^ 20
  tiles : Tiles start (memSize * 2 ^ 20).toNat (arrayPages start (memSize * 256).toNat)
  pushed : ∀ a, lazybsdMmapInit host memSize mem = some a → a.pageStart = start ∧
    a.mpageCtl.pages = arrayPages start (memSize * 256).toNat ∧
    a.mpagePhy = (arrayPages start (memSize * 256).toNat).map host.rteMemVirt2phy

/-- The statics as the transmit path reads them. -/
structure Viewed (a : PageArray) (pg : Tx.PageArray) : Prop where
  start : pg.start = a.pageStart
  stop : pg.stop = a.pageEnd
  npages : pg.npages = a.mpageCtl.size
  phy : ∀ i < pg.npages, a.mpagePhy[i]? = some (pg.phy i)

def InArray (a : PageArray) (va : UInt64) : Prop := a.pageStart ≤ va ∧ va < a.pageEnd

/-- An address of the array is found and translated, any other is refused by both tests. -/
structure TestsCorrect (a : PageArray) (pg : Tx.PageArray) (va : UInt64) : Prop where
  inside : ∀ i o, i < a.mpageCtl.size → o < 4096 →
    va = a.pageStart + UInt64.ofNat (4096 * i + o) → pg.lazybsdChkVma va = true ∧
      ∃ phy, a.mpagePhy[i]? = some phy ∧ pg.lazybsdMemVirt2phy va = some (phy + UInt64.ofNat o)
  outside : ¬ InArray a va → pg.lazybsdChkVma va = false ∧ pg.lazybsdMemVirt2phy va = none

/-! ## The size -/

section Size

variable {start p : UInt64} {n : Nat} {memSize : Int}

theorem toNat_add_ofNat {k : Nat} (h : start.toNat + k < 2 ^ 64) :
    (start + UInt64.ofNat k).toNat = start.toNat + k := by
  rw [UInt64.toNat_add, UInt64.toNat_ofNat']
  omega

theorem mem_arrayPages (h : start.toNat + 4096 * n < 2 ^ 64) :
    p ∈ arrayPages start n ↔ ∃ i < n, p.toNat = start.toNat + 4096 * i := by
  rw [arrayPages, List.mem_map]
  constructor
  · rintro ⟨i, hi, rfl⟩
    have hlt := List.mem_range.mp hi
    exact ⟨i, hlt, toNat_add_ofNat (by omega)⟩
  · rintro ⟨i, hi, hp⟩
    refine ⟨i, List.mem_range.mpr hi, ?_⟩
    apply UInt64.toNat.inj
    rw [hp]
    exact toNat_add_ofNat (by omega)

/-- Pages that do not run over tile their region. -/
theorem arrayPages_tiles (h : start.toNat + 4096 * n < 2 ^ 64) :
    Tiles start (4096 * n) (arrayPages start n) := by
  refine ⟨?_, ?_, ?_⟩
  · have hpage (i : Nat) (hi : i ∈ List.range n) :
        (start + UInt64.ofNat (4096 * i)).toNat = start.toNat + 4096 * i := by
      have hlt := List.mem_range.mp hi
      exact toNat_add_ofNat (by omega)
    exact nodup_pages hpage
  · intro p hp
    obtain ⟨i, hi, hpi⟩ := (mem_arrayPages h).mp hp
    rw [UInt64.le_iff_toNat_le]
    omega
  · intro b hb hlt
    rw [UInt64.le_iff_toNat_le] at hb
    have hin : (b.toNat - start.toNat) / 4096 < n := by omega
    have hpage : (start + UInt64.ofNat (4096 * ((b.toNat - start.toNat) / 4096))).toNat =
        start.toNat + 4096 * ((b.toNat - start.toNat) / 4096) := toNat_add_ofNat (by omega)
    refine ⟨_, ⟨(mem_arrayPages h).mpr ⟨_, hin, hpage⟩, ?_, ?_⟩, ?_⟩
    · rw [UInt64.le_iff_toNat_le, hpage]
      omega
    · rw [hpage]
      omega
    · rintro q ⟨hq, hqle, hqlt⟩
      obtain ⟨j, hj, hqj⟩ := (mem_arrayPages h).mp hq
      rw [UInt64.le_iff_toNat_le] at hqle
      apply UInt64.toNat.inj
      rw [hpage]
      omega

theorem bsdMemsz_mod (memSize : Int) : (bsdMemsz memSize).toNat % 4096 = 0 := by
  rw [bsdMemsz, UInt64.ofInt, UInt64.toNat_ofNat']
  simp only [Int.bmod_def]
  split <;> omega

/-- Below 2048 MB the shift does not run over. -/
theorem bsdMemsz_of_lt (hpos : 1 ≤ memSize) (hlt : memSize < 2048) :
    (bsdMemsz memSize).toNat = 4096 * (memSize * 256).toNat := by
  have hbmod : (memSize * 2 ^ 20).bmod (2 ^ 32) = memSize * 2 ^ 20 := by
    simp only [Int.bmod_def]
    split <;> omega
  rw [bsdMemsz, hbmod, UInt64.ofInt, UInt64.toNat_ofNat']
  omega

/-- What a successful `lazybsd_mmap_init` pushes, for any size. -/
theorem lazybsdMmapInit_pages {host : Host} {mem : UInt64 → UInt8} {a : PageArray}
    (hmmap : host.mmap (bsdMemsz memSize) = some start)
    (h : lazybsdMmapInit host memSize mem = some a) :
    a.pageStart = start ∧ a.pageEnd = start + bsdMemsz memSize ∧
      a.mpageCtl.size = (bsdMemsz memSize).toNat / 4096 ∧
      a.mpageCtl.pages = arrayPages start ((bsdMemsz memSize).toNat / 4096) ∧
      a.mpagePhy =
        (arrayPages start ((bsdMemsz memSize).toNat / 4096)).map host.rteMemVirt2phy := by
  obtain ⟨start', n, hmmap', hsmall, hn, hrc, hpush⟩ := lazybsdMmapInit_inv h
  obtain rfl := Option.some.inj (hmmap'.symm.trans hmmap)
  obtain ⟨hphy, hstart, hend⟩ := pushPages_frame hpush
  have hpages : (List.range n).map (virtAddr start') = arrayPages start' n := by
    apply List.map_congr_left
    intro i hi
    have hlt := List.mem_range.mp hi
    exact virtAddr_eq start' (by omega)
  obtain ⟨hempty, hsize⟩ := stklistInit_spec hrc
  have hlength : ((List.range n).map (virtAddr start')).length = n := by
    rw [List.length_map, List.length_range]
  obtain ⟨hall, hkept⟩ := pushPages_eq hpush (by
    show (stklistInit .zero n host.garbage).2.top + _ ≤ (stklistInit .zero n host.garbage).2.size
    rw [hlength, hsize, ← StackList.length_pages, hempty]
    exact (Nat.zero_add n).le)
  dsimp only at hall hkept
  rw [hempty, List.nil_append] at hall
  rw [List.nil_append] at hphy
  rw [← hn, ← hpages]
  exact ⟨hstart, hend, hkept.trans hsize, hall, hphy⟩

/-- The page array is as large as configured, and its pages tile it, exactly below 2048 MB: from there on
the shift of the `int` runs over. -/
theorem page_array_is_sized_iff (host : Host) (memSize : Int) (mem : UInt64 → UInt8) (start : UInt64)
    (hpos : 1 ≤ memSize) (hmmap : host.mmap (bsdMemsz memSize) = some start) :
    Sized host memSize mem start ↔ memSize < 2048 := by
  have hle := host.mmap_le _ _ hmmap
  constructor
  · intro h
    have hbytes := h.bytes
    have hsmall : (bsdMemsz memSize).toNat < 2 ^ 31 := bsdMemsz_toNat (by omega)
    omega
  · intro hlt
    have hmemsz := bsdMemsz_of_lt hpos hlt
    have hpages : (bsdMemsz memSize).toNat / 4096 = (memSize * 256).toNat := by omega
    refine ⟨by omega, ?_, ?_⟩
    · have hbytes : (memSize * 2 ^ 20).toNat = 4096 * (memSize * 256).toNat := by omega
      rw [hbytes]
      exact arrayPages_tiles (by omega)
    · intro a ha
      obtain ⟨hstart, -, -, hall, hphy⟩ := lazybsdMmapInit_pages hmmap ha
      rw [hpages] at hall hphy
      exact ⟨hstart, hall, hphy⟩

/-- One megabyte: 256 pages. -/
theorem one_megabyte_is_sized : Sized Sample.host 1 (fun _ => 7) 4096 :=
  (page_array_is_sized_iff Sample.host 1 (fun _ => 7) 4096 (by decide) (by decide)).mpr (by decide)

/-- With 4097 MB configured one megabyte is mapped. -/
theorem four_gigabytes_run_over :
    Sample.host.mmap (bsdMemsz 4097) = some 4096 ∧ (bsdMemsz 4097).toNat = 2 ^ 20 ∧
      (∃ a, lazybsdMmapInit Sample.host 4097 (fun _ => 7) = some a ∧
        a.mpageCtl.pages.length = 256) ∧
      ¬ Sized Sample.host 4097 (fun _ => 7) 4096 := by
  have hsame : bsdMemsz 4097 = bsdMemsz 1 := by decide
  have hbytes : (bsdMemsz 4097).toNat = 2 ^ 20 := by decide
  have hmmap : Sample.host.mmap (bsdMemsz 4097) = some 4096 := by decide
  refine ⟨hmmap, hbytes, ?_, ?_⟩
  · obtain ⟨a, ha⟩ := Sample.lazybsdMmapInit_some
    have ha' : lazybsdMmapInit Sample.host 4097 (fun _ => 7) = some a := by
      rw [← ha, lazybsdMmapInit, lazybsdMmapInit, hsame]
    obtain ⟨-, -, -, hall, -⟩ := lazybsdMmapInit_pages hmmap ha'
    refine ⟨a, ha', ?_⟩
    rw [hall, arrayPages, List.length_map, List.length_range, hbytes]
    rfl
  · intro h
    have hclaimed := h.bytes
    rw [hbytes] at hclaimed
    omega

end Size

/-! ## The tests -/

section Tests

variable {pg : Tx.PageArray} {a : PageArray} {va : UInt64} {i o : Nat}

/-- The page number is taken modulo 2^32, so the distance from the array counts modulo 2^44. -/
theorem pageIndex_lt_iff (pg : Tx.PageArray) (va : UInt64) :
    (pg.pageIndex va).toNat < pg.npages ↔
      (va - pg.start).toNat % 2 ^ 44 < pg.npages * 4096 := by
  have hindex : (pg.pageIndex va).toNat = (va - pg.start).toNat / 4096 % 2 ^ 32 := by
    rw [Tx.PageArray.pageIndex, UInt64.toNat_toUInt32, UInt64.toNat_shiftRight]
    exact congrArg (· % 2 ^ 32) (Nat.shiftRight_eq_div_pow _ _)
  rw [hindex]
  omega

theorem lazybsdMemVirt2phy_eq_none_iff (pg : Tx.PageArray) (va : UInt64) :
    pg.lazybsdMemVirt2phy va = none ↔
      pg.npages * 4096 ≤ (va - pg.start).toNat % 2 ^ 44 := by
  have hlt := pageIndex_lt_iff pg va
  rw [Tx.PageArray.lazybsdMemVirt2phy]
  split
  · exact iff_of_true rfl (by omega)
  · exact iff_of_false (Option.some_ne_none _) (by omega)

theorem lazybsdChkVma_eq_true_iff (pg : Tx.PageArray) (va : UInt64) :
    pg.lazybsdChkVma va = true ↔ pg.start < va ∧ va < pg.stop := by
  rw [Tx.PageArray.lazybsdChkVma, Bool.and_eq_true, decide_eq_true_iff, decide_eq_true_iff]

/-- Inside the array the translation is the one of the page, and the offset in it. -/
theorem lazybsdMemVirt2phy_inside (hi : i < pg.npages) (ho : o < 4096)
    (hva : va = pg.start + UInt64.ofNat (4096 * i + o)) :
    pg.lazybsdMemVirt2phy va = some (pg.phy i + UInt64.ofNat o) := by
  have hwrap := pg.no_wrap
  have hstop := pg.stop_toNat
  have haligned := pg.aligned
  have htoNat : va.toNat = pg.start.toNat + (4096 * i + o) := by
    rw [hva]
    exact toNat_add_ofNat (by omega)
  have hindex : (pg.pageIndex va).toNat = i := by
    rw [pg.pageIndex_toNat (by rw [UInt64.le_iff_toNat_le]; omega)
      (by rw [UInt64.lt_iff_toNat_lt]; omega)]
    omega
  have hoffset : va &&& 4095 = UInt64.ofNat o := by
    apply UInt64.toNat.inj
    rw [UInt64.toNat_and, UInt64.toNat_ofNat']
    show va.toNat &&& (2 ^ 12 - 1) = _
    rw [Nat.and_two_pow_sub_one_eq_mod]
    omega
  rw [Tx.PageArray.lazybsdMemVirt2phy, hindex, if_neg (by omega), hoffset]

/-- For one address. The first byte of the array is the only one that `lazybsd_chk_vma` misses. -/
theorem Viewed.testsCorrect_iff (h : Viewed a pg) (va : UInt64) :
    TestsCorrect a pg va ↔
      (InArray a va → va ≠ a.pageStart) ∧
        (¬ InArray a va →
          (a.pageEnd - a.pageStart).toNat ≤ (va - a.pageStart).toNat % 2 ^ 44) := by
  have hwrap := pg.no_wrap
  have hstop := pg.stop_toNat
  have hsize : (a.pageEnd - a.pageStart).toNat = pg.npages * 4096 := by
    rw [← h.start, ← h.stop, UInt64.toNat_sub_of_le _ _ (by rw [UInt64.le_iff_toNat_le]; omega)]
    omega
  rw [hsize, ← h.start]
  constructor
  · intro htests
    refine ⟨?_, ?_⟩
    · rintro ⟨hlo, hhi⟩ rfl
      rw [← h.stop, UInt64.lt_iff_toNat_lt] at hhi
      obtain ⟨hchk, -⟩ := htests.inside 0 0 (by rw [← h.npages]; omega) (by omega) (by
        rw [← h.start]
        exact (UInt64.add_zero _).symm)
      rw [lazybsdChkVma_eq_true_iff] at hchk
      exact absurd hchk.1 (UInt64.lt_irrefl _)
    · intro hout
      exact (lazybsdMemVirt2phy_eq_none_iff pg va).mp (htests.outside hout).2
  · rintro ⟨hfirst, hfar⟩
    refine ⟨?_, ?_⟩
    · intro i o hi ho hva
      rw [← h.npages] at hi
      rw [← h.start] at hva
      have htoNat : va.toNat = pg.start.toNat + (4096 * i + o) := by
        rw [hva]
        exact toNat_add_ofNat (by omega)
      have hhi : va < pg.stop := by
        rw [UInt64.lt_iff_toNat_lt]
        omega
      have hlo : pg.start ≤ va := by
        rw [UInt64.le_iff_toNat_le]
        omega
      have hne : va ≠ pg.start := hfirst ⟨by rwa [← h.start], by rwa [← h.stop]⟩
      refine ⟨?_, pg.phy i, h.phy i hi, lazybsdMemVirt2phy_inside hi ho hva⟩
      exact (lazybsdChkVma_eq_true_iff pg va).mpr ⟨UInt64.lt_of_le_of_ne hlo hne.symm, hhi⟩
    · intro hout
      refine ⟨?_, (lazybsdMemVirt2phy_eq_none_iff pg va).mpr (hfar hout)⟩
      rw [← Bool.not_eq_true, lazybsdChkVma_eq_true_iff]
      rintro ⟨hlo, hhi⟩
      exact hout ⟨by rw [← h.start]; exact UInt64.le_of_lt hlo, by rwa [← h.stop]⟩

/-- `mmap` returns an aligned address. After that what `lazybsd_mmap_init` leaves is an array as the
transmit path has it. -/
theorem lazybsdMmapInit_viewed {host : Host} {memSize : Int} {mem : UInt64 → UInt8}
    (haligned : ∀ len addr, host.mmap len = some addr → addr.toNat % 4096 = 0)
    (h : lazybsdMmapInit host memSize mem = some a) : ∃ pg, Viewed a pg := by
  obtain ⟨start, -, hmmap, hsmall, -⟩ := lazybsdMmapInit_inv h
  obtain ⟨hstart, hend, hsize, -, hphy⟩ := lazybsdMmapInit_pages hmmap h
  have hle := host.mmap_le _ _ hmmap
  have hmemsz : (bsdMemsz memSize).toNat % 4096 = 0 := bsdMemsz_mod memSize
  have halign : a.pageStart.toNat % 4096 = 0 := by
    rw [hstart]
    exact haligned _ _ hmmap
  refine ⟨⟨a.pageStart, a.mpageCtl.size, fun i => a.mpagePhy.getD i 0, halign, by omega, ?_⟩,
    rfl, ?_, rfl, ?_⟩
  · rw [hstart]
    omega
  · show a.pageStart + UInt64.ofNat (a.mpageCtl.size * 4096) = a.pageEnd
    rw [hend, hstart, hsize, Nat.div_mul_cancel (Nat.dvd_of_mod_eq_zero hmemsz), UInt64.ofNat_toNat]
  · intro i hi
    have hlt : i < a.mpagePhy.length := by
      rw [hphy, List.length_map, arrayPages, List.length_map, List.length_range, ← hsize]
      exact hi
    show _ = some (a.mpagePhy.getD i 0)
    rw [List.getElem?_eq_getElem hlt, List.getD_eq_getElem _ _ hlt]

/-- After a successful `lazybsd_mmap_init` the two tests are right about an address exactly if it is not
the first byte of the array, and, outside, its distance from the array modulo 2^44 is not below the size
of the array. -/
theorem page_tests_are_correct_iff (host : Host) (memSize : Int) (mem : UInt64 → UInt8)
    (a : PageArray)
    (haligned : ∀ len addr, host.mmap len = some addr → addr.toNat % 4096 = 0)
    (h : lazybsdMmapInit host memSize mem = some a) :
    (∃ pg, Viewed a pg) ∧ ∀ pg, Viewed a pg → ∀ va, TestsCorrect a pg va ↔
      (InArray a va → va ≠ a.pageStart) ∧
        (¬ InArray a va →
          (a.pageEnd - a.pageStart).toNat ≤ (va - a.pageStart).toNat % 2 ^ 44) :=
  ⟨lazybsdMmapInit_viewed haligned h, fun _ hview va => hview.testsCorrect_iff va⟩

theorem Sample.aligned (len addr : UInt64) (h : Sample.host.mmap len = some addr) :
    addr.toNat % 4096 = 0 := by
  have hmmap : (if len.toNat ≤ 2 ^ 46 then some (4096 : UInt64) else none) = some addr := h
  split at hmmap
  · obtain rfl := Option.some.inj hmmap
    rfl
  · cases hmmap

/-- The array of one megabyte at 4096. -/
theorem Sample.one_megabyte : ∃ a pg, lazybsdMmapInit Sample.host 1 (fun _ => 7) = some a ∧
    Viewed a pg ∧ a.pageStart = 4096 ∧ a.pageEnd = 1052672 := by
  obtain ⟨a, ha⟩ := Sample.lazybsdMmapInit_some
  obtain ⟨pg, hview⟩ := lazybsdMmapInit_viewed Sample.aligned ha
  have hmmap : Sample.host.mmap (bsdMemsz 1) = some 4096 := by decide
  obtain ⟨hstart, hend, -⟩ := lazybsdMmapInit_pages hmmap ha
  refine ⟨a, pg, ha, hview, hstart, ?_⟩
  rw [hend]
  decide

/-- Its second byte and the byte behind its end are told right. -/
theorem second_byte_is_in_the_array : ∃ a pg,
    lazybsdMmapInit Sample.host 1 (fun _ => 7) = some a ∧
      TestsCorrect a pg 4097 ∧ TestsCorrect a pg 1052672 := by
  obtain ⟨a, pg, ha, hview, hstart, hend⟩ := Sample.one_megabyte
  have htests := (page_tests_are_correct_iff Sample.host 1 _ a Sample.aligned ha).2 pg hview
  refine ⟨a, pg, ha, (htests 4097).mpr ?_, (htests 1052672).mpr ?_⟩
  · rw [InArray, hstart, hend]
    decide
  · rw [InArray, hstart, hend]
    decide

/-- Its first byte is in the array, where `lazybsd_mem_virt2phy` finds it and `lazybsd_chk_vma` does not;
and 2^44 bytes further on an address that is not in the array is translated to the same byte. -/
theorem first_byte_is_missed : ∃ a pg,
    lazybsdMmapInit Sample.host 1 (fun _ => 7) = some a ∧ Viewed a pg ∧
      InArray a 4096 ∧ pg.lazybsdChkVma 4096 = false ∧
      (pg.lazybsdMemVirt2phy 4096).isSome = true ∧
      ¬ InArray a 0x100000001000 ∧
      pg.lazybsdMemVirt2phy 0x100000001000 = pg.lazybsdMemVirt2phy 4096 ∧
      ¬ TestsCorrect a pg 4096 ∧ ¬ TestsCorrect a pg 0x100000001000 := by
  obtain ⟨a, pg, ha, hview, hstart, hend⟩ := Sample.one_megabyte
  have hpgStart : pg.start = 4096 := hview.start.trans hstart
  have hpgStop : pg.stop = 1052672 := hview.stop.trans hend
  have hin : InArray a 4096 := by
    rw [InArray, hstart, hend]
    decide
  have hout : ¬ InArray a 0x100000001000 := by
    rw [InArray, hstart, hend]
    decide
  have hindex : pg.pageIndex 0x100000001000 = pg.pageIndex 4096 := by
    rw [Tx.PageArray.pageIndex, Tx.PageArray.pageIndex, hpgStart]
    decide
  have hsame : pg.lazybsdMemVirt2phy 0x100000001000 = pg.lazybsdMemVirt2phy 4096 := by
    rw [Tx.PageArray.lazybsdMemVirt2phy, Tx.PageArray.lazybsdMemVirt2phy, hindex]
    rfl
  have hfound : (pg.lazybsdMemVirt2phy 4096).isSome = true := by
    apply pg.lazybsdMemVirt2phy_isSome
    · rw [hpgStart]
      decide
    · rw [hpgStop]
      decide
  refine ⟨a, pg, ha, hview, hin, ?_, hfound, hout, hsame, ?_, ?_⟩
  · rw [Tx.PageArray.lazybsdChkVma, hpgStart]
    rfl
  · rw [hview.testsCorrect_iff]
    rintro ⟨hfirst, -⟩
    exact hfirst hin hstart.symm
  · intro htests
    rw [(htests.outside hout).2] at hsame
    rw [← hsame] at hfound
    cases hfound

end Tests

end LazyBsd.Pages
