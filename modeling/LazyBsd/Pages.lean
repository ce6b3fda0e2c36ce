/-
# LazyBsd.Pages — the stack of free pages under the kernel's memory allocator.

At start-up `lazybsd_mmap_init` pushes every page of one mapped array onto a stack. `kmem_malloc` of
4096 bytes pops a page, `kmem_free` of 4096 bytes pushes it back, each through `lazybsd_mmap` and
`lazybsd_munmap`, which tell the pages by the size alone. Whatever the history, the pages on the
stack and those handed out are the pages of the array, each once.
-/
import Mathlib.Algebra.Group.Int.Defs
import Mathlib.Algebra.Group.Nat.Defs
import Mathlib.Data.List.GetD
import Mathlib.Data.List.Nodup
import Mathlib.Data.List.Perm.Basic
import LazyBsd.Lib.Run

namespace LazyBsd.Pages

open Lib

/-! ## The stack -/

/-- `StackList_t`; `size` is the number of elements allocated. -/
structure StackList where
  ele : List UInt64
  top : Nat
  bound : top ≤ ele.length
deriving DecidableEq, Repr

def StackList.size (p : StackList) : Nat := p.ele.length

/-- The static `lazybsd_mpage_ctl` before it is initialised. -/
def StackList.zero : StackList := ⟨[], 0, Nat.le_refl 0⟩

/-- The values on the stack, the next one to be popped last. -/
def StackList.pages (p : StackList) : List UInt64 := p.ele.take p.top

/-- `garbage` is what `posix_memalign` returns, `none` when it fails. -/
def stklistInit (p : StackList) (size : Int) (garbage : Option (Nat → UInt64)) : Int × StackList :=
  if size ≤ 0 then (-1, p)
  else
    match garbage with
    | none => (-2, p)
    | some garbage => (0, ⟨(List.range size.toNat).map garbage, 0, Nat.zero_le _⟩)

/-- `NULL` is 0. -/
def stklistPop (p : StackList) : UInt64 × StackList :=
  if 0 < p.top then
    (p.ele.getD (p.top - 1) 0, ⟨p.ele, p.top - 1, (Nat.sub_le _ _).trans p.bound⟩)
  else (0, p)

def stklistPush (p : StackList) (val : UInt64) : Int × StackList :=
  if h : p.top < p.size then
    (0, ⟨p.ele.set p.top val, p.top + 1, by rw [List.length_set]; exact h⟩)
  else (-1, p)

/-! ## Pages -/

def pageSize : Int := 4096
def rteBadIova : UInt64 := 0xFFFFFFFFFFFFFFFF

/-- The host. `mmap` returns memory of its own, in the lower half of the address space and never at
`NULL`; `none` is `MAP_FAILED`. -/
structure Host where
  mmap : UInt64 → Option UInt64
  mmap_ne_null : ∀ len addr, mmap len = some addr → addr ≠ 0
  mmap_le : ∀ len addr, mmap len = some addr → addr.toNat + len.toNat ≤ 2 ^ 47
  mlock : Bool
  memalignPhy : Bool
  garbage : Option (Nat → UInt64)
  rteMemVirt2phy : UInt64 → UInt64

/-- The static variables of the page array, and the memory. -/
structure PageArray where
  mpageCtl : StackList
  pageStart : UInt64
  pageEnd : UInt64
  mpagePhy : List UInt64
  mem : UInt64 → UInt8

/-- `memset` and `bzero`. -/
def zeroed (mem : UInt64 → UInt8) (addr len : UInt64) : UInt64 → UInt8 :=
  fun a => if addr.toNat ≤ a.toNat ∧ a.toNat < addr.toNat + len.toNat then 0 else mem a

/-- `lazybsd_page_start + PAGE_SIZE*i`, where the product is an `int`. -/
def virtAddr (start : UInt64) (i : Nat) : UInt64 :=
  start + UInt64.ofInt ((pageSize * i).bmod (2 ^ 32))

/-- The loop of `lazybsd_mmap_init`. `none` is `rte_panic`. -/
def pushPages (host : Host) (a : PageArray) : List UInt64 → Option PageArray
  | [] => some a
  | virt :: rest =>
      let phy := host.rteMemVirt2phy virt
      if phy = rteBadIova then none
      else
        pushPages host
          { a with
            mpageCtl := (stklistPush a.mpageCtl virt).2
            mpagePhy := a.mpagePhy ++ [phy]
            mem := zeroed a.mem virt 4096 } rest

/-- `mem_size << 20`, an `int`, as a `uint64_t`. -/
def bsdMemsz (memSize : Int) : UInt64 := UInt64.ofInt ((memSize * 2 ^ 20).bmod (2 ^ 32))

/-- `bsd_pagesz`, an `unsigned int`. -/
def bsdPagesz (memsz : UInt64) : UInt32 := (memsz >>> 12).toUInt32

/-- The result of `stklist_init` is ignored. Without memory for the stack the first push writes through
`NULL`; here that is a crash as well. -/
def lazybsdMmapInit (host : Host) (memSize : Int) (mem : UInt64 → UInt8) : Option PageArray :=
  let memsz := bsdMemsz memSize
  match host.mmap memsz with
  | none => none
  | some start =>
      if !host.mlock || !host.memalignPhy then none
      else
        let pagesz := bsdPagesz memsz
        let init := stklistInit .zero ((pagesz.toNat : Int).bmod (2 ^ 32)) host.garbage
        if init.1 = -2 then none
        else
          pushPages host ⟨init.2, start, start + memsz, [], mem⟩
            ((List.range pagesz.toNat).map (virtAddr start))

def lazybsdMemGetPage (a : PageArray) : UInt64 × PageArray :=
  let popped := stklistPop a.mpageCtl
  (popped.1, { a with mpageCtl := popped.2 })

/-- What `stklist_push` returns is ignored. -/
def lazybsdMemFreeAddr (a : PageArray) (p : UInt64) : PageArray :=
  { a with mpageCtl := (stklistPush a.mpageCtl p).2 }

/-- `none` is `exit(1)`. -/
def lazybsdMmap (host : Host) (a : PageArray) (len : UInt64) : Option (UInt64 × PageArray) :=
  if len = 4096 then some (lazybsdMemGetPage a)
  else (host.mmap len).map fun addr => (addr, a)

def lazybsdMunmap (a : PageArray) (addr len : UInt64) : PageArray :=
  if len = 4096 then lazybsdMemFreeAddr a addr else a

def kmemMalloc (host : Host) (a : PageArray) (bytes : UInt64) (mZero : Bool) :
    Option (UInt64 × PageArray) :=
  (lazybsdMmap host a bytes).map fun r =>
    if mZero && r.1 ≠ 0 then (r.1, { r.2 with mem := zeroed r.2.mem r.1 bytes }) else r

def kmemFree (a : PageArray) (addr size : UInt64) : PageArray := lazybsdMunmap a addr size

/-! ## Histories -/

/-- The page array, and the pages that are handed out. -/
structure Ledger where
  array : PageArray
  owned : List UInt64

inductive Op
  | malloc (mZero : Bool)
  | free (addr : UInt64)
deriving DecidableEq, Repr

/-- A call for 4096 bytes; only what is handed out may be freed. -/
def step (host : Host) (s : Ledger) : Op → Option Ledger
  | .malloc mZero => (kmemMalloc host s.array 4096 mZero).map fun (addr, a) =>
      ⟨a, if addr = 0 then s.owned else addr :: s.owned⟩
  | .free addr =>
      if addr ∈ s.owned then some ⟨kmemFree s.array addr 4096, s.owned.erase addr⟩ else none

/-! ## Stack lemmas -/

section Stack

variable {p : StackList} {val x : UInt64} {rest : List UInt64}

@[simp] theorem StackList.length_pages (p : StackList) : p.pages.length = p.top :=
  List.length_take_of_le p.bound

/-- A push below the size is on the stack. -/
theorem stklistPush_of_lt (val : UInt64) (h : p.top < p.size) :
    (stklistPush p val).1 = 0 ∧ (stklistPush p val).2.pages = p.pages ++ [val] ∧
      (stklistPush p val).2.size = p.size := by
  rw [stklistPush, dif_pos h]
  refine ⟨rfl, ?_, List.length_set⟩
  show (p.ele.set p.top val).take (p.top + 1) = p.ele.take p.top ++ [val]
  rw [List.take_succ_eq_append_getElem (by rwa [List.length_set]), List.getElem_set_self,
    List.take_set_of_le (Nat.le_refl _)]

theorem stklistPop_nil (h : p.pages = []) : stklistPop p = (0, p) := by
  have htop : ¬ 0 < p.top := by
    rw [← p.length_pages, h]
    exact Nat.lt_irrefl 0
  rw [stklistPop, if_neg htop]

theorem stklistPop_concat (h : p.pages = rest ++ [x]) :
    (stklistPop p).1 = x ∧ (stklistPop p).2.pages = rest ∧ (stklistPop p).2.size = p.size := by
  have htop : p.top = rest.length + 1 := by
    rw [← p.length_pages, h, List.length_append]
    rfl
  have hlt : p.top - 1 < p.ele.length := Nat.lt_of_lt_of_le (by omega) p.bound
  rw [stklistPop, if_pos (by omega)]
  have hsplit : p.ele.take (p.top - 1) ++ [p.ele[p.top - 1]] = rest ++ [x] := by
    rw [← List.take_succ_eq_append_getElem hlt, Nat.sub_add_cancel (by omega)]
    exact h
  obtain ⟨hrest, hx⟩ := List.append_inj' hsplit rfl
  refine ⟨?_, hrest, rfl⟩
  show p.ele.getD (p.top - 1) 0 = x
  rw [List.getD_eq_getElem _ _ hlt]
  exact List.head_eq_of_cons_eq hx

end Stack

/-! ## Start-up -/

/-- `lazybsd_mmap_init` has pushed the pages `pages` onto a stack made for as many. -/
structure Loaded (host : Host) (pages : List UInt64) (a : PageArray) : Prop where
  pushed : ∃ a₀ : PageArray, (stklistInit .zero pages.length host.garbage).1 ≠ -2 ∧
    a₀.mpageCtl = (stklistInit .zero pages.length host.garbage).2 ∧
    pushPages host a₀ pages = some a
  nodup : pages.Nodup
  nonnull : 0 ∉ pages

section Init

variable {host : Host} {a a' : PageArray} {pages : List UInt64} {start : UInt64} {i : Nat}

/-- Below the size no push is dropped. -/
theorem pushPages_eq (h : pushPages host a pages = some a')
    (hsize : a.mpageCtl.top + pages.length ≤ a.mpageCtl.size) :
    a'.mpageCtl.pages = a.mpageCtl.pages ++ pages ∧ a'.mpageCtl.size = a.mpageCtl.size := by
  induction pages generalizing a with
  | nil =>
      obtain rfl := Option.some.inj h
      exact ⟨(List.append_nil _).symm, rfl⟩
  | cons virt pages ih =>
      rw [List.length_cons] at hsize
      rw [pushPages] at h
      split at h
      · cases h
      · obtain ⟨-, hpages, hsame⟩ :=
          stklistPush_of_lt virt (show a.mpageCtl.top < a.mpageCtl.size by omega)
        have htop : (stklistPush a.mpageCtl virt).2.top = a.mpageCtl.top + 1 := by
          rw [← StackList.length_pages, hpages, List.length_append, StackList.length_pages]
          rfl
        obtain ⟨hall, hkept⟩ := ih h (by
          show (stklistPush a.mpageCtl virt).2.top + _ ≤ (stklistPush a.mpageCtl virt).2.size
          rw [htop, hsame]
          omega)
        refine ⟨?_, hkept.trans hsame⟩
        show a'.mpageCtl.pages = _
        rw [hall]
        show (stklistPush a.mpageCtl virt).2.pages ++ pages = _
        rw [hpages, List.append_assoc]
        rfl

/-- The loop fills `lazybsd_mpage_phy` in the order of the pages. -/
theorem pushPages_frame (h : pushPages host a pages = some a') :
    a'.mpagePhy = a.mpagePhy ++ pages.map host.rteMemVirt2phy ∧
      a'.pageStart = a.pageStart ∧ a'.pageEnd = a.pageEnd := by
  induction pages generalizing a with
  | nil =>
      obtain rfl := Option.some.inj h
      exact ⟨(List.append_nil _).symm, rfl, rfl⟩
  | cons virt pages ih =>
      rw [pushPages] at h
      split at h
      · cases h
      · obtain ⟨hphy, hstart, hend⟩ := ih h
        refine ⟨?_, hstart, hend⟩
        rw [hphy, List.map_cons, List.append_assoc]
        rfl

theorem stklistInit_spec {size : Nat} {garbage : Option (Nat → UInt64)}
    (h : (stklistInit .zero size garbage).1 ≠ -2) :
    (stklistInit .zero size garbage).2.pages = [] ∧
      (stklistInit .zero size garbage).2.size = size := by
  unfold stklistInit at h ⊢
  split
  · next hle => exact ⟨rfl, (Int.ofNat.inj (by omega : ((0 : Nat) : Int) = size))⟩
  · next hpos =>
      rw [if_neg hpos] at h
      cases garbage with
      | none => exact absurd rfl h
      | some garbage => exact ⟨rfl, by simp [StackList.size]⟩

/-- All pages are on the stack, which has no room for more. -/
theorem Loaded.stack (h : Loaded host pages a) :
    a.mpageCtl.pages = pages ∧ a.mpageCtl.size = pages.length := by
  obtain ⟨a₀, hrc, hctl, hpush⟩ := h.pushed
  obtain ⟨hempty, hsize⟩ := stklistInit_spec hrc
  rw [← hctl] at hempty hsize
  have htop : a₀.mpageCtl.top = 0 := by rw [← StackList.length_pages, hempty]; rfl
  obtain ⟨hpages, hsame⟩ := pushPages_eq hpush (by omega)
  rw [hempty, List.nil_append] at hpages
  exact ⟨hpages, hsame.trans hsize⟩

/-- A size that can be mapped has not run over. -/
theorem bsdMemsz_toNat {memSize : Int} (h : (bsdMemsz memSize).toNat ≤ 2 ^ 47) :
    (bsdMemsz memSize).toNat < 2 ^ 31 := by
  unfold bsdMemsz at h ⊢
  generalize hm : (memSize * 2 ^ 20).bmod (2 ^ 32) = m at h ⊢
  have hlo : -(2 ^ 31) ≤ m := by
    rw [← hm]
    simp only [Int.bmod_def]
    split <;> omega
  have hhi : m < 2 ^ 31 := by
    rw [← hm]
    simp only [Int.bmod_def]
    split <;> omega
  have htoNat : ((UInt64.ofInt m).toNat : Int) = m % 2 ^ 64 := by
    rw [UInt64.ofInt, UInt64.toNat_ofNat']
    omega
  omega

/-- For the pages of the array the product does not run over. -/
theorem virtAddr_eq (start : UInt64) (hi : i < 2 ^ 19) :
    virtAddr start i = start + UInt64.ofNat (4096 * i) := by
  have hbmod : (pageSize * i).bmod (2 ^ 32) = ((4096 * i : Nat) : Int) := by
    simp only [pageSize, Int.bmod_def]
    split <;> omega
  have hofInt : UInt64.ofInt ((4096 * i : Nat) : Int) = UInt64.ofNat (4096 * i) := by
    apply UInt64.toNat.inj
    rw [UInt64.ofInt, UInt64.toNat_ofNat', UInt64.toNat_ofNat']
    omega
  rw [virtAddr, hbmod, hofInt]

/-- The pages of the array do not run over either. -/
theorem virtAddr_toNat (hi : i < 2 ^ 19) (h : start.toNat + 4096 * i < 2 ^ 64) :
    (virtAddr start i).toNat = start.toNat + 4096 * i := by
  rw [virtAddr_eq start hi, UInt64.toNat_add, UInt64.toNat_ofNat']
  omega

theorem bsdPagesz_toNat (memsz : UInt64) (h : memsz.toNat < 2 ^ 31) :
    (bsdPagesz memsz).toNat = memsz.toNat / 4096 := by
  have hshift : (memsz >>> 12).toNat = memsz.toNat / 4096 := by
    rw [UInt64.toNat_shiftRight]
    exact Nat.shiftRight_eq_div_pow _ _
  rw [bsdPagesz, UInt64.toNat_toUInt32, hshift]
  omega

theorem bmod_natCast {n : Nat} (h : n < 2 ^ 31) : (n : Int).bmod (2 ^ 32) = n := by
  simp only [Int.bmod_def]
  split <;> omega

/-- Addresses one page apart are distinct. -/
theorem nodup_pages {f : Nat → UInt64} {base n : Nat}
    (h : ∀ i ∈ List.range n, (f i).toNat = base + 4096 * i) : ((List.range n).map f).Nodup := by
  rw [List.nodup_map_iff_inj_on List.nodup_range]
  intro i hi j hj hij
  have hsame := congrArg UInt64.toNat hij
  rw [h i hi, h j hj] at hsame
  omega

/-- The pages of an array that lies in the address space are distinct, and none is `NULL`. -/
theorem virtAddr_pages {n : Nat} (hn : n < 2 ^ 19) (hstart : start ≠ 0)
    (h : start.toNat + 4096 * n ≤ 2 ^ 47) :
    ((List.range n).map (virtAddr start)).Nodup ∧ 0 ∉ (List.range n).map (virtAddr start) := by
  have haddr (i : Nat) (hi : i ∈ List.range n) :
      (virtAddr start i).toNat = start.toNat + 4096 * i := by
    have hlt := List.mem_range.mp hi
    exact virtAddr_toNat (by omega) (by omega)
  refine ⟨nodup_pages haddr, ?_⟩
  intro hzero
  obtain ⟨i, hi, hnull⟩ := List.mem_map.mp hzero
  have hsame := congrArg UInt64.toNat hnull
  rw [haddr i hi, UInt64.toNat_zero] at hsame
  apply hstart
  apply UInt64.toNat.inj
  rw [UInt64.toNat_zero]
  omega

/-- Everything a successful `lazybsd_mmap_init` has done. -/
theorem lazybsdMmapInit_inv {memSize : Int} {mem : UInt64 → UInt8}
    (h : lazybsdMmapInit host memSize mem = some a) : ∃ start n,
      host.mmap (bsdMemsz memSize) = some start ∧ (bsdMemsz memSize).toNat < 2 ^ 31 ∧
      n = (bsdMemsz memSize).toNat / 4096 ∧ (stklistInit .zero n host.garbage).1 ≠ -2 ∧
      pushPages host
        ⟨(stklistInit .zero n host.garbage).2, start, start + bsdMemsz memSize, [], mem⟩
        ((List.range n).map (virtAddr start)) = some a := by
  cases hmmap : host.mmap (bsdMemsz memSize) with
  | none =>
      rw [lazybsdMmapInit, hmmap] at h
      cases h
  | some start =>
      have hle := host.mmap_le _ _ hmmap
      have hsmall : (bsdMemsz memSize).toNat < 2 ^ 31 := bsdMemsz_toNat (by omega)
      refine ⟨start, _, rfl, hsmall, rfl, ?_⟩
      rw [lazybsdMmapInit, hmmap] at h
      simp only [bsdPagesz_toNat _ hsmall] at h
      rw [bmod_natCast (by omega)] at h
      split at h
      · cases h
      · split at h
        · cases h
        · next hrc => exact ⟨hrc, h⟩

/-- What `lazybsd_mmap_init` leaves. -/
theorem lazybsdMmapInit_loads {memSize : Int} {mem : UInt64 → UInt8}
    (h : lazybsdMmapInit host memSize mem = some a) :
    ∃ pages, Loaded host pages a ∧ pages.length = (bsdMemsz memSize).toNat / 4096 := by
  obtain ⟨start, n, hmmap, hsmall, hn, hrc, hpush⟩ := lazybsdMmapInit_inv h
  have hle := host.mmap_le _ _ hmmap
  obtain ⟨hnodup, hnonnull⟩ : ((List.range n).map (virtAddr start)).Nodup ∧
      0 ∉ (List.range n).map (virtAddr start) :=
    virtAddr_pages (by omega) (host.mmap_ne_null _ _ hmmap) (by omega)
  have hlength : ((List.range n).map (virtAddr start)).length = n := by
    rw [List.length_map, List.length_range]
  refine ⟨_, ⟨⟨_, ?_, ?_, hpush⟩, hnodup, hnonnull⟩, hlength.trans hn⟩
  · rwa [hlength]
  · rw [hlength]

end Init

/-! ## What a history keeps -/

/-- The page that the next `kmem_malloc` of 4096 bytes returns. -/
def Ledger.nextPage (s : Ledger) : UInt64 := (stklistPop s.array.mpageCtl).1

/-- The pages on the stack and the pages handed out are the pages of the array, each once. -/
structure Conserved (pages : List UInt64) (s : Ledger) : Prop where
  disjoint : ∀ p ∈ s.array.mpageCtl.pages, p ∉ s.owned
  freeNodup : s.array.mpageCtl.pages.Nodup
  ownedNodup : s.owned.Nodup
  exactly : ∀ p, p ∈ s.array.mpageCtl.pages ∨ p ∈ s.owned ↔ p ∈ pages

/-- One call. A page is returned unless all are handed out, and it is no one else's; a page given back
is on the stack again. -/
def Exact (host : Host) (pages : List UInt64) (tr : Transition Ledger Op) : Prop :=
  match tr.act with
  | .malloc mZero =>
      (kmemMalloc host tr.before.array 4096 mZero).map Prod.fst = some tr.before.nextPage ∧
        (tr.before.nextPage = 0 ↔ ∀ p ∈ pages, p ∈ tr.before.owned) ∧
        (tr.before.nextPage ≠ 0 →
          tr.before.nextPage ∉ tr.before.owned ∧
            tr.after.owned = tr.before.nextPage :: tr.before.owned)
  | .free addr =>
      (stklistPush tr.before.array.mpageCtl addr).1 = 0 ∧ addr ∈ tr.after.array.mpageCtl.pages

/-- The invariant behind both. -/
structure Balanced (pages : List UInt64) (s : Ledger) : Prop where
  perm : (s.array.mpageCtl.pages ++ s.owned).Perm pages
  size : s.array.mpageCtl.size = pages.length

section History

variable {host : Host} {pages : List UInt64} {s s' : Ledger} {addr : UInt64} {mZero : Bool}

theorem Loaded.balanced {a : PageArray} (h : Loaded host pages a) : Balanced pages ⟨a, []⟩ := by
  obtain ⟨hpages, hsize⟩ := h.stack
  refine ⟨?_, hsize⟩
  show (a.mpageCtl.pages ++ []).Perm pages
  rw [hpages, List.append_nil]

theorem Balanced.conserved (h : Balanced pages s) (hnodup : pages.Nodup) : Conserved pages s := by
  have hall := h.perm.nodup_iff.mpr hnodup
  obtain ⟨hfree, howned, hdisjoint⟩ := List.nodup_append.mp hall
  refine ⟨?_, hfree, howned, ?_⟩
  · intro p hp hp'
    exact hdisjoint p hp p hp' rfl
  · intro p
    rw [← h.perm.mem_iff, List.mem_append]

/-- The page path of `kmem_malloc` is a pop, and leaves the rest of the statics alone. -/
theorem kmemMalloc_page (host : Host) (a : PageArray) (mZero : Bool) : ∃ mem,
    kmemMalloc host a 4096 mZero = some ((stklistPop a.mpageCtl).1,
      { a with mpageCtl := (stklistPop a.mpageCtl).2, mem := mem }) := by
  unfold kmemMalloc lazybsdMmap lazybsdMemGetPage
  rw [if_pos rfl, Option.map_some]
  split
  · exact ⟨_, rfl⟩
  · exact ⟨a.mem, rfl⟩

/-- Other sizes go past the pages, to be allocated and to be freed. -/
theorem kmemMalloc_elsewhere {a : PageArray} {bytes : UInt64} (h : bytes ≠ 4096)
    {r : UInt64 × PageArray} (hr : kmemMalloc host a bytes mZero = some r) :
    r.2.mpageCtl = a.mpageCtl := by
  unfold kmemMalloc lazybsdMmap at hr
  rw [if_neg h, Option.map_map] at hr
  obtain ⟨alloc, -, rfl⟩ := Option.map_eq_some_iff.mp hr
  dsimp only [Function.comp]
  split <;> rfl

theorem kmemFree_elsewhere {a : PageArray} {size : UInt64} (h : size ≠ 4096) :
    kmemFree a addr size = a := by
  rw [kmemFree, lazybsdMunmap, if_neg h]

/-- What a call does: nothing is left on the stack, or its top goes to the caller, or a page comes back
from the caller. -/
inductive Step (s s' : Ledger) : Op → Prop
  | nothing (mZero : Bool) (hnone : s.array.mpageCtl.pages = []) (hnull : s.nextPage = 0)
      (hpages : s'.array.mpageCtl = s.array.mpageCtl) (howned : s'.owned = s.owned) :
      Step s s' (.malloc mZero)
  | page (mZero : Bool) (rest : List UInt64) (x : UInt64)
      (htop : s.array.mpageCtl.pages = rest ++ [x]) (hnext : s.nextPage = x)
      (hpages : s'.array.mpageCtl.pages = rest)
      (hsize : s'.array.mpageCtl.size = s.array.mpageCtl.size)
      (howned : s'.owned = if x = 0 then s.owned else x :: s.owned) : Step s s' (.malloc mZero)
  | back (addr : UInt64) (hmem : addr ∈ s.owned)
      (hpages : s'.array.mpageCtl = (stklistPush s.array.mpageCtl addr).2)
      (howned : s'.owned = s.owned.erase addr) : Step s s' (.free addr)

theorem step_cases {op : Op} (h : step host s op = some s') : Step s s' op := by
  cases op with
  | malloc mZero =>
      obtain ⟨mem, hmalloc⟩ := kmemMalloc_page host s.array mZero
      rw [step, hmalloc] at h
      obtain rfl := Option.some.inj h
      rcases List.eq_nil_or_concat' s.array.mpageCtl.pages with hnil | ⟨rest, x, hconcat⟩
      · have hpop := stklistPop_nil hnil
        have hnull : s.nextPage = 0 := by rw [Ledger.nextPage, hpop]
        refine .nothing mZero hnil hnull ?_ ?_
        · show (stklistPop s.array.mpageCtl).2 = _
          rw [hpop]
        · exact if_pos hnull
      · obtain ⟨hx, hrest, hsize⟩ := stklistPop_concat hconcat
        refine .page mZero rest x hconcat hx hrest hsize ?_
        show (if (stklistPop s.array.mpageCtl).1 = 0 then _ else _) = _
        rw [hx]
  | free addr =>
      rw [step] at h
      split at h
      · next hmem =>
          obtain rfl := Option.some.inj h
          refine .back addr hmem ?_ rfl
          show (kmemFree s.array addr 4096).mpageCtl = _
          rw [kmemFree, lazybsdMunmap, if_pos rfl]
          rfl
      · cases h

/-- While a page is handed out the stack is not full. -/
theorem Balanced.room (h : Balanced pages s) (hmem : addr ∈ s.owned) :
    s.array.mpageCtl.top < s.array.mpageCtl.size := by
  have hlength := h.perm.length_eq
  have hpos := List.length_pos_of_mem hmem
  rw [List.length_append, StackList.length_pages] at hlength
  rw [h.size]
  omega

/-- The step lemma. -/
theorem Balanced.preserved {op : Op} (h : Balanced pages s) (hnonnull : 0 ∉ pages)
    (hstep : step host s op = some s') : Balanced pages s' := by
  cases step_cases hstep with
  | nothing mZero hnone hnull hpages howned =>
      refine ⟨?_, ?_⟩
      · rw [hpages, howned]
        exact h.perm
      · rw [hpages]
        exact h.size
  | page mZero rest x htop hnext hpages hsize howned =>
      have hperm := h.perm
      rw [htop] at hperm
      have hx : x ≠ 0 := by
        rintro rfl
        apply hnonnull
        rw [← hperm.mem_iff]
        simp
      refine ⟨?_, hsize.trans h.size⟩
      rw [hpages, howned, if_neg hx]
      rw [List.append_assoc] at hperm
      exact hperm
  | back addr hmem hpages howned =>
      obtain ⟨-, hpush, hsize⟩ := stklistPush_of_lt addr (h.room hmem)
      refine ⟨?_, ?_⟩
      · rw [hpages, howned, hpush, List.append_assoc]
        exact ((List.perm_cons_erase hmem).symm.append_left _).trans h.perm
      · rw [hpages, hsize]
        exact h.size

/-- One call gives and takes exactly what it should. -/
theorem Balanced.exactStep {op : Op} (h : Balanced pages s) (hnodup : pages.Nodup)
    (hnonnull : 0 ∉ pages) (hstep : step host s op = some s') : Exact host pages ⟨s, op, s'⟩ := by
  have hconserved := h.conserved hnodup
  have hmalloc (mZero : Bool) :
      (kmemMalloc host s.array 4096 mZero).map Prod.fst = some s.nextPage := by
    obtain ⟨mem, heq⟩ := kmemMalloc_page host s.array mZero
    rw [heq]
    rfl
  cases step_cases hstep with
  | nothing mZero hnone hnull hpages howned =>
      refine ⟨hmalloc mZero, ?_, fun hne => absurd hnull hne⟩
      refine iff_of_true hnull ?_
      intro p hp
      rw [← hconserved.exactly, hnone] at hp
      exact hp.resolve_left List.not_mem_nil
  | page mZero rest x htop hnext hpages hsize howned =>
      have hfree : x ∈ s.array.mpageCtl.pages := by
        rw [htop]
        simp
      have hx : x ≠ 0 := by
        rintro rfl
        exact hnonnull ((hconserved.exactly 0).mp (.inl hfree))
      refine ⟨hmalloc mZero, ?_, ?_⟩
      · show s.nextPage = 0 ↔ _
        rw [hnext]
        apply iff_of_false hx
        intro hall
        exact hconserved.disjoint x hfree (hall x ((hconserved.exactly x).mp (.inl hfree)))
      · intro _
        show s.nextPage ∉ s.owned ∧ s'.owned = s.nextPage :: s.owned
        rw [hnext, howned, if_neg hx]
        exact ⟨hconserved.disjoint x hfree, rfl⟩
  | back addr hmem hpages howned =>
      obtain ⟨hrc, hpush, -⟩ := stklistPush_of_lt addr (h.room hmem)
      refine ⟨hrc, ?_⟩
      show addr ∈ s'.array.mpageCtl.pages
      rw [hpages, hpush]
      simp

/-- Start-up loads the stack with an array of distinct pages; and from any such stack every history
keeps every page of the array, and gives no page to two owners. -/
theorem pages_are_conserved (host : Host) :
    (∀ memSize mem a, lazybsdMmapInit host memSize mem = some a →
      ∃ pages, Loaded host pages a ∧ pages.length = (bsdMemsz memSize).toNat / 4096) ∧
    ∀ pages a ts t, Loaded host pages a → Run (step host) ⟨a, []⟩ ts t →
      Conserved pages t ∧ ∀ tr ∈ ts, Conserved pages tr.before ∧ Exact host pages tr := by
  refine ⟨fun memSize mem a => lazybsdMmapInit_loads, ?_⟩
  intro pages a ts t hload hrun
  have hstep {t : Ledger} {op : Op} {t' : Ledger} (h : Balanced pages t)
      (ht : step host t op = some t') : Balanced pages t' := h.preserved hload.nonnull ht
  refine ⟨(hrun.invariant hstep hload.balanced).conserved hload.nodup, ?_⟩
  intro tr htr
  obtain ⟨hbefore, htaken, -⟩ := hrun.of_mem hstep hload.balanced tr htr
  exact ⟨hbefore.conserved hload.nodup, hbefore.exactStep hload.nodup hload.nonnull htaken⟩

end History

/-! ## An array of two pages -/

namespace Sample

/-- A host with room for everything at 4096. -/
def host : Host where
  mmap len := if len.toNat ≤ 2 ^ 46 then some 4096 else none
  mmap_ne_null := by
    intro len addr h
    split at h
    · obtain rfl := Option.some.inj h
      decide
    · cases h
  mmap_le := by
    intro len addr h
    split at h
    · obtain rfl := Option.some.inj h
      show 4096 + len.toNat ≤ 2 ^ 47
      omega
    · cases h
  mlock := true
  memalignPhy := true
  garbage := some fun _ => 7
  rteMemVirt2phy virt := virt

def array : PageArray where
  mpageCtl := ⟨[4096, 8192], 2, by decide⟩
  pageStart := 4096
  pageEnd := 12288
  mpagePhy := [4096, 8192]
  mem := zeroed (zeroed (fun _ => 7) 4096 4096) 8192 4096

theorem loaded : Loaded host [4096, 8192] array where
  pushed := ⟨⟨(stklistInit .zero 2 host.garbage).2, 4096, 12288, [], fun _ => 7⟩, by decide, rfl, rfl⟩
  nodup := by decide
  nonnull := by decide

theorem pushPages_some (pages : List UInt64) (h : ∀ virt ∈ pages, virt ≠ rteBadIova)
    (a : PageArray) : ∃ a', pushPages host a pages = some a' := by
  induction pages generalizing a with
  | nil => exact ⟨a, rfl⟩
  | cons virt pages ih =>
      have hgood : host.rteMemVirt2phy virt ≠ rteBadIova := h virt List.mem_cons_self
      rw [pushPages, if_neg hgood]
      exact ih (fun v hv => h v (List.mem_cons_of_mem _ hv)) _

theorem lazybsdMmapInit_some : ∃ a, lazybsdMmapInit host 1 (fun _ => 7) = some a := by
  have hbad : ∀ virt ∈ (List.range 256).map (virtAddr 4096), virt ≠ rteBadIova := by
    intro virt hvirt
    obtain ⟨i, hi, rfl⟩ := List.mem_map.mp hvirt
    have hlt := List.mem_range.mp hi
    intro hbad
    have hsame := congrArg UInt64.toNat hbad
    rw [virtAddr_toNat (by omega) (by show 4096 + 4096 * i < 2 ^ 64; omega)] at hsame
    change 4096 + 4096 * i = 2 ^ 64 - 1 at hsame
    omega
  have hmmap : host.mmap (bsdMemsz 1) = some 4096 := by decide
  have hpagesz : (bsdPagesz (bsdMemsz 1)).toNat = 256 := by decide
  have hrc : (stklistInit .zero ((256 : Nat) : Int) host.garbage).1 ≠ -2 := by decide
  rw [lazybsdMmapInit, hmmap]
  dsimp only
  rw [hpagesz, if_neg (by decide), bmod_natCast (by decide), if_neg hrc]
  exact pushPages_some _ hbad _

end Sample

/-- All pages of one megabyte are loaded; and both pages of an array go out, a third call gets none, and
a page that comes back goes out again. -/
theorem two_pages_are_conserved :
    (∃ pages a, Loaded Sample.host pages a ∧ pages.length = 256) ∧
    ∃ (ts : List (Transition Ledger Op)) (t : Ledger), ts.map Transition.act =
        [Op.malloc true, .malloc false, .malloc false, .free 4096, .malloc true] ∧
      Conserved [4096, 8192] t ∧ ∀ tr ∈ ts, Exact Sample.host [4096, 8192] tr := by
  have hpages := pages_are_conserved Sample.host
  constructor
  · obtain ⟨a, ha⟩ := Sample.lazybsdMmapInit_some
    obtain ⟨pages, hload, hlength⟩ := hpages.1 1 (fun _ => 7) a ha
    exact ⟨pages, a, hload, hlength⟩
  · have hdone : (exec (step Sample.host) ⟨Sample.array, []⟩ [.malloc true, .malloc false,
        .malloc false, .free 4096, .malloc true]).isSome := by decide
    obtain ⟨r, hr⟩ := Option.isSome_iff_exists.mp hdone
    obtain ⟨hlast, hall⟩ := hpages.2 _ _ _ _ Sample.loaded (Run.of_exec hr)
    exact ⟨r.1, r.2, exec_acts hr, hlast, fun tr htr => (hall tr htr).2⟩

end LazyBsd.Pages
