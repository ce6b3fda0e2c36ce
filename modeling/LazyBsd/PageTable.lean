/-
# LazyBsd.PageTable — which slab and zone a page belongs to.

UMA asks for the slab of any address it frees. `vsetzoneslab` enters a page under the address it is given,
the look-ups mask the address they are given, and both choose the chain by the bits above the page offset,
as many as the table has. For page-aligned entries the three agree, and the table is a map.
-/
import Mathlib.Algebra.Group.Nat.Defs
import LazyBsd.Lib.HashChain

namespace LazyBsd.PageTable

open Lib

def pageShift : UInt64 := 12
def pageSize : UInt64 := 4096

/-- `num_hash_buckets`, an `unsigned int` and a power of two. -/
structure TableSize where
  exp : Nat
  small : exp < 32

/-- `uma_page_mask`: the difference is assigned to an `int`. -/
def TableSize.umaPageMask (size : TableSize) : Int32 := (UInt32.ofNat (2 ^ size.exp) - 1).toInt32

/-- `UMA_PAGE_HASH`, with the mask extended to a `vm_offset_t`. -/
def umaPageHash (size : TableSize) (va : UInt64) : UInt64 :=
  (va >>> pageShift) &&& size.umaPageMask.toInt64.toUInt64

/-- `struct uma_page`; both pointers may be `NULL`. -/
structure UmaPage (σ ζ : Type) where
  upVa : UInt64
  upSlab : Option σ
  upZone : Option ζ
deriving DecidableEq, Repr

/-- `uma_page_slab_hash`: the lists by their index. -/
abbrev Heads (σ ζ : Type) := UInt64 → List (UmaPage σ ζ)

variable {σ ζ : Type}

/-- The address of the page, as the look-ups compute it. -/
def pageOf (va : UInt64) : UInt64 := va &&& ~~~(pageSize - 1)

/-- `LIST_FOREACH` up to the entry with this `up_va`. -/
def search (upVa : UInt64) : List (UmaPage σ ζ) → Option (UmaPage σ ζ)
  | [] => none
  | up :: rest => if up.upVa = upVa then some up else search upVa rest

def vtoslab (size : TableSize) (heads : Heads σ ζ) (va : UInt64) : Option σ :=
  match search (pageOf va) (heads (umaPageHash size va)) with
  | some up => up.upSlab
  | none => none

/-- `vtozoneslab`; `none` is a `NULL` pointer followed. -/
def vtozoneslab (size : TableSize) (heads : Heads σ ζ) (va : UInt64) : Option (Option ζ × Option σ) :=
  match search (pageOf va) (heads (umaPageHash size va)) with
  | some up => some (up.upZone, up.upSlab)
  | none => none

/-- The two assignments to the entry that the search stopped at. -/
def assignFound (va : UInt64) (zone : Option ζ) (slab : Option σ) :
    List (UmaPage σ ζ) → List (UmaPage σ ζ)
  | [] => []
  | up :: rest =>
      if up.upVa = va then { up with upSlab := slab, upZone := zone } :: rest
      else up :: assignFound va zone slab rest

/-- `vsetzoneslab`. The allocation waits until it succeeds. -/
def vsetzoneslab (size : TableSize) (heads : Heads σ ζ) (va : UInt64) (zone : Option ζ)
    (slab : Option σ) : Heads σ ζ :=
  let hash := umaPageHash size va
  let chain := match search va (heads hash) with
    | some _ => assignFound va zone slab (heads hash)
    | none => ⟨va, slab, zone⟩ :: heads hash
  fun i => if i = hash then chain else heads i

/-! ## Pages and hashes -/

/-- `va` lies in the page at `p`. -/
def InPage (va p : UInt64) : Prop := p.toNat ≤ va.toNat ∧ va.toNat < p.toNat + pageSize.toNat

instance (va p : UInt64) : Decidable (InPage va p) := inferInstanceAs (Decidable (_ ∧ _))

def Aligned (va : UInt64) : Prop := va.toNat % pageSize.toNat = 0

/-- The bits from 12 on. -/
theorem and_high {n : Nat} (h : n < 2 ^ 64) : n &&& ((2 ^ 52 - 1) <<< 12) = n >>> 12 <<< 12 := by
  apply Nat.eq_of_testBit_eq
  intro i
  rw [Nat.testBit_and, Nat.testBit_shiftLeft, Nat.testBit_shiftLeft, Nat.testBit_shiftRight,
    Nat.testBit_two_pow_sub_one]
  by_cases hlow : 12 ≤ i
  · have hi : 12 + (i - 12) = i := by omega
    rw [hi]
    by_cases hhigh : i - 12 < 52
    · simp [hlow, hhigh]
    · have hzero : n.testBit i = false :=
        Nat.testBit_lt_two_pow (Nat.lt_of_lt_of_le h (Nat.pow_le_pow_right Nat.two_pos (by omega)))
      simp [hzero]
  · simp [hlow]

theorem toNat_pageOf (va : UInt64) : (pageOf va).toNat = va.toNat / 4096 * 4096 := by
  have hmask : (~~~(pageSize - 1)).toNat = (2 ^ 52 - 1) <<< 12 := by decide
  rw [pageOf, UInt64.toNat_and, hmask, and_high va.toNat_lt, Nat.shiftRight_eq_div_pow,
    Nat.shiftLeft_eq]

theorem pageOf_eq_iff {va p : UInt64} (hp : Aligned p) : pageOf va = p ↔ InPage va p := by
  have hsize : pageSize.toNat = 4096 := rfl
  rw [Aligned, hsize] at hp
  rw [← UInt64.toNat_inj, toNat_pageOf, InPage, hsize]
  omega

/-- All addresses of a page have its hash. -/
theorem umaPageHash_pageOf (size : TableSize) (va : UInt64) :
    umaPageHash size (pageOf va) = umaPageHash size va := by
  -- the bits that the page address lacks are shifted out
  have hshift : pageOf va >>> pageShift = va >>> pageShift := by
    have htwelve : pageShift.toNat % 64 = 12 := rfl
    apply UInt64.toNat.inj
    rw [UInt64.toNat_shiftRight, UInt64.toNat_shiftRight, htwelve, toNat_pageOf,
      Nat.shiftRight_eq_div_pow, Nat.shiftRight_eq_div_pow]
    omega
  rw [umaPageHash, umaPageHash, hshift]

theorem toNat_umaPageMask (size : TableSize) :
    size.umaPageMask.toInt64.toUInt64.toNat = 2 ^ size.exp - 1 := by
  have hall : ∀ e < 32, (UInt32.ofNat (2 ^ e) - 1).toInt32.toInt64.toUInt64.toNat = 2 ^ e - 1 := by
    decide
  exact hall size.exp size.small

/-- The chain is one of the table's. -/
theorem umaPageHash_lt (size : TableSize) (va : UInt64) :
    (umaPageHash size va).toNat < 2 ^ size.exp := by
  have hle : (umaPageHash size va).toNat ≤ 2 ^ size.exp - 1 := by
    rw [umaPageHash, UInt64.toNat_and, toNat_umaPageMask]
    exact Nat.and_le_right
  have hpos := Nat.two_pow_pos size.exp
  omega

/-! ## The table is a map -/

section Map

variable (size : TableSize) {heads : Heads σ ζ} {va : UInt64} {zone : Option ζ} {slab : Option σ}

theorem search_eq_find (upVa : UInt64) (chain : List (UmaPage σ ζ)) :
    search upVa chain = HashChain.find UmaPage.upVa upVa chain := by
  induction chain with
  | nil => rfl
  | cons up rest ih =>
      rw [search]
      by_cases hup : up.upVa = upVa
      · rw [if_pos hup, HashChain.find_cons_self hup]
      · rw [if_neg hup, HashChain.find_cons_of_ne hup, ih]

theorem assignFound_eq_replace (chain : List (UmaPage σ ζ)) :
    assignFound va zone slab chain = HashChain.replace UmaPage.upVa ⟨va, slab, zone⟩ chain := by
  induction chain with
  | nil => rfl
  | cons up rest ih =>
      rw [assignFound, HashChain.replace]
      by_cases hup : up.upVa = va
      · rw [if_pos hup, if_pos hup, hup]
      · rw [if_neg hup, if_neg hup, ih]

theorem vsetzoneslab_eq_insert :
    vsetzoneslab size heads va zone slab =
      HashChain.insert UmaPage.upVa (umaPageHash size) heads ⟨va, slab, zone⟩ := by
  have hchain : (match search va (heads (umaPageHash size va)) with
      | some _ => assignFound va zone slab (heads (umaPageHash size va))
      | none => ⟨va, slab, zone⟩ :: heads (umaPageHash size va)) =
      HashChain.put UmaPage.upVa ⟨va, slab, zone⟩ (heads (umaPageHash size va)) := by
    rw [search_eq_find, assignFound_eq_replace, HashChain.put]
    cases HashChain.find UmaPage.upVa va (heads (umaPageHash size va)) <;> rfl
  funext i
  rw [vsetzoneslab, hchain, HashChain.insert, Function.update_apply]

/-- The look-ups, at the address of the page. -/
theorem vtoslab_eq_lookup : vtoslab size heads va =
    (HashChain.lookup UmaPage.upVa (umaPageHash size) heads (pageOf va)).bind UmaPage.upSlab := by
  rw [vtoslab, HashChain.lookup, umaPageHash_pageOf, search_eq_find]
  cases HashChain.find UmaPage.upVa (pageOf va) (heads (umaPageHash size va)) <;> rfl

theorem vtozoneslab_eq_lookup : vtozoneslab size heads va =
    (HashChain.lookup UmaPage.upVa (umaPageHash size) heads (pageOf va)).map
      fun up => (up.upZone, up.upSlab) := by
  rw [vtozoneslab, HashChain.lookup, umaPageHash_pageOf, search_eq_find]
  cases HashChain.find UmaPage.upVa (pageOf va) (heads (umaPageHash size va)) <;> rfl

end Map

/-! ## Sequences of calls -/

/-- A call of `vsetzoneslab`. -/
structure SetCall (σ ζ : Type) where
  va : UInt64
  zone : Option ζ
  slab : Option σ
deriving DecidableEq, Repr

/-- The table, all zero at first, after the calls. -/
def tableAfter (size : TableSize) (calls : List (SetCall σ ζ)) : Heads σ ζ :=
  calls.foldl (fun heads c => vsetzoneslab size heads c.va c.zone c.slab) fun _ => []

/-- The last call for the page of `va`. -/
def lastCall (calls : List (SetCall σ ζ)) (va : UInt64) : Option (SetCall σ ζ) :=
  calls.reverse.find? fun c => decide (InPage va c.va)

/-- The entry that a call makes. -/
def SetCall.entry (c : SetCall σ ζ) : UmaPage σ ζ := ⟨c.va, c.slab, c.zone⟩

section Calls

variable (size : TableSize) {calls : List (SetCall σ ζ)}

theorem tableAfter_eq_insertAll : tableAfter size calls =
    (calls.map SetCall.entry).foldl (HashChain.insert UmaPage.upVa (umaPageHash size)) fun _ => [] := by
  rw [tableAfter, List.foldl_map]
  congr 1
  funext heads c
  exact vsetzoneslab_eq_insert size

/-- A look-up finds the entry of the last call. -/
theorem lookup_tableAfter (haligned : ∀ c ∈ calls, Aligned c.va) (va : UInt64) :
    HashChain.lookup UmaPage.upVa (umaPageHash size) (tableAfter size calls) (pageOf va) =
      (lastCall calls va).map SetCall.entry := by
  have hempty : HashChain.lookup UmaPage.upVa (umaPageHash size) (fun _ => ([] : List (UmaPage σ ζ)))
      (pageOf va) = none := rfl
  rw [tableAfter_eq_insertAll, HashChain.lookup_insertAll, hempty, Option.or_none, lastCall,
    HashChain.find, ← List.map_reverse, List.find?_map]
  -- both sides search the calls from the last one on, for the same page
  congr 1
  rw [← List.head?_filter, ← List.head?_filter]
  congr 1
  apply List.filter_congr
  intro c hc
  have hpage : pageOf va = c.va ↔ InPage va c.va :=
    pageOf_eq_iff (haligned c (List.mem_reverse.mp hc))
  exact decide_eq_decide.mpr (eq_comm.trans hpage)

/-- The page table is a map: an address has the slab and the zone of the last call for its page, none if
there was no such call; a call for one page changes no other; and a chain, which is one of the table's,
has at most one entry for a page. -/
theorem page_table_is_map (haligned : ∀ c ∈ calls, Aligned c.va) :
    (∀ va c, lastCall calls va = some c →
      vtoslab size (tableAfter size calls) va = c.slab ∧
        vtozoneslab size (tableAfter size calls) va = some (c.zone, c.slab)) ∧
    (∀ va, (∀ c ∈ calls, ¬ InPage va c.va) → vtoslab size (tableAfter size calls) va = none) ∧
    (∀ c : SetCall σ ζ, Aligned c.va → ∀ va, ¬ InPage va c.va →
      vtoslab size (tableAfter size (calls ++ [c])) va = vtoslab size (tableAfter size calls) va ∧
        vtozoneslab size (tableAfter size (calls ++ [c])) va =
          vtozoneslab size (tableAfter size calls) va) ∧
    (∀ va, (umaPageHash size va).toNat < 2 ^ size.exp) ∧
    ∀ i p, ((tableAfter size calls i).filter fun up => up.upVa = p).length ≤ 1 := by
  have hslab (calls : List (SetCall σ ζ)) (h : ∀ c ∈ calls, Aligned c.va) (va : UInt64) :
      vtoslab size (tableAfter size calls) va = (lastCall calls va).bind SetCall.slab := by
    rw [vtoslab_eq_lookup, lookup_tableAfter size h]
    cases lastCall calls va <;> rfl
  have hboth (calls : List (SetCall σ ζ)) (h : ∀ c ∈ calls, Aligned c.va) (va : UInt64) :
      vtozoneslab size (tableAfter size calls) va =
        (lastCall calls va).map fun c => (c.zone, c.slab) := by
    rw [vtozoneslab_eq_lookup, lookup_tableAfter size h]
    cases lastCall calls va <;> rfl
  refine ⟨?_, ?_, ?_, fun va => umaPageHash_lt size va, ?_⟩
  · intro va c hc
    rw [hslab calls haligned, hboth calls haligned, hc]
    exact ⟨rfl, rfl⟩
  · intro va hnever
    have hnone : lastCall calls va = none := by
      rw [lastCall, List.find?_eq_none]
      intro c hc
      rw [decide_eq_true_eq]
      exact hnever c (List.mem_reverse.mp hc)
    rw [hslab calls haligned, hnone]
    rfl
  · intro c hc va hout
    -- the call that comes last is for another page
    have haligned' : ∀ c' ∈ calls ++ [c], Aligned c'.va :=
      List.forall_mem_append.mpr ⟨haligned, List.forall_mem_singleton.mpr hc⟩
    have hlast : lastCall (calls ++ [c]) va = lastCall calls va := by
      rw [lastCall, List.reverse_append, List.reverse_singleton, List.singleton_append]
      have hnot : ¬ decide (InPage va c.va) = true := by rwa [decide_eq_true_eq]
      exact List.find?_cons_of_neg (p := fun c : SetCall σ ζ => decide (InPage va c.va)) hnot
    rw [hslab _ haligned', hslab calls haligned, hboth _ haligned', hboth calls haligned, hlast]
    exact ⟨rfl, rfl⟩
  · intro i p
    have hempty : ∀ i : UInt64, (((fun _ => []) : Heads σ ζ) i |>.map UmaPage.upVa).Nodup :=
      fun _ => List.nodup_nil
    apply HashChain.length_filter_le_one
    rw [tableAfter_eq_insertAll]
    exact HashChain.nodup_insertAll hempty _ i

end Calls

/-- Two pages of one chain, the first set twice. -/
def Sample.calls : List (SetCall Nat Nat) :=
  [⟨0x1000, some 1, some 7⟩, ⟨0x5000, some 1, some 8⟩, ⟨0x1000, none, some 9⟩]

theorem Sample.small : 2 < 32 := by decide

def Sample.size : TableSize := ⟨2, Sample.small⟩

theorem page_table_is_map_collision :
    umaPageHash Sample.size 0x1000 = umaPageHash Sample.size 0x5000 ∧
      vtoslab Sample.size (tableAfter Sample.size Sample.calls) 0x1fff = some 9 := by
  have haligned : ∀ c ∈ Sample.calls, Aligned c.va := by
    intro c hc
    simp only [Sample.calls, List.mem_cons, List.not_mem_nil, or_false] at hc
    rcases hc with rfl | rfl | rfl <;> rfl
  have hmap := page_table_is_map Sample.size haligned
  exact ⟨by decide, (hmap.1 0x1fff ⟨0x1000, none, some 9⟩ (by decide)).1⟩

end LazyBsd.PageTable
