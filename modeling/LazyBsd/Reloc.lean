/-
# LazyBsd.Reloc — the relocation of a loaded module.

`elf_reloc` patches one field of a module that lies in memory. What the field then means to the processor
is an address that it reads in full, or sign extends, or adds to the field's own address; the relocation
is right if that is the address the entry asks for. Memory is a function from addresses to bytes, and the
symbol lookup a parameter.
-/
import Mathlib.Algebra.Group.Int.Defs
import LazyBsd.Lib.LittleEndian
import LazyBsd.Lib.Stores

namespace LazyBsd.Reloc

open LazyBsd.Lib.Block
open LazyBsd.Lib.LittleEndian

/-! ## Entries and memory -/

/-- `R_X86_64_*`. -/
inductive RType
  | none
  | r64
  | pc32
  | copy
  | globDat
  | jmpSlot
  | relative
  | r32s
  | other (rtype : UInt64)
deriving DecidableEq, Repr

/-- `ELF_RELOC_REL`, where the addend stands in the field, and `ELF_RELOC_RELA`. -/
inductive Kind
  | rel
  | rela
deriving DecidableEq, Repr

/-- `Elf_Rela`, with `r_info` taken apart; `Elf_Rel` has no `r_addend`. -/
structure Entry where
  offset : UInt64
  rtype : RType
  symidx : UInt64
  addend : UInt64
deriving DecidableEq, Repr

/-- `relocbase`, and `lookup` with its address where the error is 0. -/
structure Module where
  relocbase : UInt64
  lookup : UInt64 → Option UInt64

def read64 (mem : Nat → UInt8) (a : UInt64) : UInt64 := UInt64.ofNat (ofLe (read mem a.toNat 8))
def read32 (mem : Nat → UInt8) (a : UInt64) : UInt32 := UInt32.ofNat (ofLe (read mem a.toNat 4))

/-- `if (*where != val) *where = val`. -/
def put64 (a val : UInt64) (mem : Nat → UInt8) : Nat → UInt8 :=
  if read64 mem a ≠ val then write mem a.toNat (le 8 val.toNat) else mem

def put32 (a : UInt64) (val32 : UInt32) (mem : Nat → UInt8) : Nat → UInt8 :=
  if read32 mem a ≠ val32 then write mem a.toNat (le 4 val32.toNat) else mem

def Module.where (m : Module) (e : Entry) : UInt64 := m.relocbase + e.offset

/-! ## `elf_reloc_internal` -/

/-- `elf_reloc` and `elf_reloc_local` both, since `local` is not read; `none` is the result -1. -/
def elfReloc (m : Module) (kind : Kind) (e : Entry) (mem : Nat → UInt8) : Option (Nat → UInt8) :=
  let a := m.where e
  let addend :=
    match kind with
    | .rel =>
        match e.rtype with
        | .pc32 | .r32s => (read32 mem a).toUInt64
        | _ => read64 mem a
    | .rela => e.addend
  match e.rtype with
  | .none => some mem
  | .r64 => (m.lookup e.symidx).map fun addr => put64 a (addr + addend) mem
  | .pc32 => (m.lookup e.symidx).map fun addr => put32 a (addr + addend - a).toUInt32 mem
  | .r32s => (m.lookup e.symidx).map fun addr => put32 a (addr + addend).toUInt32 mem
  | .copy => .none
  | .globDat | .jmpSlot => (m.lookup e.symidx).map fun addr => put64 a addr mem
  | .relative => some (put64 a (m.relocbase + addend) mem)
  | .other _ => .none

/-- The entries of a section in turn. -/
def relocate (m : Module) (kind : Kind) (es : List Entry) (mem : Nat → UInt8) : Option (Nat → UInt8) :=
  es.foldlM (fun mem e => elfReloc m kind e mem) mem

/-! ## What an entry asks for -/

/-- The address the field is to mean: `S + A`, `S` or `B + A`. -/
def target (m : Module) (e : Entry) : Option UInt64 :=
  match e.rtype with
  | .r64 | .pc32 | .r32s => (m.lookup e.symidx).map (· + e.addend)
  | .globDat | .jmpSlot => m.lookup e.symidx
  | .relative => some (m.relocbase + e.addend)
  | _ => .none

/-- The address the processor makes of the field. -/
def meaning (m : Module) (e : Entry) (mem : Nat → UInt8) : UInt64 :=
  match e.rtype with
  | .pc32 => (read32 mem (m.where e)).toInt32.toInt64.toUInt64 + m.where e
  | .r32s => (read32 mem (m.where e)).toInt32.toInt64.toUInt64
  | _ => read64 mem (m.where e)

/-- The address fits the field: nothing is asked of eight bytes, of four that they reach it. -/
def Fits (m : Module) (e : Entry) (t : UInt64) : Prop :=
  match e.rtype with
  | .pc32 => -2 ^ 31 ≤ (t - m.where e).toInt64.toInt ∧ (t - m.where e).toInt64.toInt < 2 ^ 31
  | .r32s => -2 ^ 31 ≤ t.toInt64.toInt ∧ t.toInt64.toInt < 2 ^ 31
  | _ => True

/-- The entries that can be processed. -/
def Known (m : Module) (e : Entry) : Prop :=
  match e.rtype with
  | .none | .relative => True
  | .r64 | .pc32 | .r32s | .globDat | .jmpSlot => (m.lookup e.symidx).isSome
  | .copy | .other _ => False

/-- What a RELA entry writes; it does not depend on the memory. -/
def patch (m : Module) (e : Entry) : Option (Nat × List UInt8) :=
  (target m e).map fun t =>
    match e.rtype with
    | .pc32 => ((m.where e).toNat, le 4 (t - m.where e).toNat)
    | .r32s => ((m.where e).toNat, le 4 t.toNat)
    | _ => ((m.where e).toNat, le 8 t.toNat)

/-! ## The pass is a row of writes -/

section Pass

variable {m : Module} {e : Entry} {es es' : List Entry} {mem mem' : Nat → UInt8}

theorem ofLe_read (mem : Nat → UInt8) (off k : Nat) : le k (ofLe (read mem off k)) = read mem off k := by
  have hlen : (read mem off k).length = k := length_read
  have hle := le_ofLe (read mem off k)
  rwa [hlen] at hle

/-- The test before the write saves the write only. -/
theorem put64_eq (a val : UInt64) : put64 a val mem = write mem a.toNat (le 8 val.toNat) := by
  unfold put64
  split
  · rfl
  · rename_i heq
    have hread := congrArg UInt64.toNat (not_not.mp heq)
    have hlt : ofLe (read mem a.toNat 8) < 2 ^ 64 := by simpa using ofLe_lt (read mem a.toNat 8)
    rw [read64, UInt64.toNat_ofNat', Nat.mod_eq_of_lt hlt] at hread
    rw [← hread, ofLe_read, write_read]

theorem put32_eq (a val : UInt64) :
    put32 a val.toUInt32 mem = write mem a.toNat (le 4 val.toNat) := by
  have hval : val.toUInt32.toNat = val.toNat % 256 ^ 4 := UInt64.toNat_toUInt32 val
  unfold put32
  split
  · rw [hval, le_mod]
  · rename_i heq
    have hread := congrArg UInt32.toNat (not_not.mp heq)
    have hlt : ofLe (read mem a.toNat 4) < 2 ^ 32 := by simpa using ofLe_lt (read mem a.toNat 4)
    rw [read32, UInt32.toNat_ofNat', Nat.mod_eq_of_lt hlt, hval] at hread
    rw [← le_mod, ← hread, ofLe_read, write_read]

/-- **One RELA entry**: it fails if it is not known, and writes its patch. -/
theorem elfReloc_rela (e : Entry) (mem : Nat → UInt8) :
    (Known m e → elfReloc m .rela e mem = some ((patch m e).elim mem fun w => write mem w.1 w.2)) ∧
      (¬ Known m e → elfReloc m .rela e mem = none) := by
  obtain ⟨offset, rtype, symidx, addend⟩ := e
  cases hl : m.lookup symidx with
  | none =>
      cases rtype <;>
        simp [Known, elfReloc, patch, target, hl, put64_eq]
  | some addr =>
      cases rtype <;>
        simp only [Known, elfReloc, patch, target, hl, put64_eq, put32_eq, Option.map_some, Option.map_none,
          Option.elim_some, Option.elim_none, Option.isSome_some, not_true_eq_false, not_false_eq_true,
          false_imp_iff, true_imp_iff, and_self]

/-- The writes of the entries. -/
def patches (m : Module) (es : List Entry) : List (Nat × List UInt8) := es.filterMap (patch m)

/-- **A RELA pass is the row of its entries' writes**, and fails exactly at an entry that is not known. -/
theorem relocate_rela (es : List Entry) (mem : Nat → UInt8) :
    ((∀ e ∈ es, Known m e) → relocate m .rela es mem = some (writes mem (patches m es))) ∧
      ((∃ e ∈ es, ¬ Known m e) → relocate m .rela es mem = none) := by
  induction es generalizing mem with
  | nil => exact ⟨fun _ => rfl, by simp⟩
  | cons e es ih =>
      obtain ⟨hknown, hunknown⟩ := elfReloc_rela (m := m) e mem
      have hcons : relocate m .rela (e :: es) mem =
          (elfReloc m .rela e mem).bind fun mem => relocate m .rela es mem := rfl
      by_cases he : Known m e
      · rw [hcons, hknown he, Option.bind_some]
        constructor
        · intro hall
          rw [(ih _).1 fun e' he' => hall e' (List.mem_cons_of_mem e he')]
          cases hp : patch m e with
          | none =>
              have hpatches : patches m (e :: es) = patches m es := List.filterMap_cons_none hp
              rw [hpatches]
              rfl
          | some w =>
              have hpatches : patches m (e :: es) = w :: patches m es := List.filterMap_cons_some hp
              rw [hpatches]
              rfl
        · rintro ⟨e', he', hnot⟩
          rcases List.mem_cons.mp he' with rfl | hmem
          · exact absurd he hnot
          · exact (ih _).2 ⟨e', hmem, hnot⟩
      · rw [hcons, hunknown he]
        refine ⟨fun hall => absurd (hall e List.mem_cons_self) he, fun _ => rfl⟩

theorem relocate_rela_eq (h : relocate m .rela es mem = some mem') :
    (∀ e ∈ es, Known m e) ∧ mem' = writes mem (patches m es) := by
  obtain ⟨hsome, hnone⟩ := relocate_rela (m := m) es mem
  have hall : ∀ e ∈ es, Known m e := by
    by_contra hnot
    push Not at hnot
    rw [hnone hnot] at h
    exact Option.some_ne_none _ h.symm
  rw [hsome hall] at h
  exact ⟨hall, (Option.some.inj h).symm⟩

end Pass

/-! ## Meaning -/

section Meaning

variable {m : Module} {e : Entry} {es es' : List Entry} {mem mem' : Nat → UInt8} {t : UInt64}

/-- Sign extending the low half gives the number back if it has 32 bits. -/
theorem signExtend_iff (v : UInt64) :
    v.toUInt32.toInt32.toInt64.toUInt64 = v ↔
      -2 ^ 31 ≤ v.toInt64.toInt ∧ v.toInt64.toInt < 2 ^ 31 := by
  have hlow : v.toUInt32.toInt32.toInt = Int.bmod v.toNat (2 ^ 32) := BitVec.toInt_setWidth v.toBitVec
  have hwhole : v.toInt64.toInt = Int.bmod v.toNat (2 ^ 64) := BitVec.toInt_eq_toNat_bmod _
  have hval : v.toUInt32.toInt32.toInt64.toInt = Int.bmod v.toInt64.toInt (2 ^ 32) := by
    rw [Int32.toInt_toInt64, hlow, hwhole, Int.bmod_bmod_of_dvd (by decide)]
  have hint : v.toUInt32.toInt32.toInt64.toUInt64 = v ↔
      v.toUInt32.toInt32.toInt64.toInt = v.toInt64.toInt := by
    constructor
    · exact fun h => congrArg (fun u => u.toInt64.toInt) h
    · exact fun h => congrArg Int64.toUInt64 (Int64.toInt_inj.mp h)
  rw [hint, hval]
  generalize v.toInt64.toInt = y
  rw [Int.bmod_eq_iff (by decide)]
  omega

theorem read64_of_read {a v : UInt64} (h : read mem a.toNat 8 = le 8 v.toNat) : read64 mem a = v := by
  have hlt : v.toNat < 256 ^ 8 := v.toNat_lt
  rw [read64, h, ofLe_le, Nat.mod_eq_of_lt hlt, UInt64.ofNat_toNat]

theorem read32_of_read {a v : UInt64} (h : read mem a.toNat 4 = le 4 v.toNat) :
    read32 mem a = v.toUInt32 := by
  apply UInt32.toNat_inj.mp
  rw [read32, h, ofLe_le, UInt32.toNat_ofNat', UInt64.toNat_toUInt32]
  exact Nat.mod_mod _ _

theorem add_eq_iff (x a t : UInt64) : x + a = t ↔ x = t - a := by
  constructor
  · intro h
    have hsub := congrArg (· - a) h
    simpa only [UInt64.add_sub_cancel] using hsub
  · intro h
    rw [h, UInt64.sub_add_cancel]

theorem read64_put64 (a v : UInt64) : read64 (put64 a v mem) a = v := by
  have hrow := read_write mem a.toNat (le 8 v.toNat)
  rw [length_le] at hrow
  rw [put64_eq]
  exact read64_of_read hrow

/-- The field means what was asked for if it fits. -/
theorem meaning_iff {w : Nat × List UInt8} (ht : target m e = some t) (hw : patch m e = some w)
    (hread : read mem w.1 w.2.length = w.2) : meaning m e mem = t ↔ Fits m e t := by
  obtain ⟨offset, rtype, symidx, addend⟩ := e
  simp only [patch, ht, Option.map_some, Option.some.injEq] at hw
  subst hw
  cases rtype with
  | pc32 =>
      have hfield := read32_of_read (by simpa using hread)
      simp only [meaning, Fits, hfield, ← signExtend_iff]
      exact add_eq_iff _ _ _
  | r32s =>
      have hfield := read32_of_read (by simpa using hread)
      simp only [meaning, Fits, hfield, ← signExtend_iff]
  | _ =>
      have hfield := read64_of_read (by simpa using hread)
      simp only [meaning, Fits, hfield]

/-- No two entries have a byte of their fields in common. -/
def Apart (m : Module) (es : List Entry) : Prop := (patches m es).Pairwise Lib.Block.Apart

/-- **A RELA pass does what its entries ask for.** It succeeds exactly if each entry is known: of a known
type, its symbol found. Then every byte outside the fields is as before, and where no two fields overlap
each field means the address its entry asks for exactly if that address fits the field: the code does not
check this, and a distance of more than 32 bits is cut. -/
theorem relocation_pass (m : Module) (es : List Entry) (mem : Nat → UInt8) :
    ((relocate m .rela es mem).isSome ↔ ∀ e ∈ es, Known m e) ∧
      ∀ mem', relocate m .rela es mem = some mem' →
        (∀ k, (∀ w ∈ patches m es, ¬ Covers w k) → mem' k = mem k) ∧
          (Apart m es → ∀ e ∈ es, ∀ t, target m e = some t → (meaning m e mem' = t ↔ Fits m e t)) := by
  constructor
  · constructor
    · intro h
      obtain ⟨mem', hrun⟩ := Option.isSome_iff_exists.mp h
      exact (relocate_rela_eq hrun).1
    · intro hall
      rw [(relocate_rela es mem).1 hall]
      rfl
  · intro mem' hrun
    obtain ⟨-, rfl⟩ := relocate_rela_eq hrun
    refine ⟨fun k hk => writes_of_not_covers hk, fun hapart e he t ht => ?_⟩
    obtain ⟨w, hw⟩ : ∃ w, patch m e = some w := by
      rw [patch, ht]
      exact ⟨_, rfl⟩
    have hmem : w ∈ patches m es := List.mem_filterMap.mpr ⟨e, he, hw⟩
    exact meaning_iff ht hw (read_writes hapart hmem)

/-- Two words and a distance in a module at 0x1000; symbol 7 lies at 0x2000. -/
def sampleModule : Module := ⟨0x1000, fun symidx => if symidx = 7 then some 0x2000 else none⟩

def sampleEntries : List Entry :=
  [⟨0, .relative, 0, 0x40⟩, ⟨8, .r64, 7, 4⟩, ⟨16, .pc32, 7, 0xfffffffffffffffc⟩]

theorem sampleEntries_apart : Apart sampleModule sampleEntries := by
  show (patches sampleModule sampleEntries).Pairwise Lib.Block.Apart
  decide

theorem relocation_pass_sample :
    ∃ mem', relocate sampleModule .rela sampleEntries (fun _ => 0) = some mem' ∧
      ∀ e ∈ sampleEntries, ∀ t, target sampleModule e = some t → meaning sampleModule e mem' = t := by
  obtain ⟨hsome, hrun⟩ := relocation_pass sampleModule sampleEntries fun _ => 0
  have hknown : ∀ e ∈ sampleEntries, Known sampleModule e := by
    simp [sampleEntries, Known, sampleModule]
  obtain ⟨mem', hmem'⟩ := Option.isSome_iff_exists.mp (hsome.mpr hknown)
  have hfits : ∀ e ∈ sampleEntries, ∀ t, target sampleModule e = some t → Fits sampleModule e t := by
    intro e he t ht
    simp only [sampleEntries, List.mem_cons, List.not_mem_nil, or_false] at he
    rcases he with rfl | rfl | rfl
    · trivial
    · trivial
    · obtain rfl := Option.some.inj ht
      simp only [Fits]
      decide
  exact ⟨mem', hmem', fun e he t ht =>
    ((hrun mem' hmem').2 sampleEntries_apart e he t ht).mpr (hfits e he t ht)⟩

/-- **RELA entries can be processed in any order and again.** `elf_reloc_local` does what `elf_reloc` does,
so a module whose entries go through both is relocated twice: nothing changes. The addend of a REL entry
stands in the field, and the base is added to it each time. -/
theorem relocated_again (m : Module) (es : List Entry) (mem : Nat → UInt8) :
    (∀ mem', relocate m .rela es mem = some mem' →
      relocate m .rela es mem' = some mem' ∧
        (Apart m es → ∀ es', es.Perm es' → relocate m .rela es' mem = some mem')) ∧
      ∀ e : Entry, e.rtype = .relative → ∀ mem' mem'', elfReloc m .rel e mem = some mem' →
        elfReloc m .rel e mem' = some mem'' →
          meaning m e mem'' = m.relocbase + (m.relocbase + meaning m e mem) := by
  constructor
  · intro mem' hrun
    obtain ⟨hall, rfl⟩ := relocate_rela_eq hrun
    refine ⟨?_, fun hapart es' hperm => ?_⟩
    · rw [(relocate_rela es _).1 hall, writes_again]
    · have hall' : ∀ e ∈ es', Known m e := fun e he => hall e (hperm.mem_iff.mpr he)
      have hsame : writes mem (patches m es) = writes mem (patches m es') :=
        writes_perm (hperm.filterMap _) hapart
      rw [(relocate_rela es' mem).1 hall', hsame]
  · rintro ⟨offset, rtype, symidx, addend⟩ rfl mem' mem'' h₁ h₂
    simp only [elfReloc, Option.some.injEq] at h₁ h₂
    subst h₁ h₂
    simp only [meaning, read64_put64]

/-- The three entries twice, and in the opposite order; and a REL entry twice on a field that holds zero. -/
theorem relocated_again_sample :
    (∃ mem', relocate sampleModule .rela sampleEntries (fun _ => 0) = some mem' ∧
      relocate sampleModule .rela sampleEntries mem' = some mem' ∧
      relocate sampleModule .rela sampleEntries.reverse (fun _ => 0) = some mem') ∧
    ∃ mem' mem'', elfReloc sampleModule .rel ⟨24, .relative, 0, 0⟩ (fun _ => 0) = some mem' ∧
      elfReloc sampleModule .rel ⟨24, .relative, 0, 0⟩ mem' = some mem'' ∧
      meaning sampleModule ⟨24, .relative, 0, 0⟩ mem'' = 0x2000 := by
  obtain ⟨hrela, hrel⟩ := relocated_again sampleModule sampleEntries fun _ => 0
  constructor
  · have hsome : (relocate sampleModule .rela sampleEntries fun _ => 0).isSome := rfl
    obtain ⟨mem', hmem'⟩ := Option.isSome_iff_exists.mp hsome
    obtain ⟨hagain, hperm⟩ := hrela mem' hmem'
    exact ⟨mem', hmem', hagain, hperm sampleEntries_apart _ (List.reverse_perm sampleEntries).symm⟩
  · refine ⟨_, _, rfl, rfl, ?_⟩
    rw [hrel ⟨24, .relative, 0, 0⟩ rfl _ _ rfl rfl]
    have hzero : meaning sampleModule ⟨24, .relative, 0, 0⟩ (fun _ => 0) = 0 := by decide
    rw [hzero]
    rfl

end Meaning

end LazyBsd.Reloc
