/-
# LazyBsd.Rss.Reta — the redirection table of the NIC and the software check of the stack.

`set_rss_table` fills the table that the NIC looks hashes up in; `lazybsd_rss_check` asks whether a
connection with a given local port comes back to this process. The filling loop numbers the slots with
one counter that runs across the groups of 64 and stores the number modulo the queue count; the check
masks the hash with the table size and takes it modulo the queue count. For a power-of-two table the two
are the same map.
-/
import Mathlib.Algebra.Group.Nat.Defs
import Mathlib.Tactic.Common

namespace LazyBsd.Rss

/-! ## `toeplitz_hash` -/

/-- The index `i + 4` of the key byte that is shifted in, an `unsigned`. -/
def keyIndex (i : Nat) : Nat := (i + 4) % 2 ^ 32

/-- One turn of the inner loop: bit `7 - b` of the data byte, bit `7 - b` of the key byte that is
shifted in. -/
def toeplitzBit (keylen : Nat) (key : Nat → UInt8) (i : Nat) (byte : UInt8) (st : UInt32 × UInt32)
    (b : Nat) : UInt32 × UInt32 :=
  let (hash, v) := st
  let hash := if byte &&& ((1 : UInt8) <<< UInt8.ofNat (7 - b)) ≠ 0 then hash ^^^ v else hash
  let v := v <<< 1
  let v := if keyIndex i < keylen ∧ key (keyIndex i) &&& ((1 : UInt8) <<< UInt8.ofNat (7 - b)) ≠ 0 then
      v ||| 1
    else v
  (hash, v)

/-- The outer loop, from data byte `i` on. -/
def toeplitzLoop (keylen : Nat) (key : Nat → UInt8) : Nat → List UInt8 → UInt32 × UInt32 → UInt32
  | _, [], st => st.1
  | i, byte :: data, st =>
      toeplitzLoop keylen key (i + 1) data ((List.range 8).foldl (toeplitzBit keylen key i byte) st)

/-- `toeplitz_hash`. -/
def toeplitzHash (keylen : Nat) (key : Nat → UInt8) (data : List UInt8) : UInt32 :=
  toeplitzLoop keylen key 0 data
    (0, ((key 0).toUInt32 <<< 24) + ((key 1).toUInt32 <<< 16) + ((key 2).toUInt32 <<< 8) +
      (key 3).toUInt32)

/-! ## `set_rss_table` -/

/-- `RTE_ETH_RETA_GROUP_SIZE`. -/
def retaGroupSize : Nat := 64

/-- The inner loop: `n` slots of a group, numbered from `hash` on. -/
def fillGroup (nbQueues : Nat) : Nat → Nat → List Nat
  | 0, _ => []
  | n + 1, hash => hash % nbQueues :: fillGroup nbQueues n (hash + 1)

/-- The outer loop: `n` groups; `hash` runs on from group to group. -/
def fillTable (nbQueues : Nat) : Nat → Nat → List (List Nat)
  | 0, _ => []
  | n + 1, hash => fillGroup nbQueues retaGroupSize hash :: fillTable nbQueues n (hash + retaGroupSize)

/-- `set_rss_table`: the `reta` arrays that are written to the NIC, none for a NIC without a table. The
counter stays below 65536 and an entry below `nb_queues`, so neither is cut off. -/
def setRssTable (retaSize nbQueues : UInt16) : Option (List (List Nat)) :=
  if retaSize = 0 then none
  else some (fillTable nbQueues.toNat (max 1 (retaSize.toNat / retaGroupSize)) 0)

/-- Slot `i` of group `g` is table index `g * 64 + i`. -/
def retaEntry (table : List (List Nat)) (index : Nat) : Option Nat :=
  table[index / retaGroupSize]?.bind fun group => group[index % retaGroupSize]?

/-! ## `lazybsd_rss_check` -/

/-- The four bytes of a number as they lie in memory. -/
def bytes32 (x : UInt32) : List UInt8 :=
  [x.toUInt8, (x >>> 8).toUInt8, (x >>> 16).toUInt8, (x >>> 24).toUInt8]

/-- The two bytes of a number as they lie in memory. -/
def bytes16 (x : UInt16) : List UInt8 := [x.toUInt8, (x >>> 8).toUInt8]

/-- The `data` array of `lazybsd_rss_check`. -/
def tupleBytes (saddr daddr : UInt32) (sport dport : UInt16) : List UInt8 :=
  bytes32 saddr ++ bytes32 daddr ++ bytes16 sport ++ bytes16 dport

/-- What the check reads of a port: `nb_queue_list`, `tx_queue_id` and `rss_reta_size`. -/
structure RssPort where
  nbQueues : UInt16
  txQueueId : UInt16
  retaSize : UInt16
  deriving DecidableEq, Repr

/-- `lazybsd_rss_check`. `reta_size - 1` is an `int`, converted to 32 bits for the mask. -/
def lazybsdRssCheck (keylen : Nat) (key : Nat → UInt8) (port : RssPort) (saddr daddr : UInt32)
    (sport dport : UInt16) : Bool :=
  if port.nbQueues ≤ 1 then true
  else
    let hash := toeplitzHash keylen key (tupleBytes saddr daddr sport dport)
    (hash &&& (port.retaSize.toUInt32 - 1)) % port.nbQueues.toUInt32 == port.txQueueId.toUInt32

/-! ## The table -/

theorem fillGroup_getElem? (nbQueues n hash : Nat) {i : Nat} (hi : i < n) :
    (fillGroup nbQueues n hash)[i]? = some ((hash + i) % nbQueues) := by
  induction n generalizing hash i with
  | zero => omega
  | succ n ih =>
      cases i with
      | zero => rfl
      | succ i =>
          rw [fillGroup, List.getElem?_cons_succ, ih (hash + 1) (by omega)]
          rw [show hash + 1 + i = hash + (i + 1) by omega]

theorem fillTable_getElem? (nbQueues n hash : Nat) {g : Nat} (hg : g < n) :
    (fillTable nbQueues n hash)[g]? =
      some (fillGroup nbQueues retaGroupSize (hash + g * retaGroupSize)) := by
  induction n generalizing hash g with
  | zero => omega
  | succ n ih =>
      cases g with
      | zero => simp [fillTable]
      | succ g =>
          rw [fillTable, List.getElem?_cons_succ, ih (hash + retaGroupSize) (by omega)]
          rw [show hash + retaGroupSize + g * retaGroupSize = hash + (g + 1) * retaGroupSize by
            rw [Nat.add_mul]; omega]

/-- **The table.** The loop stores `index % nb_queues` at every index of the groups it fills. -/
theorem retaEntry_fillTable (nbQueues n : Nat) {index : Nat} (h : index < n * retaGroupSize) :
    retaEntry (fillTable nbQueues n 0) index = some (index % nbQueues) := by
  have hg : index / retaGroupSize < n := Nat.div_lt_of_lt_mul (by rwa [Nat.mul_comm] at h)
  have hi : index % retaGroupSize < retaGroupSize := Nat.mod_lt _ (by decide)
  rw [retaEntry, fillTable_getElem? nbQueues n 0 hg, Option.bind_some, fillGroup_getElem? _ _ _ hi,
    Nat.zero_add, Nat.mul_comm, Nat.div_add_mod]

/-- The groups cover a table whose size is a multiple of 64 or smaller than 64. -/
theorem retaSize_le_groups {size : Nat} (h : size < retaGroupSize ∨ retaGroupSize ∣ size) :
    size ≤ max 1 (size / retaGroupSize) * retaGroupSize := by
  rcases h with hlt | ⟨k, rfl⟩
  · calc size ≤ 1 * retaGroupSize := by omega
      _ ≤ _ := Nat.mul_le_mul_right _ (Nat.le_max_left _ _)
  · rw [Nat.mul_div_cancel_left _ (by decide)]
    calc retaGroupSize * k = k * retaGroupSize := Nat.mul_comm _ _
      _ ≤ _ := Nat.mul_le_mul_right _ (Nat.le_max_right _ _)

/-- Masking with a power of two less one is the remainder. -/
theorem mask_toNat (hash : UInt32) {retaSize : UInt16} {k : Nat} (hpow : retaSize.toNat = 2 ^ k) :
    (hash &&& (retaSize.toUInt32 - 1)).toNat = hash.toNat % retaSize.toNat := by
  have hpos : 0 < 2 ^ k := Nat.two_pow_pos k
  have hle : (1 : UInt32) ≤ retaSize.toUInt32 := by
    rw [UInt32.le_iff_toNat_le, UInt16.toNat_toUInt32, hpow]
    exact hpos
  rw [UInt32.toNat_and, UInt32.toNat_sub_of_le _ _ hle, UInt16.toNat_toUInt32, hpow]
  exact Nat.and_two_pow_sub_one_eq_mod _ k

/-- The queue of a hash: the table entry at the hash modulo the table size. -/
theorem rss_check_iff {keylen : Nat} {key : Nat → UInt8} {nbQueues retaSize q : UInt16} {k : Nat}
    (saddr daddr : UInt32) (sport dport : UInt16) (hpow : retaSize.toNat = 2 ^ k)
    (hqueues : 1 < nbQueues.toNat) :
    lazybsdRssCheck keylen key ⟨nbQueues, q, retaSize⟩ saddr daddr sport dport = true ↔
      q.toNat = (toeplitzHash keylen key (tupleBytes saddr daddr sport dport)).toNat % retaSize.toNat %
        nbQueues.toNat := by
  have hmany : ¬ nbQueues ≤ 1 := by
    rw [UInt16.le_iff_toNat_le]
    exact Nat.not_le.mpr hqueues
  rw [lazybsdRssCheck, if_neg hmany, beq_iff_eq, ← UInt32.toNat_inj, UInt32.toNat_mod,
    mask_toNat _ hpow, UInt16.toNat_toUInt32, UInt16.toNat_toUInt32]
  exact eq_comm

/-- A power of two is smaller than a group or a multiple of it. -/
theorem two_pow_groups (k : Nat) : 2 ^ k < retaGroupSize ∨ retaGroupSize ∣ 2 ^ k := by
  rcases Nat.lt_or_ge k 6 with hlt | hge
  · exact .inl (Nat.pow_lt_pow_right (by decide) hlt)
  · exact .inr (Nat.pow_dvd_pow 2 hge)

/-- **Hardware and software agree.** For a power-of-two table and more than one queue, exactly one
process of the port accepts the tuple, and its queue is the table entry that the NIC finds for the
hash. -/
theorem rss_check_agrees_with_table (keylen : Nat) (key : Nat → UInt8) {nbQueues retaSize : UInt16}
    {k : Nat} (hpow : retaSize.toNat = 2 ^ k) (hqueues : 1 < nbQueues.toNat) (saddr daddr : UInt32)
    (sport dport : UInt16) :
    ∃ table q, setRssTable retaSize nbQueues = some table ∧ q < nbQueues ∧
      retaEntry table ((toeplitzHash keylen key (tupleBytes saddr daddr sport dport)).toNat %
        retaSize.toNat) = some q.toNat ∧
      ∀ q' < nbQueues,
        (lazybsdRssCheck keylen key ⟨nbQueues, q', retaSize⟩ saddr daddr sport dport = true ↔ q' = q) := by
  have hpos : 0 < retaSize.toNat := by
    rw [hpow]
    exact Nat.two_pow_pos k
  have hne : ¬ retaSize = 0 := by
    rintro rfl
    exact absurd hpos (by decide)
  have hgroups := hpow ▸ retaSize_le_groups (two_pow_groups k)
  have hindex := Nat.mod_lt (toeplitzHash keylen key (tupleBytes saddr daddr sport dport)).toNat hpos
  have hentry := Nat.mod_lt ((toeplitzHash keylen key (tupleBytes saddr daddr sport dport)).toNat %
    retaSize.toNat) (Nat.lt_trans Nat.zero_lt_one hqueues)
  -- the entry fits a queue number
  obtain ⟨q, hq⟩ : ∃ q : UInt16, q.toNat = (toeplitzHash keylen key
      (tupleBytes saddr daddr sport dport)).toNat % retaSize.toNat % nbQueues.toNat := by
    have hlt := nbQueues.toNat_lt
    exact ⟨.ofNat _, by rw [UInt16.toNat_ofNat']; exact Nat.mod_eq_of_lt (Nat.lt_trans hentry hlt)⟩
  refine ⟨_, q, if_neg hne, ?_, ?_, ?_⟩
  · rw [UInt16.lt_iff_toNat_lt, hq]
    exact hentry
  · rw [retaEntry_fillTable _ _ (Nat.lt_of_lt_of_le hindex hgroups), hq]
  · intro q' _
    rw [rss_check_iff saddr daddr sport dport hpow hqueues, ← hq, UInt16.toNat_inj]

/-- Three queues on a table of 128 slots. -/
theorem rss_check_agrees_three_queues :
    ∃ table q, setRssTable 128 3 = some table ∧ q < 3 ∧
      retaEntry table ((toeplitzHash 40 (fun _ => 0x6d) (tupleBytes 0x0100000a 0x0200000a 80 4660)).toNat %
        (128 : UInt16).toNat) = some q.toNat ∧
      ∀ q' < 3, (lazybsdRssCheck 40 (fun _ => 0x6d) ⟨3, q', 128⟩ 0x0100000a 0x0200000a 80 4660 = true ↔
        q' = q) :=
  rss_check_agrees_with_table 40 (fun _ => 0x6d) (k := 7) (by decide) (by decide) 0x0100000a
    0x0200000a 80 4660

end LazyBsd.Rss
