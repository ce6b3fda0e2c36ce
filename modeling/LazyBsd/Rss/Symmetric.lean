/-
# LazyBsd.Rss.Symmetric — both directions of a connection with the symmetric key.

`symmetric_rsskey` repeats two bytes. Swapping the addresses of a tuple moves each of them by 32 bits,
swapping the ports moves them by 16, and a key with period 16 hashes bits that move by a multiple of 16
alike, as long as their windows stay inside the key.
-/
import LazyBsd.Port.Start
import LazyBsd.Rss.Toeplitz

namespace LazyBsd.Rss

open Lib.Toeplitz Port

/-- The entry that the NIC finds for a tuple in the table that `set_rss_table` wrote. -/
def tableQueue (keylen : Nat) (key : Nat → UInt8) (retaSize nbQueues : UInt16) (saddr daddr : UInt32)
    (sport dport : UInt16) : Option Nat :=
  (setRssTable retaSize nbQueues).bind fun table =>
    retaEntry table ((toeplitzHash keylen key (tupleBytes saddr daddr sport dport)).toNat % retaSize.toNat)

/-- What a key of this length does to both directions of a connection. -/
structure IsSymmetric (keylen : Nat) (key : Nat → UInt8) (saddr daddr : UInt32) (sport dport : UInt16) :
    Prop where
  hash : toeplitzHash keylen key (tupleBytes saddr daddr sport dport) =
    toeplitzHash keylen key (tupleBytes daddr saddr dport sport)
  queue : ∀ retaSize nbQueues, tableQueue keylen key retaSize nbQueues saddr daddr sport dport =
    tableQueue keylen key retaSize nbQueues daddr saddr dport sport
  check : ∀ port, lazybsdRssCheck keylen key port saddr daddr sport dport =
    lazybsdRssCheck keylen key port daddr saddr dport sport

section Symmetric

variable {keylen : Nat}

theorem length_dataBits_bytes32 (x : UInt32) : (dataBits (bytes32 x)).length = 32 := length_dataBits _

theorem length_dataBits_bytes16 (x : UInt16) : (dataBits (bytes16 x)).length = 16 := length_dataBits _

/-- The parts of a tuple contribute one after the other. -/
theorem toeplitz_tuple (k : Nat → Bool) (saddr daddr : UInt32) (sport dport : UInt16) :
    toeplitz 32 k 0 (dataBits (tupleBytes saddr daddr sport dport)) =
      toeplitz 32 k 0 (dataBits (bytes32 saddr)) ^^^ toeplitz 32 k 32 (dataBits (bytes32 daddr)) ^^^
        toeplitz 32 k 64 (dataBits (bytes16 sport)) ^^^ toeplitz 32 k 80 (dataBits (bytes16 dport)) := by
  simp only [tupleBytes, dataBits_append, toeplitz_append, List.length_append, length_dataBits_bytes32,
    length_dataBits_bytes16, Nat.zero_add, Nat.reduceAdd]

/-- As far as a tuple reaches, the key has the period 16. -/
theorem readBit_period (hlen : keylen = 40 ∨ keylen = 52) :
    ∀ i < 111, readBit keylen RssKey.symmetric.byte (i + 16) = readBit keylen RssKey.symmetric.byte i := by
  rcases hlen with rfl | rfl <;> decide +kernel

/-- And so the period 32. -/
theorem readBit_period_twice (hlen : keylen = 40 ∨ keylen = 52) :
    ∀ i < 63, readBit keylen RssKey.symmetric.byte (i + 32) = readBit keylen RssKey.symmetric.byte i := by
  intro i hi
  have hone := readBit_period hlen i (by omega)
  have htwo := readBit_period hlen (i + 16) (by omega)
  exact htwo.trans hone

theorem toeplitzHash_swap (hlen : keylen = 40 ∨ keylen = 52) (saddr daddr : UInt32)
    (sport dport : UInt16) :
    toeplitzHash keylen RssKey.symmetric.byte (tupleBytes saddr daddr sport dport) =
      toeplitzHash keylen RssKey.symmetric.byte (tupleBytes daddr saddr dport sport) := by
  have hfour : 4 ≤ keylen := by omega
  have haddr (x : UInt32) :
      toeplitz 32 (readBit keylen RssKey.symmetric.byte) 32 (dataBits (bytes32 x)) =
        toeplitz 32 (readBit keylen RssKey.symmetric.byte) 0 (dataBits (bytes32 x)) := by
    refine toeplitz_period (p := 0) (t := 32) _ (readBit_period_twice hlen) ?_
    have hlength := length_dataBits_bytes32 x
    omega
  have hport (x : UInt16) :
      toeplitz 32 (readBit keylen RssKey.symmetric.byte) 80 (dataBits (bytes16 x)) =
        toeplitz 32 (readBit keylen RssKey.symmetric.byte) 64 (dataBits (bytes16 x)) := by
    refine toeplitz_period (p := 64) (t := 16) _ (readBit_period hlen) ?_
    have hlength := length_dataBits_bytes16 x
    omega
  apply UInt32.toBitVec_inj.mp
  rw [toeplitzHash_eq _ hfour, toeplitzHash_eq _ hfour, toeplitz_tuple, toeplitz_tuple, haddr daddr,
    haddr saddr, hport dport, hport sport]
  ac_rfl

/-- **The symmetric key is symmetric**: both directions of every connection hash alike, so they have one
table entry, and the software check answers the same for both. -/
theorem symmetric_key_is_symmetric (hlen : keylen = 40 ∨ keylen = 52) (saddr daddr : UInt32)
    (sport dport : UInt16) :
    IsSymmetric keylen RssKey.symmetric.byte saddr daddr sport dport := by
  have hash := toeplitzHash_swap hlen saddr daddr sport dport
  refine ⟨hash, ?_, ?_⟩
  · intro retaSize nbQueues
    rw [tableQueue, tableQueue, hash]
  · intro port
    rw [lazybsdRssCheck, lazybsdRssCheck, hash]

/-- A client port and a server port, with the longer key. -/
theorem symmetric_key_is_symmetric_http :
    IsSymmetric 52 RssKey.symmetric.byte 0x0100000a 0x0200000a 80 4660 :=
  symmetric_key_is_symmetric (.inr rfl) 0x0100000a 0x0200000a 80 4660

end Symmetric

end LazyBsd.Rss
