/-
# LazyBsd.Route.Sound — requests whose sockaddrs are whole, and stores into them.

In a sound request every sockaddr has a family, ends before the message does and overlaps no other one;
there a touch is inside the message when the length covers it (`field_inBounds_iff`). A store that the
length covers keeps a request sound and the other sockaddrs as they are (`store_sound`).
-/
import LazyBsd.Route.Walk

namespace LazyBsd.Route

open Lib

/-! ## Requests whose sockaddrs are whole -/

/-- In a message of `len` bytes: the sockaddr has a family and ends before the message does. Outside the
message lies `sa_zero`. -/
def SaRef.Holds (len : Nat) (b : Bytes) : SaRef → Prop
  | .msg p => 2 ≤ (b p).toNat ∧ p + (b p).toNat ≤ len
  | .ext f => f 0 = 16

/-- There a touch is inside when the length covers it. -/
theorem field_inBounds_iff {len : Nat} {b : Bytes} {sa : SaRef} (h : sa.Holds len b) (off n : Nat) :
    (Touch.field sa (sa.len b) off n).InBounds len ↔ off + n ≤ (sa.len b).toNat := by
  cases sa with
  | msg p =>
    obtain ⟨_, hend⟩ := h
    show off + n ≤ (b p).toNat ∧ p + (off + n) ≤ len ↔ off + n ≤ (b p).toNat
    omega
  | ext f =>
    have hlen : (SaRef.ext f).len b = 16 := h
    rw [hlen]
    exact Iff.rfl

theorem length_inBounds {len : Nat} {b : Bytes} {sa : SaRef} (h : sa.Holds len b) :
    (Touch.length sa).InBounds len := by
  cases sa with
  | msg p =>
    obtain ⟨htwo, hend⟩ := h
    show p < len
    omega
  | ext f => trivial

/-- The sockaddrs of a request in a message of `len` bytes do not overlap. -/
structure Request.Sound (len : Nat) (r : Request) : Prop where
  holds : ∀ i sa, r.slots i = some sa → sa.Holds len r.block
  apart : ∀ i j, i ≠ j → ∀ sa sa', r.slots i = some sa → r.slots j = some sa' → Apart r.block sa sa'

/-- `r'` has the sockaddr of slot `j` as it is in `r`. -/
def Request.Same (r r' : Request) (j : Nat) : Prop :=
  r'.slots j = r.slots j ∧ ∀ sa, r.slots j = some sa → ∀ k < (sa.len r.block).toNat,
    sa.byte r'.block k = sa.byte r.block k

section Same

variable {r r' r'' : Request} {j len : Nat} {sa : SaRef}

theorem SaRef.Holds.pos {b : Bytes} (h : sa.Holds len b) : 2 ≤ (sa.len b).toNat := by
  cases sa with
  | msg p => exact h.1
  | ext f =>
    have hlen : (SaRef.ext f).len b = 16 := h
    rw [hlen]
    decide

theorem Request.Same.len_eq (h : r.Same r' j) (hj : r.slots j = some sa) (hold : sa.Holds len r.block) :
    sa.len r'.block = sa.len r.block :=
  h.2 sa hj 0 (by have := hold.pos; omega)

theorem Request.Same.holds (h : r.Same r' j) (hj : r.slots j = some sa) (hold : sa.Holds len r.block) :
    sa.Holds len r'.block := by
  have hlen := h.len_eq hj hold
  cases sa with
  | ext f => exact hold
  | msg p =>
    have hlen' : r'.block p = r.block p := hlen
    show 2 ≤ (r'.block p).toNat ∧ p + (r'.block p).toNat ≤ len
    rw [hlen']
    exact hold

theorem Request.Same.trans (h : r.Same r' j) (h' : r'.Same r'' j) (hs : r.Sound len) :
    r.Same r'' j := by
  refine ⟨h'.1.trans h.1, fun sa hj k hk => ?_⟩
  have hlen := h.len_eq hj (hs.holds j sa hj)
  rw [h'.2 sa (h.1.trans hj) k (by rw [hlen]; exact hk), h.2 sa hj k hk]

end Same

section Store

variable {len i off : Nat} {r : Request} {sa : SaRef} {bs : List UInt8}

/-- The sockaddr of a slot after a store. -/
def SaRef.stored (off : Nat) (bs : List UInt8) : SaRef → SaRef
  | .msg p => .msg p
  | .ext f => .ext (Block.write f off bs)

variable (off bs) in
/-- What a store does: to the sockaddr of its slot, to the other slots, to the message. -/
theorem store_spec (hi : r.slots i = some sa) :
    (r.store i off bs).slots i = some (sa.stored off bs) ∧
    (∀ k, (sa.stored off bs).byte (r.store i off bs).block k =
      Block.write (sa.byte r.block) off bs k) ∧
    (∀ j, j ≠ i → (r.store i off bs).slots j = r.slots j) ∧
    ∀ k, (∀ p, sa = .msg p → k < p + off ∨ p + (off + bs.length) ≤ k) →
      (r.store i off bs).block k = r.block k := by
  cases sa with
  | msg p =>
    have hstore : r.store i off bs = { r with block := Block.write r.block (p + off) bs } := by
      rw [Request.store, hi]
    rw [hstore]
    refine ⟨hi, Block.write_shift _ _ _ _, fun _ _ => rfl, fun k hk => ?_⟩
    rcases hk p rfl with hbefore | hafter
    · exact Block.write_before hbefore
    · exact Block.write_after (by omega)
  | ext f =>
    have hstore : r.store i off bs =
        { r with slots := Function.update r.slots i (some (.ext (Block.write f off bs))) } := by
      rw [Request.store, hi]
    rw [hstore]
    exact ⟨Function.update_self .., fun _ => rfl, fun j hj => Function.update_of_ne hj ..,
      fun _ _ => rfl⟩

/-- A length that a store may leave. -/
def StoredLen (off : Nat) (bs : List UInt8) : Prop :=
  off ≠ 0 ∨ ∃ n rest, bs = n :: rest ∧ 16 ≤ n.toNat ∧ n.toNat ≤ bs.length

/-- The length after a store that the length covers. -/
theorem stored_len (hi : r.slots i = some sa)
    (hfit : off + bs.length ≤ (sa.len r.block).toNat) (hlen : StoredLen off bs) :
    (sa.stored off bs).len (r.store i off bs).block = sa.len r.block ∨
      16 ≤ ((sa.stored off bs).len (r.store i off bs).block).toNat ∧
        ((sa.stored off bs).len (r.store i off bs).block).toNat ≤ (sa.len r.block).toNat := by
  have hbyte := (store_spec off bs hi).2.1 0
  rw [SaRef.len, hbyte]
  rcases Nat.eq_zero_or_pos off with rfl | hpos
  · obtain hne | ⟨n, rest, rfl, hlow, hup⟩ := hlen
    · exact absurd rfl hne
    · right
      have hhead : Block.write (sa.byte r.block) 0 (n :: rest) 0 = n :=
        Block.write_at _ 0 (n :: rest) (Nat.zero_lt_succ _)
      rw [hhead]
      omega
  · left
    exact Block.write_before hpos

theorem stored_holds (h : sa.Holds len r.block) (hi : r.slots i = some sa)
    (hfit : off + bs.length ≤ (sa.len r.block).toNat) (hlen : StoredLen off bs) :
    (sa.stored off bs).Holds len (r.store i off bs).block := by
  have hnew := stored_len hi hfit hlen
  cases sa with
  | msg p =>
    obtain ⟨htwo, hend⟩ := h
    have hle : ((r.store i off bs).block p).toNat = (r.block p).toNat ∨
        16 ≤ ((r.store i off bs).block p).toNat ∧
          ((r.store i off bs).block p).toNat ≤ (r.block p).toNat :=
      hnew.imp_left (congrArg UInt8.toNat)
    show 2 ≤ ((r.store i off bs).block p).toNat ∧ p + ((r.store i off bs).block p).toNat ≤ len
    omega
  | ext f =>
    have h16 : f 0 = 16 := h
    show Block.write f off bs 0 = 16
    rcases hnew with hsame | ⟨hlow, hup⟩
    · exact hsame.trans h16
    · have hup' : (Block.write f off bs 0).toNat ≤ (f 0).toNat := hup
      rw [h16] at hup'
      exact UInt8.toNat_inj.mp (Nat.le_antisymm hup' hlow)

/-- **A store that the length covers** leaves the other sockaddrs alone, and the request sound when the
length that it stores, if it stores one, is at least 16 and not larger than what is stored. -/
theorem store_sound (h : r.Sound len) (hi : r.slots i = some sa)
    (hfit : off + bs.length ≤ (sa.len r.block).toNat) (hlen : StoredLen off bs) :
    (r.store i off bs).Sound len ∧ ∀ j, j ≠ i → r.Same (r.store i off bs) j := by
  obtain ⟨hslot, _, hother, hblock⟩ := store_spec off bs hi
  have hsame : ∀ j, j ≠ i → r.Same (r.store i off bs) j := by
    intro j hj
    refine ⟨hother j hj, fun sb hsb k hk => ?_⟩
    cases sb with
    | ext f => rfl
    | msg q =>
      refine hblock (q + k) fun p hp => ?_
      have hk' : k < (r.block q).toNat := hk
      rw [hp] at hfit
      have hfit' : off + bs.length ≤ (r.block p).toNat := hfit
      rcases h.apart i j hj.symm sa _ hi hsb p q hp rfl with hbefore | hafter
      · omega
      · omega
  have hholds : ∀ j s', (r.store i off bs).slots j = some s' →
      s'.Holds len (r.store i off bs).block := by
    intro j s' hs'
    rcases eq_or_ne j i with rfl | hj
    · rw [hslot] at hs'
      cases hs'
      exact stored_holds (h.holds j sa hi) hi hfit hlen
    · rw [hother j hj] at hs'
      exact (hsame j hj).holds hs' (h.holds j s' hs')
  -- no sockaddr grows
  have hshrink : ∀ j p, (r.store i off bs).slots j = some (.msg p) →
      r.slots j = some (.msg p) ∧ ((r.store i off bs).block p).toNat ≤ (r.block p).toNat := by
    intro j p hp
    rcases eq_or_ne j i with rfl | hj
    · rw [hslot] at hp
      cases sa with
      | ext f => exact absurd hp (by simp [SaRef.stored])
      | msg q =>
        cases hp
        refine ⟨hi, ?_⟩
        rcases stored_len hi hfit hlen with hkept | ⟨_, hle⟩
        · exact Nat.le_of_eq (congrArg UInt8.toNat hkept)
        · exact hle
    · rw [hother j hj] at hp
      have hkept := (hsame j hj).len_eq hp (h.holds j _ hp)
      exact ⟨hp, Nat.le_of_eq (congrArg UInt8.toNat hkept)⟩
  refine ⟨⟨hholds, fun j k hjk s s' hs hs' p q hp hq => ?_⟩, hsame⟩
  subst hp hq
  obtain ⟨hp, hple⟩ := hshrink j p hs
  obtain ⟨hq, hqle⟩ := hshrink k q hs'
  rcases h.apart j k hjk _ _ hp hq p q rfl rfl with hbefore | hafter
  · left
    omega
  · right
    omega

end Store

/-! ## Sockaddrs that are written anew -/

/-- The sockaddrs that the cleaning writes, from the field that they keep. -/
def inetBytes (addr : List UInt8) : List UInt8 :=
  [sockaddrInSize, afInet, 0, 0] ++ addr ++ List.replicate 8 0
def inet6Bytes (addr6 : List UInt8) : List UInt8 :=
  [sockaddrIn6Size, afInet6, 0, 0, 0, 0, 0, 0] ++ addr6 ++ [0, 0, 0, 0]
def linkBytes (index : List UInt8) : List UInt8 :=
  [sockaddrDlShortSize, afLink] ++ index ++ List.replicate 12 0

/-- With a field of `n` bytes, `f` writes a sockaddr of `size` bytes. -/
structure Fills (size : UInt8) (n : Nat) (f : List UInt8 → List UInt8) : Prop where
  room : 16 ≤ size.toNat
  length : ∀ xs : List UInt8, xs.length = n → (f xs).length = size.toNat
  head : ∀ xs, ∃ rest, f xs = size :: rest

theorem inetBytes_fills : Fills sockaddrInSize 4 inetBytes where
  room := by decide
  length xs hxs := by simp [inetBytes, hxs]; decide
  head _ := ⟨_, rfl⟩

theorem inet6Bytes_fills : Fills sockaddrIn6Size 16 inet6Bytes where
  room := by decide
  length xs hxs := by simp [inet6Bytes, hxs]; decide
  head _ := ⟨_, rfl⟩

theorem linkBytes_fills : Fills sockaddrDlShortSize 2 linkBytes where
  room := by decide
  length xs hxs := by simp [linkBytes, hxs]; decide
  head _ := ⟨_, rfl⟩

section Fill

variable {size : UInt8} {n : Nat} {f : List UInt8 → List UInt8} {xs : List UInt8}

theorem Fills.storedLen (h : Fills size n f) (hxs : xs.length = n) : StoredLen 0 (f xs) := by
  obtain ⟨rest, hrest⟩ := h.head xs
  exact .inr ⟨size, rest, hrest, h.room, Nat.le_of_eq (h.length xs hxs).symm⟩

end Fill

end LazyBsd.Route
