/-
# LazyBsd.Route.Bounds — when `fill_addrinfo` stays inside the message.

`rt_xaddrs` looks at a length only to see that the sockaddr ends before the message does, and reads the
family of a sockaddr of one byte, too. The cleaning compares the lengths of destination and netmask with
the size of their family after it has read their addresses. So the touches are inside exactly for the
messages of `MessageFits`, which speaks about the sockaddrs as they were sent (`addresses`).
-/
import Mathlib.Data.List.Pairwise
import LazyBsd.Route.Faithful
import LazyBsd.Route.Sound

namespace LazyBsd.Route

open Lib Lib.Traced

/-! ## The condition -/

/-- A message as it was sent. -/
def sent (len : Nat) (b : Bytes) : Request :=
  ⟨rtmAddrs b, rtmFlags b, fun i => (addresses len b).found.lookup i, b⟩

/-- A link-layer address has its index and, if that is not 0, the lengths of name and address. -/
def LladdrFits (r : Request) (gw : SaRef) : Prop :=
  gw.family r.block = afLink →
    4 ≤ (gw.len r.block).toNat ∧ (r.field gw 2 2 ≠ [0, 0] → 7 ≤ (gw.len r.block).toNat)

/-- `RTF_LLDATA`: the netmask is ignored, the gateway is a link-layer address. -/
def Request.Lldata (r : Request) : Prop := r.flags &&& rtfLldata ≠ 0

/-- The addresses that are masked lie in sockaddrs that have them, and a link-layer gateway fits when
the destination has passed its check. -/
structure CleanFits (r : Request) (dst : SaRef) : Prop where
  address : dst.family r.block = afInet → 8 ≤ (dst.len r.block).toNat
  mask : ¬ r.Lldata → dst.family r.block = afInet → ∀ sa, r.slots rtaxNetmask = some sa →
    8 ≤ (sa.len r.block).toNat
  mask6 : ¬ r.Lldata → dst.family r.block = afInet6 → ∀ sa, r.slots rtaxNetmask = some sa →
    24 ≤ (sa.len r.block).toNat
  gateway : r.Lldata →
    dst.family r.block = afInet ∧ 16 ≤ (dst.len r.block).toNat ∨ dst.family r.block = afInet6 →
    ∀ gw, r.slots rtaxGateway = some gw → LladdrFits r gw

/-- The condition on a message of `len` bytes. Its destination matters when the message is not refused
before the cleaning. -/
structure MessageFits (len : Nat) (b : Bytes) : Prop where
  heads : ∀ x ∈ (addresses len b).found, HeadFits b x.2
  clean : (addresses len b).fits = true → rtmFlags b &&& rtfRnhLocked = 0 →
    ∀ dst, (sent len b).slots rtaxDst = some dst → CleanFits (sent len b) dst

/-! ## The gateway -/

/-- The gateway's part of the condition. -/
def GatewayFits (r : Request) : Prop :=
  r.Lldata → ∀ gw, r.slots rtaxGateway = some gw → LladdrFits r gw

@[simp] theorem store_flags (r : Request) (i off : Nat) (bs : List UInt8) :
    (r.store i off bs).flags = r.flags := by
  unfold Request.store
  split <;> rfl

theorem store_lldata (r : Request) (i off : Nat) (bs : List UInt8) :
    (r.store i off bs).Lldata ↔ r.Lldata := by
  rw [Request.Lldata, store_flags]
  exact Iff.rfl

theorem removeNetmask_lldata (r : Request) : (removeNetmask r).Lldata ↔ r.Lldata := by
  have hhost : rtfHost.toBitVec &&& rtfLldata.toBitVec = 0#32 := by decide
  have hbit : (r.flags ||| rtfHost) &&& rtfLldata = r.flags &&& rtfLldata := by
    apply UInt32.toBitVec_inj.mp
    rw [UInt32.toBitVec_and, UInt32.toBitVec_or, BitVec.and_or_distrib_right, hhost, BitVec.or_zero,
      UInt32.toBitVec_and]
  show (r.flags ||| rtfHost) &&& rtfLldata ≠ 0 ↔ r.flags &&& rtfLldata ≠ 0
  rw [hbit]

section Gateway

variable {len : Nat} {r r' : Request} {gw : SaRef}

/-- A sockaddr with the same head, and the same bytes unless it is a sockaddr_in6. -/
structure Like (b b' : Bytes) (sa : SaRef) : Prop where
  len : sa.len b' = sa.len b
  family : sa.family b' = sa.family b
  bytes : sa.family b ≠ afInet6 → ∀ k < (sa.len b).toNat, sa.byte b' k = sa.byte b k

theorem lladdrFits_congr (h : Like r.block r'.block gw) : LladdrFits r' gw ↔ LladdrFits r gw := by
  unfold LladdrFits
  rw [h.len, h.family]
  refine imp_congr_right fun hlink => and_congr_right fun hfour => ?_
  have hnot6 : gw.family r.block ≠ afInet6 := by
    rw [hlink]
    decide
  have hindex : r'.field gw 2 2 = r.field gw 2 2 := by
    apply Block.read_congr
    intro i hi
    exact h.bytes hnot6 _ (by omega)
  rw [hindex]

/-- A gateway that stays fits as before. -/
theorem gatewayFits_congr (hs : r.Sound len) (h : r.Same r' rtaxGateway)
    (hflags : r'.Lldata ↔ r.Lldata) : GatewayFits r' ↔ GatewayFits r := by
  unfold GatewayFits
  rw [hflags, h.1]
  refine imp_congr_right fun _ => forall₂_congr fun gw hgw => ?_
  have hold := hs.holds _ gw hgw
  exact lladdrFits_congr ⟨h.len_eq hgw hold, h.2 gw hgw 1 hold.pos, fun _ => h.2 gw hgw⟩

theorem lladdr_inBounds_iff (h : gw.Holds len r.block) :
    (Access.cleanupXaddrsLladdr gw r).All (Touch.InBounds len) ↔ LladdrFits r gw := by
  have htwo := h.pos
  rw [Access.cleanupXaddrsLladdr, all_bind_of_res (Access.readByte_res 1), Access.readByte_all,
    field_inBounds_iff h, and_iff_right htwo]
  show (if gw.family r.block ≠ afLink then _ else _ : Traced Touch _).All _ ↔ _
  split
  case _ hfamily =>
    rw [LladdrFits, all_pure, true_iff]
    exact fun hlink => absurd hlink hfamily
  case _ hlink =>
    rw [LladdrFits, imp_iff_right (not_not.mp hlink), all_bind_of_res (Access.readField_res 2 2),
      Access.readField_all, field_inBounds_iff h]
    refine and_congr_right fun _ => ?_
    split
    case _ hindex => simp [hindex]
    case _ hindex =>
      rw [all_bind_of_res (Access.readByte_res 5), all_bind_of_res (Access.readByte_res 6),
        all_bind_of_res Access.readLen_res, Access.readByte_all, Access.readByte_all,
        Access.readLen_all, field_inBounds_iff h, field_inBounds_iff h,
        and_iff_right (length_inBounds h), imp_iff_right hindex, apply_ite (All _)]
      simp only [all_pure, ite_self, and_true]
      omega

/-- A check of the length, then a field and a store that it covers. -/
theorem rewrite_inBounds (hs : r.Sound len) (hgw : r.slots rtaxGateway = some gw) {size : UInt8}
    {off n : Nat} (hsize : off + n ≤ size.toNat) {f : List UInt8 → List UInt8} (hf : Fills size n f) :
    (do
      let short ← Access.shorter r.block size (some gw)
      if short then pure (einval, r)
      else
        let xs ← Access.readField r gw off n
        let r' ← Access.store rtaxGateway 0 (f xs) r
        pure (0, r') : Traced Touch Outcome).All (Touch.InBounds len) := by
  have hold := hs.holds _ gw hgw
  rw [all_bind_of_res (Access.shorter_res size (some gw)), Access.shorter_all]
  refine ⟨fun s hsa => Option.some.inj hsa ▸ length_inBounds hold, ?_⟩
  split
  case _ => simp
  case _ hshort =>
    have hcovers : size.toNat ≤ (gw.len r.block).toNat := by
      simpa [UInt8.lt_iff_toNat_lt] using hshort
    rw [all_bind_of_res (Access.readField_res off n), Access.readField_all, field_inBounds_iff hold,
      all_bind_of_res (Access.store_res _ _ _), Access.store_all hgw, field_inBounds_iff hold,
      hf.length (r.field gw off n) Block.length_read]
    refine ⟨by omega, by omega, ?_⟩
    simp

theorem gateway_inBounds_iff (hs : r.Sound len) (hgw : r.slots rtaxGateway = some gw) :
    (Access.cleanupXaddrsGateway gw r).All (Touch.InBounds len) ↔ (r.Lldata → LladdrFits r gw) := by
  have hold := hs.holds _ gw hgw
  have htwo := hold.pos
  unfold Access.cleanupXaddrsGateway
  split
  case _ hll =>
    rw [all_bind_of_res Access.cleanupXaddrsLladdr_res, lladdr_inBounds_iff hold]
    simp [Request.Lldata, hll]
  case _ hll =>
    rw [all_bind_of_res (Access.readByte_res 1), Access.readByte_all, field_inBounds_iff hold]
    -- here the length is checked first, in every family
    refine iff_of_true ⟨htwo, ?_⟩ fun h => absurd h hll
    split
    · exact rewrite_inBounds hs hgw (by decide) inetBytes_fills
    · split
      · exact rewrite_inBounds hs hgw (by decide) inet6Bytes_fills
      · split
        · exact rewrite_inBounds hs hgw (by decide) linkBytes_fills
        · simp

/-- The check of the gateway. -/
theorem checkGateway_inBounds_iff (hs : r.Sound len) :
    (Access.checkGateway r).All (Touch.InBounds len) ↔ GatewayFits r := by
  unfold Access.checkGateway GatewayFits
  cases hgw : r.slots rtaxGateway with
  | none => simp
  | some gw => simpa using gateway_inBounds_iff hs hgw

end Gateway

/-! ## Destination and netmask -/

/-- A sound request with a destination. -/
structure Request.Ready (len : Nat) (r : Request) : Prop extends r.Sound len where
  dst : (r.slots rtaxDst).isSome = true

section Clean

variable {len : Nat} {r : Request} {dst : SaRef}

theorem store_ready {i off : Nat} {sa : SaRef} {bs : List UInt8} (h : r.Ready len)
    (hi : r.slots i = some sa) (hfit : off + bs.length ≤ (sa.len r.block).toNat)
    (hlen : StoredLen off bs) : (r.store i off bs).Ready len := by
  refine ⟨(store_sound h.toSound hi hfit hlen).1, ?_⟩
  obtain ⟨hslot, _, hother, _⟩ := store_spec off bs hi
  rcases eq_or_ne rtaxDst i with rfl | hne
  · rw [hslot]
    rfl
  · rw [hother _ hne]
    exact h.dst

theorem removeNetmask_same {j : Nat} (hj : j ≠ rtaxNetmask) : r.Same (removeNetmask r) j :=
  ⟨Function.update_of_ne hj .., fun _ _ _ _ => rfl⟩

theorem removeNetmask_sound (h : r.Sound len) : (removeNetmask r).Sound len := by
  have hslots : ∀ i sa, (removeNetmask r).slots i = some sa → r.slots i = some sa := by
    intro i sa hi
    rcases eq_or_ne i rtaxNetmask with rfl | hne
    · exact absurd hi (by simp [removeNetmask])
    · rwa [(removeNetmask_same hne).1] at hi
  exact ⟨fun i sa hi => h.holds i sa (hslots i sa hi),
    fun i j hij sa sa' hi hj => h.apart i j hij sa sa' (hslots i sa hi) (hslots j sa' hj)⟩

theorem removeNetmask_ready (h : r.Ready len) : (removeNetmask r).Ready len where
  toSound := removeNetmask_sound h.toSound
  dst := by
    rw [(removeNetmask_same (by decide)).1]
    exact h.dst

theorem cleanupXaddrsGateway_ready {gw : SaRef} (h : r.Ready len) (hgw : r.slots rtaxGateway = some gw) :
    (cleanupXaddrsGateway gw r).2.Ready len := by
  have hrewrite : ∀ {size : UInt8} {off n : Nat} {f : List UInt8 → List UInt8}, Fills size n f →
      ¬ gw.len r.block < size → (r.store rtaxGateway 0 (f (r.field gw off n))).Ready len := by
    intro size off n f hf hlen
    refine store_ready h hgw ?_ (hf.storedLen Block.length_read)
    rw [hf.length (r.field gw off n) Block.length_read, Nat.zero_add]
    exact Nat.le_of_not_lt hlen
  unfold cleanupXaddrsGateway
  split
  · exact h
  · split
    · split
      · exact h
      case _ hlen => exact hrewrite inetBytes_fills hlen
    · split
      · split
        · exact h
        case _ hlen => exact hrewrite inet6Bytes_fills hlen
      · split
        · split
          · exact h
          case _ hlen => exact hrewrite linkBytes_fills hlen
        · exact h

theorem checkGateway_ready (h : r.Ready len) : (checkGateway r).2.Ready len := by
  unfold checkGateway
  cases hgw : r.slots rtaxGateway with
  | none => exact h
  | some gw => exact cleanupXaddrsGateway_ready h hgw

/-- How the cleaning ends when destination and netmask have passed their checks: the netmask is
rewritten or removed, and then the gateway is checked. -/
theorem end_ready (h : r.Ready len) {c : Prop} [Decidable c] {bs : List UInt8}
    (hmask : c → ∃ sa, r.slots rtaxNetmask = some sa ∧ bs.length ≤ (sa.len r.block).toNat)
    (hlen : StoredLen 0 bs) :
    (if c then checkGateway (r.store rtaxNetmask 0 bs) else checkGateway (removeNetmask r)).2.Ready
      len := by
  split
  case _ hc =>
    obtain ⟨sa, hsa, hfit⟩ := hmask hc
    exact checkGateway_ready (store_ready h hsa (by omega) hlen)
  case _ => exact checkGateway_ready (removeNetmask_ready h)

theorem end_inBounds_iff (h : r.Sound len) {c : Prop} [Decidable c] {bs : List UInt8}
    (hmask : c → ∃ sa, r.slots rtaxNetmask = some sa ∧ bs.length ≤ (sa.len r.block).toNat)
    (hlen : StoredLen 0 bs) :
    (if c then do
        let r' ← Access.store rtaxNetmask 0 bs r
        Access.checkGateway r'
      else Access.checkGateway (removeNetmask r)).All (Touch.InBounds len) ↔ GatewayFits r := by
  split
  case _ hc =>
    obtain ⟨sa, hsa, hfit⟩ := hmask hc
    have hcovers : 0 + bs.length ≤ (sa.len r.block).toNat := by omega
    obtain ⟨hsound, hsame⟩ := store_sound h hsa hcovers hlen
    rw [all_bind_of_res (Access.store_res _ _ _), Access.store_all hsa,
      field_inBounds_iff (h.holds _ sa hsa), checkGateway_inBounds_iff hsound,
      and_iff_right hcovers]
    exact gatewayFits_congr h (hsame _ (by decide)) (store_lldata _ _ _ _)
  case _ =>
    rw [checkGateway_inBounds_iff (removeNetmask_sound h)]
    exact gatewayFits_congr h (removeNetmask_same (by decide)) (removeNetmask_lldata r)

/-- What the netmask reads as when it is not all ones is the netmask's. -/
theorem mask_some {off n : Nat} (h : r.mask off n ≠ List.replicate n 0xff) :
    ∃ sa, r.slots rtaxNetmask = some sa := by
  cases hmask : r.slots rtaxNetmask with
  | some sa => exact ⟨sa, rfl⟩
  | none =>
    rw [Request.mask, hmask] at h
    exact absurd rfl h

@[simp] theorem length_mask (r : Request) (off n : Nat) : (r.mask off n).length = n := by
  unfold Request.mask
  cases r.slots rtaxNetmask with
  | none => exact List.length_replicate
  | some sa => exact Block.length_read

/-- The netmask, if there is one, has `n` bytes. -/
def MaskCovers (r : Request) (n : Nat) : Prop :=
  ∀ sa, r.slots rtaxNetmask = some sa → n ≤ (sa.len r.block).toNat

theorem not_shorter_iff {b : Bytes} {size : UInt8} {o : Option SaRef} :
    ¬ (o.any fun sa => sa.len b < size) = true ↔
      ∀ sa, o = some sa → size.toNat ≤ (sa.len b).toNat := by
  cases o with
  | none => simp
  | some sa =>
    rw [Option.any_some, decide_eq_true_eq]
    constructor
    · intro hle sa' hsa
      cases hsa
      exact Nat.le_of_not_lt hle
    · intro hle hlt
      exact Nat.not_le_of_lt hlt (hle sa rfl)

theorem readMask_inBounds_iff (h : r.Sound len) (off n : Nat) :
    (Access.readMask r off n).All (Touch.InBounds len) ↔ MaskCovers r (off + n) := by
  rw [Access.readMask_all]
  exact forall₂_congr fun sa hsa => field_inBounds_iff (h.holds _ sa hsa) off n

theorem shorter_inBounds (h : r.Sound len) (size : UInt8) (i : Nat) :
    (Access.shorter r.block size (r.slots i)).All (Touch.InBounds len) :=
  Access.shorter_all.mpr fun sa hsa => length_inBounds (h.holds i sa hsa)

/-- The check of the netmask: what follows it runs when the netmask passes. -/
theorem maskCheck_inBounds_iff (h : r.Sound len) {size : UInt8} {rest : Traced Touch Outcome}
    (hrest : MaskCovers r size.toNat → (rest.All (Touch.InBounds len) ↔ GatewayFits r)) :
    (do
      let maskShort ← Access.shorter r.block size (r.slots rtaxNetmask)
      if maskShort then pure (einval, r) else rest : Traced Touch Outcome).All (Touch.InBounds len) ↔
      (MaskCovers r size.toNat → GatewayFits r) := by
  rw [all_bind_of_res (Access.shorter_res _ _), and_iff_right (shorter_inBounds h size rtaxNetmask)]
  split
  case _ hshort =>
    rw [all_pure, true_iff]
    exact fun hmask => absurd hshort (not_shorter_iff.mpr hmask)
  case _ hlong =>
    have hmask : MaskCovers r size.toNat := not_shorter_iff.mp hlong
    rw [imp_iff_right hmask]
    exact hrest hmask

section Filled

variable {size : UInt8} {n : Nat} {f : List UInt8 → List UInt8} {addr mask : List UInt8}

/-- The destination is rewritten; the netmask that is rewritten next is still there. -/
theorem filled_mask (h : r.Sound len) (hdst : r.slots rtaxDst = some dst) (hf : Fills size n f)
    (haddr : addr.length = n) (hcovers : size.toNat ≤ (dst.len r.block).toNat)
    (hlen : mask.length = n) (hmask : MaskCovers r size.toNat)
    (hsome : mask ≠ List.replicate n 0xff → ∃ sa, r.slots rtaxNetmask = some sa) :
    (r.store rtaxDst 0 (f addr)).Sound len ∧ (∀ j, j ≠ rtaxDst → r.Same (r.store rtaxDst 0 (f addr)) j) ∧
      (mask ≠ List.replicate n 0xff → ∃ sa, (r.store rtaxDst 0 (f addr)).slots rtaxNetmask = some sa ∧
        (f mask).length ≤ (sa.len (r.store rtaxDst 0 (f addr)).block).toNat) := by
  have hfit : 0 + (f addr).length ≤ (dst.len r.block).toNat := by
    rw [hf.length addr haddr]
    omega
  obtain ⟨hsound, hsame⟩ := store_sound h hdst hfit (hf.storedLen haddr)
  refine ⟨hsound, hsame, fun hne => ?_⟩
  obtain ⟨sa, hsa⟩ := hsome hne
  have hkept := hsame rtaxNetmask (by decide)
  refine ⟨sa, hkept.1.trans hsa, ?_⟩
  rw [hf.length mask hlen, hkept.len_eq hsa (h.holds _ sa hsa)]
  exact hmask sa hsa

/-- What follows the checks: the destination is rewritten, and the cleaning ends. -/
theorem filled_inBounds_iff (h : r.Sound len) (hdst : r.slots rtaxDst = some dst) (hf : Fills size n f)
    (haddr : addr.length = n) (hcovers : size.toNat ≤ (dst.len r.block).toNat)
    (hlen : mask.length = n) (hmask : MaskCovers r size.toNat)
    (hsome : mask ≠ List.replicate n 0xff → ∃ sa, r.slots rtaxNetmask = some sa) :
    (do
      let r' ← Access.store rtaxDst 0 (f addr) r
      if mask ≠ List.replicate n 0xff then
        let r'' ← Access.store rtaxNetmask 0 (f mask) r'
        Access.checkGateway r''
      else Access.checkGateway (removeNetmask r') : Traced Touch Outcome).All (Touch.InBounds len) ↔
      GatewayFits r := by
  obtain ⟨hsound, hsame, hnext⟩ := filled_mask h hdst hf haddr hcovers hlen hmask hsome
  rw [all_bind_of_res (Access.store_res _ _ _), Access.store_all hdst,
    field_inBounds_iff (h.holds _ dst hdst), hf.length addr haddr, Nat.zero_add,
    and_iff_right hcovers, end_inBounds_iff hsound hnext (hf.storedLen hlen)]
  exact gatewayFits_congr h (hsame _ (by decide)) (store_lldata _ _ _ _)

theorem filled_ready (h : r.Ready len) (hdst : r.slots rtaxDst = some dst) (hf : Fills size n f)
    (haddr : addr.length = n) (hcovers : size.toNat ≤ (dst.len r.block).toNat)
    (hlen : mask.length = n) (hmask : MaskCovers r size.toNat)
    (hsome : mask ≠ List.replicate n 0xff → ∃ sa, r.slots rtaxNetmask = some sa) :
    (if mask ≠ List.replicate n 0xff then
        checkGateway ((r.store rtaxDst 0 (f addr)).store rtaxNetmask 0 (f mask))
      else checkGateway (removeNetmask (r.store rtaxDst 0 (f addr)))).2.Ready len := by
  have hnext := (filled_mask h.toSound hdst hf haddr hcovers hlen hmask hsome).2.2
  have hfit : 0 + (f addr).length ≤ (dst.len r.block).toNat := by
    rw [hf.length addr haddr]
    omega
  exact end_ready (store_ready h hdst hfit (hf.storedLen haddr)) hnext (hf.storedLen hlen)

end Filled

@[simp] theorem length_masked (r : Request) (sa : SaRef) (off n : Nat) :
    (List.zipWith (· &&& ·) (r.field sa off n) (r.mask off n)).length = n := by
  rw [List.length_zipWith, length_mask, Request.field, Block.length_read, Nat.min_self]

/-- `cleanup_xaddrs_inet` reads destination and netmask before it looks at their lengths. -/
theorem inet_inBounds_iff (h : r.Sound len) (hdst : r.slots rtaxDst = some dst) :
    (Access.cleanupXaddrsInet dst r).All (Touch.InBounds len) ↔
      MaskCovers r 8 ∧ 8 ≤ (dst.len r.block).toNat ∧
        (16 ≤ (dst.len r.block).toNat → MaskCovers r 16 → GatewayFits r) := by
  have hold := h.holds _ dst hdst
  rw [Access.cleanupXaddrsInet, all_bind_of_res (Access.readMask_res 4 4), readMask_inBounds_iff h,
    all_bind_of_res (Access.readField_res 4 4), Access.readField_all, field_inBounds_iff hold,
    all_bind_of_res (Access.shorter_res sockaddrInSize (some dst)), ← hdst,
    and_iff_right (shorter_inBounds h sockaddrInSize rtaxDst), hdst]
  refine and_congr_right fun _ => and_congr_right fun _ => ?_
  split
  case _ hshort =>
    -- refused, but netmask and destination have been read
    rw [all_pure, true_iff]
    intro hcovers
    refine absurd hshort (not_shorter_iff.mpr fun sa hsa => ?_)
    cases hsa
    exact hcovers
  case _ hlong =>
    have hcovers : 16 ≤ (dst.len r.block).toNat := not_shorter_iff.mp hlong dst rfl
    rw [imp_iff_right hcovers]
    exact maskCheck_inBounds_iff h fun hmask =>
      filled_inBounds_iff h hdst inetBytes_fills (length_masked r dst 4 4) hcovers
        (length_mask r 4 4) hmask mask_some

theorem inet_ready (h : r.Ready len) (hdst : r.slots rtaxDst = some dst) :
    (cleanupXaddrsInet dst r).2.Ready len := by
  rw [cleanupXaddrsInet]
  split
  · exact h
  case _ hlong =>
    have hcovers : 16 ≤ (dst.len r.block).toNat := Nat.le_of_not_lt hlong
    split
    · exact h
    case _ hlong' =>
      exact filled_ready h hdst inetBytes_fills (length_masked r dst 4 4) hcovers
        (length_mask r 4 4) (not_shorter_iff.mp hlong') mask_some

theorem maskCovers_congr {r' : Request} (h : r.Sound len) (hsame : r.Same r' rtaxNetmask) (n : Nat) :
    MaskCovers r' n ↔ MaskCovers r n := by
  unfold MaskCovers
  rw [hsame.1]
  refine forall₂_congr fun sa hsa => ?_
  rw [hsame.len_eq hsa (h.holds _ sa hsa)]

/-- The destination is still there when it was masked, and as long as it was. -/
theorem masked_dst (h : r.Sound len) (hdst : r.slots rtaxDst = some dst)
    (hsin6 : 28 ≤ (dst.len r.block).toNat) (bs : List UInt8) :
    (r.store rtaxDst 8 bs).slots rtaxDst = some dst ∧
      dst.len (r.store rtaxDst 8 bs).block = dst.len r.block := by
  obtain ⟨hslot, hbyte, _, _⟩ := store_spec 8 bs hdst
  cases dst with
  | msg p => exact ⟨hslot, (hbyte 0).trans (Block.write_before (by decide))⟩
  | ext f =>
    -- `sa_zero` has 16 bytes
    have hlen : (SaRef.ext f).len r.block = 16 := h.holds _ _ hdst
    rw [hlen] at hsin6
    exact absurd hsin6 (by decide)

/-- `cleanup_xaddrs_inet6` masks the destination, too, before it looks at its length. -/
theorem inet6_inBounds_iff (h : r.Sound len) (hdst : r.slots rtaxDst = some dst)
    (hsin6 : 28 ≤ (dst.len r.block).toNat) :
    (Access.cleanupXaddrsInet6 dst r).All (Touch.InBounds len) ↔
      MaskCovers r 24 ∧ (MaskCovers r 28 → GatewayFits r) := by
  have hold := h.holds _ dst hdst
  rw [Access.cleanupXaddrsInet6, all_bind_of_res (Access.readMask_res 8 16), readMask_inBounds_iff h,
    all_bind_of_res (Access.readField_res 8 16), Access.readField_all, field_inBounds_iff hold,
    and_iff_right (by omega : 8 + 16 ≤ (dst.len r.block).toNat),
    all_bind_of_res (Access.store_res _ _ _), Access.store_all hdst, field_inBounds_iff hold]
  have hmasked := length_masked r dst 8 16
  generalize List.zipWith (· &&& ·) (r.field dst 8 16) (r.mask 8 16) = addr6 at hmasked ⊢
  -- the request with the masked destination is sound, and all that follows is about that one
  have hfit : 8 + addr6.length ≤ (dst.len r.block).toNat := by omega
  obtain ⟨hdst', hlen'⟩ := masked_dst h hdst hsin6 addr6
  obtain ⟨hsound, hsame⟩ := store_sound h hdst hfit (.inl (by decide))
  have hmask := hsame rtaxNetmask (by decide)
  have hgw := hsame rtaxGateway (by decide)
  rw [and_iff_right hfit, ← maskCovers_congr h hmask 28]
  refine and_congr_right fun _ => ?_
  rw [← gatewayFits_congr h hgw (store_lldata _ _ _ _)]
  have hsome : r.mask 8 16 ≠ List.replicate 16 0xff →
      ∃ sa, (r.store rtaxDst 8 addr6).slots rtaxNetmask = some sa := by
    rw [hmask.1]
    exact mask_some
  have hmasklen := length_mask r 8 16
  generalize r.mask 8 16 = mask at hsome hmasklen ⊢
  generalize r.store rtaxDst 8 addr6 = r' at hdst' hlen' hsound hsome ⊢
  have hcovers : 28 ≤ (dst.len r'.block).toNat := by rwa [hlen']
  rw [all_bind_of_res (Access.shorter_res _ _), ← hdst',
    and_iff_right (shorter_inBounds hsound sockaddrIn6Size rtaxDst), hdst', if_neg (by
      refine not_shorter_iff.mpr fun sa hsa => ?_
      cases hsa
      exact hcovers)]
  refine maskCheck_inBounds_iff hsound fun hcov => ?_
  rw [all_bind_of_res (Access.readField_res 8 16), Access.readField_all,
    field_inBounds_iff (hsound.holds _ dst hdst'), and_iff_right (by omega)]
  exact filled_inBounds_iff hsound hdst' inet6Bytes_fills hmasked hcovers hmasklen hcov hsome

theorem inet6_ready (h : r.Ready len) (hdst : r.slots rtaxDst = some dst)
    (hsin6 : 28 ≤ (dst.len r.block).toNat) : (cleanupXaddrsInet6 dst r).2.Ready len := by
  rw [cleanupXaddrsInet6]
  have hmasked := length_masked r dst 8 16
  dsimp only
  generalize List.zipWith (· &&& ·) (r.field dst 8 16) (r.mask 8 16) = addr6 at hmasked ⊢
  have hfit : 8 + addr6.length ≤ (dst.len r.block).toNat := by omega
  obtain ⟨hdst', hlen'⟩ := masked_dst h.toSound hdst hsin6 addr6
  have hsame := (store_sound h.toSound hdst hfit (.inl (by decide))).2 rtaxNetmask (by decide)
  have hready := store_ready h hdst hfit (.inl (by decide))
  have hsome : r.mask 8 16 ≠ List.replicate 16 0xff →
      ∃ sa, (r.store rtaxDst 8 addr6).slots rtaxNetmask = some sa := by
    rw [hsame.1]
    exact mask_some
  rw [← hsame.1]
  split
  · exact hready
  · split
    · exact hready
    case _ hlong =>
      have hcovers : 28 ≤ (dst.len (r.store rtaxDst 8 addr6).block).toNat := by rwa [hlen']
      exact filled_ready hready hdst' inet6Bytes_fills hmasked hcovers (length_mask r 8 16)
        (not_shorter_iff.mp hlong) hsome

/-- The request whose destination is looked at: with `RTF_LLDATA` it has no netmask. -/
def withoutLlMask (r : Request) : Request := if r.flags &&& rtfLldata ≠ 0 then removeNetmask r else r

variable (r) in
theorem withoutLlMask_spec :
    (withoutLlMask r).block = r.block ∧ (∀ j, j ≠ rtaxNetmask → r.Same (withoutLlMask r) j) ∧
      ((withoutLlMask r).Lldata ↔ r.Lldata) ∧
      ∀ n, MaskCovers (withoutLlMask r) n ↔ (¬ r.Lldata → MaskCovers r n) := by
  unfold withoutLlMask
  split
  case _ hll =>
    refine ⟨rfl, fun j hj => removeNetmask_same hj, removeNetmask_lldata r, fun n => ?_⟩
    refine iff_of_true (fun sa hsa => ?_) fun hnot => absurd hll hnot
    exact absurd hsa (by simp [removeNetmask])
  case _ hll =>
    exact ⟨rfl, fun j _ => ⟨rfl, fun _ _ _ _ => rfl⟩, Iff.rfl,
      fun n => (imp_iff_right hll).symm⟩

theorem withoutLlMask_ready (h : r.Ready len) : (withoutLlMask r).Ready len := by
  unfold withoutLlMask
  split
  · exact removeNetmask_ready h
  · exact h

/-- `cleanup_xaddrs` stays inside exactly when the addresses that it masks are there and a link-layer
gateway fits. -/
theorem cleanup_inBounds_iff (h : r.Ready len) (hdst : r.slots rtaxDst = some dst)
    (hsin6 : dst.family r.block = afInet6 → 28 ≤ (dst.len r.block).toNat) :
    (Access.cleanupXaddrs r).All (Touch.InBounds len) ↔ CleanFits r dst := by
  obtain ⟨hblock, hsame, hll, hcovers⟩ := withoutLlMask_spec r
  have hsound := (withoutLlMask_ready h).toSound
  have hdst' := (hsame rtaxDst (by decide)).1.trans hdst
  have hgw := gatewayFits_congr h.toSound (hsame rtaxGateway (by decide)) hll
  have hold := hsound.holds _ dst hdst'
  have hfamily : afInet6 ≠ afInet := by decide
  unfold Access.cleanupXaddrs
  rw [hdst]
  show (do
    let family ← Access.readByte (withoutLlMask r).block dst 1
    if family = afInet then Access.cleanupXaddrsInet dst (withoutLlMask r)
    else if family = afInet6 then Access.cleanupXaddrsInet6 dst (withoutLlMask r)
    else pure (eafnosupport, withoutLlMask r) : Traced Touch Outcome).All _ ↔ _
  rw [all_bind_of_res (Access.readByte_res 1), Access.readByte_all, field_inBounds_iff hold,
    and_iff_right hold.pos]
  show (if dst.family (withoutLlMask r).block = afInet then _ else _ : Traced Touch _).All _ ↔ _
  rw [hblock]
  split
  case _ hinet =>
    -- a netmask and a link-layer gateway exclude each other: `RTF_LLDATA` decides which one counts
    rw [inet_inBounds_iff hsound hdst', hcovers, hcovers, hblock, hgw]
    constructor
    · rintro ⟨hmask, haddr, hgate⟩
      refine ⟨fun _ => haddr, fun hnot _ => hmask hnot, fun _ h6 => ?_, fun hl hlong => ?_⟩
      · exact absurd (h6.symm.trans hinet) hfamily
      · obtain ⟨_, hlong⟩ | h6 := hlong
        · exact hgate hlong (fun hnot => absurd hl hnot) hl
        · exact absurd (h6.symm.trans hinet) hfamily
    · intro hfits
      exact ⟨fun hnot => hfits.mask hnot hinet, hfits.address hinet,
        fun hlong _ hl => hfits.gateway hl (.inl ⟨hinet, hlong⟩)⟩
  case _ hinet =>
    split
    case _ hinet6 =>
      rw [inet6_inBounds_iff hsound hdst' (by rw [hblock]; exact hsin6 hinet6), hcovers, hcovers, hgw]
      constructor
      · rintro ⟨hmask, hgate⟩
        refine ⟨fun h4 => absurd h4 hinet, fun _ h4 => absurd h4 hinet, fun hnot _ => hmask hnot,
          fun hl _ => hgate (fun hnot => absurd hl hnot) hl⟩
      · intro hfits
        exact ⟨fun hnot => hfits.mask6 hnot hinet6, fun _ hl => hfits.gateway hl (.inr hinet6)⟩
    case _ hinet6 =>
      -- a family that is refused: nothing but the family is read
      rw [all_pure, true_iff]
      refine ⟨fun h4 => absurd h4 hinet, fun _ h4 => absurd h4 hinet, fun _ h6 => absurd h6 hinet6,
        fun _ hlong => ?_⟩
      rcases hlong with ⟨h4, _⟩ | h6
      · exact absurd h4 hinet
      · exact absurd h6 hinet6

theorem cleanup_ready (h : r.Ready len) (hdst : r.slots rtaxDst = some dst)
    (hsin6 : dst.family r.block = afInet6 → 28 ≤ (dst.len r.block).toNat) :
    (cleanupXaddrs r).2.Ready len := by
  obtain ⟨hblock, hsame, _, _⟩ := withoutLlMask_spec r
  have hready := withoutLlMask_ready h
  have hdst' := (hsame rtaxDst (by decide)).1.trans hdst
  unfold cleanupXaddrs
  rw [hdst]
  show (if dst.family (withoutLlMask r).block = afInet then cleanupXaddrsInet dst (withoutLlMask r)
    else if dst.family (withoutLlMask r).block = afInet6 then cleanupXaddrsInet6 dst (withoutLlMask r)
    else (eafnosupport, withoutLlMask r)).2.Ready len
  rw [hblock]
  split
  · exact inet_ready hready hdst'
  · split
    case _ h6 => exact inet6_ready hready hdst' (by rw [hblock]; exact hsin6 h6)
    case _ => exact hready

end Clean

/-! ## The message -/

section Message

variable {len : Nat} {b b' : Bytes}

theorem Like.symm {sa : SaRef} (h : Like b b' sa) : Like b' b sa where
  len := h.len.symm
  family := h.family.symm
  bytes hnot k hk := (h.bytes (by rwa [← h.family]) k (by rwa [← h.len])).symm

theorem CleanFits.of_like {r r' : Request} {dst : SaRef} (h : CleanFits r dst)
    (hflags : r'.flags = r.flags) (hslots : r'.slots = r.slots) (hdst : r.slots rtaxDst = some dst)
    (hlike : ∀ i sa, r.slots i = some sa → Like r.block r'.block sa) : CleanFits r' dst := by
  have hll : r'.Lldata ↔ r.Lldata := by
    rw [Request.Lldata, hflags]
    exact Iff.rfl
  have hd := hlike _ dst hdst
  constructor
  · rw [hd.family, hd.len]
    exact h.address
  · rw [hll, hd.family, hslots]
    intro hnot h4 sa hsa
    rw [(hlike _ sa hsa).len]
    exact h.mask hnot h4 sa hsa
  · rw [hll, hd.family, hslots]
    intro hnot h6 sa hsa
    rw [(hlike _ sa hsa).len]
    exact h.mask6 hnot h6 sa hsa
  · rw [hll, hd.family, hd.len, hslots]
    intro hl hlong gw hgw
    exact (lladdrFits_congr (hlike _ gw hgw)).mpr (h.gateway hl hlong gw hgw)

theorem cleanFits_congr {r r' : Request} {dst : SaRef} (hflags : r'.flags = r.flags)
    (hslots : r'.slots = r.slots) (hdst : r.slots rtaxDst = some dst)
    (hlike : ∀ i sa, r.slots i = some sa → Like r.block r'.block sa) :
    CleanFits r' dst ↔ CleanFits r dst := by
  refine ⟨fun h => h.of_like hflags.symm hslots.symm (by rw [hslots]; exact hdst) ?_,
    fun h => h.of_like hflags hslots hdst hlike⟩
  intro i sa hi
  rw [hslots] at hi
  exact (hlike i sa hi).symm

theorem sound_of_like {r r' : Request} (h : r.Sound len) (hslots : r'.slots = r.slots)
    (hlike : ∀ i sa, r.slots i = some sa → Like r.block r'.block sa) : r'.Sound len := by
  have hlen : ∀ i p, r.slots i = some (.msg p) → r'.block p = r.block p :=
    fun i p hp => (hlike i _ hp).len
  refine ⟨fun i sa hi => ?_, fun i j hij sa sa' hi hj => ?_⟩
  · rw [hslots] at hi
    have hold := h.holds i sa hi
    cases sa with
    | ext f => exact hold
    | msg p =>
      show 2 ≤ (r'.block p).toNat ∧ p + (r'.block p).toNat ≤ len
      rw [hlen i p hi]
      exact hold
  · rw [hslots] at hi hj
    intro p q hp hq
    subst hp hq
    rw [hlen i p hi, hlen j q hj]
    exact h.apart i j hij _ _ hi hj p q rfl rfl

/-- A sockaddr that is found is `sa_zero` or lies behind the header. -/
theorem sent_slot {i : Nat} {sa : SaRef} (h : (sent len b).slots i = some sa) :
    (i, sa) ∈ (addresses len b).found ∧
      (sa = saZero ∨ ∃ p, sa = .msg p ∧ rtMsghdrSize ≤ p ∧ p + (b p).toNat ≤ len) := by
  obtain ⟨_, _, hfound, _⟩ := List.lookup_eq_some_iff.mp h
  have hmem : (i, sa) ∈ (addresses len b).found := by
    rw [hfound]
    exact List.mem_append_right _ List.mem_cons_self
  exact ⟨hmem, (walk_mem _ _ _ hmem).2⟩

theorem sent_apart {x y : Nat × SaRef} (hx : x ∈ (addresses len b).found)
    (hy : y ∈ (addresses len b).found) (hne : x ≠ y) : Apart b x.2 y.2 := by
  have hsymm : Std.Symm fun x y : Nat × SaRef => Apart b x.2 y.2 :=
    ⟨fun x y h p q hp hq => (h q p hq hp).symm⟩
  exact (walk_apart _ _).forall hx hy hne

/-- The request of a message whose heads fit is sound. -/
theorem sent_sound (h : ∀ x ∈ (addresses len b).found, HeadFits b x.2) : (sent len b).Sound len := by
  refine ⟨fun i sa hi => ?_, fun i j hij sa sa' hi hj => ?_⟩
  · obtain ⟨hmem, rfl | ⟨p, rfl, _, hend⟩⟩ := sent_slot hi
    · rfl
    · exact ⟨(h _ hmem).1, hend⟩
  · exact sent_apart (sent_slot hi).1 (sent_slot hj).1 (fun h => hij (congrArg Prod.fst h))

/-- What the parse leaves of the sockaddrs. -/
theorem parsed_like {info : RtInfo} {r : Bool × RtInfo × Bytes}
    (h : ∀ x ∈ (addresses len b).found, HeadFits b x.2) (hp : Parsed b info (addresses len b) r) :
    ∀ i sa, (sent len b).slots i = some sa → Like b r.2.2 sa := by
  intro i sa hi
  obtain ⟨hmem, rfl | ⟨p, rfl, _, hend⟩⟩ := sent_slot hi
  · exact ⟨rfl, rfl, fun _ _ _ => rfl⟩
  · -- a byte that changes belongs to the address or the scope id of this sockaddr
    have hkept : ∀ k < (b p).toNat, (b (p + 1) = afInet6 → k < 2) → r.2.2 (p + k) = b (p + k) := by
      intro k hk hpart
      by_contra hne
      obtain ⟨x, hx, q, hq, h6, hlo, hhi⟩ := hp.changes _ hne
      have hq28 : 28 ≤ (b q).toNat := by
        have hfits := h x hx
        rw [hq] at hfits
        exact hfits.2 h6
      rcases eq_or_ne p q with rfl | hpq
      · have := hpart h6
        omega
      · have hdiff : (i, SaRef.msg p) ≠ x := by
          rintro rfl
          exact hpq (SaRef.msg.inj hq)
        rcases sent_apart hmem hx hdiff p q rfl hq with hbefore | hafter
        · omega
        · omega
    have htwo : 2 ≤ (b p).toNat := (h _ hmem).1
    exact ⟨hkept 0 (by omega) fun _ => by decide, hkept 1 (by omega) fun _ => by decide,
      fun hnot k hk => hkept k hk fun h6 => absurd h6 hnot⟩

/-- The condition does not look at what changes in the header. -/
theorem messageFits_congr (hb : ∀ k, rtMsghdrSize ≤ k → b' k = b k) (haddrs : rtmAddrs b' = rtmAddrs b)
    (hflags : rtmFlags b' = rtmFlags b) : MessageFits len b' ↔ MessageFits len b := by
  have hwalk : addresses len b' = addresses len b := by
    rw [addresses, haddrs]
    exact walk_congr _ _ hb
  have hbyte : ∀ i sa, (i, sa) ∈ (addresses len b).found → ∀ k, sa.byte b' k = sa.byte b k := by
    intro i sa hmem k
    obtain ⟨_, hzero | ⟨p, hp, hle, _⟩⟩ := walk_mem _ _ _ hmem
    · have hzero' : sa = saZero := hzero
      rw [hzero']
      rfl
    · have hp' : sa = .msg p := hp
      rw [hp']
      exact hb (p + k) (by omega)
  have hlike : ∀ i sa, (i, sa) ∈ (addresses len b).found → Like b b' sa := fun i sa hmem =>
    ⟨hbyte i sa hmem 0, hbyte i sa hmem 1, fun _ k _ => hbyte i sa hmem k⟩
  have hslots : (sent len b').slots = (sent len b).slots := by
    show (fun i => (addresses len b').found.lookup i) = _
    rw [hwalk]
    rfl
  have hheads : (∀ x ∈ (addresses len b').found, HeadFits b' x.2) ↔
      ∀ x ∈ (addresses len b).found, HeadFits b x.2 := by
    rw [hwalk]
    refine forall₂_congr fun x hx => ?_
    rw [HeadFits, (hlike x.1 x.2 hx).len, (hlike x.1 x.2 hx).family]
    exact Iff.rfl
  have hclean : ∀ dst, (sent len b).slots rtaxDst = some dst →
      (CleanFits (sent len b') dst ↔ CleanFits (sent len b) dst) := fun dst hdst =>
    cleanFits_congr hflags hslots hdst fun i sa hi => hlike i sa (sent_slot hi).1
  constructor
  · rintro ⟨hh, hc⟩
    refine ⟨hheads.mp hh, fun hfits hlock dst hdst => (hclean dst hdst).mp ?_⟩
    exact hc (by rwa [hwalk]) (by rwa [hflags]) dst (by rwa [hslots])
  · rintro ⟨hh, hc⟩
    refine ⟨hheads.mpr hh, fun hfits hlock dst hdst => ?_⟩
    rw [hslots] at hdst
    exact (hclean dst hdst).mpr (hc (by rwa [← hwalk]) (by rwa [← hflags]) dst hdst)

/-- The end of `fill_addrinfo`, on a request that is still sound. -/
theorem accepted_inBounds {r : Request} (h : r.Ready len) (hlen : rtMsghdrSize ≤ len) (caller : Caller) :
    (do
      let _ ← Access.readFamily r rtaxDst
      emit (.header 3 1)
      if rtmType r.block ≠ rtmGet ∧ caller.privCheck ≠ 0 then pure (caller.privCheck, r)
      else
        let r' ← Access.markLocalGateway caller r
        pure (0, r') : Traced Touch Outcome).All (Touch.InBounds len) := by
  have hfamily : ∀ i sa, r.slots i = some sa → (Access.readFamily r i).All (Touch.InBounds len) := by
    intro i sa hi
    have hold := h.holds i sa hi
    exact (Access.readFamily_all hi).mpr ((field_inBounds_iff hold 1 1).mpr hold.pos)
  have htype : (Touch.header 3 1).InBounds len := Nat.le_trans (by decide) hlen
  have hlocal : (Access.markLocalGateway caller r).All (Touch.InBounds len) := by
    unfold Access.markLocalGateway
    cases hgw : r.slots rtaxGateway with
    | none => exact all_pure.mpr trivial
    | some gw =>
      refine all_bind.mpr ⟨hfamily _ gw hgw, fun family _ => ?_⟩
      split
      · exact all_pure.mpr trivial
      · exact all_pure.mpr trivial
  obtain ⟨dst, hdst⟩ := Option.isSome_iff_exists.mp h.dst
  refine all_bind.mpr ⟨hfamily _ dst hdst, fun _ _ => all_bind.mpr ⟨all_emit.mpr htype, fun _ _ => ?_⟩⟩
  split
  · exact all_pure.mpr trivial
  · exact all_bind.mpr ⟨hlocal, fun _ _ => all_pure.mpr trivial⟩

theorem messageFits_iff : MessageFits len b ↔
    (∀ x ∈ (addresses len b).found, HeadFits b x.2) ∧
      ((addresses len b).fits = true → rtmFlags b &&& rtfRnhLocked = 0 →
        ∀ dst, (sent len b).slots rtaxDst = some dst → CleanFits (sent len b) dst) :=
  ⟨fun h => ⟨h.heads, h.clean⟩, fun h => ⟨h.1, h.2⟩⟩

/-- After the parse. -/
theorem parsed_inBounds_iff (caller : Caller) (hlen : rtMsghdrSize ≤ len)
    {parse : Bool × RtInfo × Bytes} (h : ∀ x ∈ (addresses len b).found, HeadFits b x.2)
    (hp : Parsed b (fun _ => none) (addresses len b) parse)
    (hflags : rtmFlags parse.2.2 = rtmFlags b) :
    (if parse.1 = false then pure (einval, ⟨rtmAddrs b, 0, parse.2.1, parse.2.2⟩)
      else do
        emit (.header 8 4)
        if rtmFlags parse.2.2 &&& rtfRnhLocked ≠ 0 then
          pure (einval, ⟨rtmAddrs b, 0, parse.2.1, parse.2.2⟩)
        else
          let out ← Access.cleanupXaddrs ⟨rtmAddrs b, rtmFlags parse.2.2, parse.2.1, parse.2.2⟩
          if out.1 ≠ 0 then pure out
          else
            let _ ← Access.readFamily out.2 rtaxDst
            emit (.header 3 1)
            if rtmType out.2.block ≠ rtmGet ∧ caller.privCheck ≠ 0 then
              pure (caller.privCheck, out.2)
            else
              let r ← Access.markLocalGateway caller out.2
              pure (0, r) : Traced Touch Outcome).All (Touch.InBounds len) ↔
      ((addresses len b).fits = true → rtmFlags b &&& rtfRnhLocked = 0 →
        ∀ dst, (sent len b).slots rtaxDst = some dst → CleanFits (sent len b) dst) := by
  rw [← hp.fits, ← hflags]
  split
  case _ hbad => simp [hbad]
  case _ hfits =>
    have hflagsIn : (Touch.header 8 4).InBounds len := Nat.le_trans (by decide) hlen
    rw [all_bind_of_res res_emit, all_emit, and_iff_right hflagsIn,
      imp_iff_right (by simpa using hfits)]
    split
    case _ hlock => simp [hlock]
    case _ hlock =>
      rw [imp_iff_right (not_not.mp hlock), all_bind_of_res Access.cleanupXaddrs_res]
      have hslots : parse.2.1 = (sent len b).slots := by
        funext j
        rw [hp.slots j, Option.or_none]
        rfl
      have hlike := parsed_like h hp
      cases hdst : (sent len b).slots rtaxDst with
      | none =>
        -- EINVAL before anything is touched
        refine iff_of_true ?_ fun dst hsome => absurd hsome (by simp)
        rw [Access.cleanupXaddrs, cleanupXaddrs]
        dsimp only
        rw [hslots, hdst, if_pos (show einval ≠ 0 by decide)]
        exact ⟨all_pure.mpr trivial, all_pure.mpr trivial⟩
      | some dst =>
        have hready : Request.Ready len ⟨rtmAddrs b, rtmFlags parse.2.2, parse.2.1, parse.2.2⟩ := by
          refine ⟨sound_of_like (sent_sound h) hslots hlike, ?_⟩
          show (parse.2.1 rtaxDst).isSome = true
          rw [hslots, hdst]
          rfl
        have hdst' : parse.2.1 rtaxDst = some dst := by rw [hslots, hdst]
        have hd := hlike _ dst hdst
        have hsin6 : dst.family parse.2.2 = afInet6 → 28 ≤ (dst.len parse.2.2).toNat := by
          rw [hd.family, hd.len]
          exact (h _ (sent_slot hdst).1).2
        have hclean : CleanFits ⟨rtmAddrs b, rtmFlags parse.2.2, parse.2.1, parse.2.2⟩ dst ↔
            CleanFits (sent len b) dst := cleanFits_congr hflags hslots hdst hlike
        rw [cleanup_inBounds_iff hready hdst' hsin6, hclean]
        constructor
        · rintro ⟨hfit, _⟩ _ hsome
          cases hsome
          exact hfit
        · intro hfit
          refine ⟨hfit dst rfl, ?_⟩
          split
          · exact all_pure.mpr trivial
          · exact accepted_inBounds (cleanup_ready hready hdst' hsin6) hlen caller

/-- **The touches of `fill_addrinfo` are inside the message exactly when the message fits.** -/
theorem fillAddrinfo_inBounds_iff (sc : Scope6) (caller : Caller) (hlen : rtMsghdrSize ≤ len) :
    (Access.fillAddrinfo sc caller len b).All (Touch.InBounds len) ↔ MessageFits len b := by
  have hheader : ∀ off n, off + n ≤ rtMsghdrSize → (Touch.header off n).InBounds len :=
    fun off n h => Nat.le_trans h hlen
  have hbytes : (le32 caller.pid).length = 4 := rfl
  have haddrs : rtmAddrs (Block.write b 16 (le32 caller.pid)) = rtmAddrs b := by
    rw [rtmAddrs, Block.read_write_of_disjoint (.inl (by decide))]
    rfl
  have hflags : rtmFlags (Block.write b 16 (le32 caller.pid)) = rtmFlags b := by
    rw [rtmFlags, Block.read_write_of_disjoint (.inl (by decide))]
    rfl
  have hbehind : ∀ k, rtMsghdrSize ≤ k → Block.write b 16 (le32 caller.pid) k = b k := by
    intro k hk
    have hk' : 152 ≤ k := hk
    exact Block.write_after (by omega)
  rw [Access.fillAddrinfo, all_bind_of_res res_emit, all_emit,
    and_iff_right (hheader 16 4 (by decide)), all_bind_of_res res_emit, all_emit,
    and_iff_right (hheader 12 4 (by decide)), all_bind_of_res res_emit, all_emit,
    and_iff_right (hheader 32 8 (by decide)), ← messageFits_congr hbehind haddrs hflags]
  -- from here on the message has the caller's `rtm_pid`
  generalize Block.write b 16 (le32 caller.pid) = b₀
  rw [all_bind_of_res (Access.rtXaddrs_res _ _ _ _ _ _ _), rtXaddrs_inBounds_iff, messageFits_iff]
  refine and_congr_right fun hheads => ?_
  have hparsed : Parsed b₀ (fun _ => none) (addresses len b₀) (rtXaddrs sc len (rtmAddrs b₀)
      (List.range rtaxMax) rtMsghdrSize (fun _ => none) b₀) :=
    rtXaddrs_walk _ _ _ _ List.nodup_range hheads
  have hkept := (rtXaddrs_behind sc len (rtmAddrs b₀) (List.range rtaxMax) rtMsghdrSize
    (fun _ => none) b₀ (Nat.le_refl _) (by simp [Behind])).2
  refine parsed_inBounds_iff caller hlen hheads hparsed ?_
  rw [rtmFlags, rtmFlags, Block.read_congr fun k hk => hkept _ ?_]
  show 8 + k < 152
  omega

variable (b) in
/-- **A request is parsed and cleaned inside the message exactly when the message fits**; the log that
says so is the log of `fill_addrinfo`. -/
theorem request_is_inside_iff (sc : Scope6) (caller : Caller) (hlen : rtMsghdrSize ≤ len) :
    (Access.fillAddrinfo sc caller len b).res = some (fillAddrinfo sc caller len b) ∧
      ((Access.fillAddrinfo sc caller len b).All (Touch.InBounds len) ↔ MessageFits len b) :=
  ⟨Access.fillAddrinfo_res sc caller len b, fillAddrinfo_inBounds_iff sc caller hlen⟩

end Message

open Sample in
/-- A request for 10.0.0.5 is parsed and cleaned inside the message. -/
theorem plain_request_is_inside :
    (Access.fillAddrinfo scope caller 168 plain).All (Touch.InBounds 168) := by
  have hfound : (addresses 168 plain).found = [(0, .msg 152)] := rfl
  have hslots : ∀ i, (sent 168 plain).slots i = [(0, SaRef.msg 152)].lookup i := fun i =>
    congrArg (List.lookup i) hfound
  apply (request_is_inside_iff plain scope caller (by decide)).2.mpr
  refine ⟨fun x hx => ?_, fun _ _ dst hdst => ?_⟩
  · rw [hfound, List.mem_singleton] at hx
    subst hx
    show 2 ≤ (plain 152).toNat ∧ (plain 153 = afInet6 → 28 ≤ (plain 152).toNat)
    decide +kernel
  · rw [hslots] at hdst
    cases hdst
    have hmask : (sent 168 plain).slots rtaxNetmask = none := hslots rtaxNetmask
    have hgw : (sent 168 plain).slots rtaxGateway = none := hslots rtaxGateway
    refine ⟨fun _ => ?_, ?_, ?_, ?_⟩
    · show 8 ≤ (plain 152).toNat
      decide +kernel
    · simp [hmask]
    · simp [hmask]
    · simp [hgw]

open Sample in
/-- The destination is an AF_INET sockaddr of four bytes at the end of the message. Its address would
be the four bytes behind it. -/
theorem short_destination_is_read :
    ¬ ∀ (sc : Scope6) (caller : Caller) (len : Nat) (b : Bytes), rtMsghdrSize ≤ len →
      rtmMsglen b = len → (Access.fillAddrinfo sc caller len b).All (Touch.InBounds len) := by
  intro h
  have hinside := h scope caller 156 (request 1 [4, 2, 0, 0]) (by decide) (by decide +kernel)
  have hfits := (fillAddrinfo_inBounds_iff scope caller (by decide)).mp hinside
  have hclean := hfits.clean (by decide +kernel) (by decide +kernel) (.msg 152) rfl
  exact absurd (hclean.address (by decide +kernel)) (by decide +kernel)

end LazyBsd.Route
