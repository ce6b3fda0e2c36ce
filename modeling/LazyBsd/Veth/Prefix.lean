/-
# LazyBsd.Veth.Prefix — the netmasks of the IPv6 addresses.

A netmask of length `len` has the `len` leading bits of the address set. The mask that the two IPv6 functions
build is that of `prefix_length`, for every length up to 128. `lazybsd_veth_setvaddr6` reads
`prefix_length` too, where the configuration left the length for virtual addresses in `vip_prefix_length`;
so its requests carry the right mask only where both are the same.
-/
import LazyBsd.Veth.Request

namespace LazyBsd.Veth

open Lib

/-! ## Leading ones -/

/-- Bit `k` of an address, the most significant bit of the first byte being bit 0. -/
def maskBit (mask : In6Addr) (k : Fin 128) : Bool := (mask[k.val / 8]).toNat.testBit (7 - k.val % 8)

/-- The netmask of length `len`. -/
def LeadingOnes (len : Nat) (mask : In6Addr) : Prop := ∀ k : Fin 128, maskBit mask k = decide (k.val < len)

theorem testBit_partialByte :
    ∀ mod < 8, ∀ b < 8, (partialByte mod).toNat.testBit (7 - b) = decide (b < mod) := by
  decide

theorem testBit_ones : ∀ b < 8, (0xff : UInt8).toNat.testBit (7 - b) = true := by
  decide

/-- A mask has one length. -/
theorem LeadingOnes.unique {mask : In6Addr} {p v : Nat} (hp : LeadingOnes p mask) (hv : LeadingOnes v mask)
    (hple : p ≤ 128) (hvle : v ≤ 128) : p = v := by
  have hsame (k : Nat) (hk : k < 128) : k < p ↔ k < v :=
    decide_eq_decide.mp ((hp ⟨k, hk⟩).symm.trans (hv ⟨k, hk⟩))
  rcases Nat.lt_trichotomy p v with hlt | heq | hgt
  · have h := hsame p (by omega)
    omega
  · exact heq
  · have h := hsame v (by omega)
    omega

/-- The mask of both functions: `len / 8` bytes of ones, and the partial byte where `len` is no multiple
of 8. -/
theorem prefixmask_leadingOnes {len : UInt8} (h : len.toNat ≤ 128) :
    ∃ mask, prefixmask len = .ok mask ∧ LeadingOnes len.toNat mask := by
  -- Bit `k` lies in byte `k / 8`: among the ones, the partial byte itself, or behind it.
  have hones (k : Fin 128) (hk : k.val / 8 < len.toNat / 8) :
      (0xff : UInt8).toNat.testBit (7 - k.val % 8) = decide (k.val < len.toNat) := by
    rw [testBit_ones _ (Nat.mod_lt _ (by omega)), decide_eq_true (by omega)]
  have hzero (k : Fin 128) (hk : ¬ k.val < len.toNat) :
      (0 : UInt8).toNat.testBit (7 - k.val % 8) = decide (k.val < len.toNat) := by
    rw [decide_eq_false hk]
    exact Nat.zero_testBit _
  have hbytes : len.toNat / 8 ≤ 16 := by omega
  rw [prefixmask]
  simp only [if_pos hbytes]
  by_cases hmod : len.toNat % 8 = 0
  · refine ⟨_, if_neg (not_not.mpr hmod), ?_⟩
    intro k
    rw [maskBit, Vector.getElem_ofFn]
    by_cases hk : k.val / 8 < len.toNat / 8
    · rw [if_pos hk]
      exact hones k hk
    · rw [if_neg hk]
      exact hzero k (by omega)
  · have hlt : len.toNat / 8 < 16 := by omega
    rw [if_pos hmod, dif_pos hlt]
    refine ⟨_, rfl, ?_⟩
    intro k
    rw [maskBit, Vector.getElem_set]
    rcases Nat.lt_trichotomy (k.val / 8) (len.toNat / 8) with hk | hk | hk
    · rw [if_neg (Nat.ne_of_gt hk), Vector.getElem_ofFn, if_pos hk]
      exact hones k hk
    · rw [if_pos hk.symm, testBit_partialByte _ (Nat.mod_lt _ (by omega)) _ (Nat.mod_lt _ (by omega))]
      exact decide_eq_decide.mpr (by omega)
    · rw [if_neg (Nat.ne_of_lt hk), Vector.getElem_ofFn, if_neg (Nat.not_lt_of_gt hk)]
      exact hzero k (by omega)

/-! ## The requests of a configuration -/

/-- The virtual addresses get their own prefix, and the address of the interface gets its. -/
structure OwnPrefixes (inetPton : InetPton) (cfg : PortCfg) (sc : Softc) : Prop where
  vaddrs : ∀ reply : Nat → Int, (∀ i, reply i = 0) →
    ∃ reqs ret, setvaddr6 reply sc cfg = .ok (reqs, ret) ∧
      reqs.map (fun req => req.ifraAddr.sin6Addr) = cfg.vips6 inetPton ∧
        ∀ req ∈ reqs, LeadingOnes (prefixOr64 cfg.vipPrefixLen).toNat req.ifraPrefixmask.sin6Addr
  interface : cfg.addr6Str.isSome → ∀ reply,
    ∃ req, setaddr6 reply sc = .ok (req, reply) ∧ req.ifraAddr.sin6Addr = sc.ip6 ∧
      LeadingOnes (prefixOr64 cfg.prefixLen).toNat req.ifraPrefixmask.sin6Addr

section Requests

variable {inetPton : InetPton} {cfg : PortCfg}

theorem prefixOr64_le {len : UInt8} (h : len ≤ 128) : (prefixOr64 len).toNat ≤ 128 := by
  rw [prefixOr64]
  split
  · decide
  · exact UInt8.le_iff_toNat_le.mp h

theorem prefixOr64_ne_zero (len : UInt8) : prefixOr64 len ≠ 0 := by
  rw [prefixOr64]
  split
  · decide
  · assumption

variable (inetPton) in
/-- The length from which both functions take their mask. -/
theorem prefixLength_configured_le (h : cfg.prefixLen ≤ 128) :
    (configured inetPton cfg).prefixLength.toNat ≤ 128 := by
  show (if cfg.addr6Str.isSome then prefixOr64 cfg.prefixLen else 0).toNat ≤ 128
  split
  · exact prefixOr64_le h
  · decide

/-- What `lazybsd_veth_setvaddr6` asks for: each address once, with the mask of `prefix_length`. -/
theorem setvaddr6_configured (reply : Nat → Int) (hfits : Fits inetPton cfg) (hp : cfg.prefixLen ≤ 128)
    (hreply : ∀ i, reply i = 0) :
    ∃ mask ret, LeadingOnes (configured inetPton cfg).prefixLength.toNat mask ∧
      setvaddr6 reply (configured inetPton cfg) cfg =
        .ok ((cfg.vips6 inetPton).map
          (fun vip => in6Request (aliasName (configured inetPton cfg) cfg) vip mask), ret) := by
  obtain ⟨mask, hmask, hones⟩ := prefixmask_leadingOnes (prefixLength_configured_le inetPton hp)
  obtain ⟨ret, hloop⟩ := aliasLoop_all
    (fun vip => in6Request (aliasName (configured inetPton cfg) cfg) vip mask) In6Addr.zero
    (fun i => Int.le_of_eq (hreply i).symm) hfits.room6
  refine ⟨mask, ret, hones, ?_⟩
  rw [setvaddr6, hmask]
  exact hloop

variable (inetPton) in
theorem setaddr6_configured (hp : cfg.prefixLen ≤ 128) (reply : Int) :
    ∃ req, setaddr6 reply (configured inetPton cfg) = .ok (req, reply) ∧
      req.ifraAddr.sin6Addr = (configured inetPton cfg).ip6 ∧
        LeadingOnes (configured inetPton cfg).prefixLength.toNat req.ifraPrefixmask.sin6Addr := by
  obtain ⟨mask, hmask, hones⟩ := prefixmask_leadingOnes (prefixLength_configured_le inetPton hp)
  refine ⟨in6Request (configured inetPton cfg).hostIfname (configured inetPton cfg).ip6 mask, ?_, rfl, hones⟩
  rw [setaddr6, hmask]
  rfl

theorem prefixLength_configured (h : cfg.addr6Str.isSome) :
    (configured inetPton cfg).prefixLength = prefixOr64 cfg.prefixLen := if_pos h

end Requests

/-- **The prefix of the virtual addresses.** The requests carry the right masks exactly if there is no
virtual address to ask for, or the interface has an address with the same length of prefix. -/
theorem own_prefixes_iff (inetPton : InetPton) (cfg : PortCfg) (hp : cfg.prefixLen ≤ 128)
    (hv : cfg.vipPrefixLen ≤ 128) :
    (∃ sc, vethConfig inetPton (attached cfg) cfg = .ok sc ∧ OwnPrefixes inetPton cfg sc) ↔
      Fits inetPton cfg ∧
        (cfg.vips6 inetPton = [] ∨
          cfg.addr6Str.isSome ∧ prefixOr64 cfg.prefixLen = prefixOr64 cfg.vipPrefixLen) := by
  simp only [vethConfig_eq_ok, and_assoc, exists_and_left, exists_eq_left']
  refine and_congr_right fun hfits => ⟨fun h => ?_, fun h => ⟨fun reply hreply => ?_, fun haddr reply => ?_⟩⟩
  · -- The first request has one mask, of both lengths.
    obtain ⟨mask, ret, hones, hrun⟩ := setvaddr6_configured (fun _ => 0) hfits hp fun _ => rfl
    obtain ⟨reqs, ret', hrun', -, hmasks⟩ := h.vaddrs (fun _ => 0) fun _ => rfl
    obtain ⟨rfl, -⟩ := Prod.mk.inj (Except.ok.inj (hrun.symm.trans hrun'))
    refine or_iff_not_imp_left.mpr fun hne => ?_
    obtain ⟨vip, hvip⟩ := List.exists_mem_of_ne_nil _ hne
    have hboth := hones.unique (hmasks _ (List.mem_map_of_mem hvip)) (prefixLength_configured_le inetPton hp)
      (prefixOr64_le hv)
    have hlen : (configured inetPton cfg).prefixLength = prefixOr64 cfg.vipPrefixLen := UInt8.toNat_inj.mp hboth
    by_cases haddr : cfg.addr6Str.isSome
    · exact ⟨haddr, (prefixLength_configured haddr).symm.trans hlen⟩
    · have hzero : (configured inetPton cfg).prefixLength = 0 := if_neg haddr
      exact absurd (hlen.symm.trans hzero) (prefixOr64_ne_zero _)
  · obtain ⟨mask, ret, hones, hrun⟩ := setvaddr6_configured reply hfits hp hreply
    refine ⟨_, ret, hrun, ?_, ?_⟩
    · rw [List.map_map]
      exact List.map_id _
    · intro req hreq
      obtain ⟨vip, hvip, rfl⟩ := List.mem_map.mp hreq
      rcases h with hnil | ⟨haddr, hlen⟩
      · rw [hnil] at hvip
        exact absurd hvip List.not_mem_nil
      · rw [prefixLength_configured haddr, hlen] at hones
        exact hones
  · obtain ⟨req, hrun, hip, hones⟩ := setaddr6_configured inetPton hp reply
    rw [prefixLength_configured haddr] at hones
    exact ⟨req, hrun, hip, hones⟩

/-- A port with the address `fd00::1`, the virtual address `fd00::2` and the prefixes `p` and `v`. -/
def twoPrefixes (p v : UInt8) : PortCfg :=
  { sameVips 0 (by decide) with
    addr6Str := some "fd00::1".toList
    prefixLen := p
    vipAddr6Array := ["fd00::2".toList]
    vipPrefixLen := v
    nbVip6_lt := by decide }

def fd00 (last : UInt8) : In6Addr := #v[0xfd, 0, 0, 0, 0, 0, 0, 0, 0, 0, 0, 0, 0, 0, 0, last]

/-- The addresses of `twoPrefixes`, as `inet_pton` reads them. -/
def samplePton6 : InetPton where
  v4 := samplePton.v4
  v6 str :=
    if str = "fd00::1".toList then some (fd00 1)
    else if str = "fd00::2".toList then some (fd00 2)
    else none

theorem own_prefixes_default :
    ∃ sc, vethConfig samplePton6 (attached (twoPrefixes 64 0)) (twoPrefixes 64 0) = .ok sc ∧
      OwnPrefixes samplePton6 (twoPrefixes 64 0) sc :=
  (own_prefixes_iff samplePton6 (twoPrefixes 64 0) (by decide) (by decide)).mpr
    ⟨⟨by decide, by decide, by decide, by decide⟩, .inr ⟨rfl, rfl⟩⟩

/-- A virtual address with a prefix of 128 bits is asked for with the 64 bits of the interface: bit 64 of
its mask is not set. -/
theorem own_prefix_ignored :
    ¬ ∃ sc, vethConfig samplePton6 (attached (twoPrefixes 64 128)) (twoPrefixes 64 128) = .ok sc ∧
      OwnPrefixes samplePton6 (twoPrefixes 64 128) sc := by
  rintro ⟨sc, hconfig, h⟩
  obtain ⟨-, rfl⟩ := vethConfig_eq_ok.mp hconfig
  have hsent : setvaddr6 (fun _ => 0) (configured samplePton6 (twoPrefixes 64 128)) (twoPrefixes 64 128) =
      .ok ([in6Request "lazybsd-0".toList (fd00 2)
        (#v[0xff, 0xff, 0xff, 0xff, 0xff, 0xff, 0xff, 0xff, 0, 0, 0, 0, 0, 0, 0, 0])], some 0) := rfl
  obtain ⟨reqs, ret, hrun, -, hmasks⟩ := h.vaddrs (fun _ => 0) fun _ => rfl
  obtain ⟨rfl, -⟩ := Prod.mk.inj (Except.ok.inj (hsent.symm.trans hrun))
  exact Bool.noConfusion (hmasks _ (List.mem_singleton_self _) 64)

end LazyBsd.Veth
