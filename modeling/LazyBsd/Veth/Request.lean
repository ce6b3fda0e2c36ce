/-
# LazyBsd.Veth.Request — the alias requests of `lazybsd_veth.c`.

`lazybsd_veth_setvaddr` and `lazybsd_veth_setvaddr6` hand one `ifioctl` request to the kernel for each
virtual address of the `softc`; `lazybsd_veth_setaddr6` hands over one for the address of the interface. A
request is prepared once and its address replaced in each turn, so the netmask of all the requests of a loop
is the one that was written before it. In both IPv6 functions that mask comes from `prefix_length`.
-/
import LazyBsd.Veth.Config

namespace LazyBsd.Veth

open Lib
open LazyBsd.Filter (CString)

def AF_INET : UInt8 := 2

def AF_INET6 : UInt8 := 28

def ND6_INFINITE_LIFETIME : UInt32 := 0xffffffff

/-- A `struct sockaddr_in`; the rest of it stays zero. -/
structure SockaddrIn where
  sinLen : UInt8
  sinFamily : UInt8
  sinAddr : UInt32

/-- A `struct in_aliasreq`. -/
structure InAliasreq where
  ifraName : CString
  ifraAddr : SockaddrIn
  ifraMask : SockaddrIn
  ifraBroadaddr : SockaddrIn

/-- A `struct sockaddr_in6`; the rest of it stays zero. -/
structure SockaddrIn6 where
  sin6Len : UInt8
  sin6Family : UInt8
  sin6Addr : In6Addr

/-- What is written of a `struct in6_aliasreq`. -/
structure In6Aliasreq where
  ifraName : CString
  ifraAddr : SockaddrIn6
  ifraPrefixmask : SockaddrIn6
  pltime : UInt32
  vltime : UInt32

/-! ## The loops -/

section Loop

variable {α ρ : Type}

/-- The loop over the addresses from the index `i`, `n` turns before its end: the requests it hands to
`ifioctl`, and the last value of `ret`, which no turn has set at first. `reply i` is what the `i`-th call
returns; a negative value ends the loop. -/
def aliasLoop (reply : Nat → Int) (request : α → ρ) (vip : Vector α VIP_MAX_NUM) :
    Nat → Nat → Option Int → Except Fault (List ρ × Option Int)
  | 0, _, ret => .ok ([], ret)
  | n + 1, i, _ =>
      if h : i < VIP_MAX_NUM then
        if reply i < 0 then .ok ([request vip[i]], some (reply i))
        else do
          let (reqs, ret) ← aliasLoop reply request vip n (i + 1) (some (reply i))
          return (request vip[i] :: reqs, ret)
      else .error .outOfBounds

end Loop

/-- `strlcpy(dst, src, IFNAMSIZ)` of the name: `vip_ifname`, or the name of the interface. -/
def aliasName (sc : Softc) (cfg : PortCfg) : CString :=
  (cfg.vipIfname.getD sc.hostIfname).take (IFNAMSIZ - 1)

/-- The request of one turn of `lazybsd_veth_setvaddr`. -/
def vaddrRequest (sc : Softc) (cfg : PortCfg) (vip : UInt32) : InAliasreq where
  ifraName := aliasName sc cfg
  ifraAddr := ⟨16, AF_INET, vip⟩
  ifraMask := ⟨16, AF_INET, 0xFFFFFFFF⟩
  ifraBroadaddr := ⟨16, AF_INET, vip ||| 0xFF000000⟩

/-- `lazybsd_veth_setvaddr`. -/
def setvaddr (reply : Nat → Int) (sc : Softc) (cfg : PortCfg) : Except Fault (List InAliasreq × Option Int) :=
  aliasLoop reply (vaddrRequest sc cfg) sc.vip sc.nbVip.toNat 0 none

/-! ## The netmask -/

/-- The byte behind the bytes of ones: `((1 << mod) - 1) << (8 - mod)`. -/
def partialByte (mod : Nat) : UInt8 := UInt8.ofNat (((1 <<< mod) - 1) <<< (8 - mod))

/-- The netmask that both IPv6 functions write into the zeroed request, from `prefix_length`. -/
def prefixmask (prefixLength : UInt8) : Except Fault In6Addr :=
  let bytes := prefixLength.toNat / 8
  let mod := prefixLength.toNat % 8
  if bytes ≤ 16 then
    let mask : In6Addr := Vector.ofFn fun i => if i.val < bytes then 0xff else 0
    if mod ≠ 0 then
      if h : bytes < 16 then .ok (mask.set bytes (partialByte mod) h) else .error .outOfBounds
    else .ok mask
  else .error .outOfBounds

/-- The request that both functions prepare, for the name `name`. -/
def in6Request (name : CString) (addr : In6Addr) (mask : In6Addr) : In6Aliasreq where
  ifraName := name
  ifraAddr := ⟨28, AF_INET6, addr⟩
  ifraPrefixmask := ⟨28, 0, mask⟩
  pltime := ND6_INFINITE_LIFETIME
  vltime := ND6_INFINITE_LIFETIME

/-- `lazybsd_veth_setaddr6`: the request and `ret`. -/
def setaddr6 (reply : Int) (sc : Softc) : Except Fault (In6Aliasreq × Int) := do
  let mask ← prefixmask sc.prefixLength
  return (in6Request sc.hostIfname sc.ip6 mask, reply)

/-- The loop of `lazybsd_veth_setvaddr6`, over the prepared request `ifr6`. -/
def setvaddr6Loop (reply : Nat → Int) (sc : Softc) (ifr6 : In6Aliasreq) :
    Except Fault (List In6Aliasreq × Option Int) :=
  aliasLoop reply (fun vip => { ifr6 with ifraAddr := { ifr6.ifraAddr with sin6Addr := vip } })
    sc.vip6 sc.nbVip6.toNat 0 none

/-- `lazybsd_veth_setvaddr6`. -/
def setvaddr6 (reply : Nat → Int) (sc : Softc) (cfg : PortCfg) :
    Except Fault (List In6Aliasreq × Option Int) := do
  let mask ← prefixmask sc.prefixLength
  setvaddr6Loop reply sc (in6Request (aliasName sc cfg) In6Addr.zero mask)

/-! ## Each address once -/

section Requests

variable {α ρ : Type} {reply : Nat → Int} {request : α → ρ} {l : List α} {z : α}

/-- While no call fails, the loop hands over the addresses that the table holds from `i` on, in order. -/
theorem aliasLoop_tableOf (hreply : ∀ i, 0 ≤ reply i) (hroom : l.length ≤ VIP_MAX_NUM) {i n : Nat}
    (hn : i + n = l.length) (ret : Option Int) :
    ∃ ret', aliasLoop reply request (tableOf VIP_MAX_NUM z l) n i ret = .ok ((l.drop i).map request, ret') := by
  induction n generalizing i ret with
  | zero =>
      have hend : l.drop i = [] := List.drop_eq_nil_of_le (by omega)
      exact ⟨ret, by rw [hend]; rfl⟩
  | succ n ih =>
      obtain ⟨ret', hrest⟩ := ih (i := i + 1) (by omega) (some (reply i))
      have hi : i < l.length := by omega
      have hlt : i < VIP_MAX_NUM := by omega
      have hcell : (tableOf VIP_MAX_NUM z l)[i] = l[i] := by
        rw [getElem_tableOf, List.getD_eq_getElem _ _ hi]
      refine ⟨ret', ?_⟩
      rw [aliasLoop, dif_pos hlt, if_neg (by simpa using hreply i), hrest, hcell,
        List.drop_eq_getElem_cons hi]
      rfl

/-- A list that fits is counted by a `uint8_t`. -/
theorem toNat_count (hroom : l.length ≤ VIP_MAX_NUM) : (UInt8.ofNat l.length).toNat = l.length := by
  rw [UInt8.toNat_ofNat']
  exact Nat.mod_eq_of_lt (by rw [VIP_MAX_NUM] at hroom; omega)

variable (request z) in
theorem aliasLoop_all (hreply : ∀ i, 0 ≤ reply i) (hroom : l.length ≤ VIP_MAX_NUM) :
    ∃ ret, aliasLoop reply request (tableOf VIP_MAX_NUM z l) (UInt8.ofNat l.length).toNat 0 none =
      .ok (l.map request, ret) := by
  rw [toNat_count hroom]
  exact aliasLoop_tableOf hreply hroom (Nat.zero_add _) none

end Requests

/-! ## The virtual address lists -/

/-- An array and its counter hold the addresses `valid`, in order, as far as the array has room, and nothing
else. -/
def Stores {α : Type} (vip : Vector α VIP_MAX_NUM) (nbVip : UInt8) (zero : α) (valid : List α) : Prop :=
  nbVip.toNat = (valid.take VIP_MAX_NUM).length ∧
    ∀ i (h : i < VIP_MAX_NUM), vip[i] = (valid.take VIP_MAX_NUM).getD i zero

/-- The interface holds the valid addresses of its configuration, and the later loops configure each of
them once. -/
structure ListsConfigured (inetPton : InetPton) (cfg : PortCfg) (sc : Softc) : Prop where
  stores : Stores sc.vip sc.nbVip 0 (cfg.vips inetPton)
  stores6 : Stores sc.vip6 sc.nbVip6 In6Addr.zero (cfg.vips6 inetPton)
  requests : ∀ reply : Nat → Int, (∀ i, 0 ≤ reply i) →
    ∃ reqs ret, setvaddr reply sc cfg = .ok (reqs, ret) ∧
      reqs.map (fun req => req.ifraAddr.sinAddr) = (cfg.vips inetPton).take VIP_MAX_NUM
  requests6 : ∀ (reply : Nat → Int) (ifr6 : In6Aliasreq), (∀ i, 0 ≤ reply i) →
    ∃ reqs ret, setvaddr6Loop reply sc ifr6 = .ok (reqs, ret) ∧
      reqs.map (fun req => req.ifraAddr.sin6Addr) = (cfg.vips6 inetPton).take VIP_MAX_NUM

section Lists

variable {inetPton : InetPton} {cfg : PortCfg}

theorem stores_tableOf {α : Type} {z : α} {l : List α} (hroom : l.length ≤ VIP_MAX_NUM) :
    Stores (tableOf VIP_MAX_NUM z l) (UInt8.ofNat l.length) z l := by
  rw [Stores, List.take_of_length_le hroom]
  exact ⟨toNat_count hroom, fun i hi => getElem_tableOf hi⟩

theorem listsConfigured_configured (h : Fits inetPton cfg) :
    ListsConfigured inetPton cfg (configured inetPton cfg) where
  stores := stores_tableOf h.room
  stores6 := stores_tableOf h.room6
  requests reply hreply := by
    obtain ⟨ret, hloop⟩ := aliasLoop_all (vaddrRequest (configured inetPton cfg) cfg) 0 hreply h.room
    refine ⟨_, ret, hloop, ?_⟩
    rw [List.map_map, List.take_of_length_le h.room]
    exact List.map_id _
  requests6 reply ifr6 hreply := by
    obtain ⟨ret, hloop⟩ := aliasLoop_all
      (fun vip => { ifr6 with ifraAddr := { ifr6.ifraAddr with sin6Addr := vip } }) In6Addr.zero hreply h.room6
    refine ⟨_, ret, hloop, ?_⟩
    rw [List.map_map, List.take_of_length_le h.room6]
    exact List.map_id _

end Lists

/-- **The lists of virtual addresses.** `lazybsd_veth_config` stores the valid addresses, and no loop leaves
its array, exactly if the lists fit: the arrays have room for the valid addresses, and an `int` counts the
strings. -/
theorem lists_configured_iff_fits (inetPton : InetPton) (cfg : PortCfg) :
    (∃ sc, vethConfig inetPton (attached cfg) cfg = .ok sc ∧ ListsConfigured inetPton cfg sc) ↔
      Fits inetPton cfg := by
  constructor
  · rintro ⟨sc, hconfig, -⟩
    exact (vethConfig_eq_ok.mp hconfig).1
  · intro h
    exact ⟨_, vethConfig_eq_ok.mpr ⟨h, rfl⟩, listsConfigured_configured h⟩

theorem no_strings_lt : ([] : List CString).length < 0x100000000 := by
  simp

/-- A port with `n` times the same virtual address. -/
def sameVips (n : Nat) (hn : n < 0x100000000) : PortCfg where
  ifname := none
  portId := 0
  mac := Vector.replicate 6 2
  addr := "10.0.0.1".toList
  netmask := "255.0.0.0".toList
  broadcast := "10.255.255.255".toList
  gateway := "10.0.0.254".toList
  vipIfname := none
  vipAddrArray := List.replicate n "10.0.0.1".toList
  addr6Str := none
  gateway6Str := none
  prefixLen := 0
  vipAddr6Array := []
  vipPrefixLen := 0
  nbVip_lt := by rwa [List.length_replicate]
  nbVip6_lt := no_strings_lt

/-- The addresses of `sameVips`, as `inet_pton` reads them. -/
def samplePton : InetPton where
  v4 str :=
    if str = "10.0.0.1".toList then some 0x0100000a
    else if str = "255.0.0.0".toList then some 0x000000ff
    else if str = "10.255.255.255".toList then some 0xffffff0a
    else if str = "10.0.0.254".toList then some 0xfe00000a
    else none
  v6 _ := none

/-- The sixty-fifth valid address is stored behind the array. -/
theorem sixty_five_overrun :
    let cfg := sameVips 65 (by decide)
    vethConfig samplePton (attached cfg) cfg = .error .outOfBounds ∧
      ¬ ∃ sc, vethConfig samplePton (attached cfg) cfg = .ok sc ∧ ListsConfigured samplePton cfg sc := by
  have hrun : vethConfig samplePton (attached (sameVips 65 (by decide))) (sameVips 65 (by decide)) =
      .error .outOfBounds := rfl
  refine ⟨hrun, ?_⟩
  rintro ⟨sc, hconfig, -⟩
  rw [hrun] at hconfig
  simp only [reduceCtorEq] at hconfig

end LazyBsd.Veth
