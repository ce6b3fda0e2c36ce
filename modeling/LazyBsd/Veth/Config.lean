/-
# LazyBsd.Veth.Config — `lazybsd_veth_config` of `lazybsd_veth.c`.

The configuration of a port becomes the addresses in the `softc` of its interface. The two lists of virtual
addresses are compacted into two arrays of `VIP_MAX_NUM` entries: the loop over the strings stores each
address that `inet_pton` reads at the running index `j`, and goes on at the same index where it reads none.
Nothing compares `j` with the size of the array, and the index `i` is an `int` that is compared with a
`uint32_t`. `Fault` names what a C program may not do; the loop ends in one where it stores behind the
array or counts past `INT_MAX`.
-/
import LazyBsd.Lib.Fallible
import LazyBsd.Lib.Table
import LazyBsd.Filter.PortList

namespace LazyBsd.Veth

open Lib
open LazyBsd.Filter (CString)

/-! ## The port configuration and the interface -/

def VIP_MAX_NUM : Nat := 64

/-- `IFNAMSIZ`, and `IF_NAMESIZE`. -/
def IFNAMSIZ : Nat := 16

def INT_MAX : Nat := 0x7fffffff

/-- A `struct in6_addr`. -/
abbrev In6Addr := Vector UInt8 16

def In6Addr.zero : In6Addr := Vector.replicate 16 0

/-- `inet_pton` of the C library, for the two families. It returns 1 and stores the address, or returns 0
and leaves the destination as it was. -/
structure InetPton where
  v4 : CString → Option UInt32
  v6 : CString → Option In6Addr

/-- What of `struct lazybsd_port_cfg` the interface reads. A list has as many entries as a `uint32_t`
counts. -/
structure PortCfg where
  ifname : Option CString
  portId : UInt8
  mac : Vector UInt8 6
  addr : CString
  netmask : CString
  broadcast : CString
  gateway : CString
  vipIfname : Option CString
  vipAddrArray : List CString
  addr6Str : Option CString
  gateway6Str : Option CString
  prefixLen : UInt8
  vipAddr6Array : List CString
  vipPrefixLen : UInt8
  nbVip_lt : vipAddrArray.length < 0x100000000
  nbVip6_lt : vipAddr6Array.length < 0x100000000

/-- `struct lazybsd_veth_softc`. -/
structure Softc where
  mac : Vector UInt8 6
  hostIfname : CString
  ip : UInt32
  netmask : UInt32
  broadcast : UInt32
  gateway : UInt32
  nbVip : UInt8
  vip : Vector UInt32 VIP_MAX_NUM
  ip6 : In6Addr
  gateway6 : In6Addr
  prefixLength : UInt8
  nbVip6 : UInt8
  vipPrefixLength : UInt8
  vip6 : Vector In6Addr VIP_MAX_NUM

/-- What the code does where C gives it no meaning. -/
inductive Fault where
  /-- A store or a read outside an array. -/
  | outOfBounds
  /-- An `int` that is counted past `INT_MAX`. -/
  | intOverflow
  deriving DecidableEq, Repr

/-- The zeroed `softc` of `lazybsd_veth_attach`, with its name: the configured one, or `LAZYBSD_IF_NAME` of
the port. -/
def attached (cfg : PortCfg) : Softc where
  mac := Vector.replicate 6 0
  hostIfname := (cfg.ifname.getD ("lazybsd-".toList ++ Nat.toDigits 10 cfg.portId.toNat)).take (IFNAMSIZ - 1)
  ip := 0
  netmask := 0
  broadcast := 0
  gateway := 0
  nbVip := 0
  vip := Vector.replicate VIP_MAX_NUM 0
  ip6 := In6Addr.zero
  gateway6 := In6Addr.zero
  prefixLength := 0
  nbVip6 := 0
  vipPrefixLength := 0
  vip6 := Vector.replicate VIP_MAX_NUM In6Addr.zero

/-! ## `lazybsd_veth_config` -/

section Loop

variable {α : Type}

/-- The body of a loop over the strings: the table and the index `j` after the string `str`. -/
def vipStore (pton : CString → Option α) (str : CString) (vip : Vector α VIP_MAX_NUM) (j : Nat) :
    Except Fault (Vector α VIP_MAX_NUM × Nat) :=
  match pton str with
  | none => .ok (vip, j)
  | some a => if h : j < VIP_MAX_NUM then .ok (vip.set j a h, j + 1) else .error .outOfBounds

/-- The loop from the index `i`, with the strings that are left. -/
def vipLoop (pton : CString → Option α) :
    List CString → Nat → Vector α VIP_MAX_NUM → Nat → Except Fault (Vector α VIP_MAX_NUM × Nat)
  | [], _, vip, j => .ok (vip, j)
  | str :: strs, i, vip, j => do
      let (vip, j) ← vipStore pton str vip j
      if i < INT_MAX then vipLoop pton strs (i + 1) vip j else .error .intOverflow

end Loop

/-- A configured length, 64 where it is zero. -/
def prefixOr64 (len : UInt8) : UInt8 := if len = 0 then 64 else len

/-- What is read before the lists. -/
def configAddr (inetPton : InetPton) (sc : Softc) (cfg : PortCfg) : Softc :=
  { sc with
    mac := cfg.mac
    ip := (inetPton.v4 cfg.addr).getD sc.ip
    netmask := (inetPton.v4 cfg.netmask).getD sc.netmask
    broadcast := (inetPton.v4 cfg.broadcast).getD sc.broadcast
    gateway := (inetPton.v4 cfg.gateway).getD sc.gateway }

/-- `if (cfg->nb_vip)`. -/
def configVip (inetPton : InetPton) (sc : Softc) (cfg : PortCfg) : Except Fault Softc :=
  if cfg.vipAddrArray.length ≠ 0 then do
    let (vip, j) ← vipLoop inetPton.v4 cfg.vipAddrArray 0 sc.vip 0
    return { sc with vip := vip, nbVip := UInt8.ofNat j }
  else .ok sc

/-- `if (cfg->addr6_str)`. -/
def configAddr6 (inetPton : InetPton) (sc : Softc) (cfg : PortCfg) : Softc :=
  match cfg.addr6Str with
  | none => sc
  | some addr6 =>
      { sc with
        ip6 := (inetPton.v6 addr6).getD sc.ip6
        gateway6 := (cfg.gateway6Str.bind inetPton.v6).getD sc.gateway6
        prefixLength := prefixOr64 cfg.prefixLen }

/-- `if (cfg->nb_vip6)`. -/
def configVip6 (inetPton : InetPton) (sc : Softc) (cfg : PortCfg) : Except Fault Softc :=
  if cfg.vipAddr6Array.length ≠ 0 then do
    let (vip6, j) ← vipLoop inetPton.v6 cfg.vipAddr6Array 0 sc.vip6 0
    return { sc with
      vip6 := vip6, nbVip6 := UInt8.ofNat j, vipPrefixLength := prefixOr64 cfg.vipPrefixLen }
  else .ok sc

def vethConfig (inetPton : InetPton) (sc : Softc) (cfg : PortCfg) : Except Fault Softc := do
  let sc ← configVip inetPton (configAddr inetPton sc cfg) cfg
  configVip6 inetPton (configAddr6 inetPton sc cfg) cfg

/-! ## The compacting loop -/

section Compaction

variable {α : Type} {pton : CString → Option α} {str : CString} {strs : List CString} {i : Nat} {z : α}
  {l : List α}

/-- One string: its address, if it has one, is appended, and needs a free cell. -/
theorem vipStore_tableOf (h : l.length ≤ VIP_MAX_NUM) :
    vipStore pton str (tableOf VIP_MAX_NUM z l) l.length =
      if (l ++ (pton str).toList).length ≤ VIP_MAX_NUM then
        .ok (tableOf VIP_MAX_NUM z (l ++ (pton str).toList), (l ++ (pton str).toList).length)
      else .error .outOfBounds := by
  rw [vipStore]
  cases hstr : pton str with
  | none => simp [h]
  | some a =>
      by_cases hlt : l.length < VIP_MAX_NUM
      · simp [hlt, Nat.succ_le_of_lt hlt, set_tableOf]
      · have hfull : ¬ (l ++ (some a).toList).length ≤ VIP_MAX_NUM := by
          rw [Option.toList_some, List.length_append, List.length_singleton]
          omega
        rw [if_neg hfull]
        simp only [hlt, dite_false]

/-- The loop ends without a fault only if the addresses of the strings have room in the table and the
strings can be counted; the table then holds them, in order. -/
theorem vipLoop_tableOf (h : l.length ≤ VIP_MAX_NUM) (hi : i ≤ INT_MAX) (r : Vector α VIP_MAX_NUM × Nat) :
    vipLoop pton strs i (tableOf VIP_MAX_NUM z l) l.length = .ok r ↔
      ((l ++ strs.filterMap pton).length ≤ VIP_MAX_NUM ∧ i + strs.length ≤ INT_MAX) ∧
        (tableOf VIP_MAX_NUM z (l ++ strs.filterMap pton), (l ++ strs.filterMap pton).length) = r := by
  induction strs generalizing i l with
  | nil => simp [vipLoop, h, hi]
  | cons str strs ih =>
      have hsplit : (str :: strs).filterMap pton = (pton str).toList ++ strs.filterMap pton := by
        cases hstr : pton str <;> simp [hstr]
      rw [vipLoop, vipStore_tableOf h, hsplit, ← List.append_assoc, List.length_cons]
      by_cases hroom : (l ++ (pton str).toList).length ≤ VIP_MAX_NUM
      · rw [if_pos hroom]
        show (if i < INT_MAX then vipLoop pton strs (i + 1) _ _ else .error .intOverflow) = .ok r ↔ _
        by_cases hlt : i < INT_MAX
        · rw [if_pos hlt, ih hroom hlt, Nat.succ_add_eq_add_succ]
        · have hcount : ¬ i + (strs.length + 1) ≤ INT_MAX := by omega
          simp only [if_neg hlt, hcount, and_false, false_and, reduceCtorEq]
      · rw [if_neg hroom]
        have hall : ¬ (l ++ (pton str).toList ++ strs.filterMap pton).length ≤ VIP_MAX_NUM := by
          rw [List.length_append]
          omega
        simp only [hall, false_and, bind, Except.bind, reduceCtorEq]

/-- The loop of `lazybsd_veth_config` over a zeroed array. -/
theorem vipLoop_eq_ok (r : Vector α VIP_MAX_NUM × Nat) :
    vipLoop pton strs 0 (Vector.replicate VIP_MAX_NUM z) 0 = .ok r ↔
      ((strs.filterMap pton).length ≤ VIP_MAX_NUM ∧ strs.length ≤ INT_MAX) ∧
        (tableOf VIP_MAX_NUM z (strs.filterMap pton), (strs.filterMap pton).length) = r := by
  have h := @vipLoop_tableOf _ pton strs 0 z [] (Nat.zero_le _) (Nat.zero_le _) r
  rwa [Nat.zero_add, List.nil_append, tableOf_nil] at h

end Compaction

/-! ## The configured interface -/

section Configured

variable (inetPton : InetPton) (cfg : PortCfg)

/-- The valid virtual addresses of a configuration, in order. -/
def PortCfg.vips : List UInt32 := cfg.vipAddrArray.filterMap inetPton.v4

def PortCfg.vips6 : List In6Addr := cfg.vipAddr6Array.filterMap inetPton.v6

/-- The two lists fit: the strings can be counted by an `int`, and the arrays have room for the valid
addresses. -/
structure Fits : Prop where
  counted : cfg.vipAddrArray.length ≤ INT_MAX
  counted6 : cfg.vipAddr6Array.length ≤ INT_MAX
  room : (cfg.vips inetPton).length ≤ VIP_MAX_NUM
  room6 : (cfg.vips6 inetPton).length ≤ VIP_MAX_NUM

/-- The interface with each valid address in its place. -/
def configured : Softc where
  mac := cfg.mac
  hostIfname := (attached cfg).hostIfname
  ip := (inetPton.v4 cfg.addr).getD 0
  netmask := (inetPton.v4 cfg.netmask).getD 0
  broadcast := (inetPton.v4 cfg.broadcast).getD 0
  gateway := (inetPton.v4 cfg.gateway).getD 0
  nbVip := UInt8.ofNat (cfg.vips inetPton).length
  vip := tableOf VIP_MAX_NUM 0 (cfg.vips inetPton)
  ip6 := (cfg.addr6Str.bind inetPton.v6).getD In6Addr.zero
  gateway6 := (cfg.addr6Str.bind fun _ => cfg.gateway6Str.bind inetPton.v6).getD In6Addr.zero
  prefixLength := if cfg.addr6Str.isSome then prefixOr64 cfg.prefixLen else 0
  nbVip6 := UInt8.ofNat (cfg.vips6 inetPton).length
  vipPrefixLength := if cfg.vipAddr6Array.length ≠ 0 then prefixOr64 cfg.vipPrefixLen else 0
  vip6 := tableOf VIP_MAX_NUM In6Addr.zero (cfg.vips6 inetPton)

variable {inetPton cfg} {sc sc' : Softc}

/-- The softc before the lists are read: a list without entries leaves its zeroed array and counter. -/
theorem configVip_eq_ok (hvip : sc.vip = Vector.replicate VIP_MAX_NUM 0) (hnb : sc.nbVip = 0) :
    configVip inetPton sc cfg = .ok sc' ↔
      ((cfg.vips inetPton).length ≤ VIP_MAX_NUM ∧ cfg.vipAddrArray.length ≤ INT_MAX) ∧
        { sc with
          vip := tableOf VIP_MAX_NUM 0 (cfg.vips inetPton)
          nbVip := UInt8.ofNat (cfg.vips inetPton).length } = sc' := by
  have hloop : configVip inetPton sc cfg =
      (vipLoop inetPton.v4 cfg.vipAddrArray 0 sc.vip 0).bind fun r =>
        .ok { sc with vip := r.1, nbVip := UInt8.ofNat r.2 } := by
    rw [configVip]
    cases hlist : cfg.vipAddrArray with
    | nil =>
        have hsame {nb : UInt8} (hnb : sc.nbVip = nb) : sc = { sc with nbVip := nb } := by rw [← hnb]
        exact congrArg Except.ok (hsame hnb)
    | cons str strs => rfl
  rw [hloop, hvip, bind_eq_ok]
  simp only [vipLoop_eq_ok, PortCfg.vips, and_assoc, exists_and_left, exists_eq_left', Except.ok.injEq]

theorem configVip6_eq_ok (hvip : sc.vip6 = Vector.replicate VIP_MAX_NUM In6Addr.zero) (hnb : sc.nbVip6 = 0)
    (hlen : sc.vipPrefixLength = 0) :
    configVip6 inetPton sc cfg = .ok sc' ↔
      ((cfg.vips6 inetPton).length ≤ VIP_MAX_NUM ∧ cfg.vipAddr6Array.length ≤ INT_MAX) ∧
        { sc with
          vip6 := tableOf VIP_MAX_NUM In6Addr.zero (cfg.vips6 inetPton)
          nbVip6 := UInt8.ofNat (cfg.vips6 inetPton).length
          vipPrefixLength :=
            if cfg.vipAddr6Array.length ≠ 0 then prefixOr64 cfg.vipPrefixLen else 0 } = sc' := by
  have hloop : configVip6 inetPton sc cfg =
      (vipLoop inetPton.v6 cfg.vipAddr6Array 0 sc.vip6 0).bind fun r =>
        .ok { sc with
          vip6 := r.1
          nbVip6 := UInt8.ofNat r.2
          vipPrefixLength :=
            if cfg.vipAddr6Array.length ≠ 0 then prefixOr64 cfg.vipPrefixLen else 0 } := by
    rw [configVip6]
    cases hlist : cfg.vipAddr6Array with
    | nil =>
        have hsame {nb len : UInt8} (hnb : sc.nbVip6 = nb) (hlen : sc.vipPrefixLength = len) :
            sc = { sc with nbVip6 := nb, vipPrefixLength := len } := by
          rw [← hnb, ← hlen]
        exact congrArg Except.ok (hsame hnb hlen)
    | cons str strs => rfl
  rw [hloop, hvip, bind_eq_ok]
  simp only [vipLoop_eq_ok, PortCfg.vips6, and_assoc, exists_and_left, exists_eq_left', Except.ok.injEq]

@[simp] theorem vip6_configAddr6 : (configAddr6 inetPton sc cfg).vip6 = sc.vip6 := by
  rw [configAddr6]
  split <;> rfl

@[simp] theorem nbVip6_configAddr6 : (configAddr6 inetPton sc cfg).nbVip6 = sc.nbVip6 := by
  rw [configAddr6]
  split <;> rfl

@[simp] theorem vipPrefixLength_configAddr6 :
    (configAddr6 inetPton sc cfg).vipPrefixLength = sc.vipPrefixLength := by
  rw [configAddr6]
  split <;> rfl

/-- **What `lazybsd_veth_config` leaves.** It ends without a fault only if the lists fit, with each valid
address in its place. -/
theorem vethConfig_eq_ok :
    vethConfig inetPton (attached cfg) cfg = .ok sc ↔ Fits inetPton cfg ∧ configured inetPton cfg = sc := by
  have hvip (sc₁ : Softc) := @configVip_eq_ok inetPton cfg (configAddr inetPton (attached cfg) cfg) sc₁ rfl rfl
  refine bind_eq_ok.trans ?_
  simp only [hvip, and_assoc, exists_and_left, exists_eq_left']
  rw [configVip6_eq_ok (by rw [vip6_configAddr6]; rfl) (by rw [nbVip6_configAddr6]; rfl)
    (by rw [vipPrefixLength_configAddr6]; rfl)]
  have hfits : Fits inetPton cfg ↔
      (cfg.vips inetPton).length ≤ VIP_MAX_NUM ∧ cfg.vipAddrArray.length ≤ INT_MAX ∧
        (cfg.vips6 inetPton).length ≤ VIP_MAX_NUM ∧ cfg.vipAddr6Array.length ≤ INT_MAX :=
    ⟨fun h => ⟨h.room, h.counted, h.room6, h.counted6⟩, fun ⟨hr, hc, hr6, hc6⟩ => ⟨hc, hc6, hr, hr6⟩⟩
  rw [hfits]
  simp only [and_assoc]
  refine and_congr_right fun _ => and_congr_right fun _ => and_congr_right fun _ => and_congr_right fun _ => ?_
  rw [configured, configAddr6]
  cases cfg.addr6Str <;> rfl

end Configured

end LazyBsd.Veth
