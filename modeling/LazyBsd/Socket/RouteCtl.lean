/-
# LazyBsd.Socket.RouteCtl — `lazybsd_route_ctl`: which addresses `rib_action` gets.

The three optional addresses are converted into three locals, and `rt_addrinfo` points to those that are
there. Each conversion is called with the size of `struct linux_sockaddr`, whatever the family: that is
all of an IPv4 address, and 16 of the 28 bytes of an IPv6 one.
-/
import LazyBsd.Route.Request
import LazyBsd.Socket.Address

namespace LazyBsd.Socket

open Lib.Object
open Route (rtmAdd rtmDelete rtmChange rtfGateway rtfHost rtaxDst rtaxGateway rtaxNetmask)

/-! ## The function -/

/-- `sizeof(struct linux_sockaddr)`: a `short` and 14 bytes. -/
def linuxSockaddrSize : UInt32 := 16

/-- `RT_DEFAULT_FIB`. -/
def rtDefaultFib : Nat := 0

/-- The locals `sa_gw`, `sa_dst` and `sa_nm`, one behind another in the frame of the function. -/
def saGw : Ptr Obj := ⟨.storage, 0⟩
def saDst : Ptr Obj := ⟨.storage, 128⟩
def saNm : Ptr Obj := ⟨.storage, 256⟩

/-- `struct rt_addrinfo`: the members that the function sets. -/
structure RtAddrinfo where
  rtiFlags : UInt32
  rtiInfo : Nat → Option (Ptr Obj)

/-- The arguments of `rib_action`. -/
structure RibAction where
  fibnum : Nat
  rtreq : UInt8
  info : RtAddrinfo

/-- The `switch` over `enum LAZYBSD_ROUTE_CTL`; none is `EINVAL`. -/
def routeReq (req : Int) : Option UInt8 :=
  if req = 0 then some rtmAdd
  else if req = 1 then some rtmDelete
  else if req = 2 then some rtmChange
  else none

/-- The `switch` over `enum LAZYBSD_ROUTE_FLAG`; none is `EINVAL`. -/
def routeFlag (flag : Int) : Option UInt32 :=
  if flag = 0 then some rtfHost
  else if flag = 1 then some rtfGateway
  else none

/-- The `if` for one address and its local: the pointer for `rti_info`. -/
def passSockaddr (addr : Option (Ptr Obj)) (sa : Ptr Obj) : Code Obj (Option (Ptr Obj)) :=
  match addr with
  | some linux => do
      linux2freebsdSockaddr (some linux) linuxSockaddrSize (some sa)
      return some sa
  | none => return none

/-- `rti_info` after the assignments: `NULL` where `bzero` left it. -/
def rtiInfoOf (psaGw psaDst psaNm : Option (Ptr Obj)) (i : Nat) : Option (Ptr Obj) :=
  if i = rtaxGateway then psaGw
  else if i = rtaxDst then psaDst
  else if i = rtaxNetmask then psaNm
  else none

/-- `lazybsd_route_ctl` up to the call of `rib_action`; none is the failure with `EINVAL`. -/
def routeCtlCall (req flag : Int) (dst gw netmask : Option (Ptr Obj)) : Code Obj (Option RibAction) :=
  match routeReq req, routeFlag flag with
  | some rtreq, some rtflag => do
      let psaGw ← passSockaddr gw saGw
      let psaDst ← passSockaddr dst saDst
      let psaNm ← passSockaddr netmask saNm
      let info : RtAddrinfo := { rtiFlags := rtflag, rtiInfo := rtiInfoOf psaGw psaDst psaNm }
      return some { fibnum := rtDefaultFib, rtreq := rtreq, info := info }
  | _, _ => return none

/-- `lazybsd_route_ctl`: its result, and the code for `lazybsd_os_errno` when it fails. What
`rib_action` returns is a parameter. -/
def lazybsdRouteCtl (ribAction : RibAction → Contents Obj → Int) (req flag : Int)
    (dst gw netmask : Option (Ptr Obj)) : Code Obj (Int × Option Int) := fun r =>
  match (routeCtlCall req flag dst gw netmask).run r with
  | (none, r') => ((-1, some Route.einval), r')
  | (some action, r') =>
      let rc := ribAction action r'.byte
      (if rc = 0 then (rc, none) else (-1, some rc), r')

/-! ## Whole addresses -/

/-- `AF_INET`, the same in both numberings. -/
def afInet : Nat := 2

/-- `sizeof(struct sockaddr_in6)` and `sizeof(struct sockaddr_in)`, by the Linux family. -/
def sockaddrSize (family : Nat) : Nat := if family = linuxAfInet6 then 28 else 16

/-- The first `n` bytes at `p` are the FreeBSD form of the Linux address at `linux`, `n` its length. -/
structure Carries (b b' : Contents Obj) (linux p : Ptr Obj) (n : Nat) : Prop where
  saLen : saLen b' p = n
  saFamily : saFamily b' p = toFreebsd (linuxFamily b linux)
  data : ∀ i, 2 ≤ i → i < n → b' (p + i) = b (linux + i)

/-- A present address is passed on in full size, an absent one as `NULL`. -/
def PassesWhole (b b' : Contents Obj) (addr passed : Option (Ptr Obj)) : Prop :=
  match addr with
  | some linux => ∃ p, passed = some p ∧ Carries b b' linux p (sockaddrSize (linuxFamily b linux))
  | none => passed = none

/-- Whatever `rib_action` is called with, it gets the three addresses whole. -/
def WholeAddresses (req flag : Int) (dst gw netmask : Option (Ptr Obj)) (b : Contents Obj) : Prop :=
  ∀ action, ((routeCtlCall req flag dst gw netmask).run ⟨b, []⟩).1 = some action →
    PassesWhole b (after (routeCtlCall req flag dst gw netmask) b) gw (action.info.rtiInfo rtaxGateway) ∧
    PassesWhole b (after (routeCtlCall req flag dst gw netmask) b) dst (action.info.rtiInfo rtaxDst) ∧
    PassesWhole b (after (routeCtlCall req flag dst gw netmask) b) netmask
      (action.info.rtiInfo rtaxNetmask)

section Pass

variable {b c c' : Contents Obj} {linux sa q : Ptr Obj} {addr : Option (Ptr Obj)} {r : Ram Obj}

/-- The memory after one address was converted. -/
def passed (addr : Option (Ptr Obj)) (sa : Ptr Obj) (c : Contents Obj) : Contents Obj :=
  match addr with
  | some linux => after (linux2freebsdSockaddr (some linux) linuxSockaddrSize (some sa)) c
  | none => c

theorem passSockaddr_fst : ((passSockaddr addr sa).run r).1 = addr.map fun _ => sa := by
  cases addr <;> rfl

theorem passSockaddr_byte : ((passSockaddr addr sa).run r).2.byte = passed addr sa r.byte := by
  cases addr with
  | none => rfl
  | some linux =>
      show ((linux2freebsdSockaddr (some linux) linuxSockaddrSize (some sa)).run r).2.byte = _
      rw [run_linux2freebsdSockaddr]
      rfl

/-- A conversion writes the first 16 bytes of its local. -/
theorem passed_other (h : ¬ sa.Covers 16 q) : passed addr sa c q = c q := by
  cases addr with
  | none => rfl
  | some linux =>
      have hhead : ¬ sa.Covers 2 q := fun ⟨hobj, hlo, hhi⟩ => h ⟨hobj, hlo, by omega⟩
      have hdata : ¬ (sa + 2).Covers (dataLen linuxSockaddrSize.toNat) q := by
        rintro ⟨hobj, hlo, hhi⟩
        rw [show dataLen linuxSockaddrSize.toNat = 14 from by decide] at hhi
        rw [Ptr.add_obj] at hobj
        rw [Ptr.add_off] at hlo hhi
        exact h ⟨hobj, by omega, by omega⟩
      show after _ c q = c q
      rw [after_linux2freebsdSockaddr]
      split
      · exact freebsdHead_other hhead
      · rw [copied_other hdata]
        exact freebsdHead_other hhead

/-- The local after its conversion, of an address that lies elsewhere and is still as it was. -/
theorem passed_carries (hfamily : linuxFamily b linux < 256) (hobj : linux.obj ≠ sa.obj)
    (hsame : ∀ i : Nat, c (linux + i) = b (linux + i)) : Carries b (passed (some linux) sa c) linux sa 16 := by
  have hnumber : linuxFamily c linux = linuxFamily b linux := number_congr fun i _ => hsame i
  have hfreebsd : toFreebsd (linuxFamily b linux) < 256 := by
    rw [toFreebsd]
    split
    · decide
    · exact hfamily
  have halias : SameOrApart linux sa linuxSockaddrSize.toNat := .inr fun h => absurd h hobj
  refine ⟨linux2freebsd_saLen (by decide), ?_, fun i hi hin => ?_⟩
  · refine linux2freebsd_saFamily.trans ?_
    rw [hnumber, Nat.mod_eq_of_lt hfreebsd]
  · exact (linux2freebsd_data halias hi hin).trans (hsame i)

/-- Only the bytes of the address count. -/
theorem Carries.congr {n : Nat} (hn : 2 ≤ n) (h : Carries b c linux sa n)
    (hsame : ∀ i < n, c' (sa + i) = c (sa + i)) : Carries b c' linux sa n := by
  obtain ⟨hlen, hfamily, hdata⟩ := h
  refine ⟨?_, ?_, fun i hi hin => (hsame i hin).trans (hdata i hi hin)⟩
  · have hbyte : c' sa = c sa := hsame 0 (by omega)
    rw [Socket.saLen, hbyte]
    exact hlen
  · rw [Socket.saFamily, hsame 1 hn]
    exact hfamily

end Pass

section Call

variable {req flag : Int} {dst gw netmask : Option (Ptr Obj)} {b : Contents Obj}

/-- The memory that `rib_action` is called in. -/
def allPassed (dst gw netmask : Option (Ptr Obj)) (b : Contents Obj) : Contents Obj :=
  passed netmask saNm (passed dst saDst (passed gw saGw b))

theorem routeCtlCall_refused (h : routeReq req = none ∨ routeFlag flag = none) (r : Ram Obj) :
    (routeCtlCall req flag dst gw netmask).run r = (none, r) := by
  rw [routeCtlCall]
  rcases h with h | h
  · rw [h]
    rfl
  · rw [h]
    cases routeReq req <;> rfl

/-- A request that is none fails with `EINVAL`, and nothing is converted. -/
theorem lazybsdRouteCtl_refused (ribAction : RibAction → Contents Obj → Int)
    (h : routeReq req = none ∨ routeFlag flag = none) (r : Ram Obj) :
    (lazybsdRouteCtl ribAction req flag dst gw netmask).run r = ((-1, some (Route.einval : Int)), r) := by
  show lazybsdRouteCtl ribAction req flag dst gw netmask r = _
  rw [lazybsdRouteCtl, routeCtlCall_refused h]

variable (dst gw netmask b) in
/-- A valid request is handed on with a pointer for each address that is there. -/
theorem routeCtlCall_valid {rtreq : UInt8} {rtflag : UInt32} (hreq : routeReq req = some rtreq)
    (hflag : routeFlag flag = some rtflag) :
    (∃ action, ((routeCtlCall req flag dst gw netmask).run ⟨b, []⟩).1 = some action ∧
      action.info.rtiInfo rtaxGateway = gw.map (fun _ => saGw) ∧
      action.info.rtiInfo rtaxDst = dst.map (fun _ => saDst) ∧
      action.info.rtiInfo rtaxNetmask = netmask.map fun _ => saNm) ∧
    after (routeCtlCall req flag dst gw netmask) b = allPassed dst gw netmask b := by
  refine ⟨?_, ?_⟩
  · simp only [routeCtlCall, hreq, hflag, run_bind, run_pure]
    refine ⟨_, rfl, ?_, ?_, ?_⟩
    all_goals exact passSockaddr_fst
  · simp only [after, routeCtlCall, hreq, hflag, run_bind, run_pure, passSockaddr_byte]
    rfl

/-- The caller's memory is not touched. -/
theorem passed_caller {addr : Option (Ptr Obj)} {sa q : Ptr Obj} {c : Contents Obj} (h : q.obj ≠ sa.obj) :
    passed addr sa c q = c q :=
  passed_other fun hcovers => h hcovers.1

/-- A local keeps its 16 bytes when another one is written. -/
theorem passed_local {addr : Option (Ptr Obj)} {sa other : Ptr Obj} {c : Contents Obj}
    (h : sa.Apart 16 other 16) {i : Nat} (hi : i < 16) : passed addr other c (sa + i) = c (sa + i) := by
  refine passed_other ?_
  rintro ⟨hobj, hlo, hhi⟩
  rw [Ptr.add_obj] at hobj
  rw [Ptr.add_off] at hlo hhi
  rcases h hobj with h | h <;> omega

/-- The address of a family, at most 16 bytes of it. -/
theorem allPassed_carries (hcaller : ∀ l, some l ∈ [dst, gw, netmask] → l.obj ≠ .storage)
    (hfamily : ∀ l, some l ∈ [dst, gw, netmask] → linuxFamily b l < 256) :
    (∀ l, gw = some l → Carries b (allPassed dst gw netmask b) l saGw 16) ∧
    (∀ l, dst = some l → Carries b (allPassed dst gw netmask b) l saDst 16) ∧
    (∀ l, netmask = some l → Carries b (allPassed dst gw netmask b) l saNm 16) := by
  refine ⟨?_, ?_, ?_⟩
  · rintro l rfl
    have hmem : some l ∈ [dst, some l, netmask] := by simp
    refine (passed_carries (hfamily l hmem) (hcaller l hmem) fun _ => rfl).congr (by decide) ?_
    intro i hi
    -- the two locals that are written later lie behind this one
    rw [allPassed, passed_local (fun _ => .inl (by decide)) hi,
      passed_local (fun _ => .inl (by decide)) hi]
  · rintro l rfl
    have hmem : some l ∈ [some l, gw, netmask] := by simp
    have hobj := hcaller l hmem
    refine (passed_carries (c := passed gw saGw b) (hfamily l hmem) hobj fun i => ?_).congr (by decide) ?_
    · exact passed_caller hobj
    · intro i hi
      rw [allPassed, passed_local (fun _ => .inl (by decide)) hi]
  · rintro l rfl
    have hmem : some l ∈ [dst, gw, some l] := by simp
    have hobj := hcaller l hmem
    refine passed_carries (hfamily l hmem) hobj fun i => ?_
    rw [passed_caller hobj, passed_caller hobj]

/-- The local of an IPv6 address carries 16 bytes of it, so the address is not whole. -/
theorem not_whole_of_six {b b' : Contents Obj} {l sa : Ptr Obj} (hsix : linuxFamily b l = linuxAfInet6)
    (h : Carries b b' l sa 16) : ¬ PassesWhole b b' (some l) ((some l).map fun _ => sa) := by
  rintro ⟨p, hp, hwhole⟩
  obtain rfl : sa = p := Option.some.inj hp
  have hlen := h.saLen.symm.trans hwhole.saLen
  rw [sockaddrSize, if_pos hsix] at hlen
  exact absurd hlen (by decide)

/-- The local of an IPv4 address carries all of it. -/
theorem passesWhole_of_four {b b' : Contents Obj} {addr : Option (Ptr Obj)} {sa : Ptr Obj}
    (hfour : ∀ l, addr = some l → linuxFamily b l = afInet)
    (h : ∀ l, addr = some l → Carries b b' l sa 16) :
    PassesWhole b b' addr (addr.map fun _ => sa) := by
  cases addr with
  | none => rfl
  | some l =>
      refine ⟨sa, rfl, ?_⟩
      rw [hfour l rfl]
      exact h l rfl

/-- `rib_action` gets whole addresses exactly when it is not called, or every address is an IPv4 one. -/
theorem route_ctl_whole_iff (req flag : Int) (dst gw netmask : Option (Ptr Obj)) (b : Contents Obj)
    (hcaller : ∀ l, some l ∈ [dst, gw, netmask] → l.obj ≠ .storage)
    (hfamily : ∀ l, some l ∈ [dst, gw, netmask] →
      linuxFamily b l = afInet ∨ linuxFamily b l = linuxAfInet6) :
    WholeAddresses req flag dst gw netmask b ↔
      routeReq req = none ∨ routeFlag flag = none ∨
        ∀ l, some l ∈ [dst, gw, netmask] → linuxFamily b l = afInet := by
  have hsmall : ∀ l, some l ∈ [dst, gw, netmask] → linuxFamily b l < 256 := by
    intro l hl
    rcases hfamily l hl with h | h <;> rw [h] <;> decide
  cases hreq : routeReq req with
  | none =>
      refine iff_of_true (fun action haction => ?_) (.inl rfl)
      rw [routeCtlCall_refused (.inl hreq)] at haction
      cases haction
  | some rtreq =>
      cases hflag : routeFlag flag with
      | none =>
          refine iff_of_true (fun action haction => ?_) (.inr (.inl rfl))
          rw [routeCtlCall_refused (.inr hflag)] at haction
          cases haction
      | some rtflag =>
          obtain ⟨⟨action, haction, hgw, hdst, hnm⟩, hafter⟩ :=
            routeCtlCall_valid dst gw netmask b hreq hflag
          obtain ⟨cgw, cdst, cnm⟩ := allPassed_carries hcaller hsmall
          constructor
          · intro hwhole
            refine .inr (.inr fun l hl => (hfamily l hl).resolve_right fun hsix => ?_)
            obtain ⟨wgw, wdst, wnm⟩ := hwhole action haction
            rw [hafter, hgw] at wgw
            rw [hafter, hdst] at wdst
            rw [hafter, hnm] at wnm
            -- the local says 16, an IPv6 address has 28
            simp only [List.mem_cons, List.not_mem_nil, or_false] at hl
            rcases hl with rfl | rfl | rfl
            · exact not_whole_of_six hsix (cdst l rfl) wdst
            · exact not_whole_of_six hsix (cgw l rfl) wgw
            · exact not_whole_of_six hsix (cnm l rfl) wnm
          · intro hcond action' haction'
            obtain rfl : action = action' := Option.some.inj (haction.symm.trans haction')
            have hfour := (hcond.resolve_left (Option.some_ne_none _)).resolve_left (Option.some_ne_none _)
            rw [hafter, hgw, hdst, hnm]
            exact ⟨passesWhole_of_four (fun l hl => hfour l (by simp [hl])) cgw,
              passesWhole_of_four (fun l hl => hfour l (by simp [hl])) cdst,
              passesWhole_of_four (fun l hl => hfour l (by simp [hl])) cnm⟩

end Call

/-- A route to 127.0.0.1. -/
theorem route_ctl_whole_inet : WholeAddresses 0 0 (some ⟨.caller 0, 0⟩) none none Sample.inet :=
  (route_ctl_whole_iff 0 0 (some ⟨.caller 0, 0⟩) none none Sample.inet
    (by simp) (by simp [afInet]; decide)).mpr (by simp; decide)

/-- The Linux address 2001:db8::1, port 0. -/
def Sample.inet6 : Contents Obj := fun p =>
  if p.obj = .caller 0 then
    [10, 0, 0, 0, 0, 0, 0, 0, 32, 1, 13, 184, 0, 0, 0, 0, 0, 0, 0, 0, 0, 0, 0, 1].getD p.off 0
  else 0

/-- An IPv6 destination: `rib_action` gets 16 bytes of it, and the last byte of the address is not the
one the caller gave. -/
theorem route_ctl_cuts_inet6 :
    linuxFamily Sample.inet6 ⟨.caller 0, 0⟩ = linuxAfInet6 ∧
      routeReq 0 = some rtmAdd ∧ routeFlag 0 = some rtfHost ∧
      saLen (after (routeCtlCall 0 0 (some ⟨.caller 0, 0⟩) none none) Sample.inet6) saDst = 16 ∧
      after (routeCtlCall 0 0 (some ⟨.caller 0, 0⟩) none none) Sample.inet6 (saDst + 23) = 0 ∧
      Sample.inet6 ⟨.caller 0, 23⟩ = 1 ∧
      ¬ WholeAddresses 0 0 (some ⟨.caller 0, 0⟩) none none Sample.inet6 := by
  refine ⟨by decide, by decide, by decide, by decide, by decide, by decide, fun h => ?_⟩
  have hreq : routeReq 0 = some rtmAdd := rfl
  have hflag : routeFlag 0 = some rtfHost := rfl
  obtain ⟨⟨action, haction, -, hdst, -⟩, hafter⟩ :=
    routeCtlCall_valid (some ⟨.caller 0, 0⟩) none none Sample.inet6 hreq hflag
  obtain ⟨-, hwhole, -⟩ := h action haction
  rw [hafter, hdst] at hwhole
  have hcarries : ∀ l, some ⟨.caller 0, 0⟩ = some l →
      Carries Sample.inet6 (allPassed (some ⟨.caller 0, 0⟩) none none Sample.inet6) l saDst 16 :=
    (allPassed_carries (by simp) (by simp; decide)).2.1
  exact not_whole_of_six (by decide) (hcarries _ rfl) hwhole

end LazyBsd.Socket
