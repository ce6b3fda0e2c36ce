/-
# LazyBsd.Socket.Options — socket options (`linux2freebsd_opt` of `lazybsd_socket.c`).

One table for each level translates the Linux numbers. At `SOL_SOCKET` and `IPPROTO_TCP` a number
without a row is refused; at `IPPROTO_IP` and `IPPROTO_IPV6` it is passed on as it is, and then means
whatever FreeBSD means by it. FreeBSD's numbers are those of its headers.
-/
import LazyBsd.Lib.Translation
import LazyBsd.Socket.Cmsg

namespace LazyBsd.Socket

open Lib

/-! ## The numbers -/

def linuxSolSocket : Nat := 1
def solSocket : Nat := 0xffff
def ipprotoTcp : Nat := 6
def ipprotoIpv6 : Nat := 41

def linuxSoDebug : Nat := 1
def linuxSoReuseaddr : Nat := 2
def linuxSoError : Nat := 4
def linuxSoDontroute : Nat := 5
def linuxSoBroadcast : Nat := 6
def linuxSoSndbuf : Nat := 7
def linuxSoRcvbuf : Nat := 8
def linuxSoKeepalive : Nat := 9
def linuxSoOobinline : Nat := 10
def linuxSoLinger : Nat := 13
def linuxSoReuseport : Nat := 15
def linuxSoRcvlowat : Nat := 18
def linuxSoSndlowat : Nat := 19
def linuxSoRcvtimeo : Nat := 20
def linuxSoSndtimeo : Nat := 21
def linuxSoAcceptconn : Nat := 30
def linuxSoProtocol : Nat := 38

def soDebug : Nat := 0x1
def soAcceptconn : Nat := 0x2
def soReuseaddr : Nat := 0x4
def soKeepalive : Nat := 0x8
def soDontroute : Nat := 0x10
def soBroadcast : Nat := 0x20
def soLinger : Nat := 0x80
def soOobinline : Nat := 0x100
def soReuseport : Nat := 0x200
def soSndbuf : Nat := 0x1001
def soRcvbuf : Nat := 0x1002
def soSndlowat : Nat := 0x1003
def soRcvlowat : Nat := 0x1004
def soSndtimeo : Nat := 0x1005
def soRcvtimeo : Nat := 0x1006
def soError : Nat := 0x1007
def soProtocol : Nat := 0x1016

def linuxIpHdrincl : Nat := 3
def linuxIpOptions : Nat := 4
def linuxIpRecvttl : Nat := 12
def linuxIpRecvtos : Nat := 13
def linuxIpTransparent : Nat := 19
def linuxIpMinttl : Nat := 21
def linuxIpMulticastIf : Nat := 32
def linuxIpMulticastTtl : Nat := 33
def linuxIpMulticastLoop : Nat := 34
def linuxIpAddMembership : Nat := 35
def linuxIpDropMembership : Nat := 36

def ipOptions : Nat := 1
def ipHdrincl : Nat := 2
def ipMulticastIf : Nat := 9
def ipMulticastTtl : Nat := 10
def ipMulticastLoop : Nat := 11
def ipAddMembership : Nat := 12
def ipDropMembership : Nat := 13
def ipBindany : Nat := 24
def ipMinttl : Nat := 66

def linuxIpv6V6only : Nat := 26
def linuxIpv6Recvpktinfo : Nat := 49
def linuxIpv6Transparent : Nat := 75

def ipv6V6only : Nat := 27
def ipv6Recvpktinfo : Nat := 36
def ipv6Bindany : Nat := 64

def linuxTcpNodelay : Nat := 1
def linuxTcpMaxseg : Nat := 2
def linuxTcpKeepidle : Nat := 4
def linuxTcpKeepintvl : Nat := 5
def linuxTcpKeepcnt : Nat := 6
def linuxTcpInfo : Nat := 11
def linuxTcpMd5sig : Nat := 14

def tcpNodelay : Nat := 1
def tcpMaxseg : Nat := 2
def tcpMd5sig : Nat := 16
def tcpInfo : Nat := 32
def tcpKeepidle : Nat := 256
def tcpKeepintvl : Nat := 512
def tcpKeepcnt : Nat := 1024

/-! ## The tables -/

/-- The cases of `so_opt_convert`. -/
def soOpts : Translation Int Int where
  rows := [(linuxSoDebug, soDebug), (linuxSoReuseaddr, soReuseaddr), (linuxSoError, soError),
    (linuxSoDontroute, soDontroute), (linuxSoBroadcast, soBroadcast), (linuxSoSndbuf, soSndbuf),
    (linuxSoRcvbuf, soRcvbuf), (linuxSoKeepalive, soKeepalive), (linuxSoOobinline, soOobinline),
    (linuxSoLinger, soLinger), (linuxSoReuseport, soReuseport), (linuxSoRcvlowat, soRcvlowat),
    (linuxSoSndlowat, soSndlowat), (linuxSoRcvtimeo, soRcvtimeo), (linuxSoSndtimeo, soSndtimeo),
    (linuxSoAcceptconn, soAcceptconn), (linuxSoProtocol, soProtocol)]
  distinctKeys := by decide
  distinctValues := by decide

/-- The cases of `ip_opt_convert`. -/
def ipOpts : Translation Int Int where
  rows := [(linuxIpTos, ipTos), (linuxIpTtl, ipTtl), (linuxIpHdrincl, ipHdrincl),
    (linuxIpOptions, ipOptions), (linuxIpMulticastIf, ipMulticastIf),
    (linuxIpMulticastTtl, ipMulticastTtl), (linuxIpMulticastLoop, ipMulticastLoop),
    (linuxIpAddMembership, ipAddMembership), (linuxIpDropMembership, ipDropMembership),
    (linuxIpRecvttl, ipRecvttl), (linuxIpRecvtos, ipRecvtos), (linuxIpTransparent, ipBindany),
    (linuxIpMinttl, ipMinttl)]
  distinctKeys := by decide
  distinctValues := by decide

/-- The cases of `ip6_opt_convert`. -/
def ip6Opts : Translation Int Int where
  rows := [(linuxIpv6V6only, ipv6V6only), (linuxIpv6Recvpktinfo, ipv6Recvpktinfo),
    (linuxIpv6Transparent, ipv6Bindany)]
  distinctKeys := by decide
  distinctValues := by decide

/-- The cases of `tcp_opt_convert`. -/
def tcpOpts : Translation Int Int where
  rows := [(linuxTcpNodelay, tcpNodelay), (linuxTcpMaxseg, tcpMaxseg), (linuxTcpKeepidle, tcpKeepidle),
    (linuxTcpKeepintvl, tcpKeepintvl), (linuxTcpKeepcnt, tcpKeepcnt), (linuxTcpInfo, tcpInfo),
    (linuxTcpMd5sig, tcpMd5sig)]
  distinctKeys := by decide
  distinctValues := by decide

/-- `so_opt_convert`. -/
def soOptConvert (optname : Int) : Int := soOpts.orElse (-1) optname

/-- `ip_opt_convert`: by default the number as it is. -/
def ipOptConvert (optname : Int) : Int := ipOpts.through optname

/-- `ip6_opt_convert`: by default the number as it is. -/
def ip6OptConvert (optname : Int) : Int := ip6Opts.through optname

/-- `tcp_opt_convert`. -/
def tcpOptConvert (optname : Int) : Int := tcpOpts.orElse (-1) optname

/-- `linux2freebsd_opt`. -/
def linux2freebsdOpt (level optname : Int) : Int :=
  if level = solSocket then soOptConvert optname
  else if level = ipprotoIp then ipOptConvert optname
  else if level = ipprotoIpv6 then ip6OptConvert optname
  else if level = ipprotoTcp then tcpOptConvert optname
  else -1

/-- What `lazybsd_getsockopt` and `lazybsd_setsockopt` hand to `kern_getsockopt` and `kern_setsockopt`:
level and option; none is `EINVAL`. -/
def sockoptRequest (level optname : Int) : Option (Int × Int) :=
  let level := if level = linuxSolSocket then (solSocket : Int) else level
  let optname := linux2freebsdOpt level optname
  if optname < 0 then none else some (level, optname)

/-! ## Which options meet -/

/-- The untranslated numbers below `IPPROTO_IP` that FreeBSD reads as a translated option, with that
option. -/
def ipShadows : List (Int × Int) :=
  [(9, linuxIpMulticastIf), (10, linuxIpMulticastTtl), (11, linuxIpMulticastLoop), (65, linuxIpRecvttl),
    (68, linuxIpRecvtos), (24, linuxIpTransparent), (66, linuxIpMinttl)]

/-- The same below `IPPROTO_IPV6`. -/
def ip6Shadows : List (Int × Int) :=
  [(27, linuxIpv6V6only), (36, linuxIpv6Recvpktinfo), (64, linuxIpv6Transparent)]

/-- The pairs of a number without a translation and an option that is translated to it. -/
def optShadows (level : Int) : List (Int × Int) :=
  if level = ipprotoIp then ipShadows else if level = ipprotoIpv6 then ip6Shadows else []

/-- The pairs of a table, found by going through its rows. -/
theorem shadows_iff {t : Translation Int Int} {pairs : List (Int × Int)}
    (h : t.rows.filterMap (fun row => if t.lookup row.2 = none then some (row.2, row.1) else none) = pairs)
    {a b : Int} : t.Shadows a b ↔ (a, b) ∈ pairs := by
  subst h
  rw [List.mem_filterMap]
  constructor
  · rintro ⟨hnone, hrow⟩
    exact ⟨(b, a), hrow, if_pos hnone⟩
  · rintro ⟨⟨k, v⟩, hrow, hsome⟩
    split at hsome
    · rename_i hnone
      obtain ⟨rfl, rfl⟩ := Prod.mk.inj (Option.some.inj hsome)
      exact ⟨hnone, hrow⟩
    · cases hsome

theorem ipOpts_shadows {a b : Int} : ipOpts.Shadows a b ↔ (a, b) ∈ ipShadows :=
  shadows_iff (by decide)

theorem ip6Opts_shadows {a b : Int} : ip6Opts.Shadows a b ↔ (a, b) ∈ ip6Shadows :=
  shadows_iff (by decide)

/-- Where the default is refused, accepted options are kept apart. -/
theorem orElse_distinct {t : Translation Int Int} {a b : Int} (hne : a ≠ b) (ha : 0 ≤ t.orElse (-1) a) :
    t.orElse (-1) a ≠ t.orElse (-1) b :=
  Translation.orElse_ne hne (by omega)

/-- Where the default is passed through, exactly the shadowed pairs meet. -/
theorem through_distinct_iff {t : Translation Int Int} {pairs : List (Int × Int)} {a b : Int} (hne : a ≠ b)
    (h : ∀ {a b : Int}, t.Shadows a b ↔ (a, b) ∈ pairs) :
    t.through a ≠ t.through b ↔ (a, b) ∉ pairs ∧ (b, a) ∉ pairs := by
  rw [Ne, Translation.through_eq_iff hne, h, h, not_or]

/-- An option that is accepted at a level is translated to another number than every other option,
unless one of the two has no translation and is the number that the other is translated to. -/
theorem opts_distinct_iff (level a b : Int) (hne : a ≠ b) (ha : 0 ≤ linux2freebsdOpt level a) :
    linux2freebsdOpt level a ≠ linux2freebsdOpt level b ↔
      (a, b) ∉ optShadows level ∧ (b, a) ∉ optShadows level := by
  have hempty : (a, b) ∉ ([] : List (Int × Int)) ∧ (b, a) ∉ ([] : List (Int × Int)) :=
    ⟨List.not_mem_nil, List.not_mem_nil⟩
  rw [linux2freebsdOpt] at ha
  rw [linux2freebsdOpt, linux2freebsdOpt, optShadows]
  -- level by level; none of the two refusing tables has a pair
  split at ha
  · rename_i hlevel
    rw [if_pos hlevel, if_pos hlevel, if_neg (by rw [hlevel]; decide), if_neg (by rw [hlevel]; decide)]
    exact iff_of_true (orElse_distinct hne ha) hempty
  · rename_i hsocket
    rw [if_neg hsocket, if_neg hsocket]
    split at ha
    · rename_i hlevel
      rw [if_pos hlevel, if_pos hlevel, if_pos hlevel]
      exact through_distinct_iff hne ipOpts_shadows
    · rename_i hip
      rw [if_neg hip, if_neg hip, if_neg hip]
      split at ha
      · rename_i hlevel
        rw [if_pos hlevel, if_pos hlevel, if_pos hlevel]
        exact through_distinct_iff hne ip6Opts_shadows
      · rename_i hip6
        rw [if_neg hip6, if_neg hip6, if_neg hip6]
        split at ha
        · rename_i hlevel
          rw [if_pos hlevel, if_pos hlevel]
          exact iff_of_true (orElse_distinct hne ha) hempty
        · exact absurd ha (by decide)

/-- `IP_TTL` and `IP_TOS` stay apart. -/
theorem opts_distinct_ttl_tos :
    linux2freebsdOpt ipprotoIp linuxIpTtl ≠ linux2freebsdOpt ipprotoIp linuxIpTos :=
  (opts_distinct_iff ipprotoIp linuxIpTtl linuxIpTos (by decide) (by decide)).mpr (by decide)

/-- Linux option 11 below `IPPROTO_IP`, `IP_RECVERR`, has no translation: it sets FreeBSD's
`IP_MULTICAST_LOOP`, as does Linux' own `IP_MULTICAST_LOOP`. -/
theorem opts_meet_recverr :
    (11 : Int) ≠ linuxIpMulticastLoop ∧ 0 ≤ linux2freebsdOpt ipprotoIp 11 ∧
      0 ≤ linux2freebsdOpt ipprotoIp linuxIpMulticastLoop ∧
      linux2freebsdOpt ipprotoIp 11 = linux2freebsdOpt ipprotoIp linuxIpMulticastLoop ∧
      sockoptRequest ipprotoIp 11 = sockoptRequest ipprotoIp linuxIpMulticastLoop := by
  decide

end LazyBsd.Socket
