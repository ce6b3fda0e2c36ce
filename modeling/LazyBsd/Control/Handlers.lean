/-
# LazyBsd.Control.Handlers — the handlers of control messages and what they report.

A handler calls into FreeBSD and stores a result in the message. The functions of `lazybsd_socket.c` and
`lazybsd_route.c` leave the translated error code in `lazybsd_errno`; the handlers read the `errno` of
the C library. The model keeps both variables. What a FreeBSD function returns is a parameter, and so
is what the code below it does to `errno` (`Kern.host`: the identity if nothing there touches it).
`lazybsd_ngctl` is declared and not defined here; it is taken to follow its siblings.

The arguments of a message are a union, modelled as the 32-bit words of its memory.
-/
import Mathlib.Tactic.Common

namespace LazyBsd.Control

/-! ## Error codes -/

/-- `LAZYBSD_ENOTSUP` and the `ENOTSUP` of the host. -/
def lazybsdEnotsup : Int := 45
def enotsup : Int := 95

/-- The cases of `lazybsd_os_errno`: FreeBSD's code and the host's. -/
def errnoTable : List (Int × Int) :=
  [(1, 1), (2, 2), (3, 3), (4, 4), (5, 5), (6, 6), (7, 7), (8, 8), (9, 9), (10, 10), (11, 35),
   (12, 12), (13, 13), (14, 14), (15, 15), (16, 16), (17, 17), (18, 18), (19, 19), (20, 20), (21, 21),
   (22, 22), (23, 23), (24, 24), (25, 25), (26, 26), (27, 27), (28, 28), (29, 29), (30, 30), (31, 31),
   (32, 32), (33, 33), (34, 34),
   (35, 11), (36, 115), (37, 114), (38, 88), (39, 89), (40, 90), (41, 91), (42, 92), (43, 93), (44, 94),
   (45, 95), (46, 96), (47, 97), (48, 98), (49, 99), (50, 100), (51, 101), (52, 102), (53, 103),
   (54, 104), (55, 105), (56, 106), (57, 107), (58, 108), (59, 109), (60, 110), (61, 111), (62, 40),
   (63, 36), (64, 112), (65, 113), (66, 39), (68, 87), (69, 122), (70, 116), (71, 66), (77, 37),
   (78, 38), (82, 43), (83, 42), (84, 75), (85, 125), (86, 84), (89, 74), (90, 72), (91, 67), (92, 71)]

/-- The value `lazybsd_os_errno` stores. -/
def osErrno (error : Int) : Int := (errnoTable.lookup error).getD error

/-! ## Messages and the process -/

/-- `enum LAZYBSD_MSG_TYPE`. -/
inductive MsgType
  | unknown
  | sysctl
  | ioctl
  | ioctl6
  | route
  | top
  | ngctl
  | ipfwCtl
  | traffic
  | knictl
  deriving DecidableEq, Repr

/-- The enumerator with the value, if there is one. -/
def MsgType.ofCode (code : UInt32) : Option MsgType :=
  match code.toNat with
  | 0 => some .unknown
  | 1 => some .sysctl
  | 2 => some .ioctl
  | 3 => some .ioctl6
  | 4 => some .route
  | 5 => some .top
  | 6 => some .ngctl
  | 7 => some .ipfwCtl
  | 8 => some .traffic
  | 9 => some .knictl
  | _ => none

/-- The words of the union of arguments. -/
abbrev Args := Nat → UInt32

/-- `struct lazybsd_msg`; a buffer address of 0 is `NULL`. -/
structure Msg where
  msgType : UInt32
  result : Int
  bufLen : Nat
  bufAddr : Nat
  originalBuf : Nat
  originalBufLen : Nat
  args : Args

/-- `ipfw.cmd`, `knictl.kni_cmd` and `knictl.kni_action`. -/
def Msg.ipfwCmd (msg : Msg) : UInt32 := msg.args 0
def Msg.kniCmd (msg : Msg) : UInt32 := msg.args 0
def Msg.kniAction (msg : Msg) : UInt32 := msg.args 1

/-- Store one word of the arguments. -/
def Msg.setArg (msg : Msg) (i : Nat) (v : UInt32) : Msg :=
  { msg with args := fun k => if k = i then v else msg.args k }

/-- Store the first `n` words of the arguments. -/
def Msg.setArgs (msg : Msg) (n : Nat) (words : Args) : Msg :=
  { msg with args := fun k => if k < n then words k else msg.args k }

/-- What the handlers read and write in the process. -/
structure Proc where
  errno : Int
  lazybsdErrno : Int
  knictlAction : UInt32
  topStatus : Args
  traffic : Args

/-- Which handlers are compiled in. -/
structure Build where
  inet6 : Bool
  netgraph : Bool
  ipfw : Bool
  kni : Bool
  deriving DecidableEq, Repr

/-! ## The FreeBSD functions -/

/-- The outcome of a FreeBSD function: its return code, 0 for success, and what becomes of `errno`. -/
structure Kern where
  rc : Int
  host : Int → Int

/-- `lazybsd_ngctl`: its result at least 0, or an error code. -/
structure NgKern extends Kern where
  ret : UInt32

/-- The route ioctl also stores the length of the reply. -/
structure RouteKern extends Kern where
  len : UInt32

/-- What the FreeBSD functions answer while one message is handled, for the arguments they get. -/
structure Calls where
  sysctl : Args → Kern
  socket : Int → Int → Int → Kern
  ioctl : Args → Kern
  route : Args → RouteKern
  ngctl : Args → NgKern
  getsockopt : Args → Kern
  setsockopt : Args → Kern
  close : Kern

/-- `AF_INET`, `AF_INET6`, `SOCK_DGRAM`, `SOCK_RAW` and `IPPROTO_RAW` of the host. -/
def afInet : Int := 2
def afInet6 : Int := 10
def sockDgram : Int := 2
def sockRaw : Int := 3
def ipprotoRaw : Int := 255

/-- `lazybsd_os_errno`. -/
def lazybsdOsErrno (error : Int) (p : Proc) : Proc := { p with lazybsdErrno := osErrno error }

/-- The tail that the functions share: `kern_fail` for a code other than 0. -/
def kernCall (k : Kern) (p : Proc) : Int × Proc :=
  let p := { p with errno := k.host p.errno }
  if k.rc ≠ 0 then (-1, lazybsdOsErrno k.rc p) else (0, p)

/-- `lazybsd_sysctl`, `lazybsd_socket` (a descriptor counts as 0), `lazybsd_ioctl_freebsd`,
`lazybsd_getsockopt_freebsd`, `lazybsd_setsockopt_freebsd` and `lazybsd_close`. -/
def lazybsdSysctl (o : Calls) (args : Args) (p : Proc) : Int × Proc := kernCall (o.sysctl args) p
def lazybsdSocket (o : Calls) (domain type protocol : Int) (p : Proc) : Int × Proc :=
  kernCall (o.socket domain type protocol) p
def lazybsdIoctlFreebsd (o : Calls) (args : Args) (p : Proc) : Int × Proc := kernCall (o.ioctl args) p
def lazybsdGetsockoptFreebsd (o : Calls) (args : Args) (p : Proc) : Int × Proc :=
  kernCall (o.getsockopt args) p
def lazybsdSetsockoptFreebsd (o : Calls) (args : Args) (p : Proc) : Int × Proc :=
  kernCall (o.setsockopt args) p
def lazybsdClose (o : Calls) (p : Proc) : Int × Proc := kernCall o.close p

/-- `lazybsd_rtioctl`, as the handler sees it. -/
def lazybsdRtioctl (o : Calls) (args : Args) (p : Proc) : Int × Proc := kernCall (o.route args).toKern p

/-- `lazybsd_ngctl`. -/
def lazybsdNgctl (o : Calls) (args : Args) (p : Proc) : Int × Proc := kernCall (o.ngctl args).toKern p

/-! ## The handlers -/

/-- `if (ret < 0) msg->result = errno; else msg->result = 0;` -/
def setResult (ret : Int) (p : Proc) (msg : Msg) : Msg :=
  { msg with result := if ret < 0 then p.errno else 0 }

/-- `handle_sysctl_msg`. -/
def handleSysctlMsg (o : Calls) (msg : Msg) (p : Proc) : Msg × Proc :=
  let (ret, p) := lazybsdSysctl o msg.args p
  (setResult ret p msg, p)

/-- The domain of the socket for an ioctl. -/
def ioctlDomain (b : Build) (msg : Msg) : Int :=
  if b.inet6 ∧ MsgType.ofCode msg.msgType = some .ioctl6 then afInet6 else afInet

/-- `handle_ioctl_msg`. -/
def handleIoctlMsg (b : Build) (o : Calls) (msg : Msg) (p : Proc) : Msg × Proc :=
  let (fd, p) := lazybsdSocket o (ioctlDomain b msg) sockDgram 0 p
  if fd < 0 then (setResult (-1) p msg, p)
  else
    let (ret, p) := lazybsdIoctlFreebsd o msg.args p
    let (_, p) := lazybsdClose o p
    (setResult ret p msg, p)

/-- `handle_route_msg`; the length is the second word of the arguments. -/
def handleRouteMsg (o : Calls) (msg : Msg) (p : Proc) : Msg × Proc :=
  let (ret, p) := lazybsdRtioctl o msg.args p
  (setResult ret p (msg.setArg 1 (o.route msg.args).len), p)

/-- `handle_top_msg`: five 64-bit counters. -/
def handleTopMsg (msg : Msg) (p : Proc) : Msg × Proc :=
  ({ msg.setArgs 10 p.topStatus with result := 0 }, p)

/-- `handle_ngctl_msg`; `ngctl.ret` is the second word of the arguments. -/
def handleNgctlMsg (o : Calls) (msg : Msg) (p : Proc) : Msg × Proc :=
  let (ret, p) := lazybsdNgctl o msg.args p
  if ret < 0 then ({ msg with result := p.errno }, p)
  else ({ msg.setArg 1 (o.ngctl msg.args).ret with result := 0 }, p)

/-- `LAZYBSD_IPFW_GET` and `LAZYBSD_IPFW_SET`. -/
def ipfwGet : UInt32 := 0
def ipfwSet : UInt32 := 1

/-- The switch on `ipfw.cmd`. -/
def ipfwCall (o : Calls) (msg : Msg) (p : Proc) : Int × Proc :=
  if msg.ipfwCmd = ipfwGet then lazybsdGetsockoptFreebsd o msg.args p
  else if msg.ipfwCmd = ipfwSet then lazybsdSetsockoptFreebsd o msg.args p
  else (-1, { p with errno := enotsup })

/-- `handle_ipfw_msg`. -/
def handleIpfwMsg (o : Calls) (msg : Msg) (p : Proc) : Msg × Proc :=
  let (fd, p) := lazybsdSocket o afInet sockRaw ipprotoRaw p
  if fd < 0 then (setResult (-1) p msg, p)
  else
    let (ret, p) := ipfwCall o msg p
    let (_, p) := lazybsdClose o p
    (setResult ret p msg, p)

/-- `handle_traffic_msg`: four 64-bit counters. -/
def handleTrafficMsg (msg : Msg) (p : Proc) : Msg × Proc :=
  ({ msg.setArgs 8 p.traffic with result := 0 }, p)

/-- `LAZYBSD_KNICTL_CMD_GET` and `LAZYBSD_KNICTL_CMD_SET`. -/
def knictlCmdGet : UInt32 := 0
def knictlCmdSet : UInt32 := 1

/-- `DEFAULT`, `ALL_TO_KNI` and `ALL_TO_FF`. -/
def knictlActions : List UInt32 := [0, 1, 2]

/-- `handle_knictl_msg`. -/
def handleKnictlMsg (msg : Msg) (p : Proc) : Msg × Proc :=
  if msg.kniCmd = knictlCmdSet then
    if msg.kniAction ∈ knictlActions then
      ({ msg with result := 0 }, { p with knictlAction := msg.kniAction })
    else ({ msg with result := -1 }, p)
  else if msg.kniCmd = knictlCmdGet then (msg.setArg 1 p.knictlAction, p)
  else ({ msg with result := -2 }, p)

/-- `handle_default_msg`. -/
def handleDefaultMsg (msg : Msg) (p : Proc) : Msg × Proc := ({ msg with result := enotsup }, p)

/-- The case of the switch in `handle_msg`; a type whose handler is not compiled in is `unknown`. -/
def handlerOf (b : Build) (code : UInt32) : MsgType :=
  match MsgType.ofCode code with
  | some .ioctl6 => if b.inet6 then .ioctl6 else .unknown
  | some .ngctl => if b.netgraph then .ngctl else .unknown
  | some .ipfwCtl => if b.ipfw then .ipfwCtl else .unknown
  | some .knictl => if b.kni then .knictl else .unknown
  | some t => t
  | none => .unknown

/-- The switch in `handle_msg`. -/
def dispatchMsg (b : Build) (o : Calls) (msg : Msg) (p : Proc) : Msg × Proc :=
  match handlerOf b msg.msgType with
  | .sysctl => handleSysctlMsg o msg p
  | .ioctl => handleIoctlMsg b o msg p
  | .ioctl6 => handleIoctlMsg b o msg p
  | .route => handleRouteMsg o msg p
  | .top => handleTopMsg msg p
  | .ngctl => handleNgctlMsg o msg p
  | .ipfwCtl => handleIpfwMsg o msg p
  | .traffic => handleTrafficMsg msg p
  | .knictl => handleKnictlMsg msg p
  | .unknown => handleDefaultMsg msg p

/-- A handler keeps the type and the buffers of the message. -/
theorem dispatchMsg_keeps (b : Build) (o : Calls) (msg : Msg) (p : Proc) :
    (dispatchMsg b o msg p).1.msgType = msg.msgType ∧
      (dispatchMsg b o msg p).1.bufAddr = msg.bufAddr ∧
      (dispatchMsg b o msg p).1.bufLen = msg.bufLen ∧
      (dispatchMsg b o msg p).1.originalBuf = msg.originalBuf ∧
      (dispatchMsg b o msg p).1.originalBufLen = msg.originalBufLen := by
  unfold dispatchMsg
  cases handlerOf b msg.msgType with
  | ioctl | ioctl6 =>
      unfold handleIoctlMsg
      dsimp only
      split <;> exact ⟨rfl, rfl, rfl, rfl, rfl⟩
  | ngctl =>
      simp only [handleNgctlMsg]
      split <;> exact ⟨rfl, rfl, rfl, rfl, rfl⟩
  | ipfwCtl =>
      simp only [handleIpfwMsg]
      split <;> exact ⟨rfl, rfl, rfl, rfl, rfl⟩
  | knictl =>
      simp only [handleKnictlMsg]
      repeat' split
      all_goals exact ⟨rfl, rfl, rfl, rfl, rfl⟩
  | _ => exact ⟨rfl, rfl, rfl, rfl, rfl⟩

end LazyBsd.Control
