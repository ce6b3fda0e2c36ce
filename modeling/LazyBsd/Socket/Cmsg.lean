/-
# LazyBsd.Socket.Cmsg — control messages, and their translation between the two header layouts.

A control buffer is a row of messages, each a header, its data from byte 16 on, and padding up to 8
bytes. FreeBSD's header has a 32 bit length and 12 bytes, Linux' a 64 bit length and 16: level and type
lie at other places, the data at the same. `recvmsg` translates one buffer in place,
`sendmsg` into a second buffer.

FreeBSD's `CMSG_*` macros step like the `LINUX_CMSG_*` ones, under their own header. Offsets are natural
numbers: an end that wraps around the address space is not modelled.
-/
import LazyBsd.Socket.Sockaddr

namespace LazyBsd.Socket

open Lib.Object

/-! ## The two layouts -/

/-- `struct cmsghdr` and `struct linux_cmsghdr`. -/
inductive Layout
  | freebsd
  | linux
deriving DecidableEq, Repr

/-- The bytes of `cmsg_len`, behind which `cmsg_level` and `cmsg_type` follow. -/
def Layout.lenSize : Layout → Nat
  | .freebsd => 4
  | .linux => 8

/-- `sizeof` the header. -/
def Layout.hdrSize (lay : Layout) : Nat := lay.lenSize + 8

/-- `_ALIGN`. -/
def align (n : Nat) : Nat := (n + 7) / 8 * 8

/-- The aligned size of either header: where the data begins. -/
def dataOff : Nat := 16

def cmsgLen (lay : Layout) (b : Contents Obj) (p : Ptr Obj) : Nat := number b p lay.lenSize
def cmsgLevel (lay : Layout) (b : Contents Obj) (p : Ptr Obj) : Nat := number b (p + lay.lenSize) 4
def cmsgType (lay : Layout) (b : Contents Obj) (p : Ptr Obj) : Nat :=
  number b (p + (lay.lenSize + 4)) 4

def setCmsgLen (lay : Layout) (b : Contents Obj) (p : Ptr Obj) (v : Nat) : Contents Obj :=
  put b p lay.lenSize v
def setCmsgLevel (lay : Layout) (b : Contents Obj) (p : Ptr Obj) (v : Nat) : Contents Obj :=
  put b (p + lay.lenSize) 4 v
def setCmsgType (lay : Layout) (b : Contents Obj) (p : Ptr Obj) (v : Nat) : Contents Obj :=
  put b (p + (lay.lenSize + 4)) 4 v

/-- `msg_control` and `msg_controllen` of a `struct msghdr`. -/
structure Control where
  msgControl : Ptr Obj
  msgControllen : Nat
deriving DecidableEq, Repr

/-- The offset behind the buffer. -/
def Control.stop (c : Control) : Nat := c.msgControl.off + c.msgControllen

/-- `CMSG_FIRSTHDR` and `LINUX_CMSG_FIRSTHDR`. -/
def cmsgFirsthdr (lay : Layout) (c : Control) : Option (Ptr Obj) :=
  if lay.hdrSize ≤ c.msgControllen then some c.msgControl else none

/-- `CMSG_NXTHDR` and `LINUX_CMSG_NXTHDR` of a message. -/
def cmsgNxthdr (lay : Layout) (c : Control) (b : Contents Obj) (cmsg : Ptr Obj) :
    Option (Ptr Obj) :=
  if c.stop < cmsg.off + align (cmsgLen lay b cmsg) + dataOff then none
  else some (cmsg + align (cmsgLen lay b cmsg))

/-! ## The translations -/

def ipprotoIp : Nat := 0

/-- FreeBSD's `IP_TOS`, `IP_TTL`, `IP_RECVTTL` and `IP_RECVTOS`. -/
def ipTos : Nat := 3
def ipTtl : Nat := 4
def ipRecvttl : Nat := 65
def ipRecvtos : Nat := 68

def linuxIpTos : Nat := 1
def linuxIpTtl : Nat := 2

/-- `CMSG_LEN(len - 16)` and `LINUX_CMSG_LEN(len - 16)`, computed as a `size_t`. -/
def cmsgLenOf (len : Nat) : Nat := (16 + (UInt64.ofNat len - 16)).toNat

/-- `cmsg_len - sizeof(struct linux_cmsghdr)`, computed as a `size_t`. -/
def payloadLen (len : Nat) : Nat := (UInt64.ofNat len - 16).toNat

/-- The three assignments to the Linux header, in this order: in place, none overwrites what a later
one reads. -/
def freebsd2linuxHeader (b : Contents Obj) (freebsd linux : Ptr Obj) : Contents Obj :=
  let b₁ := setCmsgType .linux b linux (cmsgType .freebsd b freebsd)
  let b₂ := setCmsgLevel .linux b₁ linux (cmsgLevel .freebsd b₁ freebsd)
  setCmsgLen .linux b₂ linux (cmsgLenOf (cmsgLen .freebsd b₂ freebsd))

/-- One turn of the loop in `freebsd2linux_cmsghdr`. -/
def freebsd2linuxTurn (b : Contents Obj) (freebsd linux : Ptr Obj) : Contents Obj :=
  let b₁ := freebsd2linuxHeader b freebsd linux
  if cmsgLevel .linux b₁ linux = ipprotoIp ∧ cmsgType .linux b₁ linux = ipRecvtos then
    let b₂ := setCmsgType .linux b₁ linux linuxIpTos
    put b₂ (linux + dataOff) 1 (number b₂ (freebsd + dataOff) 1)
  else if cmsgLevel .linux b₁ linux = ipprotoIp ∧ cmsgType .linux b₁ linux = ipRecvttl then
    let b₂ := setCmsgLen .linux b₁ linux (dataOff + 4)
    let b₃ := setCmsgType .linux b₂ linux linuxIpTtl
    put b₃ (linux + dataOff) 4 (number b₃ (freebsd + dataOff) 1)
  else
    copied b₁ (freebsd + dataOff) (linux + dataOff) (payloadLen (cmsgLen .linux b₁ linux))

/-- The loop, for at most `turns` turns; `none` is a loop that is not through by then. -/
def freebsd2linuxLoop (linuxMsg freebsdMsg : Control) : Nat → Option (Ptr Obj) → Option (Ptr Obj) →
    Contents Obj → Option (Contents Obj)
  | turns + 1, some freebsd, some linux, b =>
      let b₁ := freebsd2linuxTurn b freebsd linux
      freebsd2linuxLoop linuxMsg freebsdMsg turns (cmsgNxthdr .freebsd freebsdMsg b₁ freebsd)
        (cmsgNxthdr .linux linuxMsg b₁ linux) b₁
  | 0, some _, some _, _ => none
  | _, _, _, b => some b

def freebsd2linuxCmsghdr (linuxMsg freebsdMsg : Control) (turns : Nat) (b : Contents Obj) :
    Option (Contents Obj) :=
  freebsd2linuxLoop linuxMsg freebsdMsg turns (cmsgFirsthdr .freebsd freebsdMsg)
    (cmsgFirsthdr .linux linuxMsg) b

/-- The three assignments to the FreeBSD header. -/
def linux2freebsdHeader (b : Contents Obj) (linux freebsd : Ptr Obj) : Contents Obj :=
  let b₁ := setCmsgType .freebsd b freebsd (cmsgType .linux b linux)
  let b₂ := setCmsgLevel .freebsd b₁ freebsd (cmsgLevel .linux b₁ linux)
  setCmsgLen .freebsd b₂ freebsd (cmsgLenOf (cmsgLen .linux b₂ linux))

/-- One turn of the loop in `linux2freebsd_cmsg`. -/
def linux2freebsdTurn (b : Contents Obj) (linux freebsd : Ptr Obj) : Contents Obj :=
  let b₁ := linux2freebsdHeader b linux freebsd
  if cmsgLevel .linux b₁ linux = ipprotoIp ∧ cmsgType .linux b₁ linux = linuxIpTos then
    let b₂ := setCmsgType .freebsd b₁ freebsd ipTos
    let b₃ := setCmsgLen .freebsd b₂ freebsd (dataOff + 1)
    -- an `int` or a `char`; of another size nothing is taken over
    if cmsgLen .linux b₃ linux = dataOff + 4 then
      put b₃ (freebsd + dataOff) 1 (number b₃ (linux + dataOff) 4)
    else if cmsgLen .linux b₃ linux = dataOff + 1 then
      put b₃ (freebsd + dataOff) 1 (number b₃ (linux + dataOff) 1)
    else b₃
  else if cmsgLevel .linux b₁ linux = ipprotoIp ∧ cmsgType .linux b₁ linux = linuxIpTtl then
    let b₂ := setCmsgType .freebsd b₁ freebsd ipTtl
    let b₃ := setCmsgLen .freebsd b₂ freebsd (dataOff + 1)
    put b₃ (freebsd + dataOff) 1 (number b₃ (linux + dataOff) 4)
  else
    copied b₁ (linux + dataOff) (freebsd + dataOff) (payloadLen (cmsgLen .linux b₁ linux))

def linux2freebsdLoop (linuxMsg freebsdMsg : Control) : Nat → Option (Ptr Obj) → Option (Ptr Obj) →
    Contents Obj → Option (Contents Obj)
  | turns + 1, some freebsd, some linux, b =>
      let b₁ := linux2freebsdTurn b linux freebsd
      linux2freebsdLoop linuxMsg freebsdMsg turns (cmsgNxthdr .freebsd freebsdMsg b₁ freebsd)
        (cmsgNxthdr .linux linuxMsg b₁ linux) b₁
  | 0, some _, some _, _ => none
  | _, _, _, b => some b

def linux2freebsdCmsg (linuxMsg freebsdMsg : Control) (turns : Nat) (b : Contents Obj) :
    Option (Contents Obj) :=
  linux2freebsdLoop linuxMsg freebsdMsg turns (cmsgFirsthdr .freebsd freebsdMsg)
    (cmsgFirsthdr .linux linuxMsg) b

/-! ## Messages -/

/-- A control message, apart from its layout. -/
structure Cmsg where
  level : Nat
  type : Nat
  payload : List UInt8
deriving DecidableEq, Repr

/-- The message whose header is at `p`. -/
def messageAt (lay : Layout) (b : Contents Obj) (p : Ptr Obj) : Cmsg where
  level := cmsgLevel lay b p
  type := cmsgType lay b p
  payload := bytesAt b (p + dataOff) (cmsgLen lay b p - dataOff)

/-- The messages that the macros visit from `p` on, in at most `turns` steps. -/
def cmsgWalk (lay : Layout) (c : Control) (b : Contents Obj) :
    Nat → Option (Ptr Obj) → Option (List Cmsg)
  | _, none => some []
  | 0, some _ => none
  | turns + 1, some p =>
      (cmsgWalk lay c b turns (cmsgNxthdr lay c b p)).map (messageAt lay b p :: ·)

/-- The messages of a control buffer. -/
def cmsgs (lay : Layout) (c : Control) (b : Contents Obj) (turns : Nat) : Option (List Cmsg) :=
  cmsgWalk lay c b turns (cmsgFirsthdr lay c)

/-- From `p` on the buffer that ends at `stop` holds these messages: each length covers the header and
ends inside, and the walk goes on while another header fits. -/
inductive Holds (lay : Layout) (b : Contents Obj) (stop : Nat) : Ptr Obj → List Cmsg → Prop
  | last {p : Ptr Obj} (hlen : dataOff ≤ cmsgLen lay b p) (hin : p.off + cmsgLen lay b p ≤ stop)
      (hend : stop < p.off + align (cmsgLen lay b p) + dataOff) :
      Holds lay b stop p [messageAt lay b p]
  | more {p : Ptr Obj} {ms : List Cmsg} (hlen : dataOff ≤ cmsgLen lay b p)
      (hnext : p.off + align (cmsgLen lay b p) + dataOff ≤ stop)
      (hrest : Holds lay b stop (p + align (cmsgLen lay b p)) ms) :
      Holds lay b stop p (messageAt lay b p :: ms)

/-- From `p` on the buffer that ends at `stop` holds these messages, each padded to `CMSG_SPACE` and
none cut off. -/
inductive Padded (lay : Layout) (b : Contents Obj) (stop : Nat) : Ptr Obj → List Cmsg → Prop
  | nil {p : Ptr Obj} (hend : p.off = stop) : Padded lay b stop p []
  | cons {p : Ptr Obj} {ms : List Cmsg} (hlen : dataOff ≤ cmsgLen lay b p)
      (hrest : Padded lay b stop (p + align (cmsgLen lay b p)) ms) :
      Padded lay b stop p (messageAt lay b p :: ms)

/-- What `freebsd2linux_cmsghdr` is to make of a message: the type of service and the time to live
under Linux' names, the latter as an `int`. -/
def Cmsg.toLinux (m : Cmsg) : Cmsg :=
  if m.level = ipprotoIp ∧ m.type = ipRecvtos then { m with type := linuxIpTos }
  else if m.level = ipprotoIp ∧ m.type = ipRecvttl then
    { m with type := linuxIpTtl, payload := m.payload.take 1 ++ [0, 0, 0] }
  else m

/-- What `linux2freebsd_cmsg` is to make of a message: both narrowed to a byte. -/
def Cmsg.toFreebsd (m : Cmsg) : Cmsg :=
  if m.level = ipprotoIp ∧ m.type = linuxIpTos then
    { m with type := ipTos, payload := m.payload.take 1 }
  else if m.level = ipprotoIp ∧ m.type = linuxIpTtl then
    { m with type := ipTtl, payload := m.payload.take 1 }
  else m

/-- The kernel's `IP_RECVTTL` carries a byte: its data, padded, has room for an `int`. -/
def Cmsg.FromKernel (m : Cmsg) : Prop :=
  m.level = ipprotoIp → m.type = ipRecvttl → 1 ≤ m.payload.length ∧ m.payload.length ≤ 8

/-- `IP_TOS` carries a `char` or an `int`, `IP_TTL` an `int`. -/
def Cmsg.FromLinux (m : Cmsg) : Prop :=
  m.level = ipprotoIp →
    (m.type = linuxIpTos → m.payload.length = 1 ∨ m.payload.length = 4) ∧
      (m.type = linuxIpTtl → m.payload.length = 4)

end LazyBsd.Socket
