/-
# LazyBsd.Socket.CmsgBounds — what the conversion of outgoing control messages touches.

`lazybsd_sendmsg` allocates as many bytes as the caller's control buffer has, and `linux2freebsd_cmsg`
walks both buffers, each by the lengths it finds there. No length is compared with the header or with
what is left of the buffer, and the function always returns 0: what it touches stays inside the buffers
for messages that are well formed and leave room for what is read and written of them.
-/
import LazyBsd.Socket.Address

namespace LazyBsd.Socket

open Lib.Object

variable {b : Contents Obj} {p q l f : Ptr Obj} {linuxMsg : Control} {r : Ram Obj} {n m v i k j : Nat}

/-! ## `linux2freebsd_cmsg`, access by access -/

/-- Where the objects lie. Both buffers end in the lower half of the address space, and the allocated
one is not the caller's. -/
structure Placement (linuxMsg : Control) where
  addr : Obj → Nat
  linux_low : addr linuxMsg.msgControl.obj + linuxMsg.stop ≤ 2 ^ 63
  freebsd_low : addr .control + linuxMsg.msgControllen ≤ 2 ^ 63
  apart : linuxMsg.msgControl.obj ≠ .control

/-- The address of a pointer. -/
def Placement.address (place : Placement linuxMsg) (p : Ptr Obj) : Nat :=
  (place.addr p.obj + p.off) % 2 ^ 64

/-- `_ALIGN`, computed as a `uintptr_t`: the lengths of the last 7 values become 0. -/
def align64 (n : Nat) : Nat := ((UInt64.ofNat n + 7) / 8 * 8).toNat

/-- `CMSG_NXTHDR` and `LINUX_CMSG_NXTHDR` of a message: the ends are compared as addresses. -/
def cmsgNxthdrCode (place : Placement linuxMsg) (lay : Layout) (c : Control) (cmsg : Ptr Obj) :
    Code Obj (Option (Ptr Obj)) := do
  let len ← load cmsg lay.lenSize
  let behind := (place.address c.msgControl + c.msgControllen) % 2 ^ 64
  if behind < (place.address cmsg + align64 len + dataOff) % 2 ^ 64 then
    return none
  else
    return some ⟨cmsg.obj, (cmsg.off + align64 len) % 2 ^ 64⟩

/-- `case LINUX_IP_TOS`. -/
def tosCode (linux freebsd : Ptr Obj) : Code Obj Unit := do
  store (freebsd + 8) 4 ipTos
  store freebsd 4 (dataOff + 1)
  let len ← load linux 8
  if len = dataOff + 4 then
    let tos ← load (linux + dataOff) 4
    store (freebsd + dataOff) 1 tos
  else
    let len ← load linux 8
    if len = dataOff + 1 then
      let tos ← load (linux + dataOff) 1
      store (freebsd + dataOff) 1 tos

/-- `case LINUX_IP_TTL`. -/
def ttlCode (linux freebsd : Ptr Obj) : Code Obj Unit := do
  store (freebsd + 8) 4 ipTtl
  store freebsd 4 (dataOff + 1)
  let ttl ← load (linux + dataOff) 4
  store (freebsd + dataOff) 1 ttl

/-- Both `default` cases. -/
def dataCode (linux freebsd : Ptr Obj) : Code Obj Unit := do
  let len ← load linux 8
  bcopy (linux + dataOff) (freebsd + dataOff) (payloadLen len)

/-- The three assignments to the FreeBSD header. -/
def headerCode (linux freebsd : Ptr Obj) : Code Obj Unit := do
  let type ← load (linux + 12) 4
  store (freebsd + 8) 4 type
  let level ← load (linux + 8) 4
  store (freebsd + 4) 4 level
  let len ← load linux 8
  store freebsd 4 (cmsgLenOf len)

/-- One turn of the loop in `linux2freebsd_cmsg`, up to the next headers. -/
def linux2freebsdTurnCode (linux freebsd : Ptr Obj) : Code Obj Unit := do
  headerCode linux freebsd
  let level ← load (linux + 8) 4
  if level = ipprotoIp then
    let type ← load (linux + 12) 4
    if type = linuxIpTos then tosCode linux freebsd
    else if type = linuxIpTtl then ttlCode linux freebsd
    else dataCode linux freebsd
  else
    dataCode linux freebsd

/-- The loop, for at most `turns` turns; `none` is a loop that is not through by then. -/
def linux2freebsdLoopCode (place : Placement linuxMsg) (freebsdMsg : Control) :
    Nat → Option (Ptr Obj) → Option (Ptr Obj) → Code Obj (Option Int)
  | turns + 1, some freebsd, some linux => do
      linux2freebsdTurnCode linux freebsd
      let linux ← cmsgNxthdrCode place .linux linuxMsg linux
      let freebsd ← cmsgNxthdrCode place .freebsd freebsdMsg freebsd
      linux2freebsdLoopCode place freebsdMsg turns freebsd linux
  | 0, some _, some _ => return none
  | _, _, _ => return some 0

/-- The header that `linux2freebsd_msghdr` fills: the allocated buffer, its length in a `socklen_t`. -/
def Control.copy (linuxMsg : Control) : Control where
  msgControl := freebsdCmsg
  msgControllen := linuxMsg.msgControllen % 2 ^ 32

/-- `linux2freebsd_cmsg`. -/
def linux2freebsdCmsgCode (place : Placement linuxMsg) (turns : Nat) : Code Obj (Option Int) :=
  linux2freebsdLoopCode place linuxMsg.copy turns (cmsgFirsthdr .freebsd linuxMsg.copy)
    (cmsgFirsthdr .linux linuxMsg)

/-! ## What may be touched -/

/-- The `n` bytes at `p` lie in the buffer. -/
def Control.Within (c : Control) (p : Ptr Obj) (n : Nat) : Prop :=
  p.obj = c.msgControl.obj ∧ c.msgControl.off ≤ p.off ∧ p.off + n ≤ c.stop

/-- The allocated bytes. -/
def Control.allocated (linuxMsg : Control) : Control := ⟨freebsdCmsg, linuxMsg.msgControllen⟩

/-- Writes stay in the allocated bytes, reads there or in the caller's. -/
def CmsgBounds (linuxMsg : Control) : Access Obj → Prop
  | .read p n => linuxMsg.Within p n ∨ linuxMsg.allocated.Within p n
  | .write p n => linuxMsg.allocated.Within p n
  | .null => False

/-- From `p` on the walk meets a message whose length is less than the header or more than what is left
of the buffer. -/
inductive Malformed (b : Contents Obj) (stop : Nat) : Ptr Obj → Prop
  | short {p : Ptr Obj} (hlen : cmsgLen .linux b p < dataOff) : Malformed b stop p
  | long {p : Ptr Obj} (hin : stop < p.off + cmsgLen .linux b p) : Malformed b stop p
  | later {p : Ptr Obj} (hlen : dataOff ≤ cmsgLen .linux b p)
      (hnext : p.off + align (cmsgLen .linux b p) + dataOff ≤ stop)
      (hrest : Malformed b stop (p + align (cmsgLen .linux b p))) : Malformed b stop p

/-- The conversion of the caller's buffer as it should be: it returns, touches nothing else, and fails
for a malformed message. -/
structure BoundedCmsg (place : Placement linuxMsg) (b : Contents Obj) (turns : Nat) (rc : Int) :
    Prop where
  returns : ((linux2freebsdCmsgCode place turns).run ⟨b, []⟩).1 = some rc
  touches : ∀ a ∈ touched (linux2freebsdCmsgCode place turns) b, CmsgBounds linuxMsg a
  rejects : Layout.linux.hdrSize ≤ linuxMsg.msgControllen →
    Malformed b linuxMsg.stop linuxMsg.msgControl → rc < 0

/-- `case LINUX_IP_TOS` and `case LINUX_IP_TTL`. -/
def Cmsg.IsTos (msg : Cmsg) : Prop := msg.level = ipprotoIp ∧ msg.type = linuxIpTos
def Cmsg.IsTtl (msg : Cmsg) : Prop := msg.level = ipprotoIp ∧ msg.type = linuxIpTtl

instance (msg : Cmsg) : Decidable msg.IsTos := inferInstanceAs (Decidable (_ ∧ _))
instance (msg : Cmsg) : Decidable msg.IsTtl := inferInstanceAs (Decidable (_ ∧ _))

/-- The bytes of data that are read of a message, and those that are written. -/
def Cmsg.dataRead (msg : Cmsg) : Nat :=
  if msg.IsTos then if msg.payload.length = 4 then 4 else if msg.payload.length = 1 then 1 else 0
  else if msg.IsTtl then 4 else msg.payload.length
def Cmsg.dataWritten (msg : Cmsg) : Nat :=
  if msg.IsTos then if msg.payload.length = 4 then 1 else if msg.payload.length = 1 then 1 else 0
  else if msg.IsTtl then 1 else msg.payload.length

/-- `cmsg_len` of the FreeBSD message, in 32 bits. -/
def Cmsg.copyLen (msg : Cmsg) : Nat :=
  if msg.IsTos ∨ msg.IsTtl then dataOff + 1 else (dataOff + msg.payload.length) % 2 ^ 32

theorem Cmsg.copyLen_byte {msg : Cmsg} (h : msg.IsTos ∨ msg.IsTtl) : msg.copyLen = dataOff + 1 :=
  if_pos h

theorem Cmsg.copyLen_data {msg : Cmsg} (htos : ¬ msg.IsTos) (httl : ¬ msg.IsTtl) :
    msg.copyLen = (dataOff + msg.payload.length) % 2 ^ 32 := if_neg (not_or.mpr ⟨htos, httl⟩)

theorem Cmsg.copyLen_lt (msg : Cmsg) : msg.copyLen < 2 ^ 32 := by
  rw [Cmsg.copyLen]
  split
  · decide
  · exact Nat.mod_lt _ (by decide)

/-- From offset `k` of the caller's buffer and offset `j` of the allocated one on, the data of each
message fits in both, as long as `CMSG_NXTHDR` finds a next header. -/
def Roomy (linuxMsg : Control) : Nat → Nat → List Cmsg → Prop
  | _, _, [] => True
  | k, j, msg :: ms =>
      k + dataOff + msg.dataRead ≤ linuxMsg.msgControllen ∧
        j + dataOff + msg.dataWritten ≤ linuxMsg.msgControllen ∧
        (j + align msg.copyLen + dataOff ≤ linuxMsg.copy.msgControllen →
          Roomy linuxMsg (k + align (dataOff + msg.payload.length)) (j + align msg.copyLen) ms)

/-! ## One turn -/

/-- `c` is `b` except in the object `o`. -/
def OnlyIn (o : Obj) (b c : Contents Obj) : Prop := ∀ q, q.obj ≠ o → c q = b q

section OnlyIn

variable {o : Obj} {c : Contents Obj}

theorem OnlyIn.refl : OnlyIn o b b := fun _ _ => rfl

theorem OnlyIn.put (h : OnlyIn o b c) (hp : p.obj = o) : OnlyIn o b (put c p n v) := by
  intro q hq
  rw [put_other fun hcovers => hq (hcovers.1.trans hp), h q hq]

theorem OnlyIn.copied (h : OnlyIn o b c) (hp : p.obj = o) : OnlyIn o b (copied c q p n) := by
  intro q hq
  rw [copied_other fun hcovers => hq (hcovers.1.trans hp), h q hq]

/-- A number, and a message, in another object. -/
theorem OnlyIn.number (h : OnlyIn o b c) (hp : p.obj ≠ o) : number c p n = number b p n :=
  number_congr fun _ _ => h _ hp

theorem OnlyIn.message (h : OnlyIn o b c) (hp : p.obj ≠ o) :
    cmsgLen .linux c p = cmsgLen .linux b p ∧ messageAt .linux c p = messageAt .linux b p := by
  apply messageAt_congr
  · intro i _
    exact h _ hp
  · intro i _
    exact h _ hp

theorem linux2freebsdHeader_onlyIn : OnlyIn f.obj b (linux2freebsdHeader b l f) :=
  OnlyIn.put (OnlyIn.put (OnlyIn.put OnlyIn.refl rfl) rfl) rfl

theorem linux2freebsdTurn_onlyIn : OnlyIn f.obj b (linux2freebsdTurn b l f) := by
  have hheader : OnlyIn f.obj b (linux2freebsdHeader b l f) := linux2freebsdHeader_onlyIn
  have hagain (t : Nat) : OnlyIn f.obj b (setCmsgLen .freebsd (setCmsgType .freebsd
      (linux2freebsdHeader b l f) f t) f (dataOff + 1)) := OnlyIn.put (OnlyIn.put hheader rfl) rfl
  rw [linux2freebsdTurn]
  split
  · dsimp only
    split
    · exact (hagain ipTos).put rfl
    · split
      · exact (hagain ipTos).put rfl
      · exact hagain ipTos
  · split
    · exact (hagain ipTtl).put rfl
    · exact hheader.copied rfl

end OnlyIn

section Turn

variable (l f) (hobj : f.obj ≠ l.obj)

/-- What a turn touches, by the message it reads. -/
def headerAccesses : List (Access Obj) :=
  [.read (l + 12) 4, .write (f + 8) 4, .read (l + 8) 4, .write (f + 4) 4, .read l 8, .write f 4]

def dataAccesses (msg : Cmsg) : List (Access Obj) :=
  [.read l 8, .read (l + dataOff) msg.payload.length, .write (f + dataOff) msg.payload.length]

def tosAccesses (msg : Cmsg) : List (Access Obj) :=
  [.write (f + 8) 4, .write f 4, .read l 8] ++
    if msg.payload.length = 4 then [.read (l + dataOff) 4, .write (f + dataOff) 1]
    else .read l 8 ::
      if msg.payload.length = 1 then [.read (l + dataOff) 1, .write (f + dataOff) 1] else []

def ttlAccesses : List (Access Obj) :=
  [.write (f + 8) 4, .write f 4, .read (l + dataOff) 4, .write (f + dataOff) 1]

def turnAccesses (msg : Cmsg) : List (Access Obj) :=
  headerAccesses l f ++ .read (l + 8) 4 ::
    if msg.level = ipprotoIp then
      .read (l + 12) 4 ::
        if msg.type = linuxIpTos then tosAccesses l f msg
        else if msg.type = linuxIpTtl then ttlAccesses l f
        else dataAccesses l f msg
    else dataAccesses l f msg

variable {l f}

theorem run_headerCode :
    (headerCode l f).run r = ((),
      { byte := linux2freebsdHeader r.byte l f, log := r.log ++ headerAccesses l f }) := by
  simp only [headerCode, run_bind, run_load, run_store, headerAccesses, List.append_assoc,
    List.cons_append, List.nil_append]
  rfl

theorem run_dataCode (hlen : dataOff ≤ cmsgLen .linux r.byte l) :
    (dataCode l f).run r = ((),
      { byte := copied r.byte (l + dataOff) (f + dataOff) (payloadLen (cmsgLen .linux r.byte l))
        log := r.log ++ dataAccesses l f (messageAt .linux r.byte l) }) := by
  have hmax : cmsgLen .linux r.byte l < 2 ^ 64 := number_lt r.byte l 8
  have hpayload : payloadLen (number r.byte l 8) = (messageAt .linux r.byte l).payload.length := by
    rw [length_payload_messageAt]
    exact payloadLen_eq hlen hmax
  have hcmsg : cmsgLen .linux r.byte l = number r.byte l 8 := rfl
  simp [dataCode, dataAccesses, hpayload, hcmsg]

theorem run_ttlCode :
    (ttlCode l f).run r = ((),
      { byte :=
          let b₁ := setCmsgLen .freebsd (setCmsgType .freebsd r.byte f ipTtl) f (dataOff + 1)
          put b₁ (f + dataOff) 1 (number b₁ (l + dataOff) 4)
        log := r.log ++ ttlAccesses l f }) := by
  simp only [ttlCode, ttlAccesses, run_bind, run_load, run_store, List.append_assoc,
    List.cons_append, List.nil_append]
  rfl

include hobj

theorem run_tosCode :
    (tosCode l f).run r = ((),
      { byte :=
          let b₁ := setCmsgLen .freebsd (setCmsgType .freebsd r.byte f ipTos) f (dataOff + 1)
          if cmsgLen .linux b₁ l = dataOff + 4 then
            put b₁ (f + dataOff) 1 (number b₁ (l + dataOff) 4)
          else if cmsgLen .linux b₁ l = dataOff + 1 then
            put b₁ (f + dataOff) 1 (number b₁ (l + dataOff) 1)
          else b₁
        log := r.log ++ tosAccesses l f (messageAt .linux r.byte l) }) := by
  obtain ⟨b₁, hb₁⟩ : ∃ b₁, b₁ = setCmsgLen .freebsd (setCmsgType .freebsd r.byte f ipTos) f
      (dataOff + 1) := ⟨_, rfl⟩
  have honly : OnlyIn f.obj r.byte b₁ := hb₁ ▸ OnlyIn.put (OnlyIn.put OnlyIn.refl rfl) rfl
  have hlen : cmsgLen .linux b₁ l = dataOff + 4 ↔ (messageAt .linux r.byte l).payload.length = 4 := by
    rw [length_payload_messageAt, (honly.message hobj.symm).1]
    omega
  have hlen' : cmsgLen .linux b₁ l = dataOff + 1 ↔ (messageAt .linux r.byte l).payload.length = 1 := by
    rw [length_payload_messageAt, (honly.message hobj.symm).1]
    omega
  have hfields : b₁ = put (put r.byte (f + 8) 4 ipTos) f 4 (dataOff + 1) := hb₁
  have hcmsg : cmsgLen .linux b₁ l = number b₁ l 8 := rfl
  rw [hcmsg] at hlen hlen'
  simp only [← hb₁, hcmsg, tosCode, run_bind, run_store, ← hfields, run_load]
  by_cases hint : number b₁ l 8 = dataOff + 4
  · simp only [hint, hlen.mp hint, tosAccesses, if_true, run_bind, run_load, run_store,
      List.append_assoc, List.cons_append, List.nil_append]
  · have hnint : ¬ (messageAt .linux r.byte l).payload.length = 4 := fun h => hint (hlen.mpr h)
    by_cases hchar : number b₁ l 8 = dataOff + 1
    · simp only [hint, if_neg hnint, tosAccesses, if_false, if_pos hchar, if_pos (hlen'.mp hchar),
        run_bind, run_load, run_store, List.append_assoc, List.cons_append, List.nil_append]
    · have hnchar : ¬ (messageAt .linux r.byte l).payload.length = 1 := fun h => hchar (hlen'.mpr h)
      simp only [hint, hchar, hnint, hnchar, tosAccesses, if_false, run_bind, run_load, run_pure,
        List.append_assoc, List.cons_append, List.nil_append]

/-- A turn is that of the translation; the message it reads decides what it touches. -/
theorem run_linux2freebsdTurnCode (hlen : dataOff ≤ cmsgLen .linux r.byte l) :
    (linux2freebsdTurnCode l f).run r = ((),
      { byte := linux2freebsdTurn r.byte l f
        log := r.log ++ turnAccesses l f (messageAt .linux r.byte l) }) := by
  obtain ⟨hlen', hmsg⟩ := OnlyIn.message (linux2freebsdHeader_onlyIn (b := r.byte) (l := l)) hobj.symm
  rw [← hlen'] at hlen
  have hlevel : cmsgLevel .linux (linux2freebsdHeader r.byte l f) l =
      (messageAt .linux r.byte l).level := congrArg Cmsg.level hmsg
  have htype : cmsgType .linux (linux2freebsdHeader r.byte l f) l =
      (messageAt .linux r.byte l).type := congrArg Cmsg.type hmsg
  have hlevel' : number (linux2freebsdHeader r.byte l f) (l + 8) 4 = _ := hlevel
  have htype' : number (linux2freebsdHeader r.byte l f) (l + 12) 4 = _ := htype
  rw [linux2freebsdTurnCode, run_bind, run_headerCode, linux2freebsdTurn, hlevel, htype, turnAccesses]
  have hdata (log : List (Access Obj)) :=
    run_dataCode (f := f) (r := ⟨linux2freebsdHeader r.byte l f, log⟩) hlen
  simp only [run_bind, run_load, hlevel']
  by_cases hip : (messageAt .linux r.byte l).level = ipprotoIp
  · by_cases htos : (messageAt .linux r.byte l).type = linuxIpTos
    · simp only [hip, htos, htype', and_self, if_true, run_bind, run_load, run_tosCode hobj, hmsg,
        List.append_assoc, List.cons_append, List.nil_append]
    · by_cases httl : (messageAt .linux r.byte l).type = linuxIpTtl
      · have hne : linuxIpTtl ≠ linuxIpTos := by decide
        simp only [hip, httl, htype', hne, and_self, and_false, if_true, if_false, run_bind, run_load,
          run_ttlCode, List.append_assoc, List.cons_append, List.nil_append]
      · simp only [hip, htos, httl, htype', and_false, if_true, if_false, run_bind, run_load,
          hdata, hmsg, List.append_assoc, List.cons_append, List.nil_append]
  · simp only [hip, false_and, if_false, hdata, hmsg, List.append_assoc,
      List.cons_append, List.nil_append]

theorem cmsgLen_linux2freebsdHeader :
    cmsgLen .freebsd (linux2freebsdHeader b l f) f = cmsgLen .linux b l % 2 ^ 32 := by
  have hsame : OnlyIn f.obj b (setCmsgLevel .freebsd (setCmsgType .freebsd b f (cmsgType .linux b l)) f
      (cmsgLevel .linux (setCmsgType .freebsd b f (cmsgType .linux b l)) l)) :=
    OnlyIn.put (OnlyIn.put OnlyIn.refl rfl) rfl
  have hmax : cmsgLen .linux b l < 2 ^ 64 := number_lt b l 8
  rw [linux2freebsdHeader, cmsgLen_setCmsgLen, (hsame.message hobj.symm).1, cmsgLenOf_eq hmax]
  rfl

/-- The length that the FreeBSD message gets. -/
theorem cmsgLen_linux2freebsdTurn (hlen : dataOff ≤ cmsgLen .linux b l) :
    cmsgLen .freebsd (linux2freebsdTurn b l f) f = (messageAt .linux b l).copyLen := by
  obtain ⟨-, hmsg⟩ := OnlyIn.message (linux2freebsdHeader_onlyIn (b := b) (l := l)) hobj.symm
  have hlevel : cmsgLevel .linux (linux2freebsdHeader b l f) l = (messageAt .linux b l).level :=
    congrArg Cmsg.level hmsg
  have htype : cmsgType .linux (linux2freebsdHeader b l f) l = (messageAt .linux b l).type :=
    congrArg Cmsg.type hmsg
  have hbehind (c : Contents Obj) (n v : Nat) :
      cmsgLen .freebsd (put c (f + dataOff) n v) f = cmsgLen .freebsd c f :=
    number_put_later (by decide)
  have hbyte (c : Contents Obj) : cmsgLen .freebsd (setCmsgLen .freebsd c f (dataOff + 1)) f = dataOff + 1 :=
    cmsgLen_setCmsgLen
  rw [linux2freebsdTurn, hlevel, htype]
  by_cases htos : (messageAt .linux b l).level = ipprotoIp ∧ (messageAt .linux b l).type = linuxIpTos
  · rw [if_pos htos, Cmsg.copyLen_byte (.inl htos)]
    dsimp only
    split
    · rw [hbehind, hbyte]
    · split
      · rw [hbehind, hbyte]
      · rw [hbyte]
  · rw [if_neg htos]
    by_cases httl : (messageAt .linux b l).level = ipprotoIp ∧ (messageAt .linux b l).type = linuxIpTtl
    · rw [if_pos httl, Cmsg.copyLen_byte (.inr httl)]
      exact (hbehind _ _ _).trans (hbyte _)
    · have hdata : cmsgLen .freebsd (copied (linux2freebsdHeader b l f) (l + dataOff) (f + dataOff)
          (payloadLen (cmsgLen .linux (linux2freebsdHeader b l f) l))) f =
          cmsgLen .freebsd (linux2freebsdHeader b l f) f :=
        (header_congr .freebsd fun i hi => copied_other (not_covers_data_of_lt _ hi)).1
      rw [if_neg httl, Cmsg.copyLen_data htos httl, hdata, length_payload_messageAt,
        Nat.add_sub_cancel' hlen]
      exact cmsgLen_linux2freebsdHeader hobj

end Turn

/-! ## The next header -/

theorem align64_eq (h : n + 8 ≤ 2 ^ 64) : align64 n = align n := by
  have hn : (UInt64.ofNat n).toNat = n := by
    rw [UInt64.toNat_ofNat_of_lt']
    show n < 2 ^ 64
    omega
  rw [align64, align, UInt64.toNat_mul, UInt64.toNat_div, UInt64.toNat_add, hn]
  have hseven : (7 : UInt64).toNat = 7 := rfl
  have height : (8 : UInt64).toNat = 8 := rfl
  rw [hseven, height]
  omega

section Next

variable (place : Placement linuxMsg)

/-- In buffers that lie low, no end wraps around. -/
theorem run_cmsgNxthdrCode (lay : Layout) {c : Control} (hobj : p.obj = c.msgControl.obj)
    (hlow : place.addr c.msgControl.obj + c.stop ≤ 2 ^ 63)
    (hend : place.addr c.msgControl.obj + p.off + cmsgLen lay r.byte p ≤ 2 ^ 63 + 2 ^ 32) :
    (cmsgNxthdrCode place lay c p).run r =
      (cmsgNxthdr lay c r.byte p, { r with log := r.log ++ [.read p lay.lenSize] }) := by
  obtain ⟨hle, hlt, -⟩ := align_spec (cmsgLen lay r.byte p)
  have hcmsg : number r.byte p lay.lenSize = cmsgLen lay r.byte p := rfl
  have halign : align64 (cmsgLen lay r.byte p) = align (cmsgLen lay r.byte p) := align64_eq (by omega)
  have hoff : c.stop = c.msgControl.off + c.msgControllen := rfl
  have htest : (place.address c.msgControl + c.msgControllen) % 2 ^ 64 <
      (place.address p + align (cmsgLen lay r.byte p) + dataOff) % 2 ^ 64 ↔
      c.stop < p.off + align (cmsgLen lay r.byte p) + dataOff := by
    -- all sums of the comparison are below 2⁶⁴
    rw [Placement.address, Placement.address, hobj]
    unfold dataOff
    omega
  rw [cmsgNxthdrCode, run_bind, run_load, hcmsg, halign, cmsgNxthdr]
  by_cases hnext : c.stop < p.off + align (cmsgLen lay r.byte p) + dataOff
  · rw [if_pos (htest.mpr hnext), if_pos hnext, run_pure]
  · have hmod : (p.off + align (cmsgLen lay r.byte p)) % 2 ^ 64 =
        p.off + align (cmsgLen lay r.byte p) := Nat.mod_eq_of_lt (by omega)
    rw [if_neg fun h => hnext (htest.mp h), if_neg hnext, run_pure, hmod]
    rfl

end Next

/-! ## The whole walk -/

section Walk

variable (place : Placement linuxMsg)

include place in
theorem cmsgBounds_read :
    CmsgBounds linuxMsg (.read (linuxMsg.msgControl + k) n) ↔ k + n ≤ linuxMsg.msgControllen := by
  constructor
  · rintro (⟨-, -, hin⟩ | ⟨hobj, -⟩)
    · rw [Control.stop, Ptr.add_off] at hin
      omega
    · exact absurd hobj place.apart
  · intro hin
    refine .inl ⟨rfl, Nat.le_add_right _ _, ?_⟩
    rw [Control.stop, Ptr.add_off]
    omega

theorem cmsgBounds_write :
    CmsgBounds linuxMsg (.write (freebsdCmsg + j) n) ↔ j + n ≤ linuxMsg.msgControllen := by
  have hstop : linuxMsg.allocated.stop = 0 + linuxMsg.msgControllen := rfl
  have hoff : (freebsdCmsg + j).off = 0 + j := rfl
  constructor
  · rintro ⟨-, -, hin⟩
    omega
  · intro hin
    exact ⟨rfl, Nat.zero_le _, by omega⟩

theorem cmsgBounds_own (h : j + n ≤ linuxMsg.msgControllen) :
    CmsgBounds linuxMsg (.read (freebsdCmsg + j) n) := .inr (cmsgBounds_write.mpr h)

include place

section Turn

variable {msg : Cmsg}

theorem ttlAccesses_bounded :
    (∀ a ∈ ttlAccesses (linuxMsg.msgControl + k) (freebsdCmsg + j), CmsgBounds linuxMsg a) ↔
      k + dataOff + 4 ≤ linuxMsg.msgControllen ∧ j + dataOff + 1 ≤ linuxMsg.msgControllen := by
  unfold dataOff
  simp only [ttlAccesses, dataOff, Ptr.add_add, List.forall_mem_cons, cmsgBounds_read place,
    cmsgBounds_write, List.not_mem_nil, IsEmpty.forall_iff, implies_true, and_true]
  omega

variable (hk : k + dataOff ≤ linuxMsg.msgControllen)
include hk

theorem dataAccesses_bounded :
    (∀ a ∈ dataAccesses (linuxMsg.msgControl + k) (freebsdCmsg + j) msg, CmsgBounds linuxMsg a) ↔
      k + dataOff + msg.payload.length ≤ linuxMsg.msgControllen ∧
        j + dataOff + msg.payload.length ≤ linuxMsg.msgControllen := by
  unfold dataOff at hk
  simp only [dataAccesses, Ptr.add_add, List.forall_mem_cons, cmsgBounds_read place,
    cmsgBounds_write, List.not_mem_nil, IsEmpty.forall_iff, implies_true, and_true]
  omega

variable (hj : j + dataOff ≤ linuxMsg.msgControllen)
include hj

/-- The headers are in both buffers. -/
theorem headerAccesses_bounded :
    ∀ a ∈ headerAccesses (linuxMsg.msgControl + k) (freebsdCmsg + j), CmsgBounds linuxMsg a := by
  unfold dataOff at hk hj
  simp only [headerAccesses, Ptr.add_add, List.forall_mem_cons, cmsgBounds_read place,
    cmsgBounds_write, List.not_mem_nil, IsEmpty.forall_iff, implies_true, and_true]
  omega

theorem tosAccesses_bounded (htos : msg.IsTos) :
    (∀ a ∈ tosAccesses (linuxMsg.msgControl + k) (freebsdCmsg + j) msg, CmsgBounds linuxMsg a) ↔
      k + dataOff + msg.dataRead ≤ linuxMsg.msgControllen ∧
        j + dataOff + msg.dataWritten ≤ linuxMsg.msgControllen := by
  rw [tosAccesses, Cmsg.dataRead, Cmsg.dataWritten, if_pos htos, if_pos htos]
  unfold dataOff at hk hj ⊢
  by_cases hint : msg.payload.length = 4
  · simp only [hint, if_true, Ptr.add_add, List.forall_mem_append, List.forall_mem_cons,
      cmsgBounds_read place, cmsgBounds_write, List.not_mem_nil, IsEmpty.forall_iff, implies_true, and_true]
    omega
  · by_cases hchar : msg.payload.length = 1
    · simp only [if_neg hint, if_pos hchar, Ptr.add_add, List.forall_mem_append,
        List.forall_mem_cons, cmsgBounds_read place, cmsgBounds_write, List.not_mem_nil,
        IsEmpty.forall_iff, implies_true, and_true]
      omega
    · simp only [if_neg hint, if_neg hchar, Ptr.add_add, List.forall_mem_append,
        List.forall_mem_cons, cmsgBounds_read place, cmsgBounds_write, List.not_mem_nil,
        IsEmpty.forall_iff, implies_true, and_true]
      omega

/-- What a turn touches is in bounds when the data is. -/
theorem turnAccesses_bounded :
    (∀ a ∈ turnAccesses (linuxMsg.msgControl + k) (freebsdCmsg + j) msg, CmsgBounds linuxMsg a) ↔
      k + dataOff + msg.dataRead ≤ linuxMsg.msgControllen ∧
        j + dataOff + msg.dataWritten ≤ linuxMsg.msgControllen := by
  have hheader := headerAccesses_bounded place hk hj
  have hlevel : CmsgBounds linuxMsg (.read (linuxMsg.msgControl + k + 8) 4) := by
    rw [Ptr.add_add, cmsgBounds_read place]
    unfold dataOff at hk
    omega
  have htype : CmsgBounds linuxMsg (.read (linuxMsg.msgControl + k + 12) 4) := by
    rw [Ptr.add_add, cmsgBounds_read place]
    unfold dataOff at hk
    omega
  have hdata : (∀ a ∈ dataAccesses (linuxMsg.msgControl + k) (freebsdCmsg + j) msg, _) ↔ _ :=
    dataAccesses_bounded place hk
  rw [turnAccesses, List.forall_mem_append, and_iff_right hheader, List.forall_mem_cons,
    and_iff_right hlevel]
  by_cases hip : msg.level = ipprotoIp
  · rw [if_pos hip, List.forall_mem_cons, and_iff_right htype]
    by_cases htos : msg.type = linuxIpTos
    · rw [if_pos htos]
      exact tosAccesses_bounded place hk hj ⟨hip, htos⟩
    · have hntos : ¬ msg.IsTos := fun h => htos h.2
      rw [if_neg htos, Cmsg.dataRead, Cmsg.dataWritten, if_neg hntos, if_neg hntos]
      by_cases httl : msg.type = linuxIpTtl
      · have hmsg : msg.IsTtl := ⟨hip, httl⟩
        rw [if_pos httl, if_pos hmsg, if_pos hmsg]
        exact ttlAccesses_bounded place
      · have hnttl : ¬ msg.IsTtl := fun h => httl h.2
        rw [if_neg httl, if_neg hnttl, if_neg hnttl]
        exact hdata
  · have hntos : ¬ msg.IsTos := fun h => hip h.1
    have hnttl : ¬ msg.IsTtl := fun h => hip h.1
    rw [if_neg hip, Cmsg.dataRead, Cmsg.dataWritten, if_neg hntos, if_neg hntos, if_neg hnttl,
      if_neg hnttl]
    exact hdata

end Turn

theorem run_linux2freebsdLoopCode_linux_none (freebsdMsg : Control) (turns : Nat)
    (freebsd : Option (Ptr Obj)) :
    (linux2freebsdLoopCode place freebsdMsg turns freebsd none).run r = (some 0, r) := by
  cases turns <;> cases freebsd <;> rfl

theorem run_linux2freebsdLoopCode_freebsd_none (freebsdMsg : Control) (turns : Nat)
    (linux : Option (Ptr Obj)) :
    (linux2freebsdLoopCode place freebsdMsg turns none linux).run r = (some 0, r) := by
  cases turns <;> rfl

/-- The accesses of a turn and of the steps to the next headers. -/
def stepAccesses (l f : Ptr Obj) (msg : Cmsg) : List (Access Obj) :=
  turnAccesses l f msg ++ [.read l 8, .read f 4]

section Step

variable {msg : Cmsg} {ms : List Cmsg}
  (hholds : Holds .linux r.byte linuxMsg.stop (linuxMsg.msgControl + k) (msg :: ms))
  (hj : j + dataOff ≤ linuxMsg.msgControllen)
include hholds hj

theorem stepAccesses_bounded :
    (∀ a ∈ stepAccesses (linuxMsg.msgControl + k) (freebsdCmsg + j) msg, CmsgBounds linuxMsg a) ↔
      k + dataOff + msg.dataRead ≤ linuxMsg.msgControllen ∧
        j + dataOff + msg.dataWritten ≤ linuxMsg.msgControllen := by
  obtain ⟨hlen, hin, -⟩ := hholds.len_le
  rw [Control.stop, Ptr.add_off] at hin
  have hlinux : CmsgBounds linuxMsg (.read (linuxMsg.msgControl + k) 8) := by
    rw [cmsgBounds_read place]
    unfold dataOff at hlen
    omega
  have hfreebsd : CmsgBounds linuxMsg (.read (freebsdCmsg + j) 4) := by
    apply cmsgBounds_own
    unfold dataOff at hj
    omega
  have hlens : ∀ a ∈ [Access.read (linuxMsg.msgControl + k) 8, .read (freebsdCmsg + j) 4],
      CmsgBounds linuxMsg a :=
    List.forall_mem_cons.mpr ⟨hlinux, List.forall_mem_singleton.mpr hfreebsd⟩
  rw [stepAccesses, List.forall_mem_append, and_iff_left hlens]
  exact turnAccesses_bounded place (by omega) hj

/-- One turn with its steps. -/
theorem run_linux2freebsdLoopCode_succ :
    ∃ b₁, OnlyIn .control r.byte b₁ ∧ ∀ turns,
      (linux2freebsdLoopCode place linuxMsg.copy (turns + 1) (some (freebsdCmsg + j))
        (some (linuxMsg.msgControl + k))).run r =
      (linux2freebsdLoopCode place linuxMsg.copy turns
        (if linuxMsg.copy.msgControllen < j + align msg.copyLen + dataOff then none
          else some (freebsdCmsg + (j + align msg.copyLen)))
        (cmsgNxthdr .linux linuxMsg r.byte (linuxMsg.msgControl + k))).run
          ⟨b₁, r.log ++ stepAccesses (linuxMsg.msgControl + k) (freebsdCmsg + j) msg⟩ := by
  obtain ⟨hlen, hin, hmsg⟩ := hholds.len_le
  have hlow := place.linux_low
  have hlow' := place.freebsd_low
  have hcopyLow : place.addr linuxMsg.copy.msgControl.obj + linuxMsg.copy.stop ≤ 2 ^ 63 := by
    have hmod : linuxMsg.msgControllen % 2 ^ 32 ≤ linuxMsg.msgControllen := Nat.mod_le _ _
    show place.addr .control + (0 + linuxMsg.msgControllen % 2 ^ 32) ≤ 2 ^ 63
    omega
  have hend : place.addr .control + (0 + j) + msg.copyLen ≤ 2 ^ 63 + 2 ^ 32 := by
    have hcopy := msg.copyLen_lt
    omega
  -- the turn writes into the allocated object only, so the caller's header is as it was
  have hobj : (freebsdCmsg + j).obj ≠ (linuxMsg.msgControl + k).obj := place.apart.symm
  have honly : OnlyIn .control r.byte
      (linux2freebsdTurn r.byte (linuxMsg.msgControl + k) (freebsdCmsg + j)) :=
    linux2freebsdTurn_onlyIn (f := freebsdCmsg + j)
  have hlinux := (honly.message (p := linuxMsg.msgControl + k) place.apart).1
  have hfreebsd := cmsgLen_linux2freebsdTurn hobj hlen
  rw [hmsg] at hfreebsd
  refine ⟨_, honly, fun turns => ?_⟩
  have hlinuxNext := fun log => run_cmsgNxthdrCode place .linux
    (r := ⟨linux2freebsdTurn r.byte (linuxMsg.msgControl + k) (freebsdCmsg + j), log⟩)
    (p := linuxMsg.msgControl + k) rfl hlow (by rw [hlinux]; omega)
  have hfreebsdNext := fun log => run_cmsgNxthdrCode place .freebsd (c := linuxMsg.copy)
    (r := ⟨linux2freebsdTurn r.byte (linuxMsg.msgControl + k) (freebsdCmsg + j), log⟩)
    (p := freebsdCmsg + j) rfl hcopyLow (by rw [hfreebsd]; exact hend)
  have hnext : cmsgNxthdr .linux linuxMsg (linux2freebsdTurn r.byte (linuxMsg.msgControl + k)
      (freebsdCmsg + j)) (linuxMsg.msgControl + k) =
      cmsgNxthdr .linux linuxMsg r.byte (linuxMsg.msgControl + k) := by
    rw [cmsgNxthdr, cmsgNxthdr, hlinux]
  have hnext' : cmsgNxthdr .freebsd linuxMsg.copy (linux2freebsdTurn r.byte
      (linuxMsg.msgControl + k) (freebsdCmsg + j)) (freebsdCmsg + j) =
      if linuxMsg.copy.msgControllen < j + align msg.copyLen + dataOff then none
      else some (freebsdCmsg + (j + align msg.copyLen)) := by
    have hstop : linuxMsg.copy.stop = linuxMsg.copy.msgControllen := Nat.zero_add _
    have hoff : (freebsdCmsg + j).off = j := Nat.zero_add _
    rw [cmsgNxthdr, hfreebsd, hstop, hoff, Ptr.add_add]
  rw [linux2freebsdLoopCode, run_bind, run_linux2freebsdTurnCode hobj hlen, run_bind, hlinuxNext,
    run_bind, hfreebsdNext, hnext, hnext', hmsg, stepAccesses]
  simp only [List.append_assoc]
  rfl

end Step

/-- The walk from offset `k` of the caller's buffer and offset `j` of the allocated one: it returns 0,
and what it touches is in bounds exactly when there is room. -/
theorem run_linux2freebsdLoopCode {msg : Cmsg} {ms : List Cmsg}
    (hholds : Holds .linux r.byte linuxMsg.stop (linuxMsg.msgControl + k) (msg :: ms))
    (hj : j + dataOff ≤ linuxMsg.msgControllen) :
    ∃ acc b', (∀ turns, ms.length < turns →
        (linux2freebsdLoopCode place linuxMsg.copy turns (some (freebsdCmsg + j))
          (some (linuxMsg.msgControl + k))).run r = (some 0, ⟨b', r.log ++ acc⟩)) ∧
      ((∀ a ∈ acc, CmsgBounds linuxMsg a) ↔ Roomy linuxMsg k j (msg :: ms)) := by
  induction ms generalizing r k j msg with
  | nil =>
      obtain ⟨b₁, -, hrun⟩ := run_linux2freebsdLoopCode_succ place hholds hj
      have hend : cmsgNxthdr .linux linuxMsg r.byte (linuxMsg.msgControl + k) = none := by
        cases hholds with
        | last _ _ hend => exact if_pos hend
        | more _ _ hrest => cases hrest
      refine ⟨stepAccesses (linuxMsg.msgControl + k) (freebsdCmsg + j) msg, b₁, ?_, ?_⟩
      · intro turns hturns
        obtain ⟨turns, rfl⟩ : ∃ i, turns = i + 1 := ⟨_, (Nat.sub_add_cancel hturns).symm⟩
        rw [hrun, hend, run_linux2freebsdLoopCode_linux_none]
      · rw [stepAccesses_bounded place hholds hj]
        simp only [Roomy, implies_true, and_true]
  | cons m ms ih =>
      obtain ⟨b₁, honly, hrun⟩ := run_linux2freebsdLoopCode_succ place hholds hj
      obtain ⟨hlen, hin, hmsg⟩ := hholds.len_le
      have hstep := stepAccesses_bounded place hholds hj
      have hwhole : dataOff + msg.payload.length = cmsgLen .linux r.byte (linuxMsg.msgControl + k) := by
        rw [← hmsg, length_payload_messageAt, Nat.add_sub_cancel' hlen]
      obtain ⟨hnext, hrest⟩ : (linuxMsg.msgControl + k).off +
          align (cmsgLen .linux r.byte (linuxMsg.msgControl + k)) + dataOff ≤ linuxMsg.stop ∧
          Holds .linux r.byte linuxMsg.stop (linuxMsg.msgControl + k +
            align (cmsgLen .linux r.byte (linuxMsg.msgControl + k))) (m :: ms) := by
        cases hholds with
        | more _ hnext hrest => exact ⟨hnext, hrest⟩
      have hmore : cmsgNxthdr .linux linuxMsg r.byte (linuxMsg.msgControl + k) =
          some (linuxMsg.msgControl + (k + align (dataOff + msg.payload.length))) := by
        rw [cmsgNxthdr, if_neg (Nat.not_lt.mpr hnext), hwhole, Ptr.add_add]
      rw [hmore] at hrun
      by_cases hroom : j + align msg.copyLen + dataOff ≤ linuxMsg.copy.msgControllen
      · -- both walks go on; the rest of the caller's buffer is as it was
        rw [if_neg (Nat.not_lt.mpr hroom)] at hrun
        have hcopy : linuxMsg.copy.msgControllen ≤ linuxMsg.msgControllen := Nat.mod_le _ _
        have hrest' : Holds .linux b₁ linuxMsg.stop (linuxMsg.msgControl +
            (k + align (dataOff + msg.payload.length))) (m :: ms) := by
          rw [hwhole, ← Ptr.add_add]
          apply hrest.congr
          intro q hobj _ _
          exact honly q fun h => place.apart (hobj.symm.trans h)
        obtain ⟨acc, b', hloop, hacc⟩ := ih (r := ⟨b₁, _⟩) hrest' (hroom.trans hcopy)
        refine ⟨stepAccesses (linuxMsg.msgControl + k) (freebsdCmsg + j) msg ++ acc, b', ?_, ?_⟩
        · intro turns hturns
          obtain ⟨turns, rfl⟩ : ∃ i, turns = i + 1 := ⟨_, (Nat.sub_add_cancel (by omega)).symm⟩
          rw [hrun, hloop turns (by rw [List.length_cons] at hturns; omega), List.append_assoc]
        · rw [List.forall_mem_append, hstep, hacc, and_assoc]
          exact and_congr_right fun _ => and_congr_right fun _ => ⟨fun h _ => h, fun h => h hroom⟩
      · -- the walk of the copy ends the loop, with messages left over
        rw [if_pos (Nat.not_le.mp hroom)] at hrun
        refine ⟨stepAccesses (linuxMsg.msgControl + k) (freebsdCmsg + j) msg, b₁, ?_, ?_⟩
        · intro turns hturns
          obtain ⟨turns, rfl⟩ : ∃ i, turns = i + 1 := ⟨_, (Nat.sub_add_cancel (by omega)).symm⟩
          rw [hrun, run_linux2freebsdLoopCode_freebsd_none]
        · rw [hstep, Roomy]
          simp only [hroom, false_imp_iff, and_true]

end Walk

/-! ## Bounded, or not -/

/-- Either the walk meets only well-formed messages, or it meets a malformed one. -/
theorem not_malformed_iff {stop : Nat} :
    ¬ Malformed b stop p ↔ ∃ ms, Holds .linux b stop p ms := by
  constructor
  · intro hwell
    -- a well-formed message is not empty, so less is left behind it
    induction hleft : stop - p.off using Nat.strong_induction_on generalizing p with
    | _ left ih =>
        have hlen : dataOff ≤ cmsgLen .linux b p :=
          Nat.not_lt.mp fun h => hwell (.short h)
        have hin : p.off + cmsgLen .linux b p ≤ stop :=
          Nat.not_lt.mp fun h => hwell (.long h)
        by_cases hnext : p.off + align (cmsgLen .linux b p) + dataOff ≤ stop
        · have hrest : ¬ Malformed b stop (p + align (cmsgLen .linux b p)) :=
            fun h => hwell (.later hlen hnext h)
          have hpos := dataOff_le_align hlen
          obtain ⟨ms, hms⟩ := ih (stop - (p.off + align (cmsgLen .linux b p)))
            (by unfold dataOff at hpos hnext; omega) hrest rfl
          exact ⟨_, .more hlen hnext hms⟩
        · exact ⟨_, .last hlen hin (Nat.not_le.mp hnext)⟩
  · rintro ⟨ms, hms⟩ hbad
    induction hms with
    | last hlen hin hend =>
        cases hbad with
        | short h => omega
        | long h => omega
        | later _ hnext _ => omega
    | @more p ms hlen hnext hrest ih =>
        have hspace := (align_spec (cmsgLen .linux b p)).1
        cases hbad with
        | short h => omega
        | long h => omega
        | later _ _ hrest' => exact ih hrest'

section Whole

variable (place : Placement linuxMsg)

/-- A loop that is through has returned 0, and more turns change nothing. -/
theorem linux2freebsdLoopCode_through (more : Nat) {turns : Nat} {freebsd linux : Option (Ptr Obj)}
    {rc : Int}
    (h : ((linux2freebsdLoopCode place linuxMsg.copy turns freebsd linux).run r).1 = some rc) :
    rc = 0 ∧ (linux2freebsdLoopCode place linuxMsg.copy (turns + more) freebsd linux).run r =
      (linux2freebsdLoopCode place linuxMsg.copy turns freebsd linux).run r := by
  induction turns generalizing freebsd linux r with
  | zero =>
      cases freebsd with
      | none =>
          rw [run_linux2freebsdLoopCode_freebsd_none] at h ⊢
          rw [run_linux2freebsdLoopCode_freebsd_none]
          exact ⟨(Option.some.inj h).symm, rfl⟩
      | some freebsd =>
          cases linux with
          | none =>
              rw [run_linux2freebsdLoopCode_linux_none] at h ⊢
              rw [run_linux2freebsdLoopCode_linux_none]
              exact ⟨(Option.some.inj h).symm, rfl⟩
          | some linux => cases h
  | succ turns ih =>
      rw [Nat.add_right_comm]
      cases freebsd with
      | none => exact ⟨(Option.some.inj h).symm, rfl⟩
      | some freebsd =>
          cases linux with
          | none => exact ⟨(Option.some.inj h).symm, rfl⟩
          | some linux => exact ih h

/-- The conversion of a buffer that holds a header and nothing malformed. -/
theorem run_linux2freebsdCmsgCode {ms : List Cmsg} (hlinux : Layout.linux.hdrSize ≤ linuxMsg.msgControllen)
    (hholds : Holds .linux b linuxMsg.stop linuxMsg.msgControl ms) :
    ∃ acc b', (∀ turns, ms.length ≤ turns →
        (linux2freebsdCmsgCode place turns).run ⟨b, []⟩ = (some 0, ⟨b', acc⟩)) ∧
      ((∀ a ∈ acc, CmsgBounds linuxMsg a) ↔
        (Layout.freebsd.hdrSize ≤ linuxMsg.copy.msgControllen → Roomy linuxMsg 0 0 ms)) := by
  have hfirst : cmsgFirsthdr .linux linuxMsg = some linuxMsg.msgControl := if_pos hlinux
  by_cases hfreebsd : Layout.freebsd.hdrSize ≤ linuxMsg.copy.msgControllen
  · have hfirst' : cmsgFirsthdr .freebsd linuxMsg.copy = some freebsdCmsg := if_pos hfreebsd
    cases ms with
    | nil => cases hholds
    | cons msg ms =>
        obtain ⟨acc, b', hloop, hacc⟩ := run_linux2freebsdLoopCode place (k := 0) (j := 0)
          (r := ⟨b, []⟩) hholds (by rwa [Nat.zero_add])
        refine ⟨acc, b', fun turns hturns => ?_, ?_⟩
        · rw [linux2freebsdCmsgCode, hfirst, hfirst']
          exact hloop turns hturns
        · rw [hacc]
          exact ⟨fun h _ => h, fun h => h hfreebsd⟩
  · have hfirst' : cmsgFirsthdr .freebsd linuxMsg.copy = none := if_neg hfreebsd
    refine ⟨[], b, fun turns _ => ?_, ?_⟩
    · rw [linux2freebsdCmsgCode, hfirst', run_linux2freebsdLoopCode_freebsd_none]
    · exact ⟨fun _ h => absurd h hfreebsd, fun _ a ha => absurd ha List.not_mem_nil⟩

/-- `lazybsd_sendmsg` converts a control buffer within its bounds exactly when the buffer holds no header,
or holds nothing malformed and, as far as both walks go, has room for the data of each message. -/
theorem sendmsg_cmsg_bounded_iff (b : Contents Obj) :
    (∃ turns rc, BoundedCmsg place b turns rc) ↔
      (Layout.linux.hdrSize ≤ linuxMsg.msgControllen →
        ∃ ms, Holds .linux b linuxMsg.stop linuxMsg.msgControl ms ∧
          (Layout.freebsd.hdrSize ≤ linuxMsg.copy.msgControllen → Roomy linuxMsg 0 0 ms)) := by
  constructor
  · rintro ⟨turns, rc, hbounded⟩ hlinux
    obtain ⟨rfl, -⟩ := linux2freebsdLoopCode_through place 0 hbounded.returns
    -- 0 is no failure: nothing can be malformed
    obtain ⟨ms, hholds⟩ := not_malformed_iff.mp fun hbad =>
      absurd (hbounded.rejects hlinux hbad) (by decide)
    obtain ⟨acc, b', hrun, hacc⟩ := run_linux2freebsdCmsgCode place hlinux hholds
    have hsame := (linux2freebsdLoopCode_through place ms.length hbounded.returns).2
    have hend : (linux2freebsdCmsgCode place turns).run ⟨b, []⟩ = (some 0, ⟨b', acc⟩) :=
      hsame.symm.trans (hrun (turns + ms.length) (Nat.le_add_left _ _))
    have htouches := hbounded.touches
    rw [touched, hend] at htouches
    exact ⟨ms, hholds, hacc.mp htouches⟩
  · intro h
    by_cases hlinux : Layout.linux.hdrSize ≤ linuxMsg.msgControllen
    · obtain ⟨ms, hholds, hroomy⟩ := h hlinux
      obtain ⟨acc, b', hrun, hacc⟩ := run_linux2freebsdCmsgCode place hlinux hholds
      have hend := hrun ms.length le_rfl
      refine ⟨ms.length, 0, ?_, ?_, ?_⟩
      · rw [hend]
      · rw [touched, hend]
        exact hacc.mpr hroomy
      · intro _ hbad
        exact absurd hbad (not_malformed_iff.mpr ⟨ms, hholds⟩)
    · have hfirst : cmsgFirsthdr .linux linuxMsg = none := if_neg hlinux
      have hrun : (linux2freebsdCmsgCode place 0).run ⟨b, []⟩ = (some 0, ⟨b, []⟩) := by
        rw [linux2freebsdCmsgCode, hfirst, run_linux2freebsdLoopCode_linux_none]
      refine ⟨0, 0, ?_, ?_, ?_⟩
      · rw [hrun]
      · rw [touched, hrun]
        exact fun a ha => absurd ha List.not_mem_nil
      · exact fun h => absurd h hlinux

end Whole

theorem Sample.apart : (⟨⟨.caller 0, 0⟩, 24⟩ : Control).msgControl.obj ≠ .control := by decide

/-- A page for each buffer. -/
def Sample.placement : Placement ⟨⟨.caller 0, 0⟩, 24⟩ where
  addr o := if o = .control then 65536 else 4096
  linux_low := by decide
  freebsd_low := by decide
  apart := Sample.apart

theorem sendmsg_cmsg_bounded_tos :
    ∃ turns rc, BoundedCmsg Sample.placement Sample.tos turns rc :=
  (sendmsg_cmsg_bounded_iff Sample.placement Sample.tos).mpr fun _ =>
    ⟨[messageAt .linux Sample.tos ⟨.caller 0, 0⟩], .last (by decide) (by decide) (by decide),
      fun _ => ⟨by decide, by decide, fun _ => trivial⟩⟩

/-- An `SCM_RIGHTS` message in 24 bytes that claims to have 1000. -/
def Sample.overlong : Contents Obj :=
  fun p => [232, 3, 0, 0, 0, 0, 0, 0, 1, 0, 0, 0, 1].getD p.off 0

/-- The 984 bytes behind its header are copied behind a header of 24 bytes, and nothing fails. -/
theorem sendmsg_cmsg_unbounded :
    .write ⟨.control, 16⟩ 984 ∈
        touched (linux2freebsdTurnCode ⟨.caller 0, 0⟩ freebsdCmsg) Sample.overlong ∧
      ¬ ∀ (linuxMsg : Control) (place : Placement linuxMsg) (b : Contents Obj),
        ∃ turns rc, BoundedCmsg place b turns rc := by
  constructor
  · decide
  · intro h
    obtain ⟨turns, rc, hbounded⟩ := h ⟨⟨.caller 0, 0⟩, 24⟩ Sample.placement Sample.overlong
    obtain ⟨rfl, -⟩ := linux2freebsdLoopCode_through _ 0 hbounded.returns
    have hbad : Malformed Sample.overlong 24 ⟨.caller 0, 0⟩ := .long (by decide)
    exact absurd (hbounded.rejects (by decide) hbad) (by decide)

end LazyBsd.Socket
