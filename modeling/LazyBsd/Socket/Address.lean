/-
# LazyBsd.Socket.Address — which lengths of an address the entry points take.

`bind`, `connect`, `sendto` and `sendmsg` convert the caller's address into a `struct sockaddr_storage`
of their own and call the stack with it. None of them looks at the length: the conversion stays in
bounds, and the stack gets the length the caller gave, exactly for 2 to 128 bytes.
-/
import LazyBsd.Socket.Outgoing

namespace LazyBsd.Socket

open Lib.Object

/-! ## The entry points, up to the call of the stack -/

def enomem : Nat := 12

/-- What an entry point does once the address is dealt with: it fails with an error, or it calls the
stack with a `struct sockaddr *`. -/
inductive ToStack
  | error (rc : Nat)
  | call (name : Option (Ptr Obj))
deriving DecidableEq, Repr

/-- The local `bsdaddr`, also called `freebsd_sa`, and the allocated `freebsd_cmsg`. -/
def bsdaddr : Ptr Obj := ⟨.storage, 0⟩
def freebsdCmsg : Ptr Obj := ⟨.control, 0⟩

def lazybsdBind (addr : Option (Ptr Obj)) (addrlen : UInt32) : Code Obj ToStack := do
  linux2freebsdSockaddr addr addrlen (some bsdaddr)
  return .call (some bsdaddr)

def lazybsdConnect (name : Option (Ptr Obj)) (namelen : UInt32) : Code Obj ToStack := do
  linux2freebsdSockaddr name namelen (some bsdaddr)
  return .call (some bsdaddr)

def lazybsdSendto (to_ : Option (Ptr Obj)) (tolen : UInt32) : Code Obj ToStack := do
  if to_.isSome then
    linux2freebsdSockaddr to_ tolen (some bsdaddr)
    return .call (some bsdaddr)
  else
    return .call none

/-- `struct linux_msghdr`; `msg_iov` is an array with an index. -/
structure LinuxMsghdr where
  msgName : Option (Ptr Obj)
  msgNamelen : UInt32
  msgIov : Ptr Obj
  msgIovlen : UInt64
  msgControl : Option (Ptr Obj)
  msgControllen : UInt64
  msgFlags : UInt32
deriving DecidableEq, Repr

/-- FreeBSD's `struct msghdr`, with its shorter lengths. -/
structure Msghdr where
  msgName : Option (Ptr Obj)
  msgNamelen : UInt32
  msgIov : Ptr Obj
  msgIovlen : UInt32
  msgControl : Option (Ptr Obj)
  msgControllen : UInt32
  msgFlags : UInt32
deriving DecidableEq, Repr

/-- `linux2freebsd_cmsg` in memory; `none` when it is not through after `turns` turns. -/
def convertCmsg (linuxMsg freebsdMsg : Control) (turns : Nat) : Code Obj (Option Unit) := fun r =>
  match linux2freebsdCmsg linuxMsg freebsdMsg turns r.byte with
  | none => (none, r)
  | some b => (some (), { r with byte := b })

/-- `linux2freebsd_msghdr`, of a header that has `name` and `control` for its buffers. Neither pointer to
a header is `NULL`. -/
def linux2freebsdMsghdr (linuxMsg : LinuxMsghdr) (name control : Option (Ptr Obj)) (sendFlag : Bool)
    (turns : Nat) : Code Obj (Option Msghdr) := do
  let freebsdMsg : Msghdr :=
    { msgName := linuxMsg.msgName
      msgNamelen := linuxMsg.msgNamelen
      msgIov := linuxMsg.msgIov
      msgIovlen := linuxMsg.msgIovlen.toUInt32
      msgControl := linuxMsg.msgControl
      msgControllen := linuxMsg.msgControllen.toUInt32
      msgFlags := linuxMsg.msgFlags }
  if sendFlag then
    linux2freebsdSockaddr linuxMsg.msgName linuxMsg.msgNamelen name
    let freebsdMsg := if linuxMsg.msgName.isSome && name.isSome then
      { freebsdMsg with msgName := name } else freebsdMsg
    match linuxMsg.msgControl, control with
    | some linux, some freebsd =>
        let through ← convertCmsg ⟨linux, linuxMsg.msgControllen.toNat⟩
          ⟨freebsd, freebsdMsg.msgControllen.toNat⟩ turns
        return through.map fun _ => { freebsdMsg with msgControl := control }
    | some _, none => return some { freebsdMsg with msgControl := none }
    | none, _ => return some freebsdMsg
  else
    return some freebsdMsg

/-- `malloced` is the outcome of the allocation of `freebsd_cmsg`. -/
def lazybsdSendmsg (msg : LinuxMsghdr) (malloced : Bool) (turns : Nat) :
    Code Obj (Option ToStack) := do
  if msg.msgControl.isSome && !malloced then
    return some (.error enomem)
  else
    let control := if msg.msgControl.isSome then some freebsdCmsg else none
    let freebsdMsg ← linux2freebsdMsghdr msg (some bsdaddr) control true turns
    return freebsdMsg.map fun m => .call m.msgName

/-! ## What may be touched -/

/-- Reads stay in the caller's `addrlen` bytes, writes in the callee's storage. -/
def InputBounds (addr : Option (Ptr Obj)) (addrlen : UInt32) : Access Obj → Prop
  | .read p n => ∃ a, addr = some a ∧ p.obj = a.obj ∧ a.off ≤ p.off ∧ p.off + n ≤ a.off + addrlen.toNat
  | .write p n => p.obj = .storage ∧ p.off + n ≤ sockaddrStorageSize
  | .null => False

/-- A length that a `struct sockaddr` in a `struct sockaddr_storage` can have. -/
def Representable (addrlen : UInt32) : Prop :=
  2 ≤ addrlen.toNat ∧ addrlen.toNat ≤ sockaddrStorageSize

instance (addrlen : UInt32) : Decidable (Representable addrlen) :=
  inferInstanceAs (Decidable (_ ∧ _))

/-- An entry point takes `addrlen` bytes at `addr` as it should: it touches nothing else, the stack gets
the length, and a length that cannot be represented is an error before anything is converted. -/
structure BoundedInput (call : Code Obj (Option ToStack)) (addr : Option (Ptr Obj))
    (addrlen : UInt32) (b : Contents Obj) : Prop where
  touches : ∀ a ∈ touched call b, InputBounds addr addrlen a
  passes : addr.isSome → ∀ name, (call.run ⟨b, []⟩).1 = some (.call name) →
    ∃ p, name = some p ∧ saLen (after call b) p = addrlen.toNat
  rejects : addr.isSome → ¬ Representable addrlen →
    (∃ rc, (call.run ⟨b, []⟩).1 = some (.error rc)) ∧ touched call b = []

section Conversion

variable {b : Contents Obj} {linux freebsd : Ptr Obj} {addrlen : UInt32} {r : Ram Obj}

/-- What a conversion touches. -/
def conversionAccesses (linux : Ptr Obj) (addrlen : UInt32) (freebsd : Ptr Obj) :
    List (Access Obj) :=
  [.read linux 2, .write (freebsd + 1) 1, .write freebsd 1] ++
    if linux = freebsd then []
    else [.read (linux + 2) (dataLen addrlen.toNat), .write (freebsd + 2) (dataLen addrlen.toNat)]

theorem run_linux2freebsdSockaddr :
    (linux2freebsdSockaddr (some linux) addrlen (some freebsd)).run r =
      ((), { byte := after (linux2freebsdSockaddr (some linux) addrlen (some freebsd)) r.byte
             log := r.log ++ conversionAccesses linux addrlen freebsd }) := by
  by_cases hsame : linux = freebsd
  · simp [after, linux2freebsdSockaddr, conversionAccesses, hsame]
  · simp [after, linux2freebsdSockaddr, conversionAccesses, Ptr.add_inj, hsame]

/-- A length that fits keeps the conversion in bounds. -/
theorem conversionAccesses_inBounds (hlen : Representable addrlen) :
    ∀ a ∈ conversionAccesses linux addrlen bsdaddr, InputBounds (some linux) addrlen a := by
  obtain ⟨hlo, hhi⟩ := hlen
  have hdata : dataLen addrlen.toNat = addrlen.toNat - 2 :=
    dataLen_of_two_le hlo (by unfold sockaddrStorageSize at hhi; omega)
  intro a ha
  have hread : InputBounds (some linux) addrlen (.read linux 2) :=
    ⟨linux, rfl, rfl, le_rfl, by omega⟩
  have hwrite {k m : Nat} (hk : k + m ≤ sockaddrStorageSize) :
      InputBounds (some linux) addrlen (.write (bsdaddr + k) m) := by
    refine ⟨rfl, ?_⟩
    rw [Ptr.add_off]
    show 0 + k + m ≤ _
    omega
  rw [conversionAccesses, List.mem_append] at ha
  rcases ha with hhead | hcopy
  · simp only [List.mem_cons, List.not_mem_nil, or_false] at hhead
    rcases hhead with rfl | rfl | rfl
    · exact hread
    · exact hwrite (by decide)
    · exact hwrite (k := 0) (by decide)
  · split at hcopy
    · cases hcopy
    · rw [hdata] at hcopy
      simp only [List.mem_cons, List.not_mem_nil, or_false] at hcopy
      rcases hcopy with rfl | rfl
      · refine ⟨linux, rfl, rfl, ?_, ?_⟩
        · rw [Ptr.add_off]
          omega
        · rw [Ptr.add_off]
          omega
      · exact hwrite (by omega)

end Conversion

/-! ## The control messages stay away -/

section Control

variable {b b' : Contents Obj} {l f q : Ptr Obj} {linuxMsg freebsdMsg : Control}

theorem put_elsewhere {p : Ptr Obj} {n v : Nat} (h : q.obj ≠ p.obj) : put b p n v q = b q :=
  put_other fun ⟨hobj, _, _⟩ => h hobj

theorem linux2freebsdTurn_elsewhere (h : q.obj ≠ f.obj) : linux2freebsdTurn b l f q = b q := by
  have hput {c : Contents Obj} {k n v : Nat} : put c (f + k) n v q = c q := put_elsewhere h
  have hput₀ {c : Contents Obj} {n v : Nat} : put c f n v q = c q := put_elsewhere h
  have hheader : linux2freebsdHeader b l f q = b q := by
    simp only [linux2freebsdHeader, setCmsgLen, setCmsgLevel, setCmsgType, hput, hput₀]
  unfold linux2freebsdTurn
  dsimp only
  split
  · split
    · simp only [setCmsgLen, setCmsgType, hput, hput₀, hheader]
    · split
      · simp only [setCmsgLen, setCmsgType, hput, hput₀, hheader]
      · simp only [setCmsgLen, setCmsgType, hput, hput₀, hheader]
  · split
    · simp only [setCmsgLen, setCmsgType, hput, hput₀, hheader]
    · rw [copied_other, hheader]
      rintro ⟨hobj, -, -⟩
      exact h hobj

theorem cmsgNxthdr_obj {lay : Layout} {c : Control} {p p' : Ptr Obj}
    (h : cmsgNxthdr lay c b p = some p') : p'.obj = p.obj := by
  unfold cmsgNxthdr at h
  split at h
  · cases h
  · rw [← Option.some.inj h, Ptr.add_obj]

theorem linux2freebsdLoop_elsewhere {turns : Nat} {x : Option (Ptr Obj)}
    (hrun : linux2freebsdLoop linuxMsg freebsdMsg turns (some f) x b = some b')
    (h : q.obj ≠ f.obj) : b' q = b q := by
  induction turns generalizing f x b with
  | zero =>
      cases x with
      | none => exact congrFun (Option.some.inj hrun).symm q
      | some l => cases hrun
  | succ turns ih =>
      cases x with
      | none => exact congrFun (Option.some.inj hrun).symm q
      | some l =>
          rw [linux2freebsdLoop] at hrun
          cases hnext : cmsgNxthdr .freebsd freebsdMsg (linux2freebsdTurn b l f) f with
          | none =>
              rw [hnext, linux2freebsdLoop_none] at hrun
              rw [← Option.some.inj hrun]
              exact linux2freebsdTurn_elsewhere h
          | some f' =>
              rw [hnext] at hrun
              have hobj := cmsgNxthdr_obj hnext
              rw [ih hrun (by rwa [hobj])]
              exact linux2freebsdTurn_elsewhere h

theorem linux2freebsdCmsg_elsewhere {turns : Nat}
    (hrun : linux2freebsdCmsg linuxMsg freebsdMsg turns b = some b')
    (h : q.obj ≠ freebsdMsg.msgControl.obj) : b' q = b q := by
  unfold linux2freebsdCmsg at hrun
  cases hfirst : cmsgFirsthdr .freebsd freebsdMsg with
  | none =>
      rw [hfirst, linux2freebsdLoop_none] at hrun
      exact congrFun (Option.some.inj hrun).symm q
  | some f =>
      rw [hfirst] at hrun
      apply linux2freebsdLoop_elsewhere hrun
      unfold cmsgFirsthdr at hfirst
      split at hfirst
      · rwa [← Option.some.inj hfirst]
      · cases hfirst

theorem run_convertCmsg_none {turns : Nat}
    (h : linux2freebsdCmsg linuxMsg freebsdMsg turns b = none) (log : List (Access Obj)) :
    (convertCmsg linuxMsg freebsdMsg turns).run ⟨b, log⟩ = (none, ⟨b, log⟩) := by
  show convertCmsg linuxMsg freebsdMsg turns ⟨b, log⟩ = (none, ⟨b, log⟩)
  rw [convertCmsg, h]

theorem run_convertCmsg_some {turns : Nat}
    (h : linux2freebsdCmsg linuxMsg freebsdMsg turns b = some b') (log : List (Access Obj)) :
    (convertCmsg linuxMsg freebsdMsg turns).run ⟨b, log⟩ = (some (), ⟨b', log⟩) := by
  show convertCmsg linuxMsg freebsdMsg turns ⟨b, log⟩ = (some (), ⟨b', log⟩)
  rw [convertCmsg, h]

end Control

/-! ## The four entry points -/

/-- An entry point that takes an address, with what else its call depends on. -/
inductive Entry
  | bind
  | connect
  | sendto
  | sendmsg (msg : LinuxMsghdr) (malloced : Bool) (turns : Nat)

/-- The call with `addrlen` bytes at `addr`. -/
def Entry.call (e : Entry) (addr : Option (Ptr Obj)) (addrlen : UInt32) :
    Code Obj (Option ToStack) :=
  match e with
  | .bind => do return some (← lazybsdBind addr addrlen)
  | .connect => do return some (← lazybsdConnect addr addrlen)
  | .sendto => do return some (← lazybsdSendto addr addrlen)
  | .sendmsg msg malloced turns =>
      lazybsdSendmsg { msg with msgName := addr, msgNamelen := addrlen } malloced turns

/-- The entry point gives up before it comes to the address. -/
def Entry.givesUp : Entry → Prop
  | .sendmsg msg malloced _ => msg.msgControl.isSome ∧ malloced = false
  | _ => False

section Entries

variable {b : Contents Obj} {linux : Ptr Obj} {addrlen : UInt32} {e : Entry}

theorem Entry.run_givesUp (h : e.givesUp) :
    (e.call (some linux) addrlen).run ⟨b, []⟩ = (some (.error enomem), ⟨b, []⟩) := by
  cases e with
  | bind => exact h.elim
  | connect => exact h.elim
  | sendto => exact h.elim
  | sendmsg msg malloced turns =>
      obtain ⟨hcontrol, rfl⟩ := h
      simp [Entry.call, lazybsdSendmsg, hcontrol]

/-- What an entry point has done with an address when it passes one on, or is still at the control
messages: the conversion is all it touched, and what the stack gets is the converted address. -/
structure Converted (linux : Ptr Obj) (addrlen : UInt32) (b : Contents Obj)
    (out : Option ToStack × Ram Obj) : Prop where
  log : out.2.log = conversionAccesses linux addrlen bsdaddr
  noError : ∀ rc, out.1 ≠ some (.error rc)
  name : ∀ name, out.1 = some (.call name) → name = some bsdaddr
  byte : out.2.byte bsdaddr =
    after (linux2freebsdSockaddr (some linux) addrlen (some bsdaddr)) b bsdaddr

theorem Converted.of_eq {out : Option ToStack × Ram Obj}
    (h : out = (some (.call (some bsdaddr)),
      ⟨after (linux2freebsdSockaddr (some linux) addrlen (some bsdaddr)) b,
        conversionAccesses linux addrlen bsdaddr⟩)) : Converted linux addrlen b out := by
  subst h
  exact ⟨rfl, fun _ => nofun, fun _ hname => (ToStack.call.inj (Option.some.inj hname)).symm, rfl⟩

theorem Entry.run_converted (h : ¬ e.givesUp) :
    Converted linux addrlen b ((e.call (some linux) addrlen).run ⟨b, []⟩) := by
  cases e with
  | bind =>
      apply Converted.of_eq
      simp only [Entry.call, lazybsdBind, run_bind, run_pure, run_linux2freebsdSockaddr,
        List.nil_append]
  | connect =>
      apply Converted.of_eq
      simp only [Entry.call, lazybsdConnect, run_bind, run_pure, run_linux2freebsdSockaddr,
        List.nil_append]
  | sendto =>
      apply Converted.of_eq
      simp only [Entry.call, lazybsdSendto, Option.isSome_some, if_true, run_bind, run_pure,
        run_linux2freebsdSockaddr, List.nil_append]
  | sendmsg msg malloced turns =>
      cases hcontrol : msg.msgControl with
      | none =>
          apply Converted.of_eq
          simp [Entry.call, lazybsdSendmsg, linux2freebsdMsghdr, hcontrol, run_linux2freebsdSockaddr]
      | some control =>
          have hmalloced : malloced = true := by
            by_contra hno
            exact h ⟨by rw [hcontrol]; rfl, by simpa using hno⟩
          subst hmalloced
          -- the control messages come after the address, in a buffer of their own
          cases hrun : linux2freebsdCmsg ⟨control, msg.msgControllen.toNat⟩
              ⟨freebsdCmsg, msg.msgControllen.toUInt32.toNat⟩ turns
              (after (linux2freebsdSockaddr (some linux) addrlen (some bsdaddr)) b) with
          | none =>
              have hcall : (Entry.call (.sendmsg msg true turns) (some linux) addrlen).run ⟨b, []⟩ =
                  (none, ⟨after (linux2freebsdSockaddr (some linux) addrlen (some bsdaddr)) b,
                    conversionAccesses linux addrlen bsdaddr⟩) := by
                have hconvert := run_convertCmsg_none hrun (conversionAccesses linux addrlen bsdaddr)
                simp only [Entry.call, lazybsdSendmsg, linux2freebsdMsghdr, hcontrol,
                  Option.isSome_some, Bool.not_true, Bool.and_false, Bool.false_eq_true, if_false,
                  if_true, Bool.and_self, run_bind, run_pure, run_linux2freebsdSockaddr,
                  List.nil_append, hconvert, Option.map_none]
              rw [hcall]
              exact ⟨rfl, fun _ => nofun, fun _ => nofun, rfl⟩
          | some b' =>
              have hcall : (Entry.call (.sendmsg msg true turns) (some linux) addrlen).run ⟨b, []⟩ =
                  (some (.call (some bsdaddr)), ⟨b', conversionAccesses linux addrlen bsdaddr⟩) := by
                have hconvert := run_convertCmsg_some hrun (conversionAccesses linux addrlen bsdaddr)
                simp only [Entry.call, lazybsdSendmsg, linux2freebsdMsghdr, hcontrol,
                  Option.isSome_some, Bool.not_true, Bool.and_false, Bool.false_eq_true, if_false,
                  if_true, Bool.and_self, run_bind, run_pure, run_linux2freebsdSockaddr,
                  List.nil_append, hconvert, Option.map_some]
              rw [hcall]
              refine ⟨rfl, fun _ => nofun, ?_, ?_⟩
              · intro name hname
                exact (ToStack.call.inj (Option.some.inj hname)).symm
              · exact linux2freebsdCmsg_elsewhere hrun nofun

theorem convertCmsg_log {linuxMsg freebsdMsg : Control} {turns : Nat} {r : Ram Obj} :
    ((convertCmsg linuxMsg freebsdMsg turns).run r).2.log = r.log := by
  cases h : linux2freebsdCmsg linuxMsg freebsdMsg turns r.byte with
  | none => exact congrArg (·.2.log) (run_convertCmsg_none h r.log)
  | some b' => exact congrArg (·.2.log) (run_convertCmsg_some h r.log)

/-- Without an address there is nothing to convert. -/
theorem Entry.touched_none : touched (e.call none addrlen) b = [] := by
  cases e with
  | bind => rfl
  | connect => rfl
  | sendto => rfl
  | sendmsg msg malloced turns =>
      cases hcontrol : msg.msgControl with
      | none => simp [touched, Entry.call, lazybsdSendmsg, linux2freebsdMsghdr, hcontrol,
          linux2freebsdSockaddr]
      | some control =>
          cases malloced with
          | false => simp [touched, Entry.call, lazybsdSendmsg, hcontrol]
          | true => simp [touched, Entry.call, lazybsdSendmsg, linux2freebsdMsghdr, hcontrol,
              linux2freebsdSockaddr, convertCmsg_log]

/-- The entry points take an address as they should exactly when there is none, when its length is
that of a `struct sockaddr`, or when they have given up before. -/
theorem addrlen_is_bounded_iff (e : Entry) (addr : Option (Ptr Obj)) (addrlen : UInt32)
    (b : Contents Obj) :
    BoundedInput (e.call addr addrlen) addr addrlen b ↔
      addr = none ∨ Representable addrlen ∨ e.givesUp := by
  cases addr with
  | none =>
      refine iff_of_true ⟨?_, nofun, nofun⟩ (.inl rfl)
      intro a ha
      rw [Entry.touched_none] at ha
      cases ha
  | some linux =>
      constructor
      · intro hbounded
        refine .inr ?_
        -- a length that is not representable is an error only where the call gives up
        by_contra hno
        obtain ⟨hlen, hgo⟩ := not_or.mp hno
        obtain ⟨⟨rc, herror⟩, -⟩ := hbounded.rejects rfl hlen
        exact (Entry.run_converted hgo).noError rc herror
      · rintro (hnone | hlen | hgivesUp)
        · cases hnone
        · by_cases hgo : e.givesUp
          · have hrun : (e.call (some linux) addrlen).run ⟨b, []⟩ = _ := Entry.run_givesUp hgo
            refine ⟨?_, ?_, fun _ hno => absurd hlen hno⟩
            · rw [touched, hrun]
              exact fun _ => nofun
            · rw [hrun]
              exact fun _ _ => nofun
          · have hconv : Converted linux addrlen b ((e.call (some linux) addrlen).run ⟨b, []⟩) :=
              Entry.run_converted hgo
            refine ⟨?_, ?_, fun _ hno => absurd hlen hno⟩
            · rw [touched, hconv.log]
              exact conversionAccesses_inBounds hlen
            · intro _ name hname
              refine ⟨bsdaddr, hconv.name name hname, ?_⟩
              have hbyte := hlen.2
              unfold sockaddrStorageSize at hbyte
              show (((e.call (some linux) addrlen).run ⟨b, []⟩).2.byte bsdaddr).toNat = _
              rw [hconv.byte]
              exact linux2freebsd_saLen (by omega)
        · have hrun : (e.call (some linux) addrlen).run ⟨b, []⟩ = _ := Entry.run_givesUp hgivesUp
          refine ⟨?_, ?_, ?_⟩
          · rw [touched, hrun]
            exact fun _ => nofun
          · rw [hrun]
            exact fun _ _ => nofun
          · intro _ _
            rw [touched, hrun]
            exact ⟨⟨enomem, rfl⟩, rfl⟩

/-- `bind` with a length of 129 writes behind the storage and fails with no error. -/
theorem long_addrlen_is_converted :
    ¬ BoundedInput (Entry.bind.call (some ⟨.caller 0, 0⟩) 129) (some ⟨.caller 0, 0⟩) 129
      Sample.inet := by
  intro hbounded
  obtain ⟨⟨rc, herror⟩, -⟩ := hbounded.rejects rfl (by decide)
  cases herror

end Entries

end LazyBsd.Socket
