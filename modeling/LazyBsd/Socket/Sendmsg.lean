/-
# LazyBsd.Socket.Sendmsg — `lazybsd_sendmsg` to its end: the control buffer and the caller's header.

The temporary control buffer is allocated when the message has control data, and freed behind the call of
the stack. All failures leave through `kern_fail`, which frees nothing: before the allocation nothing is
lost there, after a failed `sendit` the buffer is. Going back, the caller's header gets the vector and
the flags of the header the stack worked on, never its name or its control data.
-/
import LazyBsd.Socket.Address

namespace LazyBsd.Socket

open Lib.Object

/-! ## The way back -/

/-- `freebsd2linux_cmsghdr` in memory; `none` when it is not through after `turns` turns. -/
def revertCmsg (linuxMsg freebsdMsg : Control) (turns : Nat) : Code Obj (Option Unit) := fun r =>
  match freebsd2linuxCmsghdr linuxMsg freebsdMsg turns r.byte with
  | none => (none, r)
  | some b => (some (), { r with byte := b })

/-- `freebsd2linux_msghdr`; neither header is `NULL`. An `int` is extended to a `size_t`. -/
def freebsd2linuxMsghdr (linuxMsg : LinuxMsghdr) (freebsdMsg : Msghdr) (sendFlag : Bool) (turns : Nat) :
    Code Obj (Option LinuxMsghdr) := do
  let takesName := linuxMsg.msgName.isSome && freebsdMsg.msgName.isSome && !sendFlag
  if takesName then
    -- `linux_msg->msg_name` is overwritten first: the conversion is one in place
    freebsd2linuxSockaddr freebsdMsg.msgName freebsdMsg.msgName
  let linuxMsg := if takesName then
    { linuxMsg with msgName := freebsdMsg.msgName, msgNamelen := freebsdMsg.msgNamelen } else linuxMsg
  let linuxMsg := { linuxMsg with
    msgIov := freebsdMsg.msgIov
    msgIovlen := freebsdMsg.msgIovlen.toInt32.toInt64.toUInt64
    msgFlags := freebsdMsg.msgFlags }
  match linuxMsg.msgControl, freebsdMsg.msgControl with
  | some linux, some freebsd =>
      if sendFlag then
        return some linuxMsg
      else
        let through ← revertCmsg ⟨linux, linuxMsg.msgControllen.toNat⟩
          ⟨freebsd, freebsdMsg.msgControllen.toNat⟩ turns
        return through.map fun _ =>
          { linuxMsg with msgControllen := freebsdMsg.msgControllen.toUInt64 }
  | _, _ => return some linuxMsg

/-! ## The whole call -/

/-- What happens to memory on the heap. -/
inductive HeapOp
  | malloc (p : Option (Ptr Obj)) (size : Nat)
  | free (p : Ptr Obj)
deriving DecidableEq, Repr

/-- How `sendit` ends: an error number, 0 for none; the result of the call; the header as it leaves it. -/
structure Sendit where
  rc : Nat
  retval : Int
  freebsdMsg : Msghdr

/-- How a call of `lazybsd_sendmsg` ends: its result, the code for `lazybsd_os_errno`, the caller's
header, and what it did on the heap. -/
structure SendmsgEnd where
  ret : Int
  rc : Option Nat
  msg : LinuxMsghdr
  heap : List HeapOp
deriving DecidableEq, Repr

/-- `kern_fail`. -/
def kernFail (msg : LinuxMsghdr) (rc : Nat) (heap : List HeapOp) : SendmsgEnd :=
  { ret := -1, rc := some rc, msg := msg, heap := heap }

/-- `lazybsd_sendmsg`. `malloced` is the outcome of the allocation and `sent` that of `sendit`; `none`
is a conversion that is not through after `turns` turns. `linux2freebsd_msghdr` fails for a `NULL` header
only, and there is none: the second `goto kern_fail` is never taken. -/
def lazybsdSendmsgEnd (msg : LinuxMsghdr) (malloced : Bool) (sent : Sendit) (turns : Nat) :
    Code Obj (Option SendmsgEnd) := do
  let size := msg.msgControllen.toNat
  if msg.msgControl.isSome && !malloced then
    return some (kernFail msg enomem [.malloc none size])
  else
    let control := if msg.msgControl.isSome then some freebsdCmsg else none
    let heap := if msg.msgControl.isSome then [.malloc (some freebsdCmsg) size] else []
    match ← linux2freebsdMsghdr msg (some bsdaddr) control true turns with
    | none => return none
    | some _ =>
        if sent.rc ≠ 0 then
          return some (kernFail msg sent.rc heap)
        else
          match ← freebsd2linuxMsghdr msg sent.freebsdMsg true turns with
          | none => return none
          | some msg =>
              let freed := match control with
                | some p => [.free p]
                | none => []
              return some { ret := sent.retval, rc := none, msg := msg, heap := heap ++ freed }

/-! ## Released -/

/-- Every buffer that was allocated is freed exactly once, and nothing else is freed. -/
def Balanced (heap : List HeapOp) : Prop :=
  ∀ p, heap.countP (fun op => decide (op = .free p)) =
    heap.countP fun op => match op with
      | .malloc q _ => decide (q = some p)
      | .free _ => false

/-- The parts of the header that the call leaves to the caller. -/
structure HeaderKept (msg msg' : LinuxMsghdr) : Prop where
  msgName : msg'.msgName = msg.msgName
  msgNamelen : msg'.msgNamelen = msg.msgNamelen
  msgControl : msg'.msgControl = msg.msgControl
  msgControllen : msg'.msgControllen = msg.msgControllen

theorem balanced_nil : Balanced [] := fun _ => rfl

theorem balanced_failed (size : Nat) : Balanced [.malloc none size] := fun p => by
  simp

theorem balanced_released (p : Ptr Obj) (size : Nat) : Balanced [.malloc (some p) size, .free p] := fun q => by
  by_cases hpq : p = q <;> simp [hpq]

/-- A buffer that is not freed is lost. -/
theorem not_balanced_lost (p : Ptr Obj) (size : Nat) : ¬ Balanced [.malloc (some p) size] := fun h => by
  have hp := h p
  simp at hp

section Ends

variable {msg : LinuxMsghdr} {malloced : Bool} {sent : Sendit} {turns : Nat} {r : Ram Obj} {e : SendmsgEnd}

/-- With `send_flag` the way back changes the vector and the flags only. -/
theorem freebsd2linuxMsghdr_send (msg : LinuxMsghdr) (freebsdMsg : Msghdr) (turns : Nat) (r : Ram Obj) :
    (freebsd2linuxMsghdr msg freebsdMsg true turns).run r =
      (some { msg with
        msgIov := freebsdMsg.msgIov
        msgIovlen := freebsdMsg.msgIovlen.toInt32.toInt64.toUInt64
        msgFlags := freebsdMsg.msgFlags }, r) := by
  cases hlinux : msg.msgControl with
  | none => simp [freebsd2linuxMsghdr, hlinux]
  | some linux =>
      cases hfreebsd : freebsdMsg.msgControl <;> simp [freebsd2linuxMsghdr, hlinux, hfreebsd]

theorem headerKept_refl : HeaderKept msg msg := ⟨rfl, rfl, rfl, rfl⟩

/-- The ways out of the call. -/
inductive Exit (msg : LinuxMsghdr) (malloced : Bool) (sent : Sendit) (e : SendmsgEnd) : Prop
  | noMemory (hcontrol : msg.msgControl.isSome) (hmalloc : malloced = false)
      (hend : e = kernFail msg enomem [.malloc none msg.msgControllen.toNat])
  | sendFailed (hmalloc : msg.msgControl.isSome → malloced = true) (hrc : sent.rc ≠ 0)
      (hmsg : e.msg = msg)
      (hheap : e.heap = if msg.msgControl.isSome then
        [.malloc (some freebsdCmsg) msg.msgControllen.toNat] else [])
  | sent (hmalloc : msg.msgControl.isSome → malloced = true) (hrc : sent.rc = 0)
      (hmsg : HeaderKept msg e.msg)
      (hheap : e.heap = if msg.msgControl.isSome then
        [.malloc (some freebsdCmsg) msg.msgControllen.toNat, .free freebsdCmsg] else [])

theorem exit_of_run (h : ((lazybsdSendmsgEnd msg malloced sent turns).run r).1 = some e) :
    Exit msg malloced sent e := by
  rw [lazybsdSendmsgEnd] at h
  by_cases hgives : (msg.msgControl.isSome && !malloced) = true
  · rw [if_pos hgives] at h
    obtain ⟨hcontrol, hmalloc⟩ := Bool.and_eq_true_iff.mp hgives
    exact .noMemory hcontrol (by simpa using hmalloc) (Option.some.inj h).symm
  · rw [if_neg hgives, run_bind] at h
    have hmalloc : msg.msgControl.isSome → malloced = true := fun hcontrol => by
      simpa [hcontrol] using hgives
    generalize (linux2freebsdMsghdr msg (some bsdaddr)
      (if msg.msgControl.isSome then some freebsdCmsg else none) true turns).run r = out at h
    obtain ⟨converted, r'⟩ := out
    cases converted with
    | none => cases h
    | some freebsdMsg =>
        by_cases hrc : sent.rc = 0
        · simp only [hrc, ne_eq, not_true, if_false, run_bind, freebsd2linuxMsghdr_send] at h
          have he := Option.some.inj h
          refine .sent hmalloc hrc ?_ ?_
          · rw [← he]
            exact ⟨rfl, rfl, rfl, rfl⟩
          · rw [← he]
            by_cases hcontrol : msg.msgControl.isSome <;> simp [hcontrol]
        · simp only [hrc, ne_eq, not_false_iff, if_true] at h
          have he := Option.some.inj h
          refine .sendFailed hmalloc hrc ?_ ?_
          · rw [← he]
            rfl
          · rw [← he]
            rfl

/-- A call that returns has freed its control buffer, exactly once, unless it had one and `sendit`
failed. The caller keeps the name and the control data of its header on every way out. -/
theorem sendmsg_releases_iff (msg : LinuxMsghdr) (malloced : Bool) (sent : Sendit) (turns : Nat)
    (b : Contents Obj) (e : SendmsgEnd)
    (hreturns : ((lazybsdSendmsgEnd msg malloced sent turns).run ⟨b, []⟩).1 = some e) :
    Balanced e.heap ∧ HeaderKept msg e.msg ↔
      msg.msgControl = none ∨ malloced = false ∨ sent.rc = 0 := by
  cases exit_of_run hreturns with
  | noMemory hcontrol hmalloc hend =>
      subst hend
      exact iff_of_true ⟨balanced_failed _, headerKept_refl⟩ (.inr (.inl hmalloc))
  | sendFailed hmalloc hrc hmsg hheap =>
      cases hcontrol : msg.msgControl with
      | none =>
          rw [hheap, hcontrol, hmsg]
          exact iff_of_true ⟨balanced_nil, headerKept_refl⟩ (.inl rfl)
      | some control =>
          -- `kern_fail` frees nothing
          have hsome : msg.msgControl.isSome = true := by rw [hcontrol]; rfl
          rw [hheap, if_pos hsome, hmalloc hsome]
          refine iff_of_false (fun h => not_balanced_lost _ _ h.1) ?_
          rintro (h | h | h)
          · cases h
          · cases h
          · exact hrc h
  | sent hmalloc hrc hmsg hheap =>
      refine iff_of_true ⟨?_, hmsg⟩ (.inr (.inr hrc))
      rw [hheap]
      split
      · exact balanced_released _ _
      · exact balanced_nil

/-- A message of an address and 24 bytes of control data: one `IP_TTL`. -/
def Sample.sendmsg : LinuxMsghdr :=
  { msgName := some ⟨.caller 0, 0⟩, msgNamelen := 16, msgIov := ⟨.caller 1, 0⟩, msgIovlen := 1
    msgControl := some ⟨.caller 2, 0⟩, msgControllen := 24, msgFlags := 0 }

/-- Control data of one message: 20 bytes, `IP_TTL`, 64. -/
def Sample.ttl : Contents Obj := fun p =>
  if p.obj = .caller 2 then
    [20, 0, 0, 0, 0, 0, 0, 0, 0, 0, 0, 0, 2, 0, 0, 0, 64, 0, 0, 0, 0, 0, 0, 0].getD p.off 0
  else 0

/-- What `sendit` leaves: `rc`, and a header that it has not changed. -/
def Sample.sendit (rc : Nat) : Sendit :=
  { rc := rc, retval := 0, freebsdMsg :=
    { msgName := some bsdaddr, msgNamelen := 16, msgIov := ⟨.caller 1, 0⟩, msgIovlen := 1
      msgControl := some freebsdCmsg, msgControllen := 24, msgFlags := 0 } }

/-- After a call that `sendit` ended with `EAGAIN` the buffer is still allocated. -/
theorem sendmsg_loses_buffer_on_eagain :
    ∃ e, ((lazybsdSendmsgEnd Sample.sendmsg true (Sample.sendit 35) 2).run ⟨Sample.ttl, []⟩).1 = some e ∧
      e.ret = -1 ∧ e.heap = [.malloc (some freebsdCmsg) 24] ∧ ¬ Balanced e.heap := by
  refine ⟨kernFail Sample.sendmsg 35 [.malloc (some freebsdCmsg) 24], by decide, rfl, rfl, ?_⟩
  exact not_balanced_lost _ _

/-- After a call that `sendit` ended well it is not. -/
theorem sendmsg_releases_buffer :
    ∃ e, ((lazybsdSendmsgEnd Sample.sendmsg true (Sample.sendit 0) 2).run ⟨Sample.ttl, []⟩).1 = some e ∧
      Balanced e.heap ∧ HeaderKept Sample.sendmsg e.msg := by
  have hreturns : ((lazybsdSendmsgEnd Sample.sendmsg true (Sample.sendit 0) 2).run
      ⟨Sample.ttl, []⟩).1.isSome = true := by
    decide
  obtain ⟨e, he⟩ := Option.isSome_iff_exists.mp hreturns
  exact ⟨e, he, (sendmsg_releases_iff _ _ _ _ _ e he).mpr (.inr (.inr rfl))⟩

end Ends

end LazyBsd.Socket
