/-
# LazyBsd.Socket.Returned — addresses that `accept`, `recvfrom`, `getpeername` and `getsockname` return.

The stack allocates the whole address and cuts only the length down to what the caller supplied. All four
entry points copy by `sa_len` instead: the caller's buffer is safe exactly when the whole address fits.
`accept` also takes the length from an address that may be absent.
-/
import LazyBsd.Socket.Address

namespace LazyBsd.Socket

open Lib.Object

/-! ## The entry points -/

/-- What a call into the stack comes back with: an error number, 0 for none; the result of the call; the
object it allocated for the address, if there is one. -/
structure Kern where
  rc : Nat
  retval : Nat
  sa : Option Nat
deriving DecidableEq, Repr

/-- An allocation of the stack. -/
def stackAddr (n : Nat) : Ptr Obj := ⟨.stack n, 0⟩

/-- The address, `NULL` when there is none. -/
def Kern.pf (k : Kern) : Option (Ptr Obj) := k.sa.map stackAddr

/-- The length that the stack makes of a supplied one. -/
def Kern.cut (k : Kern) (b : Contents Obj) (supplied : UInt32) : UInt32 :=
  match k.pf with
  | none => 0
  | some sa => .ofNat (min supplied.toNat (saLen b sa))

/-- A pointer of the caller. -/
structure CallerPtr where
  obj : Nat
  off : Nat
deriving DecidableEq, Repr

def CallerPtr.ptr (p : CallerPtr) : Ptr Obj := ⟨.caller p.obj, p.off⟩

/-- The result of a call, and `*addrlen` afterwards. -/
structure Returned where
  ret : Int
  addrlen : Option UInt32
deriving DecidableEq, Repr

def lazybsdAccept (k : Kern) (addr : Option CallerPtr) (addrlen : Option UInt32) :
    Code Obj Returned := do
  if k.rc ≠ 0 then
    return ⟨-1, addrlen⟩
  else
    freebsd2linuxSockaddr (addr.map CallerPtr.ptr) k.pf
    if addrlen.isSome then
      -- `pf->sa_len`, whether there is a `pf` or not
      let len ← match k.pf with
        | none => nullDeref
        | some pf => load pf 1
      return ⟨k.retval, some (.ofNat len)⟩
    else
      return ⟨k.retval, none⟩

/-- The stack reads `*namelen`, cuts it down and stores it. -/
def kernGetname (k : Kern) (namelen : Option UInt32) : Code Obj (Option UInt32) := fun r =>
  (namelen.map (k.cut r.byte), r)

@[simp] theorem run_kernGetname {k : Kern} {namelen : Option UInt32} {r : Ram Obj} :
    (kernGetname k namelen).run r = (namelen.map (k.cut r.byte), r) := rfl

def lazybsdGetpeername (k : Kern) (name : Option CallerPtr) (namelen : Option UInt32) :
    Code Obj Returned := do
  if k.rc ≠ 0 then
    return ⟨-1, namelen⟩
  else
    let namelen ← kernGetname k namelen
    freebsd2linuxSockaddr (name.map CallerPtr.ptr) k.pf
    return ⟨0, namelen⟩

def lazybsdGetsockname (k : Kern) (name : Option CallerPtr) (namelen : Option UInt32) :
    Code Obj Returned := do
  if k.rc ≠ 0 then
    return ⟨-1, namelen⟩
  else
    let namelen ← kernGetname k namelen
    freebsd2linuxSockaddr (name.map CallerPtr.ptr) k.pf
    return ⟨0, namelen⟩

/-- `kern_recvit` cuts `msg_namelen` down and places at least so many bytes of the address at `msg_name`,
which is `bsdaddr`. -/
def kernRecvit (k : Kern) (extra : Nat) (supplied : UInt32) : Code Obj UInt32 := fun r =>
  match k.pf with
  | none => (0, r)
  | some sa => (k.cut r.byte supplied,
      { r with byte := copied r.byte sa bsdaddr ((k.cut r.byte supplied).toNat + extra) })

theorem run_kernRecvit_some {k : Kern} {extra : Nat} {supplied : UInt32} {r : Ram Obj}
    {sa : Ptr Obj} (h : k.pf = some sa) : (kernRecvit k extra supplied).run r =
      (k.cut r.byte supplied,
        { r with byte := copied r.byte sa bsdaddr ((k.cut r.byte supplied).toNat + extra) }) := by
  show kernRecvit k extra supplied r = _
  rw [kernRecvit, h]

theorem run_kernRecvit_none {k : Kern} {extra : Nat} {supplied : UInt32} {r : Ram Obj}
    (h : k.pf = none) : (kernRecvit k extra supplied).run r = (0, r) := by
  show kernRecvit k extra supplied r = _
  rw [kernRecvit, h]

def lazybsdRecvfrom (k : Kern) (extra : Nat) (from_ : Option CallerPtr)
    (fromlen : Option UInt32) : Code Obj Returned := do
  if k.rc ≠ 0 then
    return ⟨-1, fromlen⟩
  else
    let msgNamelen ← kernRecvit k extra (fromlen.getD 0)
    if from_.isSome ∧ msgNamelen ≠ 0 then
      freebsd2linuxSockaddr (from_.map CallerPtr.ptr) (some bsdaddr)
    return ⟨k.retval, fromlen.map fun _ => msgNamelen⟩

/-! ## What may be touched -/

/-- An entry point that returns an address; `recvfrom` with the bytes that the stack places beyond the
length it reports. -/
inductive NameEntry
  | accept
  | recvfrom (extra : Nat)
  | getpeername
  | getsockname

def NameEntry.call (e : NameEntry) (k : Kern) (name : Option CallerPtr) (namelen : Option UInt32) :
    Code Obj Returned :=
  match e with
  | .accept => lazybsdAccept k name namelen
  | .recvfrom extra => lazybsdRecvfrom k extra name namelen
  | .getpeername => lazybsdGetpeername k name namelen
  | .getsockname => lazybsdGetsockname k name namelen

/-- The `n` bytes at `p` are bytes of the returned address, where the entry point has it; its two head
fields are always there. -/
def NameEntry.Holds (e : NameEntry) (k : Kern) (b : Contents Obj) (supplied : UInt32) (p : Ptr Obj)
    (n : Nat) : Prop :=
  match e, k.pf with
  | _, none => False
  | .recvfrom extra, some _ => p.obj = .storage ∧ p.off + n ≤ (k.cut b supplied).toNat + extra
  | _, some sa => p.obj = sa.obj ∧ p.off + n ≤ max 2 (saLen b sa)

/-- Reads stay in the returned address, writes in the `supplied` bytes of the caller. -/
def NameEntry.OutputBounds (e : NameEntry) (k : Kern) (b : Contents Obj) (name : Option CallerPtr)
    (supplied : UInt32) : Access Obj → Prop
  | .read p n => e.Holds k b supplied p n
  | .write p n => ∃ nm, name = some nm ∧ p.obj = nm.ptr.obj ∧ nm.off ≤ p.off ∧
      p.off + n ≤ nm.off + supplied.toNat
  | .null => False

/-- An entry point returns an address as it should: it touches nothing else, and with success it leaves
a length. -/
structure NameEntry.BoundedOutput (e : NameEntry) (k : Kern) (b : Contents Obj)
    (name : Option CallerPtr) (supplied : UInt32) : Prop where
  touches : ∀ a ∈ touched (e.call k name (some supplied)) b, e.OutputBounds k b name supplied a
  stores : k.rc = 0 → ((e.call k name (some supplied)).run ⟨b, []⟩).1.addrlen.isSome

/-- The address fits: it has a family, and no more bytes than supplied. -/
def Fits (b : Contents Obj) (sa : Ptr Obj) (supplied : UInt32) : Prop :=
  2 ≤ saLen b sa ∧ saLen b sa ≤ supplied.toNat

/-- When an entry point is safe: the call failed, or no address is asked for, or it fits. Without an
address `accept` is not safe; `recvfrom` is where nothing is left of the length. -/
def NameEntry.Safe (e : NameEntry) (k : Kern) (b : Contents Obj) (name : Option CallerPtr)
    (supplied : UInt32) : Prop :=
  k.rc ≠ 0 ∨
    match e, k.pf with
    | .accept, none => False
    | _, none => True
    | .recvfrom _, some sa =>
        name = none ∨ Fits b sa supplied ∨ supplied = 0 ∨ saLen b sa = 0
    | _, some sa => name = none ∨ Fits b sa supplied

/-! ## One conversion -/

section Conversion

variable {b : Contents Obj} {linux freebsd : Ptr Obj} {r : Ram Obj} {e : NameEntry} {k : Kern}
  {nm : CallerPtr} {supplied : UInt32} {len : Nat}

/-- What a conversion of `len` bytes into another buffer touches. -/
def returnAccesses (linux freebsd : Ptr Obj) (len : Nat) : List (Access Obj) :=
  [.read freebsd 1, .read (freebsd + 2) (dataLen len), .write (linux + 2) (dataLen len),
    .read (freebsd + 1) 1, .write linux 2]

theorem run_freebsd2linuxSockaddr (hne : linux ≠ freebsd) :
    (freebsd2linuxSockaddr (some linux) (some freebsd)).run r =
      ((), { byte := after (freebsd2linuxSockaddr (some linux) (some freebsd)) r.byte
             log := r.log ++ returnAccesses linux freebsd (saLen r.byte freebsd) }) := by
  simp [after, freebsd2linuxSockaddr, returnAccesses, Ptr.add_inj, hne, saLen, number_one]

/-- The copy stays in the caller's bytes only if the length covers the head and is not larger. -/
theorem fits_of_touches (hlt : len < 256)
    (h : ∀ a ∈ returnAccesses nm.ptr freebsd len, e.OutputBounds k b (some nm) supplied a) :
    2 ≤ len ∧ len ≤ supplied.toNat := by
  obtain ⟨nm', hnm, -, -, hend⟩ :=
    h (.write (nm.ptr + 2) (dataLen len)) (by simp [returnAccesses])
  obtain rfl := Option.some.inj hnm
  have hsupplied := supplied.toNat_lt
  have hoff : (nm.ptr + 2).off = nm.off + 2 := rfl
  rw [hoff] at hend
  rcases Nat.lt_or_ge len 2 with hshort | hlen
  · -- the subtraction wraps around
    have hwrap : 2 ^ 64 - 2 ≤ dataLen len := by
      interval_cases len <;> decide
    omega
  · rw [dataLen_of_two_le hlen (by omega)] at hend
    omega

theorem touches_of_fits (hlen : 2 ≤ len) (hle : len ≤ supplied.toNat) (hlt : len < 256)
    (hholds : ∀ o n, o + n ≤ len → e.Holds k b supplied (freebsd + o) n) :
    ∀ a ∈ returnAccesses nm.ptr freebsd len, e.OutputBounds k b (some nm) supplied a := by
  have hdata : dataLen len = len - 2 := dataLen_of_two_le hlen (by omega)
  have hwrite (o n : Nat) (hon : o + n ≤ len) :
      e.OutputBounds k b (some nm) supplied (.write (nm.ptr + o) n) := by
    refine ⟨nm, rfl, rfl, ?_, ?_⟩
    · show nm.off ≤ nm.off + o
      omega
    · show nm.off + o + n ≤ nm.off + supplied.toNat
      omega
  intro a ha
  rw [returnAccesses, hdata] at ha
  simp only [List.mem_cons, List.not_mem_nil, or_false] at ha
  rcases ha with rfl | rfl | rfl | rfl | rfl
  · exact hholds 0 1 (by omega)
  · exact hholds 2 (len - 2) (by omega)
  · exact hwrite 2 (len - 2) (by omega)
  · exact hholds 1 1 (by omega)
  · exact hwrite 0 2 (by omega)

end Conversion

/-! ## The entry points one by one -/

section Entries

variable {b : Contents Obj} {e : NameEntry} {k : Kern} {name : Option CallerPtr}
  {supplied : UInt32} {n : Nat}

theorem ptr_ne_stackAddr (nm : CallerPtr) (n : Nat) : nm.ptr ≠ stackAddr n :=
  fun h => nomatch congrArg Ptr.obj h

theorem ptr_ne_bsdaddr (nm : CallerPtr) : nm.ptr ≠ bsdaddr :=
  fun h => nomatch congrArg Ptr.obj h

theorem accept_ne_recvfrom (extra : Nat) : NameEntry.accept ≠ .recvfrom extra :=
  nofun

theorem NameEntry.BoundedOutput.of_untouched (hlog : touched (e.call k name (some supplied)) b = [])
    (hstores : k.rc = 0 → ((e.call k name (some supplied)).run ⟨b, []⟩).1.addrlen.isSome) :
    e.BoundedOutput k b name supplied := by
  refine ⟨?_, hstores⟩
  rw [hlog]
  exact List.forall_mem_nil _

/-- A call that failed has touched nothing. -/
theorem NameEntry.boundedOutput_of_failed (hrc : k.rc ≠ 0) :
    e.BoundedOutput k b name supplied := by
  have hlog : touched (e.call k name (some supplied)) b = [] := by
    cases e <;> simp [touched, NameEntry.call, lazybsdAccept, lazybsdRecvfrom, lazybsdGetpeername,
      lazybsdGetsockname, hrc]
  exact .of_untouched hlog fun h => absurd h hrc

/-- The address in the stack's own memory covers its head and its length. -/
theorem holds_stack (he : ∀ extra, e ≠ .recvfrom extra) (hsa : k.sa = some n) {o m : Nat}
    (h : o + m ≤ max 2 (saLen b (stackAddr n))) : e.Holds k b supplied ((stackAddr n) + o) m := by
  have hpf : k.pf = some (stackAddr n) := by rw [Kern.pf, hsa]; rfl
  have hin : (stackAddr n + o).off + m ≤ max 2 (saLen b (stackAddr n)) := by
    show 0 + o + m ≤ _
    omega
  unfold NameEntry.Holds
  rw [hpf]
  cases e with
  | recvfrom extra => exact absurd rfl (he extra)
  | accept => exact ⟨rfl, hin⟩
  | getpeername => exact ⟨rfl, hin⟩
  | getsockname => exact ⟨rfl, hin⟩

theorem stack_touches_iff (he : ∀ extra, e ≠ .recvfrom extra) (hsa : k.sa = some n) {nm : CallerPtr} :
    (∀ a ∈ returnAccesses nm.ptr (stackAddr n) (saLen b (stackAddr n)),
      e.OutputBounds k b (some nm) supplied a) ↔ Fits b (stackAddr n) supplied := by
  have hlt : saLen b (stackAddr n) < 256 := (b (stackAddr n)).toNat_lt
  constructor
  · exact fits_of_touches hlt
  · rintro ⟨hlen, hle⟩
    exact touches_of_fits hlen hle hlt fun o m h => holds_stack he hsa (h.trans (le_max_right _ _))

theorem accept_boundedOutput_iff (hrc : k.rc = 0) :
    NameEntry.accept.BoundedOutput k b name supplied ↔ NameEntry.accept.Safe k b name supplied := by
  have hsafe : NameEntry.accept.Safe k b name supplied ↔
      ∃ n, k.sa = some n ∧ (name = none ∨ Fits b (stackAddr n) supplied) := by
    unfold NameEntry.Safe Kern.pf
    cases k.sa <;> simp [hrc]
  rw [hsafe]
  cases hsa : k.sa with
  | none =>
      -- the length is read through `NULL`
      refine iff_of_false ?_ (by simp)
      intro hbounded
      have hnull := hbounded.touches .null (by
        cases name <;> simp [touched, NameEntry.call, lazybsdAccept, hrc, Kern.pf, hsa,
          freebsd2linuxSockaddr])
      exact hnull
  | some n =>
      have hpf : k.pf = some (stackAddr n) := by rw [Kern.pf, hsa]; rfl
      have hread : NameEntry.accept.OutputBounds k b name supplied (.read (stackAddr n) 1) :=
        holds_stack (e := .accept) (o := 0) accept_ne_recvfrom hsa (by omega)
      have hstores : ((NameEntry.accept.call k name (some supplied)).run ⟨b, []⟩).1.addrlen.isSome := by
        simp [NameEntry.call, lazybsdAccept, hrc, hpf]
      cases name with
      | none =>
          have hlog : touched (NameEntry.accept.call k none (some supplied)) b =
              [.read (stackAddr n) 1] := by
            simp [touched, NameEntry.call, lazybsdAccept, hrc, hpf, freebsd2linuxSockaddr]
          refine iff_of_true ⟨?_, fun _ => hstores⟩ ⟨n, rfl, .inl rfl⟩
          intro a ha
          rw [hlog, List.mem_singleton] at ha
          rwa [ha]
      | some nm =>
          have hne : nm.ptr ≠ stackAddr n := ptr_ne_stackAddr nm n
          have hlog : touched (NameEntry.accept.call k (some nm) (some supplied)) b =
              returnAccesses nm.ptr (stackAddr n) (saLen b (stackAddr n)) ++
                [.read (stackAddr n) 1] := by
            simp [touched, NameEntry.call, lazybsdAccept, hrc, hpf, run_freebsd2linuxSockaddr hne]
          have hcopy : (∀ a ∈ returnAccesses nm.ptr (stackAddr n) (saLen b (stackAddr n)),
              NameEntry.accept.OutputBounds k b (some nm) supplied a) ↔ _ :=
            stack_touches_iff (e := .accept) accept_ne_recvfrom hsa
          constructor
          · intro hbounded
            refine ⟨n, rfl, .inr (hcopy.mp ?_)⟩
            intro a ha
            apply hbounded.touches
            rw [hlog]
            exact List.mem_append_left _ ha
          · rintro ⟨_, hn, hnone | hfits⟩
            · cases hnone
            obtain rfl := Option.some.inj hn
            refine ⟨?_, fun _ => hstores⟩
            intro a ha
            rw [hlog, List.mem_append, List.mem_singleton] at ha
            rcases ha with ha | rfl
            · exact hcopy.mpr hfits a ha
            · exact hread

/-- `getpeername` and `getsockname`, which differ in the call of the stack only. -/
theorem getname_boundedOutput_iff (he : e = .getpeername ∨ e = .getsockname) (hrc : k.rc = 0) :
    e.BoundedOutput k b name supplied ↔ e.Safe k b name supplied := by
  have hrecv : ∀ extra, e ≠ .recvfrom extra := by
    rintro extra rfl
    rcases he with he | he <;> cases he
  have hcall : e.call k name (some supplied) = lazybsdGetpeername k name (some supplied) := by
    rcases he with rfl | rfl <;> rfl
  have hsafe : e.Safe k b name supplied ↔
      ∀ n, k.sa = some n → name = none ∨ Fits b (stackAddr n) supplied := by
    unfold NameEntry.Safe Kern.pf
    rcases he with rfl | rfl <;> cases k.sa <;> simp [hrc]
  have hstores : ((e.call k name (some supplied)).run ⟨b, []⟩).1.addrlen.isSome := by
    rw [hcall]
    simp [lazybsdGetpeername, hrc]
  rw [hsafe]
  cases hsa : k.sa with
  | none =>
      have hlog : touched (e.call k name (some supplied)) b = [] := by
        rw [hcall]
        cases name <;> simp [touched, lazybsdGetpeername, hrc, Kern.pf, hsa, freebsd2linuxSockaddr]
      exact iff_of_true (.of_untouched hlog fun _ => hstores) (by simp)
  | some n =>
      have hpf : k.pf = some (stackAddr n) := by rw [Kern.pf, hsa]; rfl
      cases name with
      | none =>
          have hlog : touched (e.call k none (some supplied)) b = [] := by
            rw [hcall]
            simp [touched, lazybsdGetpeername, hrc, hpf, freebsd2linuxSockaddr]
          exact iff_of_true (.of_untouched hlog fun _ => hstores) fun _ _ => .inl rfl
      | some nm =>
          have hne : nm.ptr ≠ stackAddr n := ptr_ne_stackAddr nm n
          have hlog : touched (e.call k (some nm) (some supplied)) b =
              returnAccesses nm.ptr (stackAddr n) (saLen b (stackAddr n)) := by
            rw [hcall]
            simp [touched, lazybsdGetpeername, hrc, hpf, run_freebsd2linuxSockaddr hne]
          have hcopy : (∀ a ∈ returnAccesses nm.ptr (stackAddr n) (saLen b (stackAddr n)),
              e.OutputBounds k b (some nm) supplied a) ↔ _ := stack_touches_iff hrecv hsa
          rw [← hlog] at hcopy
          constructor
          · intro hbounded n' hn'
            obtain rfl := Option.some.inj hn'
            exact .inr (hcopy.mp hbounded.touches)
          · intro hfits
            exact ⟨hcopy.mpr ((hfits n rfl).resolve_left (Option.some_ne_none nm)), fun _ => hstores⟩

theorem Kern.cut_toNat {sa : Ptr Obj} (h : k.pf = some sa) :
    (k.cut b supplied).toNat = min supplied.toNat (saLen b sa) := by
  have hlt : saLen b sa < 256 := (b sa).toNat_lt
  unfold Kern.cut
  rw [h]
  exact UInt32.toNat_ofNat_of_lt' (by
    show min supplied.toNat (saLen b sa) < 2 ^ 32
    omega)

section Recvfrom

variable {extra : Nat} (hrc : k.rc = 0)
include hrc

theorem recvfrom_safe_iff : (NameEntry.recvfrom extra).Safe k b name supplied ↔ ∀ n, k.sa = some n →
    name = none ∨ Fits b (stackAddr n) supplied ∨ supplied = 0 ∨ saLen b (stackAddr n) = 0 := by
  unfold NameEntry.Safe Kern.pf
  cases k.sa <;> simp [hrc]

theorem recvfrom_stores : (((NameEntry.recvfrom extra).call k name (some supplied)).run
    ⟨b, []⟩).1.addrlen.isSome := by
  simp only [NameEntry.call, lazybsdRecvfrom, hrc]
  split
  · contradiction
  · simp only [run_bind]
    split <;> rfl

variable (hpf : k.pf = some (stackAddr n))
include hpf

/-- The conversion trusts the length of the whole address. -/
theorem touched_recvfrom_copies {nm : CallerPtr} (hcopies : k.cut b supplied ≠ 0) :
    touched ((NameEntry.recvfrom extra).call k (some nm) (some supplied)) b =
      returnAccesses nm.ptr bsdaddr (saLen b (stackAddr n)) := by
  have hpos : 0 < (k.cut b supplied).toNat := by
    apply Nat.pos_of_ne_zero
    intro h
    exact hcopies (UInt32.toNat.inj h)
  have hlen : saLen (copied b (stackAddr n) bsdaddr ((k.cut b supplied).toNat + extra))
      bsdaddr = saLen b (stackAddr n) := by
    have hat : copied b (stackAddr n) bsdaddr ((k.cut b supplied).toNat + extra)
        (bsdaddr + 0) = b (stackAddr n + 0) := copied_at (by omega)
    exact congrArg UInt8.toNat hat
  have hne : nm.ptr ≠ bsdaddr := ptr_ne_bsdaddr nm
  simp [touched, NameEntry.call, lazybsdRecvfrom, hrc, run_kernRecvit_some hpf, hcopies,
    run_freebsd2linuxSockaddr hne, hlen]

/-- Nothing is touched without a buffer, or where nothing is left of the length. -/
theorem touched_recvfrom_nothing (hnothing : ¬ (name.isSome ∧ k.cut b supplied ≠ 0)) :
    touched ((NameEntry.recvfrom extra).call k name (some supplied)) b = [] := by
  rcases not_and_or.mp hnothing with hname | hzero
  · simp [touched, NameEntry.call, lazybsdRecvfrom, hrc, run_kernRecvit_some hpf, hname]
  · simp [touched, NameEntry.call, lazybsdRecvfrom, hrc, run_kernRecvit_some hpf, not_not.mp hzero]

end Recvfrom

/-- `recvfrom` copies out of `bsdaddr` what the stack has placed there. -/
theorem recvfrom_boundedOutput_iff {extra : Nat} (hrc : k.rc = 0) :
    (NameEntry.recvfrom extra).BoundedOutput k b name supplied ↔
      (NameEntry.recvfrom extra).Safe k b name supplied := by
  have hstores : (((NameEntry.recvfrom extra).call k name (some supplied)).run
      ⟨b, []⟩).1.addrlen.isSome := recvfrom_stores hrc
  rw [recvfrom_safe_iff hrc]
  cases hsa : k.sa with
  | none =>
      have hpf : k.pf = none := by rw [Kern.pf, hsa]; rfl
      have hlog : touched ((NameEntry.recvfrom extra).call k name (some supplied)) b = [] := by
        simp [touched, NameEntry.call, lazybsdRecvfrom, hrc, run_kernRecvit_none hpf]
      exact iff_of_true (.of_untouched hlog fun _ => hstores) (by simp)
  | some n =>
      have hpf : k.pf = some (stackAddr n) := by rw [Kern.pf, hsa]; rfl
      have hcut : (k.cut b supplied).toNat = _ := Kern.cut_toNat hpf
      by_cases hcopies : name.isSome ∧ k.cut b supplied ≠ 0
      · obtain ⟨hname, hzero⟩ := hcopies
        obtain ⟨nm, rfl⟩ := Option.isSome_iff_exists.mp hname
        have hlog : touched ((NameEntry.recvfrom extra).call k (some nm) (some supplied)) b = _ :=
          touched_recvfrom_copies hrc hpf hzero
        have hlt : saLen b (stackAddr n) < 256 := (b (stackAddr n)).toNat_lt
        constructor
        · intro hbounded n' hn'
          obtain rfl := Option.some.inj hn'
          have htouches := hbounded.touches
          rw [hlog] at htouches
          exact .inr (.inl (fits_of_touches hlt htouches))
        · intro hfits
          -- something is copied, so the address has a length and the caller has supplied one
          have hpos : (k.cut b supplied).toNat ≠ 0 := fun h => hzero (UInt32.toNat.inj h)
          rw [hcut] at hpos
          obtain ⟨hlo, hle⟩ : Fits b (stackAddr n) supplied := by
            rcases hfits n rfl with hnone | hfits | rfl | hno
            · cases hnone
            · exact hfits
            · exact absurd (Nat.zero_min _) hpos
            · rw [hno] at hpos
              exact absurd (Nat.min_zero _) hpos
          refine ⟨?_, fun _ => hstores⟩
          rw [hlog]
          apply touches_of_fits hlo hle hlt
          intro o m hom
          unfold NameEntry.Holds
          rw [hpf]
          refine ⟨rfl, ?_⟩
          rw [hcut, Nat.min_eq_right hle]
          show 0 + o + m ≤ _
          omega
      · refine iff_of_true (.of_untouched (touched_recvfrom_nothing hrc hpf hcopies) fun _ => hstores) ?_
        intro n' hn'
        obtain rfl := Option.some.inj hn'
        rcases not_and_or.mp hcopies with hname | hzero
        · exact .inl (by simpa using hname)
        · have hnone : (k.cut b supplied).toNat = 0 := by
            rw [not_not.mp hzero]
            rfl
          rw [hcut] at hnone
          rcases Nat.min_eq_zero_iff.mp hnone with hno | hno
          · exact .inr (.inr (.inl (UInt32.toNat.inj hno)))
          · exact .inr (.inr (.inr hno))

/-- The entry points return an address as they should exactly where they are safe. -/
theorem output_is_bounded_iff (e : NameEntry) (k : Kern) (b : Contents Obj)
    (name : Option CallerPtr) (supplied : UInt32) :
    e.BoundedOutput k b name supplied ↔ e.Safe k b name supplied := by
  by_cases hrc : k.rc = 0
  · cases e with
    | accept => exact accept_boundedOutput_iff hrc
    | recvfrom extra => exact recvfrom_boundedOutput_iff hrc
    | getpeername => exact getname_boundedOutput_iff (.inl rfl) hrc
    | getsockname => exact getname_boundedOutput_iff (.inr rfl) hrc
  · exact iff_of_true (NameEntry.boundedOutput_of_failed hrc) (.inl hrc)

/-- `getpeername` with room for 8 bytes gets the 16 of an IPv4 address. -/
theorem short_buffer_is_overrun :
    ¬ NameEntry.getpeername.BoundedOutput ⟨0, 0, some 0⟩
      (fun p => if p.obj = .stack 0 then [16, 2].getD p.off 0 else 0) (some ⟨0, 0⟩) 8 := by
  intro hbounded
  obtain ⟨nm, hnm, -, -, hend⟩ := hbounded.touches (.write ⟨.caller 0, 2⟩ 14) (by decide)
  obtain rfl := Option.some.inj hnm
  exact absurd hend (by decide)

end Entries

end LazyBsd.Socket
