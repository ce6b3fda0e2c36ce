/-
# LazyBsd.Socket.Iovec — who owns the array of a scatter/gather call.

`uiomove` uses up the `struct iovec`s it walks: it advances their bases and shrinks their lengths in
place. `copyinuio` hands it a copy of the caller's array; `readv`, `writev`, `sendmsg` and `recvmsg`
hand it the array itself. An array that data went through is no longer the array of the caller.
-/
import Mathlib.Logic.Function.Basic
import LazyBsd.Socket.Returned

namespace LazyBsd.Socket

open Lib.Object

/-! ## Arrays of `struct iovec` -/

structure Iovec where
  iovBase : Ptr Obj
  iovLen : UInt64
deriving DecidableEq, Repr

/-- The arrays in each object; a pointer to an entry has the array and an index. -/
abbrev Iovecs := Obj → List Iovec

def Iovecs.entry (m : Iovecs) (p : Ptr Obj) : Option Iovec := (m p.obj)[p.off]?

def Iovecs.set (m : Iovecs) (p : Ptr Obj) (v : Iovec) : Iovecs :=
  Function.update m p.obj ((m p.obj).set p.off v)

/-- An entry of which `n` bytes are used up. -/
def Iovec.advance (v : Iovec) (n : Nat) : Iovec where
  iovBase := v.iovBase + n
  iovLen := v.iovLen - UInt64.ofNat n

/-- `cnt = iov->iov_len`, a `u_int`. -/
def Iovec.count (v : Iovec) : Nat := v.iovLen.toNat % 2 ^ 32

/-! ## The transfer -/

inductive UioSeg
  | userspace
  | sysspace
  | nocopy
deriving DecidableEq, Repr

inductive UioRw
  | read
  | write
deriving DecidableEq, Repr

structure Uio where
  uioIov : Ptr Obj
  uioIovcnt : Int
  uioOffset : Int
  uioResid : Int
  uioSegflg : UioSeg
  uioRw : UioRw
deriving DecidableEq, Repr

/-- The data of one turn of `uiomove`. `copyin` and `copyout` are `memcpy` here and never fail. -/
def Uio.copy (uio : Uio) (cp base : Ptr Obj) (cnt : Nat) (b : Contents Obj) : Contents Obj :=
  match uio.uioSegflg, uio.uioRw with
  | .nocopy, _ => b
  | _, .read => copied b cp base cnt
  | _, .write => copied b base cp cnt

/-- What `uiomove` works on. -/
structure Transfer where
  iovecs : Iovecs
  uio : Uio
  byte : Contents Obj

/-- `uio->uio_iov++`. -/
def Transfer.skip (s : Transfer) : Transfer :=
  { s with uio := { s.uio with uioIov := s.uio.uioIov + 1, uioIovcnt := s.uio.uioIovcnt - 1 } }

/-- `cnt` bytes go between `cp` and the entry `iov`. -/
def Transfer.take (s : Transfer) (cp : Ptr Obj) (iov : Iovec) (cnt : Nat) : Transfer where
  iovecs := s.iovecs.set s.uio.uioIov (iov.advance cnt)
  uio := { s.uio with uioResid := s.uio.uioResid - cnt, uioOffset := s.uio.uioOffset + cnt }
  byte := s.uio.copy cp iov.iovBase cnt s.byte

/-- `uiomove` does not look at `uio_iovcnt`. The walk is followed up to the end of the array, from
where it does not come back. -/
def uiomove (cp : Ptr Obj) (n : Int) (s : Transfer) : Transfer :=
  if 0 < n ∧ s.uio.uioResid ≠ 0 then
    match _h : s.iovecs.entry s.uio.uioIov with
    | none => s
    | some iov =>
        if iov.count = 0 then uiomove cp n s.skip
        else
          let cnt := min iov.count n.toNat
          uiomove (cp + cnt) (n - cnt) (s.take cp iov cnt)
  else s
termination_by (n.toNat, (s.iovecs s.uio.uioIov.obj).length - s.uio.uioIov.off)
decreasing_by
  · obtain ⟨hlt, -⟩ := List.getElem?_eq_some_iff.mp _h
    apply Prod.Lex.right
    show (s.iovecs s.uio.uioIov.obj).length - (s.uio.uioIov.off + 1) < _
    omega
  · apply Prod.Lex.left
    omega

/-- A call into the stack, as far as its transfers go: the calls of `uiomove` it makes, its outcome,
and the fields of the `struct uio` that the entry point does not set. -/
structure Mover where
  moves : List (Ptr Obj × Int)
  rc : Nat
  retval : Int
  offset : Int
  resid : Int

def Mover.move (k : Mover) (s : Transfer) : Transfer :=
  k.moves.foldl (fun s mv => uiomove mv.1 mv.2 s) s

/-! ## The entry points -/

/-- `len += iov[i].iov_len`, with an `int` for the sum. -/
def lenOf (m : Iovecs) (iov : Ptr Obj) (iovcnt : Int) : Int32 :=
  (List.range iovcnt.toNat).foldl (fun len i =>
    (len.toInt64.toUInt64 + ((m.entry (iov + i)).elim 0 Iovec.iovLen)).toUInt32.toInt32) 0

/-- `auio`; the stack sets `uio_rw`. -/
def auio (k : Mover) (rw : UioRw) (m : Iovecs) (iov : Ptr Obj) (iovcnt : Int) : Uio where
  uioIov := iov
  uioIovcnt := iovcnt
  uioOffset := k.offset
  uioResid := (lenOf m iov iovcnt).toInt
  uioSegflg := .sysspace
  uioRw := rw

/-- What the caller gets. -/
def Mover.ret (k : Mover) : Int := if k.rc ≠ 0 then -1 else k.retval

def lazybsdReadv (k : Mover) (m : Iovecs) (iov : Ptr Obj) (iovcnt : Int) (b : Contents Obj) :
    Int × Transfer :=
  (k.ret, k.move ⟨m, auio k .read m iov iovcnt, b⟩)

def lazybsdWritev (k : Mover) (m : Iovecs) (iov : Ptr Obj) (iovcnt : Int) (b : Contents Obj) :
    Int × Transfer :=
  (k.ret, k.move ⟨m, auio k .write m iov iovcnt, b⟩)

/-- The stack moves the data of a message by the `msg_iov` it is given. -/
def Msghdr.uio (msg : Msghdr) (k : Mover) (segflg : UioSeg) (rw : UioRw) : Uio where
  uioIov := msg.msgIov
  uioIovcnt := msg.msgIovlen.toNat
  uioOffset := k.offset
  uioResid := k.resid
  uioSegflg := segflg
  uioRw := rw

/-- What a message call starts its transfer from; `none` while it is at the control messages. -/
def sendmsgTransfer (k : Mover) (m : Iovecs) (msg : LinuxMsghdr) (turns : Nat) (b : Contents Obj) :
    Option Transfer :=
  let control := if msg.msgControl.isSome then some freebsdCmsg else none
  let out := (linux2freebsdMsghdr msg (some bsdaddr) control true turns).run ⟨b, []⟩
  out.1.map fun msg => ⟨m, msg.uio k .userspace .write, out.2.byte⟩

def recvmsgTransfer (k : Mover) (m : Iovecs) (msg : LinuxMsghdr) (b : Contents Obj) :
    Option Transfer :=
  let out := (linux2freebsdMsghdr msg none none false 0).run ⟨b, []⟩
  out.1.map fun msg => ⟨m, msg.uio k .sysspace .read, out.2.byte⟩

/-- `lazybsd_sendmsg` with its transfer. The conversion back reaches no array. -/
def lazybsdSendmsgData (k : Mover) (m : Iovecs) (msg : LinuxMsghdr) (malloced : Bool) (turns : Nat)
    (b : Contents Obj) : Option (Int × Iovecs) :=
  if msg.msgControl.isSome && !malloced then some (-1, m)
  else (sendmsgTransfer k m msg turns b).map fun s => (k.ret, (k.move s).iovecs)

def lazybsdRecvmsgData (k : Mover) (m : Iovecs) (msg : LinuxMsghdr) (b : Contents Obj) :
    Option (Int × Iovecs) :=
  (recvmsgTransfer k m msg b).map fun s => (k.ret, (k.move s).iovecs)

def uioMaxiov : Nat := 1024
def einval : Nat := 22
def intMax : Int := 2 ^ 31 - 1

/-- The loop of `copyinuio` over the lengths. -/
def residOf (resid : Int) : List Iovec → Option Int
  | [] => some resid
  | iov :: rest =>
      if (iov.iovLen.toNat : Int) > intMax - resid then none
      else residOf (resid + iov.iovLen.toNat) rest

/-- `fresh` is the object that `malloc` returns, if it returns one. -/
def copyinuio (m : Iovecs) (iovp : Ptr Obj) (iovcnt : UInt32) (fresh : Option Obj) (rw : UioRw) :
    Except Nat (Iovecs × Uio) :=
  if iovcnt.toNat > uioMaxiov then .error einval
  else
    match fresh with
    | none => .error enomem
    | some o =>
        let iov := ((m iovp.obj).drop iovp.off).take iovcnt.toNat
        match residOf 0 iov with
        | none => .error einval
        | some resid => .ok (Function.update m o iov,
            { uioIov := ⟨o, 0⟩
              uioIovcnt := iovcnt.toNat
              uioOffset := -1
              uioResid := resid
              uioSegflg := .userspace
              uioRw := rw })

/-! ## What a transfer does to the arrays -/

section Entries

variable {m m' m'' : Iovecs} {p q : Ptr Obj} {v iov : Iovec} {n : Nat}

theorem Iovecs.entry_set (m : Iovecs) (p q : Ptr Obj) (v : Iovec) :
    (m.set p v).entry q = if q = p then (m.entry p).map fun _ => v else m.entry q := by
  unfold Iovecs.entry Iovecs.set
  by_cases hobj : q.obj = p.obj
  · rw [hobj, Function.update_self, List.getElem?_set']
    by_cases hoff : q.off = p.off
    · have hpq : q = p := by
        cases p
        cases q
        cases hobj
        cases hoff
        rfl
      subst hpq
      rw [if_pos rfl, if_pos rfl]
      rfl
    · rw [if_neg (Ne.symm hoff), if_neg fun h => hoff (congrArg Ptr.off h)]
  · rw [Function.update_of_ne hobj, if_neg fun h => hobj (congrArg Ptr.obj h)]

theorem Iovecs.entry_set_self (h : m.entry p = some iov) : (m.set p v).entry p = some v := by
  rw [entry_set, if_pos rfl, h]
  rfl

theorem Iovecs.entry_set_other (h : q ≠ p) : (m.set p v).entry q = m.entry q := by
  rw [entry_set, if_neg h]

@[simp] theorem Iovec.advance_zero (v : Iovec) : v.advance 0 = v := by
  show (⟨v.iovBase + 0, v.iovLen - 0⟩ : Iovec) = v
  simp

theorem Iovec.advance_advance (v : Iovec) (k n : Nat) :
    (v.advance k).advance n = v.advance (k + n) := by
  show (⟨v.iovBase + k + n, v.iovLen - UInt64.ofNat k - UInt64.ofNat n⟩ : Iovec) =
    ⟨v.iovBase + (k + n), v.iovLen - UInt64.ofNat (k + n)⟩
  have hlen : v.iovLen - UInt64.ofNat k - UInt64.ofNat n = v.iovLen - UInt64.ofNat (k + n) := by
    rw [UInt64.ofNat_add]
    grind
  rw [Ptr.add_add, hlen]

/-- The base tells how much of an entry is used up. -/
theorem Iovec.advance_inj {k : Nat} : v.advance k = v.advance n ↔ k = n := by
  constructor
  · intro h
    have hoff : v.iovBase.off + k = v.iovBase.off + n := congrArg (fun u => u.iovBase.off) h
    exact Nat.add_left_cancel hoff
  · rintro rfl
    rfl

/-- Every entry is where it was, with some of it used up. -/
def Iovecs.Advanced (m m' : Iovecs) : Prop :=
  ∀ p v, m.entry p = some v → ∃ n, m'.entry p = some (v.advance n)

theorem Iovecs.Advanced.refl (m : Iovecs) : m.Advanced m := by
  intro p v h
  exact ⟨0, by rw [h, Iovec.advance_zero]⟩

theorem Iovecs.Advanced.trans (h : m.Advanced m') (h' : m'.Advanced m'') : m.Advanced m'' := by
  intro p v hv
  obtain ⟨k, hk⟩ := h p v hv
  obtain ⟨n, hn⟩ := h' p (v.advance k) hk
  exact ⟨k + n, by rw [hn, Iovec.advance_advance]⟩

theorem Iovecs.Advanced.set (h : m.entry p = some iov) (n : Nat) :
    m.Advanced (m.set p (iov.advance n)) := by
  intro q v hv
  by_cases hq : q = p
  · subst hq
    obtain rfl := Option.some.inj (h.symm.trans hv)
    exact ⟨n, entry_set_self h⟩
  · exact ⟨0, by rw [entry_set_other hq, hv, Iovec.advance_zero]⟩

end Entries

section Moves

variable {cp : Ptr Obj} {n : Int} {s : Transfer} {k : Mover} {hi : Nat}

theorem uiomove_advanced (cp : Ptr Obj) (n : Int) (s : Transfer) :
    s.iovecs.Advanced (uiomove cp n s).iovecs := by
  fun_induction uiomove cp n s with
  | case1 => exact .refl _
  | case2 cp n s _ iov _ _ ih => exact ih
  | case3 cp n s _ iov h _ cnt ih => exact (Iovecs.Advanced.set h cnt).trans ih
  | case4 => exact .refl _

/-- The walk stays in its object and does not turn back. -/
theorem uiomove_walks (cp : Ptr Obj) (n : Int) (s : Transfer) :
    (uiomove cp n s).uio.uioIov.obj = s.uio.uioIov.obj ∧
      s.uio.uioIov.off ≤ (uiomove cp n s).uio.uioIov.off := by
  fun_induction uiomove cp n s with
  | case1 => exact ⟨rfl, le_rfl⟩
  | case2 cp n s _ iov _ _ ih =>
      obtain ⟨hobj, hoff⟩ := ih
      exact ⟨hobj, Nat.le_of_succ_le hoff⟩
  | case3 cp n s _ iov h _ cnt ih => exact ih
  | case4 => exact ⟨rfl, le_rfl⟩

/-- Arrays in other objects stay as they are. -/
theorem uiomove_elsewhere {o : Obj} (ho : o ≠ s.uio.uioIov.obj) :
    (uiomove cp n s).iovecs o = s.iovecs o := by
  fun_induction uiomove cp n s with
  | case1 => rfl
  | case2 cp n s _ iov _ _ ih => exact ih ho
  | case3 cp n s _ iov h _ cnt ih =>
      rw [ih ho]
      exact Function.update_of_ne ho _ _
  | case4 => rfl

/-- The entries of the array from `lo` on and before `hi`, all empty for `uiomove`. -/
def Iovecs.EmptyFrom (m : Iovecs) (o : Obj) (lo hi : Nat) : Prop :=
  ∀ i v, lo ≤ i → i < hi → m.entry ⟨o, i⟩ = some v → v.count = 0

/-- Entries that are empty are walked over. -/
theorem uiomove_keeps_empty (hempty : s.iovecs.EmptyFrom s.uio.uioIov.obj s.uio.uioIov.off hi)
    (p : Ptr Obj) (hobj : p.obj = s.uio.uioIov.obj) (hhi : p.off < hi) :
    (uiomove cp n s).iovecs.entry p = s.iovecs.entry p := by
  fun_induction uiomove cp n s with
  | case1 => rfl
  | case2 cp n s _ iov _ _ ih =>
      apply ih _ hobj
      intro i v hlo
      exact hempty i v (Nat.le_of_succ_le hlo)
  | case3 cp n s _ iov h hcount cnt ih =>
      -- the entry in hand lies beyond the empty ones
      have hbeyond : hi ≤ s.uio.uioIov.off := by
        by_contra hlt
        exact hcount (hempty s.uio.uioIov.off iov le_rfl (Nat.lt_of_not_le hlt) h)
      have hne : p ≠ s.uio.uioIov := by
        rintro rfl
        omega
      have htake : (s.take cp iov cnt).iovecs.entry p = s.iovecs.entry p :=
        Iovecs.entry_set_other hne
      rw [← htake]
      apply ih _ hobj
      intro i v hlo hi'
      exact absurd (hbeyond.trans hlo) (Nat.not_le_of_lt hi')
  | case4 => rfl

/-- A move of something uses up a part of the first entry that has anything in it. -/
theorem uiomove_uses (cp : Ptr Obj) (hn : 0 < n) (hresid : s.uio.uioResid ≠ 0)
    (hsome : ¬ s.iovecs.EmptyFrom s.uio.uioIov.obj s.uio.uioIov.off hi) :
    ∃ p v c, p.obj = s.uio.uioIov.obj ∧ s.uio.uioIov.off ≤ p.off ∧ p.off < hi ∧ 0 < c ∧
      s.iovecs.entry p = some v ∧ (uiomove cp n s).iovecs.entry p = some (v.advance c) := by
  fun_induction uiomove cp n s with
  | case1 cp n s _ hnone =>
      -- past the end of the array there is no entry
      have hend : (s.iovecs s.uio.uioIov.obj).length ≤ s.uio.uioIov.off :=
        List.getElem?_eq_none_iff.mp hnone
      refine absurd ?_ hsome
      intro i v hlo _ hv
      have hnone' : s.iovecs.entry ⟨s.uio.uioIov.obj, i⟩ = none :=
        List.getElem?_eq_none (hend.trans hlo)
      rw [hnone'] at hv
      cases hv
  | case2 cp n s _ iov h hcount ih =>
      have hrest : ¬ s.skip.iovecs.EmptyFrom s.skip.uio.uioIov.obj s.skip.uio.uioIov.off hi := by
        intro hempty
        apply hsome
        intro i v hlo hhi hv
        rcases Nat.eq_or_lt_of_le hlo with rfl | hlt
        · obtain rfl := Option.some.inj (h.symm.trans hv)
          exact hcount
        · exact hempty i v hlt hhi hv
      obtain ⟨p, v, c, hobj, hlo, hrest⟩ := ih hn hresid hrest
      exact ⟨p, v, c, hobj, Nat.le_of_succ_le hlo, hrest⟩
  | case3 cp n s _ iov h hcount cnt ih =>
      have hcnt : 0 < cnt := by
        show 0 < min iov.count n.toNat
        omega
      have hhi : s.uio.uioIov.off < hi := by
        by_contra hle
        apply hsome
        intro i v hlo hi'
        omega
      -- what comes after can only use up more
      have hset : (s.take cp iov cnt).iovecs.entry s.uio.uioIov = some (iov.advance cnt) :=
        Iovecs.entry_set_self h
      obtain ⟨c, hc⟩ := uiomove_advanced (cp + cnt) (n - cnt) (s.take cp iov cnt) _ _ hset
      rw [Iovec.advance_advance] at hc
      exact ⟨s.uio.uioIov, iov, cnt + c, rfl, le_rfl, hhi, by omega, h, hc⟩
  | case4 cp n s h => exact absurd ⟨hn, hresid⟩ h

theorem uiomove_of_nonpos (hn : n ≤ 0) : uiomove cp n s = s := by
  rw [uiomove, if_neg]
  rintro ⟨hpos, -⟩
  omega

theorem uiomove_of_done (hresid : s.uio.uioResid = 0) : uiomove cp n s = s := by
  rw [uiomove, if_neg]
  rintro ⟨-, hne⟩
  exact hne hresid

end Moves

/-! ## What a call does to the array -/

section Calls

variable {s : Transfer} {k : Mover} {hi : Nat}

/-- What every move keeps, a call keeps. -/
theorem Mover.move_induction {P : Transfer → Prop} (k : Mover)
    (hstep : ∀ s, P s → ∀ mv ∈ k.moves, P (uiomove mv.1 mv.2 s)) (hs : P s) : P (k.move s) := by
  unfold Mover.move
  generalize k.moves = moves at hstep
  induction moves generalizing s with
  | nil => exact hs
  | cons mv moves ih =>
      rw [List.foldl_cons]
      apply ih
      · exact hstep s hs mv List.mem_cons_self
      · intro s hs mv' hmv'
        exact hstep s hs mv' (List.mem_cons_of_mem _ hmv')

/-- A call touches no array but the one it is given. -/
theorem Mover.move_elsewhere {o : Obj} (k : Mover) (ho : o ≠ s.uio.uioIov.obj) :
    (k.move s).iovecs o = s.iovecs o := by
  have hkept : (k.move s).uio.uioIov.obj = s.uio.uioIov.obj ∧ (k.move s).iovecs o = s.iovecs o := by
    apply k.move_induction (P := fun s' => s'.uio.uioIov.obj = s.uio.uioIov.obj ∧
      s'.iovecs o = s.iovecs o)
    · rintro s' ⟨hobj, hsame⟩ mv -
      refine ⟨(uiomove_walks mv.1 mv.2 s').1.trans hobj, ?_⟩
      rw [uiomove_elsewhere (by rwa [hobj]), hsame]
    · exact ⟨rfl, rfl⟩
  exact hkept.2

/-- The state of a call that walks over empty entries only. -/
structure Transfer.WalksOver (s₀ : Transfer) (hi : Nat) (s : Transfer) : Prop where
  obj : s.uio.uioIov.obj = s₀.uio.uioIov.obj
  forward : s₀.uio.uioIov.off ≤ s.uio.uioIov.off
  entries : ∀ p : Ptr Obj, p.obj = s₀.uio.uioIov.obj → p.off < hi →
    s.iovecs.entry p = s₀.iovecs.entry p

theorem Transfer.WalksOver.uiomove {s₀ : Transfer}
    (hempty : s₀.iovecs.EmptyFrom s₀.uio.uioIov.obj s₀.uio.uioIov.off hi)
    (h : s₀.WalksOver hi s) (cp : Ptr Obj) (n : Int) : s₀.WalksOver hi (uiomove cp n s) := by
  obtain ⟨hobj, hoff⟩ := uiomove_walks cp n s
  refine ⟨hobj.trans h.obj, h.forward.trans hoff, ?_⟩
  have hempty' : s.iovecs.EmptyFrom s.uio.uioIov.obj s.uio.uioIov.off hi := by
    intro i v hlo hhi hv
    rw [h.obj, h.entries ⟨_, i⟩ rfl hhi] at hv
    exact hempty i v (h.forward.trans hlo) hhi hv
  intro p hp hhi
  rw [uiomove_keeps_empty hempty' p (hp.trans h.obj.symm) hhi]
  exact h.entries p hp hhi

/-- Nothing goes through the entries before `hi`: nothing is left to move, no move asks for anything,
or the entries are empty. -/
def Mover.Idle (k : Mover) (s : Transfer) (hi : Nat) : Prop :=
  s.uio.uioResid = 0 ∨ (∀ mv ∈ k.moves, mv.2 ≤ 0) ∨
    s.iovecs.EmptyFrom s.uio.uioIov.obj s.uio.uioIov.off hi

theorem Mover.move_idle (h : k.Idle s hi) (p : Ptr Obj) (hobj : p.obj = s.uio.uioIov.obj)
    (hhi : p.off < hi) : (k.move s).iovecs.entry p = s.iovecs.entry p := by
  rcases h with hresid | hmoves | hempty
  · have hsame : k.move s = s := by
      apply k.move_induction (P := fun s' => s' = s)
      · rintro s' rfl mv -
        exact uiomove_of_done hresid
      · rfl
    rw [hsame]
  · have hsame : k.move s = s := by
      apply k.move_induction (P := fun s' => s' = s)
      · rintro s' rfl mv hmv
        exact uiomove_of_nonpos (hmoves mv hmv)
      · rfl
    rw [hsame]
  · have hwalk : s.WalksOver hi (k.move s) := by
      apply k.move_induction
      · intro s' hs' mv _
        exact hs'.uiomove hempty mv.1 mv.2
      · exact ⟨rfl, le_rfl, fun _ _ _ => rfl⟩
    exact hwalk.entries p hobj hhi

theorem move_advanced (moves : List (Ptr Obj × Int)) (s : Transfer) :
    s.iovecs.Advanced (moves.foldl (fun s mv => uiomove mv.1 mv.2 s) s).iovecs := by
  induction moves generalizing s with
  | nil => exact .refl _
  | cons mv moves ih => exact (uiomove_advanced mv.1 mv.2 s).trans (ih _)

/-- A call that is not idle uses up a part of an entry, and nothing puts it back. -/
theorem Mover.move_uses (h : ¬ k.Idle s hi) :
    ∃ p v c, p.obj = s.uio.uioIov.obj ∧ s.uio.uioIov.off ≤ p.off ∧ p.off < hi ∧ 0 < c ∧
      s.iovecs.entry p = some v ∧ (k.move s).iovecs.entry p = some (v.advance c) := by
  obtain ⟨hresid, hrest⟩ := not_or.mp h
  obtain ⟨hmoves, hsome⟩ := not_or.mp hrest
  unfold Mover.move
  generalize k.moves = moves at hmoves
  induction moves with
  | nil => exact absurd (List.forall_mem_nil _) hmoves
  | cons mv moves ih =>
      rw [List.foldl_cons]
      rcases lt_or_ge 0 mv.2 with hpos | hnon
      · obtain ⟨p, v, c, hobj, hlo, hhi, hc, hv, hused⟩ :=
          uiomove_uses mv.1 hpos hresid hsome
        obtain ⟨c', hc'⟩ := move_advanced moves (uiomove mv.1 mv.2 s) p _ hused
        rw [Iovec.advance_advance] at hc'
        exact ⟨p, v, c + c', hobj, hlo, hhi, by omega, hv, hc'⟩
      · rw [uiomove_of_nonpos hnon]
        apply ih
        intro hall
        apply hmoves
        intro mv' hmv'
        rcases List.mem_cons.mp hmv' with rfl | hmv'
        · exact hnon
        · exact hall mv' hmv'

/-- The first `cnt` entries of the array are what they were. -/
def Iovecs.Kept (m m' : Iovecs) (iov : Ptr Obj) (cnt : Nat) : Prop :=
  ∀ i < cnt, m'.entry (iov + i) = m.entry (iov + i)

theorem Mover.kept_iff (k : Mover) (s : Transfer) (cnt : Nat) :
    s.iovecs.Kept (k.move s).iovecs s.uio.uioIov cnt ↔ k.Idle s (s.uio.uioIov.off + cnt) := by
  constructor
  · intro hkept
    by_contra hbusy
    obtain ⟨p, v, c, hobj, hlo, hhi, hc, hv, hused⟩ := move_uses hbusy
    have hp : p = s.uio.uioIov + (p.off - s.uio.uioIov.off) := by
      cases p
      cases hobj
      show (⟨_, _⟩ : Ptr Obj) = ⟨_, _⟩
      rw [Nat.add_sub_cancel' hlo]
    have hsame := hkept (p.off - s.uio.uioIov.off) (by omega)
    rw [← hp, hv, hused] at hsame
    have hzero : v.advance c = v.advance 0 := by
      rw [Iovec.advance_zero]
      exact Option.some.inj hsame
    exact Nat.ne_of_gt hc (Iovec.advance_inj.mp hzero)
  · intro hidle i hi
    apply move_idle hidle
    · rfl
    · show s.uio.uioIov.off + i < _
      omega

end Calls

/-! ## The four calls -/

inductive GatherCall
  | readv (iov : Ptr Obj) (iovcnt : Int)
  | writev (iov : Ptr Obj) (iovcnt : Int)
  | sendmsg (msg : LinuxMsghdr) (malloced : Bool) (turns : Nat)
  | recvmsg (msg : LinuxMsghdr)

namespace GatherCall

/-- The caller's array. -/
def iov : GatherCall → Ptr Obj
  | .readv iov _ => iov
  | .writev iov _ => iov
  | .sendmsg msg _ _ => msg.msgIov
  | .recvmsg msg => msg.msgIov

def iovcnt : GatherCall → Nat
  | .readv _ iovcnt => iovcnt.toNat
  | .writev _ iovcnt => iovcnt.toNat
  | .sendmsg msg _ _ => msg.msgIovlen.toNat
  | .recvmsg msg => msg.msgIovlen.toNat

def run (c : GatherCall) (k : Mover) (m : Iovecs) (b : Contents Obj) : Option (Int × Iovecs) :=
  match c with
  | .readv iov iovcnt => some ((lazybsdReadv k m iov iovcnt b).map id Transfer.iovecs)
  | .writev iov iovcnt => some ((lazybsdWritev k m iov iovcnt b).map id Transfer.iovecs)
  | .sendmsg msg malloced turns => lazybsdSendmsgData k m msg malloced turns b
  | .recvmsg msg => lazybsdRecvmsgData k m msg b

/-- What the stack starts from, if it is called. -/
def handed (c : GatherCall) (k : Mover) (m : Iovecs) (b : Contents Obj) : Option Transfer :=
  match c with
  | .readv iov iovcnt => some ⟨m, auio k .read m iov iovcnt, b⟩
  | .writev iov iovcnt => some ⟨m, auio k .write m iov iovcnt, b⟩
  | .sendmsg msg malloced turns =>
      if msg.msgControl.isSome && !malloced then none else sendmsgTransfer k m msg turns b
  | .recvmsg msg => recvmsgTransfer k m msg b

/-- The array is what it was before the call. -/
def KeepsArray (c : GatherCall) (k : Mover) (m : Iovecs) (b : Contents Obj) : Prop :=
  ∀ out, c.run k m b = some out → m.Kept out.2 c.iov c.iovcnt

/-- Nothing goes through the array: the stack is not called, or finds nothing to move. -/
def MovesNothing (c : GatherCall) (k : Mover) (m : Iovecs) (b : Contents Obj) : Prop :=
  ∀ s, c.handed k m b = some s → k.Idle s (c.iov.off + c.iovcnt)

end GatherCall

section Ownership

variable {c : GatherCall} {k : Mover} {m : Iovecs} {b : Contents Obj} {s : Transfer}

/-- The header for the stack has the caller's own array. -/
theorem linux2freebsdMsghdr_iov {linuxMsg : LinuxMsghdr} {msg : Msghdr}
    {name control : Option (Ptr Obj)} {sendFlag : Bool} {turns : Nat} {r : Ram Obj}
    (h : ((linux2freebsdMsghdr linuxMsg name control sendFlag turns).run r).1 = some msg) :
    msg.msgIov = linuxMsg.msgIov := by
  unfold linux2freebsdMsghdr at h
  cases sendFlag with
  | false => exact congrArg Msghdr.msgIov (Option.some.inj h).symm
  | true =>
      simp only [↓reduceIte, run_bind] at h
      split at h
      · obtain ⟨_, -, rfl⟩ := Option.map_eq_some_iff.mp h
        split <;> rfl
      · obtain rfl := Option.some.inj h
        split <;> rfl
      · obtain rfl := Option.some.inj h
        split <;> rfl

theorem sendmsgTransfer_iov {msg : LinuxMsghdr} {turns : Nat}
    (h : sendmsgTransfer k m msg turns b = some s) :
    s.iovecs = m ∧ s.uio.uioIov = msg.msgIov := by
  unfold sendmsgTransfer at h
  obtain ⟨freebsdMsg, hmsg, rfl⟩ := Option.map_eq_some_iff.mp h
  exact ⟨rfl, linux2freebsdMsghdr_iov hmsg⟩

theorem recvmsgTransfer_iov {msg : LinuxMsghdr} (h : recvmsgTransfer k m msg b = some s) :
    s.iovecs = m ∧ s.uio.uioIov = msg.msgIov := by
  unfold recvmsgTransfer at h
  obtain ⟨freebsdMsg, hmsg, rfl⟩ := Option.map_eq_some_iff.mp h
  exact ⟨rfl, linux2freebsdMsghdr_iov hmsg⟩

/-- The stack starts from the caller's own array. -/
theorem GatherCall.handed_eq (h : c.handed k m b = some s) :
    s.iovecs = m ∧ s.uio.uioIov = c.iov ∧ c.run k m b = some (k.ret, (k.move s).iovecs) := by
  cases c with
  | readv iov iovcnt =>
      obtain rfl := Option.some.inj h
      exact ⟨rfl, rfl, rfl⟩
  | writev iov iovcnt =>
      obtain rfl := Option.some.inj h
      exact ⟨rfl, rfl, rfl⟩
  | sendmsg msg malloced turns =>
      simp only [GatherCall.handed] at h
      split at h
      · cases h
      · next hmalloc =>
          obtain ⟨hm, hiov⟩ := sendmsgTransfer_iov h
          refine ⟨hm, hiov, ?_⟩
          show lazybsdSendmsgData k m msg malloced turns b = _
          rw [lazybsdSendmsgData, if_neg hmalloc, h]
          rfl
  | recvmsg msg =>
      change recvmsgTransfer k m msg b = some s at h
      obtain ⟨hm, hiov⟩ := recvmsgTransfer_iov h
      refine ⟨hm, hiov, ?_⟩
      show lazybsdRecvmsgData k m msg b = _
      rw [lazybsdRecvmsgData, h]
      rfl

/-- A call that does not come to the stack changes no array. -/
theorem GatherCall.handed_none {out : Int × Iovecs} (h : c.handed k m b = none)
    (hrun : c.run k m b = some out) : out.2 = m := by
  cases c with
  | readv iov iovcnt => cases h
  | writev iov iovcnt => cases h
  | sendmsg msg malloced turns =>
      change lazybsdSendmsgData k m msg malloced turns b = some out at hrun
      simp only [GatherCall.handed] at h
      unfold lazybsdSendmsgData at hrun
      split at hrun
      · rw [← Option.some.inj hrun]
      · next hmalloc =>
          rw [if_neg hmalloc] at h
          rw [h] at hrun
          cases hrun
  | recvmsg msg =>
      change recvmsgTransfer k m msg b = none at h
      change lazybsdRecvmsgData k m msg b = some out at hrun
      rw [lazybsdRecvmsgData, h] at hrun
      cases hrun

theorem GatherCall.keepsArray_iff_idle (h : c.handed k m b = some s) :
    c.KeepsArray k m b ↔ k.Idle s (c.iov.off + c.iovcnt) := by
  obtain ⟨hm, hiov, hrun⟩ := GatherCall.handed_eq h
  have hkept := k.kept_iff s c.iovcnt
  rw [hm, hiov] at hkept
  rw [← hkept]
  unfold GatherCall.KeepsArray
  rw [hrun]
  constructor
  · intro hall
    exact hall _ rfl
  · rintro hone out hout
    obtain rfl := Option.some.inj hout
    exact hone

/-- The array is left alone exactly where nothing goes through it. -/
theorem iovec_is_kept_iff (c : GatherCall) (k : Mover) (m : Iovecs) (b : Contents Obj) :
    c.KeepsArray k m b ↔ c.MovesNothing k m b := by
  cases hhanded : c.handed k m b with
  | none =>
      apply iff_of_true
      · intro out hrun i _
        rw [GatherCall.handed_none hhanded hrun]
      · intro s hs
        rw [hhanded] at hs
        cases hs
  | some s =>
      rw [GatherCall.keepsArray_iff_idle hhanded]
      constructor
      · intro hidle s' hs'
        rw [hhanded] at hs'
        obtain rfl := Option.some.inj hs'
        exact hidle
      · intro h
        exact h s hhanded

/-- `readv` of one entry of 4 bytes that are all there. -/
theorem readv_uses_up_array :
    ¬ (GatherCall.readv ⟨.caller 0, 0⟩ 1).KeepsArray ⟨[(⟨.stack 0, 0⟩, 4)], 0, 4, 0, 0⟩
      (fun o => if o = .caller 0 then [⟨⟨.caller 1, 0⟩, 4⟩] else []) (fun _ => 0) := by
  rw [GatherCall.keepsArray_iff_idle rfl]
  rintro (hresid | hmoves | hempty)
  · exact absurd hresid (by decide)
  · exact absurd (hmoves _ List.mem_cons_self) (by decide)
  · exact absurd (hempty 0 _ le_rfl (by decide) rfl) (by decide)

end Ownership

/-! ## The private copy -/

section Copy

variable {k : Mover} {m m' : Iovecs} {iovp : Ptr Obj} {iovcnt : UInt32} {o : Obj} {rw_ : UioRw}
  {uio : Uio} {b : Contents Obj}

/-- The loop of `copyinuio` ends with the sum, which an `int` can hold. -/
theorem residOf_eq {iov : List Iovec} {resid r : Int} (hr : r ≤ intMax)
    (h : residOf r iov = some resid) :
    resid = r + (iov.map fun v => (v.iovLen.toNat : Int)).sum ∧ resid ≤ intMax := by
  induction iov generalizing r with
  | nil =>
      obtain rfl := Option.some.inj h
      simpa using hr
  | cons v iov ih =>
      rw [residOf] at h
      split at h
      · cases h
      · next hle =>
          obtain ⟨hsum, hmax⟩ := ih (by omega) h
          refine ⟨?_, hmax⟩
          rw [hsum, List.map_cons, List.sum_cons]
          omega

/-- The copy has the caller's entries, with all their bytes to go. -/
theorem copyinuio_ok (h : copyinuio m iovp iovcnt (some o) rw_ = .ok (m', uio)) :
    m' = Function.update m o (((m iovp.obj).drop iovp.off).take iovcnt.toNat) ∧
      uio.uioIov = ⟨o, 0⟩ ∧ uio.uioResid ≤ intMax ∧
      uio.uioResid = ((m' o).map fun v => (v.iovLen.toNat : Int)).sum := by
  unfold copyinuio at h
  split at h
  · cases h
  · dsimp only at h
    split at h
    · cases h
    · next resid hresid =>
        obtain ⟨hsum, hmax⟩ := residOf_eq (by decide) hresid
        cases h
        refine ⟨rfl, rfl, hmax, ?_⟩
        rw [Function.update_self]
        show resid = _
        rw [hsum, Int.zero_add]

/-- A transfer through a `struct uio` of `copyinuio` uses up the copy, and leaves the array alone. -/
theorem copyinuio_keeps (h : copyinuio m iovp iovcnt (some o) rw_ = .ok (m', uio))
    (ho : iovp.obj ≠ o) :
    (k.move ⟨m', uio, b⟩).iovecs iovp.obj = m iovp.obj := by
  obtain ⟨rfl, hiov, -⟩ := copyinuio_ok h
  have hother : iovp.obj ≠ uio.uioIov.obj := by rwa [hiov]
  rw [Mover.move_elsewhere k hother]
  exact Function.update_of_ne ho _ _

end Copy

end LazyBsd.Socket
