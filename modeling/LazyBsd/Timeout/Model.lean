/-
# LazyBsd.Timeout.Model — the callout wheel of `lazybsd_kern_timeout.c`.

There is one `callout_cpu`, every lock operation is a no-op and `mtx_owned` is 1, so the only
interleaving is the one the code makes itself: the handler that `softclock_call_cc` calls, and the drain
function after it, may reset, stop and initialise callouts while the walk over a bucket stands still.
The model therefore has one function for each function of the source up to such a call and one for what
follows it, and the step function `step` lets the handler do any number of operations in between.
`KASSERT` and the trace macros compile to nothing; `CALLOUT_SHAREDLOCK` only chooses an argument of a lock
operation and is left out, and so are the `cpu` arguments, which all mean the same `callout_cpu`.
-/
import LazyBsd.Timeout.Service
import LazyBsd.Lib.Cursor
import LazyBsd.Lib.Run
import Mathlib.Algebra.Group.Nat.Defs
import Mathlib.Logic.Function.Basic

namespace LazyBsd.Timeout

open Lib

/-! ## State -/

/-- A `struct lock_object`, which is `Giant`'s or another one. -/
inductive Lock
  | giant
  | other (n : Nat)
  deriving DecidableEq

/-- The bits of `c_iflags`. -/
structure Iflags where
  localAlloc : Bool
  pending : Bool
  returnUnlocked : Bool
  processed : Bool
  direct : Bool
  dfrMigration : Bool
  deriving DecidableEq

/-- No bit set. -/
def Iflags.zero : Iflags := ⟨false, false, false, false, false, false⟩

variable {ι φ α : Type*}

/-- `struct callout`; `cActive` is the bit `CALLOUT_ACTIVE` of `c_flags`. -/
structure Callout (φ α : Type*) where
  cTime : BitVec 32
  cArg : Option α
  cFunc : Option φ
  cLock : Option Lock
  cActive : Bool
  cIflags : Iflags

/-- `struct cc_exec`. -/
structure CcExec (ι φ : Type*) where
  ccCurr : Option ι
  ccDrain : Option φ
  ccCancel : Bool
  ccWaiting : Bool

/-- `struct callout_cpu`, with the global `ticks` and the memory of the callouts. -/
structure CalloutCpu (ι φ α : Type*) where
  ccExecEntity : Bool → CcExec ι φ
  ccNext : Option ι
  ccCallwheel : Nat → List ι
  ccExpireq : List ι
  ccCallfree : List ι
  ccSoftticks : BitVec 32
  ccBucket : Nat
  ticks : BitVec 32
  callouts : ι → Callout φ α

/-- `callwheelsize`, a power of two. -/
def callwheelsize (k : Nat) : Nat := 2 ^ k

/-- `callwheelmask`. -/
def callwheelmask (k : Nat) : Nat := callwheelsize k - 1

/-- `callout_get_bucket`. -/
def calloutGetBucket (k : Nat) (toTicks : BitVec 32) : Nat := toTicks.toNat &&& callwheelmask k

variable [DecidableEq ι]

namespace CalloutCpu

/-- A store into a callout. -/
def modify (c : ι) (g : Callout φ α → Callout φ α) (cc : CalloutCpu ι φ α) : CalloutCpu ι φ α :=
  { cc with callouts := Function.update cc.callouts c (g (cc.callouts c)) }

/-- A store into one of the two exec entities. -/
def modifyExec (direct : Bool) (g : CcExec ι φ → CcExec ι φ) (cc : CalloutCpu ι φ α) :
    CalloutCpu ι φ α :=
  { cc with ccExecEntity := Function.update cc.ccExecEntity direct (g (cc.ccExecEntity direct)) }

end CalloutCpu

/-! ## Lists of the wheel -/

/-- `LIST_NEXT(c, c_links.le)`. -/
def listNextLe (k : Nat) (c : ι) (cc : CalloutCpu ι φ α) : Option ι :=
  listNext c (cc.ccCallwheel (calloutGetBucket k (cc.callouts c).cTime))

/-- `LIST_REMOVE(c, c_links.le)`. -/
def listRemoveLe (c : ι) (cc : CalloutCpu ι φ α) : CalloutCpu ι φ α :=
  { cc with ccCallwheel := fun b => (cc.ccCallwheel b).erase c }

/-- The removal of a pending callout, as `callout_reset_tick_on` and `_callout_stop_safe` both write
it: off the wheel with `cc_next` moved on, or off the expire queue. -/
def calloutUnlink (k : Nat) (c : ι) (cc : CalloutCpu ι φ α) : CalloutCpu ι φ α :=
  if (cc.callouts c).cIflags.processed = false then
    -- the walk of `softclock` goes on at this callout: move it on before the links are gone
    if cc.ccNext = some c then listRemoveLe c { cc with ccNext := listNextLe k c cc }
    else listRemoveLe c cc
  else { cc with ccExpireq := cc.ccExpireq.erase c }

/-- `callout_cc_add`. -/
def calloutCcAdd (k : Nat) (c : ι) (toTicks : BitVec 32) (func : φ) (arg : Option α)
    (direct : Bool) (cc : CalloutCpu ι φ α) : CalloutCpu ι φ α :=
  let time := cc.ticks + toTicks
  let bucket := calloutGetBucket k time
  let cc := cc.modify c fun r =>
    { r with
      cArg := arg
      cFunc := some func
      cTime := time
      cActive := true
      cIflags :=
        { r.cIflags with
          pending := true
          processed := false
          direct := r.cIflags.direct || direct } }
  let cc :=
    { cc with ccCallwheel := Function.update cc.ccCallwheel bucket (c :: cc.ccCallwheel bucket) }
  -- the bucket being walked has a new head, and the walk goes on there
  if cc.ccBucket = bucket then { cc with ccNext := some c } else cc

/-- `callout_cc_del`. -/
def calloutCcDel (c : ι) (cc : CalloutCpu ι φ α) : CalloutCpu ι φ α :=
  if (cc.callouts c).cIflags.localAlloc = false then cc
  else { cc.modify c (fun r => { r with cFunc := none }) with ccCallfree := c :: cc.ccCallfree }

/-! ## `callout_init`, `_callout_init_lock` -/

/-- `bzero` of a callout. -/
def Callout.zero : Callout φ α := ⟨0, none, none, none, false, Iflags.zero⟩

/-- `callout_init`. -/
def calloutInit (mpsafe : Bool) : Callout φ α :=
  if mpsafe then
    { Callout.zero with cLock := none, cIflags := { Iflags.zero with returnUnlocked := true } }
  else { Callout.zero with cLock := some .giant, cIflags := Iflags.zero }

/-- `_callout_init_lock`. -/
def calloutInitLock (lock : Option Lock) (returnUnlocked : Bool) : Callout φ α :=
  { Callout.zero with
    cLock := lock
    cIflags := { Iflags.zero with returnUnlocked := returnUnlocked } }

/-! ## `callout_reset_tick_on` -/

/-- `if (to_ticks <= 0) to_ticks = 1;`. -/
def atLeastOne (toTicks : BitVec 32) : BitVec 32 := if toTicks.toInt ≤ 0 then 1 else toTicks

/-- A callout that is in progress is cancelled, if it has a lock and was not cancelled before. -/
def resetCancel (c : ι) (direct : Bool) (cc : CalloutCpu ι φ α) : CalloutCpu ι φ α × Bool :=
  if (cc.ccExecEntity direct).ccCurr = some c ∧ (cc.callouts c).cLock.isSome ∧
      (cc.ccExecEntity direct).ccCancel = false then
    (cc.modifyExec direct fun e => { e with ccCancel := true }, true)
  else (cc, false)

/-- `callout_reset_tick_on`; `direct` is `C_DIRECT_EXEC` in `flags`. -/
def calloutResetTickOn (k : Nat) (c : ι) (toTicks : BitVec 32) (ftn : φ) (arg : Option α)
    (direct : Bool) (cc : CalloutCpu ι φ α) : Bool × CalloutCpu ι φ α :=
  let (cc, cancelled) := resetCancel c direct cc
  -- somebody drains the running callout: it is not armed again
  if (cc.ccExecEntity direct).ccCurr = some c ∧ (cc.ccExecEntity direct).ccWaiting = true then
    (cancelled, cc)
  else if (cc.callouts c).cIflags.pending = true then
    let cc := (calloutUnlink k c cc).modify c fun r =>
      { r with cActive := false, cIflags := { r.cIflags with pending := false } }
    (true, calloutCcAdd k c (atLeastOne toTicks) ftn arg direct cc)
  else (cancelled, calloutCcAdd k c (atLeastOne toTicks) ftn arg direct cc)

/-! ## `_callout_stop_safe` -/

/-- The `flags` argument. -/
structure StopFlags where
  csDrain : Bool
  csExecuting : Bool

/-- `use_lock`: without `CS_DRAIN`, whether the callout has a lock (`mtx_owned(&Giant)` is 1). -/
def useLock (flags : StopFlags) (r : Callout φ α) : Bool :=
  !flags.csDrain &&
    match r.cLock with
    | none => false
    | some .giant => true
    | some (.other _) => true

/-- The special case of a migrating callout that is pending and active; the result is
`not_on_a_list`. -/
def stopMigrating (c : ι) (cc : CalloutCpu ι φ α) : CalloutCpu ι φ α × Bool :=
  let r := cc.callouts c
  if (r.cIflags.dfrMigration && r.cIflags.pending && r.cActive) = true then
    (cc.modify c fun r => { r with cActive := false, cIflags := { r.cIflags with pending := false } },
      true)
  else (cc, false)

/-- `if (drain) cc_exec_drain(cc, direct) = drain;`. -/
def setDrain (direct : Bool) (drain : Option φ) (cc : CalloutCpu ι φ α) : CalloutCpu ι φ α :=
  match drain with
  | none => cc
  | some d => cc.modifyExec direct fun e => { e with ccDrain := some d }

/-- The rest of `_callout_stop_safe`, from the test of `CALLOUT_PENDING` on. -/
def stopFinish (k : Nat) (c : ι) (direct notOnAList : Bool) (cancelled : Int)
    (cc : CalloutCpu ι φ α) : Int × CalloutCpu ι φ α :=
  if (cc.callouts c).cIflags.pending = false then
    (if (cc.ccExecEntity direct).ccCurr = some c then cancelled else -1, cc)
  else
    let cc := cc.modify c fun r =>
      { r with cActive := false, cIflags := { r.cIflags with pending := false } }
    let cc := if notOnAList then cc else calloutUnlink k c cc
    (cancelled, calloutCcDel c cc)

/-- `_callout_stop_safe`. With `CS_DRAIN` a running callout is waited for, and since no other thread
runs it the wait does not end: `none`. -/
def calloutStopSafe (k : Nat) (c : ι) (flags : StopFlags) (drain : Option φ)
    (cc : CalloutCpu ι φ α) : Option (Int × CalloutCpu ι φ α) :=
  let lock := useLock flags (cc.callouts c)
  let direct := (cc.callouts c).cIflags.direct
  let (cc, notOnAList) := stopMigrating c cc
  if (cc.ccExecEntity direct).ccCurr = some c then
    let cc := cc.modify c fun r => { r with cActive := false }
    let migrating := (cc.callouts c).cIflags.dfrMigration
    let settled := cc.modify c fun r =>
      { r with cIflags := { r.cIflags with dfrMigration := false } }
    let executing : Int := if flags.csExecuting then 1 else 0
    if flags.csDrain then none
    -- the callout still waits for the lock that the caller holds
    else if (lock && !(cc.ccExecEntity direct).ccCancel && drain.isNone) = true then
      some (1, settled.modifyExec direct fun e => { e with ccCancel := true })
    -- the next run is deferred to a migration: forget it, but this run cannot be stopped
    else if migrating then some (executing, setDrain direct drain settled)
    else some (stopFinish k c direct notOnAList executing (setDrain direct drain cc))
  else some (stopFinish k c direct notOnAList 1 cc)

/-! ## `softclock_call_cc` -/

/-- The locals of `softclock_call_cc` that outlive the call of the handler. -/
structure Frame (ι α : Type*) where
  c : ι
  cLock : Option Lock
  cArg : Option α
  cIflags : Iflags

/-- `softclock_call_cc` up to the call of the handler. `lc_lock` runs nothing, so `cc_cancel` is still
false after it and the `goto skip` is not taken. -/
def softclockCallCcEnter (direct : Bool) (c : ι) (cc : CalloutCpu ι φ α) : CalloutCpu ι φ α :=
  let cLock := (cc.callouts c).cLock
  let cc := cc.modify c fun r =>
    { r with
      cIflags :=
        if r.cIflags.localAlloc then { Iflags.zero with localAlloc := true }
        else { r.cIflags with pending := false } }
  let cc := cc.modifyExec direct fun e =>
    { e with ccCurr := some c, ccCancel := false, ccDrain := none }
  -- with the lock held the callout cannot be stopped any more
  if cLock.isSome then cc.modifyExec direct fun e => { e with ccCancel := true } else cc

/-- From the return of the handler to the call of the drain function, which is the second component.
Without `CALLOUT_RETURNUNLOCKED` the lock class is dereferenced: `none` if there is no lock. -/
def softclockCallCcReturn (direct : Bool) (fr : Frame ι α) (cc : CalloutCpu ι φ α) :
    Option (CalloutCpu ι φ α × Option φ) :=
  if fr.cIflags.returnUnlocked = false ∧ fr.cLock = none then none
  else
    let drain := (cc.ccExecEntity direct).ccDrain
    some (cc.modifyExec direct fun e => { e with ccCurr := none, ccDrain := none }, drain)

/-- The rest of `softclock_call_cc`; `cc_cce_migrating` is 0. -/
def softclockCallCcFinish (direct : Bool) (fr : Frame ι α) (cc : CalloutCpu ι φ α) :
    CalloutCpu ι φ α :=
  let cc := cc.modifyExec direct fun e => { e with ccWaiting := false }
  if fr.cIflags.localAlloc then calloutCcDel fr.c cc else cc

/-! ## `callout_tick` -/

/-- The loop of `callout_tick`, and whether it found work. It runs at most `ticks - cc_softticks`
times, which is the fuel. -/
def calloutTickLoop (k : Nat) : Nat → CalloutCpu ι φ α → CalloutCpu ι φ α × Bool
  | 0, cc => (cc, false)
  | n + 1, cc =>
      if (cc.ccSoftticks - cc.ticks).toInt < 0 then
        if cc.ccCallwheel (cc.ccSoftticks.toNat &&& callwheelmask k) ≠ [] then (cc, true)
        else calloutTickLoop k n { cc with ccSoftticks := cc.ccSoftticks + 1 }
      else (cc, false)

/-- `callout_tick` up to the call of `softclock`; the second component is `need_softclock`. -/
def calloutTick (k : Nat) (cc : CalloutCpu ι φ α) : CalloutCpu ι φ α × Bool :=
  calloutTickLoop k (cc.ticks - cc.ccSoftticks).toNat cc

/-! ## The process -/

/-- Where the process is: outside of `lazybsd_hardclock`; at the head of the outer loop of `softclock`;
in its inner loop with `curticks` and `c`; or in a handler or a drain function it called. -/
inductive Phase (ι α : Type*)
  | idle
  | outer
  | walk (curticks : BitVec 32) (c : Option ι)
  | handler (curticks : BitVec 32) (fr : Frame ι α)
  | drain (curticks : BitVec 32) (fr : Frame ι α)

/-- The state of the process. `inited` records which callouts have been initialised and `log` what
happened at the interface. -/
structure World (ι φ α : Type*) where
  cc : CalloutCpu ι φ α
  phase : Phase ι α
  inited : ι → Bool
  log : List (Event ι φ α)

inductive Action (ι φ α : Type*)
  | init (c : ι) (mpsafe : Bool)
  | initLock (c : ι) (lock : Option Lock) (returnUnlocked : Bool)
  | reset (c : ι) (toTicks : BitVec 32) (ftn : φ) (arg : Option α) (direct : Bool)
  | stop (c : ι) (flags : StopFlags) (drain : Option φ)
  | hardclock
  | softclock
  | ret

/-- The actions that are calls of the callout interface; the others move `lazybsd_hardclock` on. -/
def Action.isCall : Action ι φ α → Bool
  | .init _ _ => true
  | .initLock _ _ _ => true
  | .reset _ _ _ _ _ => true
  | .stop _ _ _ => true
  | _ => false

/-- Code outside of this file runs: between hardclock calls, or in a handler or a drain function. -/
def Phase.outside : Phase ι α → Bool
  | .idle => true
  | .handler _ _ => true
  | .drain _ _ => true
  | _ => false

/-- The callout is on no list of the wheel. -/
def OffWheel (k : Nat) (c : ι) (cc : CalloutCpu ι φ α) : Prop :=
  ∀ b < callwheelsize k, c ∉ cc.ccCallwheel b

instance (k : Nat) (c : ι) (cc : CalloutCpu ι φ α) : Decidable (OffWheel k c cc) :=
  inferInstanceAs (Decidable (∀ b < callwheelsize k, c ∉ cc.ccCallwheel b))

/-- Initialisation of a callout that is not on the wheel. -/
def initStep (k : Nat) (c : ι) (r : Callout φ α) (s : World ι φ α) : Option (World ι φ α) :=
  if s.phase.outside = true ∧ OffWheel k c s.cc then
    some { s with
      cc := s.cc.modify c fun _ => r
      inited := Function.update s.inited c true
      log := s.log ++ [.init c] }
  else none

/-- `lazybsd_hardclock`, up to the call of `softclock` if there is one. -/
def hardclockStep (k : Nat) (s : World ι φ α) : World ι φ α :=
  let (cc, needSoftclock) := calloutTick k { s.cc with ticks := s.cc.ticks + 1 }
  if needSoftclock then { s with cc := cc, phase := .outer, log := s.log ++ [.tick] }
  else { s with cc := cc, phase := .idle, log := s.log ++ [.tick] ++ [.tock] }

/-- One test of the outer loop of `softclock`. -/
def outerStep (k : Nat) (s : World ι φ α) : World ι φ α :=
  if s.cc.ccSoftticks = s.cc.ticks then { s with phase := .idle, log := s.log ++ [.tock] }
  else
    let curticks := s.cc.ccSoftticks
    { s with
      cc := { s.cc with ccSoftticks := curticks + 1 }
      phase := .walk curticks (s.cc.ccCallwheel (curticks.toNat &&& callwheelmask k)).head? }

/-- The call of a due callout in the inner loop of `softclock`. -/
def callStep (k : Nat) (curticks : BitVec 32) (c : ι) (s : World ι φ α) : Option (World ι φ α) :=
  let cc := listRemoveLe c
    { s.cc with ccNext := listNextLe k c s.cc, ccBucket := calloutGetBucket k curticks }
  let r := cc.callouts c
  match r.cFunc with
  | none => none
  | some f =>
      some { s with
        cc := softclockCallCcEnter true c cc
        phase := .handler curticks ⟨c, r.cLock, r.cArg, r.cIflags⟩
        log := s.log ++ [.call c f r.cArg] }

/-- One turn of the inner loop of `softclock`. -/
def walkStep (k : Nat) (curticks : BitVec 32) (cur : Option ι) (s : World ι φ α) :
    Option (World ι φ α) :=
  match cur with
  | none => some { s with phase := .outer }
  | some c =>
      if (s.cc.callouts c).cTime ≠ curticks then
        some { s with phase := .walk curticks (listNextLe k c s.cc) }
      else callStep k curticks c s

/-- `softclock_call_cc` ends, and `softclock` goes on at `cc_next`. -/
def finishStep (curticks : BitVec 32) (fr : Frame ι α) (s : World ι φ α) : World ι φ α :=
  let cc := softclockCallCcFinish true fr s.cc
  { s with cc := { cc with ccNext := none }, phase := .walk curticks cc.ccNext }

/-- The handler returns. -/
def returnStep (curticks : BitVec 32) (fr : Frame ι α) (s : World ι φ α) : Option (World ι φ α) :=
  match softclockCallCcReturn true fr s.cc with
  | none => none
  | some (cc, none) => some (finishStep curticks fr { s with cc := cc })
  | some (cc, some d) =>
      some { s with
        cc := cc
        phase := .drain curticks fr
        log := s.log ++ [.drainCall d fr.cArg] }

/-- One step of the process; `none` when it crashes, waits forever or the action is not possible. -/
def step (k : Nat) (s : World ι φ α) : Action ι φ α → Option (World ι φ α)
  | .init c mpsafe => initStep k c (calloutInit mpsafe) s
  | .initLock c lock returnUnlocked => initStep k c (calloutInitLock lock returnUnlocked) s
  | .reset c t f a direct =>
      if s.phase.outside = true ∧ s.inited c = true then
        some { s with
          cc := (calloutResetTickOn k c t f a direct s.cc).2
          log := s.log ++ [.reset c t f a] }
      else none
  | .stop c flags drain =>
      if s.phase.outside = true ∧ s.inited c = true then
        (calloutStopSafe k c flags drain s.cc).map fun r =>
          { s with cc := r.2, log := s.log ++ [.stop c] }
      else none
  | .hardclock =>
      match s.phase with
      | .idle => some (hardclockStep k s)
      | _ => none
  | .softclock =>
      match s.phase with
      | .outer => some (outerStep k s)
      | .walk curticks c => walkStep k curticks c s
      | _ => none
  | .ret =>
      match s.phase with
      | .handler curticks fr => returnStep curticks fr s
      | .drain curticks fr => some (finishStep curticks fr s)
      | _ => none

/-- An empty wheel with `cc_softticks = ticks`, before any callout is initialised. -/
structure Fresh (s : World ι φ α) : Prop where
  phase : s.phase = .idle
  log : s.log = []
  inited : ∀ c, s.inited c = false
  empty : ∀ b, s.cc.ccCallwheel b = []
  softticks : s.cc.ccSoftticks = s.cc.ticks
  zeroed : ∀ c, s.cc.callouts c = Callout.zero
  curr : ∀ direct, (s.cc.ccExecEntity direct).ccCurr = none
  waiting : ∀ direct, (s.cc.ccExecEntity direct).ccWaiting = false

namespace Sample

/-- An empty wheel at the given tick. -/
def wheel (ticks : BitVec 32) : World Nat Nat Nat where
  cc :=
    { ccExecEntity := fun _ => ⟨none, none, false, false⟩
      ccNext := none
      ccCallwheel := fun _ => []
      ccExpireq := []
      ccCallfree := []
      ccSoftticks := ticks
      ccBucket := 0
      ticks := ticks
      callouts := fun _ => Callout.zero }
  phase := .idle
  inited := fun _ => false
  log := []

theorem fresh_wheel (ticks : BitVec 32) : Fresh (wheel ticks) :=
  ⟨rfl, rfl, fun _ => rfl, fun _ => rfl, rfl, fun _ => rfl, fun _ => rfl, fun _ => rfl⟩

end Sample

end LazyBsd.Timeout
