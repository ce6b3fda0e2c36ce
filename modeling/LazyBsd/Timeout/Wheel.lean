/-
# LazyBsd.Timeout.Wheel — what each operation does to the wheel.

`CpuOk` is what holds of the `callout_cpu` between any two operations: a callout is on the wheel exactly
when it is pending, once and in the bucket of its `c_time`; the flags that only other configurations set
are clear; slot 0 of `cc_exec_entity` is never used; and a running callout that has a lock and the direct
flag is marked as cancelled, so that neither reset nor stop takes it for one that has not started. For
each operation one lemma says everything the rest of the development needs of its result: `Disarmed`
after a stop, `Armed` after a reset.
-/
import LazyBsd.Lib.Buckets
import LazyBsd.Timeout.Model

namespace LazyBsd.Timeout

open Lib

variable {ι φ α : Type*} {k : Nat} {cc cc' : CalloutCpu ι φ α} {c : ι}

/-! ## The invariant -/

/-- The list of the wheel that a callout is on. -/
def Callout.place (k : Nat) (r : Callout φ α) : Option Nat :=
  if r.cIflags.pending = true then some (calloutGetBucket k r.cTime) else none

/-- The flags of a callout that this build never sets are clear. -/
structure Iflags.Plain (f : Iflags) : Prop where
  processed : f.processed = false
  dfrMigration : f.dfrMigration = false
  localAlloc : f.localAlloc = false

/-- The `callout_cpu` between two operations. -/
structure CpuOk (k : Nat) (cc : CalloutCpu ι φ α) : Prop where
  wheel : Buckets cc.ccCallwheel (fun c => (cc.callouts c).place k)
  plain : ∀ c, (cc.callouts c).cIflags.Plain
  waiting : ∀ d, (cc.ccExecEntity d).ccWaiting = false
  swi : (cc.ccExecEntity false).ccCurr = none
  started : ∀ c, (cc.ccExecEntity true).ccCurr = some c → (cc.callouts c).cIflags.direct = true →
    (cc.callouts c).cLock.isSome = true → (cc.ccExecEntity true).ccCancel = true

theorem CpuOk.mem_iff (h : CpuOk k cc) (c : ι) (b : Nat) :
    c ∈ cc.ccCallwheel b ↔
      (cc.callouts c).cIflags.pending = true ∧ calloutGetBucket k (cc.callouts c).cTime = b := by
  rw [h.wheel.mem_iff c b, Callout.place]
  split_ifs with hp <;> simp [hp]

/-- A callout that is not pending is on no list. -/
theorem CpuOk.not_mem (h : CpuOk k cc) (hp : (cc.callouts c).cIflags.pending = false) (b : Nat) :
    c ∉ cc.ccCallwheel b := by
  rw [h.mem_iff, hp]
  simp

theorem calloutGetBucket_lt (k : Nat) (t : BitVec 32) : calloutGetBucket k t < callwheelsize k := by
  have hpos : 0 < callwheelsize k := Nat.two_pow_pos k
  have hle : calloutGetBucket k t ≤ callwheelmask k := Nat.and_le_right
  unfold callwheelmask at hle
  omega

/-- On the wheel is what the pending flag says. -/
theorem CpuOk.offWheel_iff (h : CpuOk k cc) :
    OffWheel k c cc ↔ (cc.callouts c).cIflags.pending = false := by
  constructor
  · intro hoff
    by_contra hp
    have hp' : (cc.callouts c).cIflags.pending = true := by simpa using hp
    exact hoff _ (calloutGetBucket_lt k _) ((h.mem_iff c _).mpr ⟨hp', rfl⟩)
  · exact fun hp b _ => h.not_mem hp b

/-! ## Field lemmas -/

namespace CalloutCpu

variable (g : Callout φ α → Callout φ α) (e : CcExec ι φ → CcExec ι φ) (d : Bool)

@[simp] theorem modifyExec_self : (cc.modifyExec d e).ccExecEntity d = e (cc.ccExecEntity d) :=
  Function.update_self ..

theorem modifyExec_of_ne {d' : Bool} (hd : d' ≠ d) :
    (cc.modifyExec d e).ccExecEntity d' = cc.ccExecEntity d' :=
  Function.update_of_ne hd ..

@[simp] theorem modifyExec_callouts : (cc.modifyExec d e).callouts = cc.callouts := rfl

@[simp] theorem modifyExec_ccCallwheel : (cc.modifyExec d e).ccCallwheel = cc.ccCallwheel := rfl

@[simp] theorem modifyExec_ccNext : (cc.modifyExec d e).ccNext = cc.ccNext := rfl

@[simp] theorem modifyExec_ticks : (cc.modifyExec d e).ticks = cc.ticks := rfl

@[simp] theorem modifyExec_ccSoftticks : (cc.modifyExec d e).ccSoftticks = cc.ccSoftticks := rfl

@[simp] theorem modifyExec_ccBucket : (cc.modifyExec d e).ccBucket = cc.ccBucket := rfl

theorem modifyExec_modifyExec (e' : CcExec ι φ → CcExec ι φ) :
    (cc.modifyExec d e).modifyExec d e' = cc.modifyExec d fun x => e' (e x) := by
  simp [modifyExec]

/-- A store of what is there already. -/
theorem modifyExec_eq_self (h : e (cc.ccExecEntity d) = cc.ccExecEntity d) :
    cc.modifyExec d e = cc := by
  rw [modifyExec, h, Function.update_eq_self]

/-- A field that the store leaves alone is the same in both entities. -/
theorem modifyExec_proj {β : Type*} (p : CcExec ι φ → β)
    (hp : p (e (cc.ccExecEntity d)) = p (cc.ccExecEntity d)) (d' : Bool) : p ((cc.modifyExec d e).ccExecEntity d') = p (cc.ccExecEntity d') := by
  by_cases hd : d' = d
  · rw [hd, modifyExec_self, hp]
  · rw [modifyExec_of_ne e d hd]

variable [DecidableEq ι]

@[simp] theorem modify_self : (cc.modify c g).callouts c = g (cc.callouts c) :=
  Function.update_self ..

theorem modify_of_ne {x : ι} (hx : x ≠ c) : (cc.modify c g).callouts x = cc.callouts x :=
  Function.update_of_ne hx ..

theorem modify_congr {g g' : Callout φ α → Callout φ α}
    (h : g (cc.callouts c) = g' (cc.callouts c)) : cc.modify c g = cc.modify c g' := by
  rw [modify, h, modify]

@[simp] theorem modify_ccCallwheel : (cc.modify c g).ccCallwheel = cc.ccCallwheel := rfl

@[simp] theorem modify_ccNext : (cc.modify c g).ccNext = cc.ccNext := rfl

@[simp] theorem modify_ccExecEntity : (cc.modify c g).ccExecEntity = cc.ccExecEntity := rfl

@[simp] theorem modify_ticks : (cc.modify c g).ticks = cc.ticks := rfl

@[simp] theorem modify_ccSoftticks : (cc.modify c g).ccSoftticks = cc.ccSoftticks := rfl

@[simp] theorem modify_ccBucket : (cc.modify c g).ccBucket = cc.ccBucket := rfl

end CalloutCpu

/-! ## What a stop and a reset leave -/

variable [DecidableEq ι]

/-- `cc_next` once the callout is off the wheel. -/
def nextPast (k : Nat) (c : ι) (cc : CalloutCpu ι φ α) : Option ι :=
  if (cc.callouts c).cIflags.pending = true ∧ cc.ccNext = some c then listNextLe k c cc else cc.ccNext

/-- The clock and the exec entities are as before, up to `cc_cancel` and `cc_drain`. -/
structure SameClock (cc cc' : CalloutCpu ι φ α) : Prop where
  ticks : cc'.ticks = cc.ticks
  softticks : cc'.ccSoftticks = cc.ccSoftticks
  bucket : cc'.ccBucket = cc.ccBucket
  curr : ∀ d, (cc'.ccExecEntity d).ccCurr = (cc.ccExecEntity d).ccCurr
  waiting : ∀ d, (cc'.ccExecEntity d).ccWaiting = (cc.ccExecEntity d).ccWaiting

/-- `c` is off the wheel in `cc'`, and no other callout has changed. -/
structure Removed (c : ι) (cc cc' : CalloutCpu ι φ α) : Prop where
  wheel : ∀ b, cc'.ccCallwheel b = (cc.ccCallwheel b).erase c
  others : ∀ x, x ≠ c → cc'.callouts x = cc.callouts x
  time : (cc'.callouts c).cTime = (cc.callouts c).cTime
  lock : (cc'.callouts c).cLock = (cc.callouts c).cLock
  iflags : (cc'.callouts c).cIflags = { (cc.callouts c).cIflags with pending := false }

/-- `c` is off the wheel in `cc'`, `cc_next` has moved past it, and nothing else has changed. -/
structure Disarmed (k : Nat) (c : ι) (cc cc' : CalloutCpu ι φ α) : Prop
    extends SameClock cc cc', Removed c cc cc' where
  next : cc'.ccNext = nextPast k c cc
  cancel : ∀ d, (cc'.ccExecEntity d).ccCancel = (cc.ccExecEntity d).ccCancel

/-- `c` is on the wheel in `cc'` for the request, and nothing else has changed. -/
structure Armed (k : Nat) (c : ι) (t : BitVec 32) (f : φ) (a : Option α) (direct : Bool)
    (cc cc' : CalloutCpu ι φ α) : Prop extends SameClock cc cc' where
  wheel : cc'.ccCallwheel =
    Function.update (fun b => (cc.ccCallwheel b).erase c)
      (calloutGetBucket k (cc.ticks + atLeastOne t))
      (c :: (cc.ccCallwheel (calloutGetBucket k (cc.ticks + atLeastOne t))).erase c)
  next : cc'.ccNext =
    if cc.ccBucket = calloutGetBucket k (cc.ticks + atLeastOne t) then some c else nextPast k c cc
  others : ∀ x, x ≠ c → cc'.callouts x = cc.callouts x
  time : (cc'.callouts c).cTime = cc.ticks + atLeastOne t
  func : (cc'.callouts c).cFunc = some f
  arg : (cc'.callouts c).cArg = a
  lock : (cc'.callouts c).cLock = (cc.callouts c).cLock
  iflags : (cc'.callouts c).cIflags =
    { (cc.callouts c).cIflags with
      pending := true
      processed := false
      direct := (cc.callouts c).cIflags.direct || direct }

/-! ## `calloutUnlink` and `callout_cc_add` -/

/-- A pending callout is taken off the wheel. -/
theorem disarmed_unlink (hplain : (cc.callouts c).cIflags.Plain)
    (hp : (cc.callouts c).cIflags.pending = true) :
    Disarmed k c cc ((calloutUnlink k c cc).modify c fun r =>
      { r with cActive := false, cIflags := { r.cIflags with pending := false } }) := by
  have hunlink : calloutUnlink k c cc =
      { cc with ccNext := nextPast k c cc, ccCallwheel := fun b => (cc.ccCallwheel b).erase c } := by
    unfold calloutUnlink nextPast
    rw [if_pos hplain.processed]
    by_cases hnext : cc.ccNext = some c
    · simp [hnext, hp, listRemoveLe]
    · simp [hnext, listRemoveLe]
  rw [hunlink]
  exact
    { ticks := rfl
      softticks := rfl
      bucket := rfl
      curr := fun _ => rfl
      waiting := fun _ => rfl
      wheel := fun _ => rfl
      next := rfl
      others := fun x hx => CalloutCpu.modify_of_ne _ hx
      time := by simp
      lock := by simp
      iflags := by simp
      cancel := fun _ => rfl }

/-- The unlinking does not look at what a store into the callout changes. -/
theorem calloutUnlink_modify (g : Callout φ α → Callout φ α)
    (htime : (g (cc.callouts c)).cTime = (cc.callouts c).cTime)
    (hprocessed : (g (cc.callouts c)).cIflags.processed = (cc.callouts c).cIflags.processed) :
    calloutUnlink k c (cc.modify c g) = (calloutUnlink k c cc).modify c g := by
  simp only [calloutUnlink, listNextLe, CalloutCpu.modify_self, CalloutCpu.modify_ccNext,
    CalloutCpu.modify_ccCallwheel, htime, hprocessed]
  split_ifs <;> rfl

/-- A callout that is not pending is off the wheel already. -/
theorem disarmed_refl (hp : (cc.callouts c).cIflags.pending = false)
    (hoff : ∀ b, c ∉ cc.ccCallwheel b) : Disarmed k c cc cc where
  ticks := rfl
  softticks := rfl
  bucket := rfl
  curr _ := rfl
  waiting _ := rfl
  wheel b := (List.erase_of_not_mem (hoff b)).symm
  others _ _ := rfl
  time := rfl
  lock := rfl
  iflags := by rw [← hp]
  next := by simp [nextPast, hp]
  cancel _ := rfl

/-! ## `_callout_stop_safe` -/

/-- The exec entity that the callout's direct flag selects says that it is running. -/
def Recognised (c : ι) (cc : CalloutCpu ι φ α) : Prop :=
  (cc.ccExecEntity (cc.callouts c).cIflags.direct).ccCurr = some c

instance (c : ι) (cc : CalloutCpu ι φ α) : Decidable (Recognised c cc) :=
  inferInstanceAs (Decidable ((cc.ccExecEntity _).ccCurr = some c))

/-- The result of `_callout_stop_safe` and what it leaves. -/
structure Stopped (k : Nat) (c : ι) (flags : StopFlags) (drain : Option φ)
    (cc : CalloutCpu ι φ α) (r : Int) (cc' : CalloutCpu ι φ α) : Prop
    extends Disarmed k c cc cc' where
  result : r =
    if Recognised c cc then if flags.csExecuting then 1 else 0
    else if (cc.callouts c).cIflags.pending = true then 1 else -1
  active : (cc'.callouts c).cActive = true ↔ (cc.callouts c).cActive = true ∧
    ¬ Recognised c cc ∧ (cc.callouts c).cIflags.pending = false
  drain : ∀ d, (cc'.ccExecEntity d).ccDrain =
    if Recognised c cc ∧ d = (cc.callouts c).cIflags.direct ∧ drain.isSome then drain
    else (cc.ccExecEntity d).ccDrain

theorem calloutCcDel_of_plain (h : (cc.callouts c).cIflags.Plain) : calloutCcDel c cc = cc := by
  rw [calloutCcDel, if_pos h.localAlloc]

theorem stopFinish_pending (hplain : (cc.callouts c).cIflags.Plain)
    (hp : (cc.callouts c).cIflags.pending = true) (direct : Bool) (r : Int) :
    stopFinish k c direct false r cc = (r, (calloutUnlink k c cc).modify c fun r =>
      { r with cActive := false, cIflags := { r.cIflags with pending := false } }) := by
  have hself : ((calloutUnlink k c cc).callouts c) = cc.callouts c := by
    unfold calloutUnlink
    split_ifs <;> rfl
  unfold stopFinish
  rw [if_neg (by simp [hp])]
  simp only [Bool.false_eq_true, if_false]
  rw [calloutUnlink_modify _ rfl rfl, calloutCcDel_of_plain]
  rw [CalloutCpu.modify_self, hself]
  exact ⟨hplain.processed, hplain.dfrMigration, hplain.localAlloc⟩

theorem calloutUnlink_ccExecEntity : (calloutUnlink k c cc).ccExecEntity = cc.ccExecEntity := by
  unfold calloutUnlink
  split_ifs <;> rfl

omit [DecidableEq ι] in
theorem setDrain_eq (direct : Bool) (drain : Option φ) (cc : CalloutCpu ι φ α) :
    setDrain direct drain cc =
      cc.modifyExec direct fun e => { e with ccDrain := drain.or e.ccDrain } := by
  cases drain with
  | none => simp [setDrain, CalloutCpu.modifyExec]
  | some d => rfl

omit [DecidableEq ι] in
theorem isSome_of_useLock {flags : StopFlags} {r : Callout φ α} (h : useLock flags r = true) :
    r.cLock.isSome = true := by
  cases hlock : r.cLock with
  | none => simp [useLock, hlock] at h
  | some l => rfl

/-- The branches of `_callout_stop_safe` that are left when the invariant holds. -/
theorem calloutStopSafe_eq (h : CpuOk k cc) (flags : StopFlags) (drain : Option φ) :
    calloutStopSafe k c flags drain cc =
      if Recognised c cc then
        if flags.csDrain then none
        else
          some (stopFinish k c (cc.callouts c).cIflags.direct false (if flags.csExecuting then 1 else 0)
            (setDrain (cc.callouts c).cIflags.direct drain
              (cc.modify c fun r => { r with cActive := false })))
      else some (stopFinish k c (cc.callouts c).cIflags.direct false 1 cc) := by
  have hmigrating : stopMigrating c cc = (cc, false) := by
    simp [stopMigrating, (h.plain c).dfrMigration]
  unfold calloutStopSafe
  rw [hmigrating]
  by_cases hrec : Recognised c cc
  · have hdirect : (cc.callouts c).cIflags.direct = true := by
      by_contra hd
      rw [Recognised, Bool.eq_false_iff.mpr hd, h.swi] at hrec
      cases hrec
    have hstarted : (useLock flags (cc.callouts c) &&
        !(cc.ccExecEntity (cc.callouts c).cIflags.direct).ccCancel && drain.isNone) = false := by
      cases hlock : useLock flags (cc.callouts c) with
      | false => rfl
      | true =>
          rw [Recognised, hdirect] at hrec
          rw [hdirect, h.started c hrec hdirect (isSome_of_useLock hlock)]
          rfl
    simp only [CalloutCpu.modify_ccExecEntity, CalloutCpu.modify_self, hstarted,
      (h.plain c).dfrMigration, Bool.false_eq_true, if_false]
    rw [if_pos hrec]
    exact if_pos hrec
  · rw [if_neg hrec]
    exact if_neg hrec

/-- The active flag and the drain function are nothing to the wheel. -/
theorem Disarmed.of_settled {cc₁ : CalloutCpu ι φ α} {direct : Bool} {drain : Option φ}
    (hcc₁ : setDrain direct drain (cc.modify c fun r => { r with cActive := false }) = cc₁)
    (h : Disarmed k c cc₁ cc') : Disarmed k c cc cc' := by
  rw [← hcc₁, setDrain_eq] at h
  exact
    { ticks := h.ticks
      softticks := h.softticks
      bucket := h.bucket
      curr := fun d => (h.curr d).trans (CalloutCpu.modifyExec_proj _ direct CcExec.ccCurr rfl d)
      waiting := fun d =>
        (h.waiting d).trans (CalloutCpu.modifyExec_proj _ direct CcExec.ccWaiting rfl d)
      wheel := h.wheel
      next := by simpa [nextPast, listNextLe] using h.next
      others := fun x hx => by simpa [CalloutCpu.modify_of_ne _ hx] using h.others x hx
      time := by simpa using h.time
      lock := by simpa using h.lock
      iflags := by simpa using h.iflags
      cancel := fun d =>
        (h.cancel d).trans (CalloutCpu.modifyExec_proj _ direct CcExec.ccCancel rfl d) }

/-- The stop of a callout that is found running. What is left of it runs after the active flag is
cleared and the drain function registered. -/
theorem stopped_of_recognised (h : CpuOk k cc) (flags : StopFlags) (drain : Option φ)
    (hrec : Recognised c cc) :
    ∃ r cc', stopFinish k c (cc.callouts c).cIflags.direct false (if flags.csExecuting then 1 else 0)
        (setDrain (cc.callouts c).cIflags.direct drain
          (cc.modify c fun r => { r with cActive := false })) = (r, cc') ∧
      Stopped k c flags drain cc r cc' := by
  generalize hcc₁ : setDrain (cc.callouts c).cIflags.direct drain
    (cc.modify c fun r => { r with cActive := false }) = cc₁
  have hself : cc₁.callouts c = { cc.callouts c with cActive := false } := by
    rw [← hcc₁, setDrain_eq]
    simp
  have hdrains (d : Bool) : (cc₁.ccExecEntity d).ccDrain =
      if Recognised c cc ∧ d = (cc.callouts c).cIflags.direct ∧ drain.isSome then drain
      else (cc.ccExecEntity d).ccDrain := by
    rw [← hcc₁, setDrain_eq]
    by_cases hd : d = (cc.callouts c).cIflags.direct
    · rw [hd, CalloutCpu.modifyExec_self]
      cases drain <;> simp [hrec]
    · rw [CalloutCpu.modifyExec_of_ne _ _ hd]
      simp [hd]
  cases hp : (cc.callouts c).cIflags.pending with
  | false =>
      have hwheel : cc₁.ccCallwheel = cc.ccCallwheel := by
        rw [← hcc₁, setDrain_eq]
        rfl
      have hcurr : (cc₁.ccExecEntity (cc.callouts c).cIflags.direct).ccCurr = some c := by
        rw [← hcc₁, setDrain_eq, CalloutCpu.modifyExec_self]
        exact hrec
      have hp₁ : (cc₁.callouts c).cIflags.pending = false := by rw [hself]; exact hp
      have hdis : Disarmed k c cc cc₁ :=
        .of_settled hcc₁ (disarmed_refl hp₁ fun b => by rw [hwheel]; exact h.not_mem hp b)
      refine ⟨_, cc₁, ?_, { hdis with result := (if_pos hrec).symm, active := ?_, drain := hdrains }⟩
      · rw [stopFinish, if_pos hp₁, if_pos hcurr]
      · rw [hself]
        simp [hrec]
  | true =>
      have hp₁ : (cc₁.callouts c).cIflags.pending = true := by rw [hself]; exact hp
      have hplain₁ : (cc₁.callouts c).cIflags.Plain := by rw [hself]; exact h.plain c
      refine ⟨_, _, stopFinish_pending hplain₁ hp₁ _ _,
        { Disarmed.of_settled hcc₁ (disarmed_unlink hplain₁ hp₁) with
          result := (if_pos hrec).symm, active := ?_, drain := ?_ }⟩
      · simp [hrec]
      · simpa [calloutUnlink_ccExecEntity] using hdrains

/-- The stop of a callout that is not found running. -/
theorem stopped_of_not_recognised (h : CpuOk k cc) (flags : StopFlags) (drain : Option φ)
    (hrec : ¬ Recognised c cc) :
    ∃ r cc', stopFinish k c (cc.callouts c).cIflags.direct false 1 cc = (r, cc') ∧
      Stopped k c flags drain cc r cc' := by
  cases hp : (cc.callouts c).cIflags.pending with
  | false =>
      refine ⟨-1, cc, ?_, { disarmed_refl hp (h.not_mem hp) with result := ?_, active := ?_, drain := ?_ }⟩
      · have hcurr : ¬ (cc.ccExecEntity (cc.callouts c).cIflags.direct).ccCurr = some c := hrec
        rw [stopFinish, if_pos hp, if_neg hcurr]
      · rw [if_neg hrec, hp]
        rfl
      · simp [hrec, hp]
      · simp [hrec]
  | true =>
      refine ⟨1, _, stopFinish_pending (h.plain c) hp _ 1,
        { disarmed_unlink (h.plain c) hp with result := ?_, active := ?_, drain := ?_ }⟩
      · rw [if_neg hrec, if_pos hp]
      · simp [hp]
      · simp [hrec, calloutUnlink_ccExecEntity]

/-- **What a stop does.** -/
theorem calloutStopSafe_spec (h : CpuOk k cc) {flags : StopFlags} (drain : Option φ)
    (hwait : flags.csDrain = true → ¬ Recognised c cc) :
    ∃ r cc', calloutStopSafe k c flags drain cc = some (r, cc') ∧
      Stopped k c flags drain cc r cc' := by
  rw [calloutStopSafe_eq h]
  by_cases hrec : Recognised c cc
  · have hdrain : flags.csDrain = false := by
      by_contra hd
      exact hwait (by simpa using hd) hrec
    rw [if_pos hrec, hdrain, if_neg Bool.false_ne_true]
    obtain ⟨r, cc', hfinish, hstop⟩ := stopped_of_recognised h flags drain hrec
    exact ⟨r, cc', congrArg some hfinish, hstop⟩
  · rw [if_neg hrec]
    obtain ⟨r, cc', hfinish, hstop⟩ := stopped_of_not_recognised h flags drain hrec
    exact ⟨r, cc', congrArg some hfinish, hstop⟩

/-- A stop that returns has done that. -/
theorem Stopped.of_eq {flags : StopFlags} {drain : Option φ} {r : Int × CalloutCpu ι φ α}
    (h : CpuOk k cc) (hs : calloutStopSafe k c flags drain cc = some r) :
    Stopped k c flags drain cc r.1 r.2 := by
  have hwait : flags.csDrain = true → ¬ Recognised c cc := by
    intro hd hrec
    rw [calloutStopSafe_eq h, if_pos hrec, if_pos hd] at hs
    cases hs
  obtain ⟨r', cc', hr', hstop⟩ := calloutStopSafe_spec h drain hwait
  obtain rfl := Option.some.inj (hs.symm.trans hr')
  exact hstop

/-! ## `callout_reset_tick_on` -/

/-- What `callout_reset_tick_on` leaves; a running callout with a lock is marked as cancelled. -/
structure Reset (k : Nat) (c : ι) (t : BitVec 32) (f : φ) (a : Option α) (direct : Bool)
    (cc cc' : CalloutCpu ι φ α) : Prop extends Armed k c t f a direct cc cc' where
  drain : ∀ d, (cc'.ccExecEntity d).ccDrain = (cc.ccExecEntity d).ccDrain
  cancel : ∀ d, (cc.ccExecEntity d).ccCancel = true → (cc'.ccExecEntity d).ccCancel = true
  started : (cc.ccExecEntity direct).ccCurr = some c → (cc.callouts c).cLock.isSome = true →
    (cc'.ccExecEntity direct).ccCancel = true

/-- The two ends of `callout_cc_add` in one: only `cc_next` depends on the bucket that is walked. -/
theorem calloutCcAdd_eq (t : BitVec 32) (f : φ) (a : Option α) (direct : Bool) :
    calloutCcAdd k c t f a direct cc =
      { cc.modify c (fun r =>
          { r with
            cArg := a
            cFunc := some f
            cTime := cc.ticks + t
            cActive := true
            cIflags :=
              { r.cIflags with
                pending := true
                processed := false
                direct := r.cIflags.direct || direct } }) with
        ccCallwheel := Function.update cc.ccCallwheel (calloutGetBucket k (cc.ticks + t))
          (c :: cc.ccCallwheel (calloutGetBucket k (cc.ticks + t)))
        ccNext := if cc.ccBucket = calloutGetBucket k (cc.ticks + t) then some c else cc.ccNext } := by
  unfold calloutCcAdd
  dsimp only
  split_ifs with h₁ h₂ h₂
  · rfl
  · exact absurd h₁ h₂
  · exact absurd h₂ h₁
  · rfl

/-- `callout_cc_add` puts a callout that is off the wheel on it. -/
theorem Disarmed.add (h : Disarmed k c cc cc') (t : BitVec 32) (f : φ) (a : Option α)
    (direct : Bool) :
    Armed k c t f a direct cc (calloutCcAdd k c (atLeastOne t) f a direct cc') := by
  rw [calloutCcAdd_eq]
  exact
    { ticks := h.ticks
      softticks := h.softticks
      bucket := h.bucket
      curr := h.curr
      waiting := h.waiting
      wheel := by simp only [h.ticks, funext h.wheel]
      next := by simp only [h.bucket, h.ticks, h.next]
      others := fun x hx => (Function.update_of_ne hx _ _).trans (h.others x hx)
      time := by simp [h.ticks]
      func := by simp
      arg := by simp
      lock := by simpa using h.lock
      iflags := by simp [h.iflags] }

/-- The cancelling of a running callout is nothing to the wheel. -/
theorem Armed.of_resetCancel {cc₀ : CalloutCpu ι φ α} {t : BitVec 32} {f : φ} {a : Option α}
    {direct d : Bool} (hcc₀ : (resetCancel c d cc).1 = cc₀) (h : Armed k c t f a direct cc₀ cc') :
    Armed k c t f a direct cc cc' := by
  rw [← hcc₀] at h
  unfold resetCancel at h
  split_ifs at h with hrun
  · dsimp only at h
    exact
      { h with
        curr := fun d' => by
          rw [h.curr d', CalloutCpu.modifyExec_proj _ d CcExec.ccCurr rfl d']
        waiting := fun d' => by
          rw [h.waiting d', CalloutCpu.modifyExec_proj _ d CcExec.ccWaiting rfl d'] }
  · exact h

/-- What the cancelling leaves alone, and when it marks the callout. -/
theorem resetCancel_spec (c : ι) (direct : Bool) (cc : CalloutCpu ι φ α) :
    (resetCancel c direct cc).1.callouts = cc.callouts ∧
    (resetCancel c direct cc).1.ccCallwheel = cc.ccCallwheel ∧
    (∀ d, ((resetCancel c direct cc).1.ccExecEntity d).ccWaiting = (cc.ccExecEntity d).ccWaiting) ∧
    (∀ d, ((resetCancel c direct cc).1.ccExecEntity d).ccDrain = (cc.ccExecEntity d).ccDrain) ∧
    (∀ d, (cc.ccExecEntity d).ccCancel = true →
      ((resetCancel c direct cc).1.ccExecEntity d).ccCancel = true) ∧
    ((cc.ccExecEntity direct).ccCurr = some c → (cc.callouts c).cLock.isSome = true →
      ((resetCancel c direct cc).1.ccExecEntity direct).ccCancel = true) := by
  unfold resetCancel
  split_ifs with hrun
  · dsimp only
    refine ⟨rfl, rfl, CalloutCpu.modifyExec_proj _ direct CcExec.ccWaiting rfl,
      CalloutCpu.modifyExec_proj _ direct CcExec.ccDrain rfl, fun d hd => ?_, fun _ _ => ?_⟩
    · by_cases hdd : d = direct
      · rw [hdd, CalloutCpu.modifyExec_self]
      · rw [CalloutCpu.modifyExec_of_ne _ _ hdd]
        exact hd
    · rw [CalloutCpu.modifyExec_self]
  · refine ⟨rfl, rfl, fun _ => rfl, fun _ => rfl, fun _ hd => hd, fun hcurr hlock => ?_⟩
    by_contra hcancel
    exact hrun ⟨hcurr, hlock, by simpa using hcancel⟩

/-- **What a reset does.** -/
theorem calloutResetTickOn_spec (h : CpuOk k cc) (t : BitVec 32) (f : φ) (a : Option α)
    (direct : Bool) :
    Reset k c t f a direct cc (calloutResetTickOn k c t f a direct cc).2 := by
  obtain ⟨cc₀, cancelled, hcc₀⟩ : ∃ cc₀ r, resetCancel c direct cc = (cc₀, r) := ⟨_, _, rfl⟩
  have hfst : (resetCancel c direct cc).1 = cc₀ := by rw [hcc₀]
  have hsame := resetCancel_spec c direct cc
  rw [hfst] at hsame
  obtain ⟨hcallouts, hwheel, hwaiting, hdrain, hcancel, hstarted⟩ := hsame
  have hnowait : ¬ ((cc₀.ccExecEntity direct).ccCurr = some c ∧
      (cc₀.ccExecEntity direct).ccWaiting = true) := by
    rw [hwaiting, h.waiting]
    simp
  have hoff (hp : (cc₀.callouts c).cIflags.pending = false) (b : Nat) : c ∉ cc₀.ccCallwheel b := by
    rw [hwheel]
    exact h.not_mem (hcallouts ▸ hp) b
  unfold calloutResetTickOn
  rw [hcc₀]
  dsimp only
  rw [if_neg hnowait]
  cases hp : (cc₀.callouts c).cIflags.pending with
  | true =>
      have hplain : (cc₀.callouts c).cIflags.Plain := by rw [hcallouts]; exact h.plain c
      have harmed := ((disarmed_unlink (k := k) hplain hp).add t f a direct).of_resetCancel hfst
      rw [if_pos rfl]
      refine { harmed with drain := ?_, cancel := ?_, started := ?_ }
      all_goals simp only [calloutCcAdd_eq, calloutUnlink_ccExecEntity, CalloutCpu.modify_ccExecEntity]
      · exact hdrain
      · exact hcancel
      · exact hstarted
  | false =>
      have harmed := ((disarmed_refl (k := k) hp (hoff hp)).add t f a direct).of_resetCancel hfst
      rw [if_neg Bool.false_ne_true]
      refine { harmed with drain := ?_, cancel := ?_, started := ?_ }
      all_goals simp only [calloutCcAdd_eq, CalloutCpu.modify_ccExecEntity]
      · exact hdrain
      · exact hcancel
      · exact hstarted

/-! ## The invariant is kept -/

theorem Callout.place_of_pending {r : Callout φ α} (h : r.cIflags.pending = false) :
    r.place k = none := by
  simp [Callout.place, h]

namespace Removed

theorem buckets (h : CpuOk k cc) (hr : Removed c cc cc') :
    Buckets cc'.ccCallwheel (fun x => (cc'.callouts x).place k) := by
  have hplace : (fun x => (cc'.callouts x).place k) =
      Function.update (fun x => (cc.callouts x).place k) c none := by
    funext x
    by_cases hx : x = c
    · rw [hx, Function.update_self, Callout.place_of_pending (by rw [hr.iflags])]
    · rw [Function.update_of_ne hx, hr.others x hx]
  rw [hplace, funext hr.wheel]
  exact h.wheel.erase c

theorem plain (h : CpuOk k cc) (hr : Removed c cc cc') (x : ι) : (cc'.callouts x).cIflags.Plain := by
  by_cases hx : x = c
  · rw [hx, hr.iflags]
    exact ⟨(h.plain c).processed, (h.plain c).dfrMigration, (h.plain c).localAlloc⟩
  · rw [hr.others x hx]
    exact h.plain x

/-- The times of the callouts have not changed. -/
theorem cTime_eq (hr : Removed c cc cc') (x : ι) : (cc'.callouts x).cTime = (cc.callouts x).cTime := by
  by_cases hx : x = c
  · rw [hx, hr.time]
  · rw [hr.others x hx]

end Removed

theorem CpuOk.disarmed (h : CpuOk k cc) (hd : Disarmed k c cc cc') : CpuOk k cc' where
  wheel := hd.toRemoved.buckets h
  plain := hd.toRemoved.plain h
  waiting d := by rw [hd.waiting, h.waiting]
  swi := by rw [hd.curr, h.swi]
  started x hcurr hdirect hlock := by
    rw [hd.curr] at hcurr
    rw [hd.cancel]
    by_cases hx : x = c
    · rw [hx, hd.iflags] at hdirect
      rw [hx, hd.lock] at hlock
      exact h.started c (hx ▸ hcurr) hdirect hlock
    · rw [hd.others x hx] at hdirect hlock
      exact h.started x hcurr hdirect hlock

theorem CpuOk.reset {t : BitVec 32} {f : φ} {a : Option α} {direct : Bool} (h : CpuOk k cc)
    (hr : Reset k c t f a direct cc cc') : CpuOk k cc' where
  wheel := by
    have hplace : (fun x => (cc'.callouts x).place k) =
        Function.update (Function.update (fun x => (cc.callouts x).place k) c none) c
          (some (calloutGetBucket k (cc.ticks + atLeastOne t))) := by
      funext x
      by_cases hx : x = c
      · rw [hx, Function.update_self, Callout.place, if_pos (by rw [hr.iflags]), hr.time]
      · rw [Function.update_of_ne hx, Function.update_of_ne hx, hr.others x hx]
    rw [hplace, hr.wheel]
    exact (h.wheel.erase c).insert (Function.update_self ..) _
  plain x := by
    by_cases hx : x = c
    · rw [hx, hr.iflags]
      exact ⟨rfl, (h.plain c).dfrMigration, (h.plain c).localAlloc⟩
    · rw [hr.others x hx]
      exact h.plain x
  waiting d := by rw [hr.waiting, h.waiting]
  swi := by rw [hr.curr, h.swi]
  started x hcurr hdirect hlock := by
    rw [hr.curr] at hcurr
    by_cases hx : x = c
    · subst hx
      rw [hr.iflags, Bool.or_eq_true] at hdirect
      rw [hr.lock] at hlock
      rcases hdirect with hold | rfl
      · exact hr.cancel true (h.started x hcurr hold hlock)
      · exact hr.started hcurr hlock
    · rw [hr.others x hx] at hdirect hlock
      exact hr.cancel true (h.started x hcurr hdirect hlock)

/-- The initialisation of a callout that is off the wheel. -/
theorem CpuOk.init {r : Callout φ α} (h : CpuOk k cc)
    (hp : (cc.callouts c).cIflags.pending = false) (hr : r.cIflags.Plain)
    (hpending : r.cIflags.pending = false) (hdirect : r.cIflags.direct = false) :
    CpuOk k (cc.modify c fun _ => r) where
  wheel := by
    have hplace : (fun x => ((cc.modify c fun _ => r).callouts x).place k) =
        fun x => (cc.callouts x).place k := by
      funext x
      by_cases hx : x = c
      · rw [hx, CalloutCpu.modify_self, Callout.place_of_pending hpending,
          Callout.place_of_pending hp]
      · rw [CalloutCpu.modify_of_ne _ hx]
    rw [hplace]
    exact h.wheel
  plain x := by
    by_cases hx : x = c
    · rw [hx, CalloutCpu.modify_self]
      exact hr
    · rw [CalloutCpu.modify_of_ne _ hx]
      exact h.plain x
  waiting := h.waiting
  swi := h.swi
  started x hcurr hd hlock := by
    by_cases hx : x = c
    · rw [hx, CalloutCpu.modify_self, hdirect] at hd
      cases hd
    · rw [CalloutCpu.modify_of_ne _ hx] at hd hlock
      exact h.started x hcurr hd hlock

/-! ## The walk is not disturbed -/

/-- The walk over the bucket of `curticks` still reaches every callout that is due. -/
def Covers (k : Nat) (curticks : BitVec 32) (cc : CalloutCpu ι φ α) (cur : Option ι) : Prop :=
  Cursor (fun x => (cc.callouts x).cTime = curticks)
    (cc.ccCallwheel (calloutGetBucket k curticks)) cur

variable {ct : BitVec 32} {cur : Option ι}

/-- A callout on the list that is walked is followed there. -/
theorem Covers.listNextLe_eq (h : CpuOk k cc) (hc : Covers k ct cc (some c)) :
    listNextLe k c cc = listNext c (cc.ccCallwheel (calloutGetBucket k ct)) := by
  rw [listNextLe, ((h.mem_iff c _).mp hc.mem).2]

/-- A callout leaves the list; a cursor that stands on it moves on. -/
theorem Covers.erase (h : CpuOk k cc) (hc : Covers k ct cc cur) (c : ι) :
    Cursor (fun x => (cc.callouts x).cTime = ct)
      ((cc.ccCallwheel (calloutGetBucket k ct)).erase c)
      (if cur = some c then listNextLe k c cc else cur) := by
  have hnext : (if cur = some c then listNextLe k c cc else cur) =
      if cur = some c then listNext c (cc.ccCallwheel (calloutGetBucket k ct)) else cur := by
    split_ifs with hcur
    · exact Covers.listNextLe_eq h (hcur ▸ hc)
    · rfl
  rw [hnext]
  exact Cursor.erase (h.wheel.nodup _) hc

/-- Where the walk goes on is never a callout that has left the wheel. -/
theorem Covers.nextPast_eq (h : CpuOk k cc) (hc : Covers k ct cc cc.ccNext) (c : ι) :
    nextPast k c cc = if cc.ccNext = some c then listNextLe k c cc else cc.ccNext := by
  rw [nextPast]
  by_cases hcur : cc.ccNext = some c
  · have hp := ((h.mem_iff c _).mp (Cursor.mem (hcur ▸ hc))).1
    rw [if_pos ⟨hp, hcur⟩, if_pos hcur]
  · rw [if_neg (fun hand => hcur hand.2), if_neg hcur]

theorem Removed.covers (h : CpuOk k cc) (hr : Removed c cc cc') (hc : Covers k ct cc cur) :
    Covers k ct cc' (if cur = some c then listNextLe k c cc else cur) := by
  rw [Covers, hr.wheel]
  exact (hc.erase h c).imp fun x _ hx => (hr.cTime_eq x).symm.trans hx

theorem Disarmed.covers (h : CpuOk k cc) (hd : Disarmed k c cc cc')
    (hc : Covers k ct cc cc.ccNext) : Covers k ct cc' cc'.ccNext := by
  rw [hd.next, hc.nextPast_eq h c]
  exact hd.toRemoved.covers h hc

/-- A callout that is armed in the bucket of the walk goes to its head, and the walk goes back to it;
one that is armed elsewhere leaves the bucket. -/
theorem Armed.covers {t : BitVec 32} {f : φ} {a : Option α} {direct : Bool} (h : CpuOk k cc)
    (ha : Armed k c t f a direct cc cc') (hbucket : cc.ccBucket = calloutGetBucket k ct)
    (hc : Covers k ct cc cc.ccNext) : Covers k ct cc' cc'.ccNext := by
  rw [Covers, ha.wheel, ha.next, hbucket]
  by_cases hb : calloutGetBucket k ct = calloutGetBucket k (cc.ticks + atLeastOne t)
  · rw [if_pos hb, ← hb, Function.update_self]
    exact Cursor.insert
  · rw [if_neg hb, Function.update_of_ne hb, hc.nextPast_eq h c]
    refine (hc.erase h c).imp fun x hx htime => ?_
    have hne : x ≠ c := ((h.wheel.nodup _).mem_erase_iff.mp hx).1
    rwa [ha.others x hne] at htime

end LazyBsd.Timeout
