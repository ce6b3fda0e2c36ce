/-
# LazyBsd.Timeout.Stop — a callout stopped from inside its own handler.

The comment on `cc_exec_entity` gives slot 0 to callouts that run from the software interrupt and slot 1
to those that run directly from the hardware interrupt, and reset and stop choose the slot by the
callout's direct flag. `softclock`, however, runs every callout in slot 1. A callout that was never armed
with `C_DIRECT_EXEC` is therefore not found running by its own handler. The main theorem says exactly
when a stop made in the handler does what its callers expect.
-/
import LazyBsd.Timeout.Preservation

namespace LazyBsd.Timeout

open Lib

variable {ι φ α : Type*} [DecidableEq ι] {k : Nat} {s : World ι φ α} {ct : BitVec 32}
  {fr : Frame ι α}

/-! ## In the handler -/

/-- Slot 1 is the one that `softclock` fills, so the running callout is recognised by its direct flag. -/
theorem WorldOk.recognised_iff (h : WorldOk k s) (hp : s.phase = .handler ct fr) (x : ι) :
    Recognised x s.cc ↔ x = fr.c ∧ (s.cc.callouts x).cIflags.direct = true := by
  have hphase := h.phase
  simp only [PhaseOk, hp] at hphase
  unfold Recognised
  cases (s.cc.callouts x).cIflags.direct with
  | false => simp [h.cpu.swi]
  | true => simp [hphase.2.2.2, eq_comm]

/-- The actions of a handler that does not stop its own callout. -/
def HandlerCall (c : ι) (a : Action ι φ α) : Prop :=
  a.isCall = true ∧ ∀ flags drain, a ≠ .stop c flags drain

/-- Whatever the handler does but stop its callout, it stays in its call and the registered drain
function stays registered. -/
theorem WorldOk.drain_kept {s' : World ι φ α} {a : Action ι φ α} (h : WorldOk k s)
    (hp : s.phase = .handler ct fr) (ha : HandlerCall fr.c a) (hs : Timeout.step k s a = some s') :
    s'.phase = .handler ct fr ∧
      (s'.cc.ccExecEntity true).ccDrain = (s.cc.ccExecEntity true).ccDrain := by
  cases step_cases h hs with
  | init _ _ _ _ _ => exact ⟨hp, rfl⟩
  | reset _ _ hr => exact ⟨hp, hr.drain true⟩
  | @stop c flags drain _ _ _ _ hstop =>
      have hc : ¬ Recognised c s.cc := by
        rw [h.recognised_iff hp]
        rintro ⟨rfl, -⟩
        exact ha.2 flags drain rfl
      refine ⟨hp, ?_⟩
      rw [hstop.drain, if_neg (fun hand => hc hand.1)]
  | quietTick _ _ _ => exact absurd ha.1 Bool.false_ne_true
  | tick _ _ => exact absurd ha.1 Bool.false_ne_true
  | tock _ _ => exact absurd ha.1 Bool.false_ne_true
  | bucket _ _ => exact absurd ha.1 Bool.false_ne_true
  | bucketEnd _ => exact absurd ha.1 Bool.false_ne_true
  | skip _ _ => exact absurd ha.1 Bool.false_ne_true
  | call _ _ _ _ => exact absurd ha.1 Bool.false_ne_true
  | left _ _ => exact absurd ha.1 Bool.false_ne_true
  | drain _ _ => exact absurd ha.1 Bool.false_ne_true
  | drained _ => exact absurd ha.1 Bool.false_ne_true

/-- The same for all that the handler does until it returns. -/
theorem WorldOk.drain_kept_run {u : World ι φ α}
    {ts : List (Transition (World ι φ α) (Action ι φ α))} (h : WorldOk k s)
    (hp : s.phase = .handler ct fr) (hrun : Run (Timeout.step k) s ts u)
    (hts : ∀ tr ∈ ts, HandlerCall fr.c tr.act) :
    WorldOk k u ∧ u.phase = .handler ct fr ∧
      (u.cc.ccExecEntity true).ccDrain = (s.cc.ccExecEntity true).ccDrain := by
  induction hrun with
  | nil => exact ⟨h, hp, rfl⟩
  | snoc _ ha ih =>
      simp only [List.forall_mem_append, List.forall_mem_singleton] at hts
      obtain ⟨hok, hphase, hdrain⟩ := ih hts.1
      obtain ⟨hphase', hdrain'⟩ := hok.drain_kept hphase hts.2 ha
      exact ⟨hok.step ha, hphase', hdrain'.trans hdrain⟩

omit [DecidableEq ι] in
/-- The crash at the end of `softclock_call_cc` is a missing lock. -/
theorem not_crash_iff : ¬ (fr.cIflags.returnUnlocked = false ∧ fr.cLock = none) ↔
    CanReturn fr.cLock fr.cIflags := by
  unfold CanReturn
  cases fr.cLock <;> cases fr.cIflags.returnUnlocked <;> simp

/-- The handler returns and the registered drain function is called, if the lock of the callout can be
given back. -/
theorem ret_drainCall_iff (hp : s.phase = .handler ct fr) (d : φ) :
    (∃ v, Timeout.step k s .ret = some v ∧ v.log = s.log ++ [.drainCall d fr.cArg] ∧
        (v.cc.ccExecEntity true).ccDrain = none) ↔
      (s.cc.ccExecEntity true).ccDrain = some d ∧ CanReturn fr.cLock fr.cIflags := by
  simp only [Timeout.step, hp, returnStep, softclockCallCcReturn]
  by_cases hcrash : fr.cIflags.returnUnlocked = false ∧ fr.cLock = none
  · have hnot : ¬ CanReturn fr.cLock fr.cIflags := fun hret => not_crash_iff.mpr hret hcrash
    simp [if_pos hcrash, hnot]
  · have hret := not_crash_iff.mp hcrash
    rw [if_neg hcrash]
    cases hdrain : (s.cc.ccExecEntity true).ccDrain with
    | none =>
        constructor
        · rintro ⟨v, hv, hlog, -⟩
          obtain rfl := Option.some.inj hv
          exact absurd (congrArg List.length hlog) (by simp [finishStep])
        · rintro ⟨hd, -⟩
          cases hd
    | some d' =>
        constructor
        · rintro ⟨v, hv, hlog, -⟩
          obtain rfl := Option.some.inj hv
          have heq := List.append_cancel_left hlog
          simp only [List.cons.injEq, Event.drainCall.injEq, and_true] at heq
          exact ⟨congrArg some heq, hret⟩
        · rintro ⟨hd, -⟩
          obtain rfl := Option.some.inj hd
          exact ⟨_, rfl, rfl, by simp [CalloutCpu.modifyExec_self]⟩

/-! ## The stop -/

/-- What a stop of the running callout owes its caller: the active flag is cleared, the result is that
of a running callout, the callout is off the wheel, and a drain function, unless the callout is stopped
once more, is called exactly once, when the handler returns. -/
def StopsRunning (k : Nat) (s : World ι φ α) (fr : Frame ι α) (flags : StopFlags)
    (drain : Option φ) (r : Int) (cc' : CalloutCpu ι φ α) : Prop :=
  (cc'.callouts fr.c).cActive = false ∧
  r = (if flags.csExecuting then 1 else 0) ∧
  OffWheel k fr.c cc' ∧
  ∀ d, drain = some d → ∀ ts u,
    Run (Timeout.step k) { s with cc := cc', log := s.log ++ [.stop fr.c] } ts u →
    (∀ tr ∈ ts, HandlerCall fr.c tr.act) →
    ∃ v, Timeout.step k u .ret = some v ∧ v.log = u.log ++ [.drainCall d fr.cArg] ∧
      (v.cc.ccExecEntity true).ccDrain = none

/-- The callout carries the direct flag; or it has been armed again, the stop asks for `CS_EXECUTING` and
its drain function is registered already. A drain function also needs a handler that can return. -/
def StopMeets (s : World ι φ α) (fr : Frame ι α) (flags : StopFlags) (drain : Option φ) : Prop :=
  ((s.cc.callouts fr.c).cIflags.direct = true ∨
    (s.cc.callouts fr.c).cIflags.pending = true ∧ flags.csExecuting = true ∧
      (drain.isSome = true → (s.cc.ccExecEntity true).ccDrain = drain)) ∧
  (drain.isSome = true → CanReturn fr.cLock fr.cIflags)

/-- The drain function of the stop is called exactly when slot 1 holds it and the handler can return. -/
theorem drain_called_iff {cc' : CalloutCpu ι φ α}
    (hok : WorldOk k { s with cc := cc', log := s.log ++ [.stop fr.c] })
    (hp : s.phase = .handler ct fr) (d : φ) :
    (∀ ts u, Run (Timeout.step k) { s with cc := cc', log := s.log ++ [.stop fr.c] } ts u →
      (∀ tr ∈ ts, HandlerCall fr.c tr.act) →
      ∃ v, Timeout.step k u .ret = some v ∧ v.log = u.log ++ [.drainCall d fr.cArg] ∧
        (v.cc.ccExecEntity true).ccDrain = none) ↔
      (cc'.ccExecEntity true).ccDrain = some d ∧ CanReturn fr.cLock fr.cIflags := by
  constructor
  · intro h
    exact (ret_drainCall_iff (s := { s with cc := cc', log := s.log ++ [.stop fr.c] }) hp d).mp
      (h [] _ .nil (by simp))
  · rintro ⟨hd, hret⟩ ts u hrun hts
    obtain ⟨-, hphase, hdrain⟩ := hok.drain_kept_run hp hrun hts
    exact (ret_drainCall_iff hphase d).mpr ⟨hdrain.trans hd, hret⟩

section Stop

variable {flags : StopFlags} {drain : Option φ} {r : Int} {cc' : CalloutCpu ι φ α}

/-- A stop that finds its callout running does all of it, if the handler can return to the drain
function. -/
theorem Stopped.meets_iff_of_recognised (hstop : Stopped k fr.c flags drain s.cc r cc')
    (hok : WorldOk k { s with cc := cc', log := s.log ++ [.stop fr.c] })
    (hp : s.phase = .handler ct fr) (hoff : OffWheel k fr.c cc') (hrec : Recognised fr.c s.cc)
    (hdirect : (s.cc.callouts fr.c).cIflags.direct = true) :
    StopsRunning k s fr flags drain r cc' ↔ (drain.isSome = true → CanReturn fr.cLock fr.cIflags) := by
  simp only [StopsRunning, drain_called_iff hok hp]
  constructor
  · rintro ⟨-, -, -, hcalled⟩ hsome
    obtain ⟨d, hd⟩ := Option.isSome_iff_exists.mp hsome
    exact (hcalled d hd).2
  · intro hret
    refine ⟨?_, ?_, hoff, fun d hd => ⟨?_, hret (by rw [hd]; rfl)⟩⟩
    · exact Bool.eq_false_iff.mpr fun hactive => (hstop.active.mp hactive).2.1 hrec
    · rw [hstop.result, if_pos hrec]
    · rw [hstop.drain, if_pos ⟨hrec, hdirect.symm, by rw [hd]; rfl⟩, hd]

/-- A stop that does not find it running is the stop of a callout that waits or does not wait: its
result and the drain function in slot 1 are right only by chance. -/
theorem Stopped.meets_iff_of_not_recognised (hstop : Stopped k fr.c flags drain s.cc r cc')
    (hok : WorldOk k { s with cc := cc', log := s.log ++ [.stop fr.c] })
    (hp : s.phase = .handler ct fr) (hoff : OffWheel k fr.c cc') (hrec : ¬ Recognised fr.c s.cc) :
    StopsRunning k s fr flags drain r cc' ↔
      ((s.cc.callouts fr.c).cIflags.pending = true ∧ flags.csExecuting = true ∧
        (drain.isSome = true → (s.cc.ccExecEntity true).ccDrain = drain)) ∧
      (drain.isSome = true → CanReturn fr.cLock fr.cIflags) := by
  have hresult := hstop.result
  have hdrain := hstop.drain true
  rw [if_neg hrec] at hresult
  rw [if_neg fun hand => hrec hand.1] at hdrain
  simp only [StopsRunning, drain_called_iff hok hp]
  constructor
  · rintro ⟨-, hr, -, hcalled⟩
    rw [hresult] at hr
    have hpending : (s.cc.callouts fr.c).cIflags.pending = true ∧ flags.csExecuting = true := by
      cases hpend : (s.cc.callouts fr.c).cIflags.pending <;>
        cases hexec : flags.csExecuting <;> simp [hpend, hexec] at hr
      exact ⟨rfl, rfl⟩
    refine ⟨⟨hpending.1, hpending.2, fun hsome => ?_⟩, fun hsome => ?_⟩
    · obtain ⟨d, hd⟩ := Option.isSome_iff_exists.mp hsome
      rw [← hdrain, (hcalled d hd).1, hd]
    · obtain ⟨d, hd⟩ := Option.isSome_iff_exists.mp hsome
      exact (hcalled d hd).2
  · rintro ⟨⟨hpending, hexecuting, hreg⟩, hret⟩
    rw [if_pos hpending] at hresult
    refine ⟨?_, by rw [hresult, hexecuting, if_pos rfl], hoff, fun d hd => ⟨?_, ?_⟩⟩
    · refine Bool.eq_false_iff.mpr fun hactive => ?_
      exact Bool.false_ne_true ((hstop.active.mp hactive).2.2.symm.trans hpending)
    · rw [hdrain, hreg (by rw [hd]; rfl), hd]
    · exact hret (by rw [hd]; rfl)

end Stop

/-- **A stop from inside the handler.** In every reachable state in which the handler of a callout runs,
a stop of that callout without `CS_DRAIN` returns, and it does what its caller expects exactly when
`StopMeets` holds. -/
theorem stop_in_handler_iff {s₀ : World ι φ α}
    {ts : List (Transition (World ι φ α) (Action ι φ α))} (h₀ : Fresh s₀)
    (h : Run (Timeout.step k) s₀ ts s) (hp : s.phase = .handler ct fr) (flags : StopFlags)
    (hflags : flags.csDrain = false) (drain : Option φ) :
    ∃ r cc', calloutStopSafe k fr.c flags drain s.cc = some (r, cc') ∧
      (StopsRunning k s fr flags drain r cc' ↔ StopMeets s fr flags drain) := by
  have hok : WorldOk k s := .run h₀ h
  have hwait : flags.csDrain = true → ¬ Recognised fr.c s.cc := by
    rw [hflags]
    exact nofun
  obtain ⟨r, cc', heq, hstop⟩ := calloutStopSafe_spec hok.cpu drain hwait
  have hok' := hok.stop (by rw [hp]; rfl) hstop.toDisarmed
  have hoff : OffWheel k fr.c cc' := hok'.cpu.offWheel_iff.mpr (by rw [hstop.iflags])
  have hrec := hok.recognised_iff hp fr.c
  refine ⟨r, cc', heq, ?_⟩
  unfold StopMeets
  cases hdirect : (s.cc.callouts fr.c).cIflags.direct with
  | true =>
      have hrunning : Recognised fr.c s.cc := hrec.mpr ⟨rfl, hdirect⟩
      rw [hstop.meets_iff_of_recognised hok' hp hoff hrunning hdirect]
      simp only [true_or, true_and]
  | false =>
      -- the stop looks at slot 0, where nothing ever runs
      have hrunning : ¬ Recognised fr.c s.cc := by
        rw [hrec, hdirect]
        simp
      rw [hstop.meets_iff_of_not_recognised hok' hp hoff hrunning]
      simp only [Bool.false_eq_true, false_or]

namespace Sample

/-- The frame of the handler that runs. -/
def frame : Phase Nat Nat → Option (Frame Nat Nat)
  | .handler _ fr => some fr
  | _ => none

/-- A callout is armed for one tick, with or without `C_DIRECT_EXEC`, and its handler is called. -/
def armed (direct : Bool) : List (Action Nat Nat Nat) :=
  [.init 0 true, .reset 0 1 7 none direct, .hardclock, .hardclock, .softclock, .softclock]

theorem handler_of_frame {p : Phase Nat Nat} {fr : Frame Nat Nat} (h : frame p = some fr) :
    ∃ ct, p = .handler ct fr := by
  cases p with
  | handler ct fr' =>
      obtain rfl : fr' = fr := Option.some.inj h
      exact ⟨ct, rfl⟩
  | _ => cases h

end Sample

theorem stop_in_handler_direct :
    ∃ r ct fr, exec (Timeout.step 2) (Sample.wheel 0) (Sample.armed true) = some r ∧
      r.2.phase = .handler ct fr ∧
      ∃ res cc', calloutStopSafe 2 fr.c ⟨false, true⟩ (some 3) r.2.cc = some (res, cc') ∧
        StopsRunning 2 r.2 fr ⟨false, true⟩ (some 3) res cc' := by
  obtain ⟨r, hr⟩ := Option.isSome_iff_exists.mp (by decide :
    (exec (Timeout.step 2) (Sample.wheel 0) (Sample.armed true)).isSome = true)
  have hend : (exec (Timeout.step 2) (Sample.wheel 0) (Sample.armed true)).map (fun r =>
      ((Sample.frame r.2.phase).map fun fr => (fr.c, fr.cIflags.returnUnlocked),
        (r.2.cc.callouts 0).cIflags.direct)) = some (some (0, true), true) := by decide
  rw [hr, Option.map_some, Option.some.injEq, Prod.mk.injEq, Option.map_eq_some_iff] at hend
  obtain ⟨⟨fr, hfr, hframe⟩, hdirect⟩ := hend
  obtain ⟨hc, hunlocked⟩ := Prod.mk.inj hframe
  obtain ⟨ct, hp⟩ := Sample.handler_of_frame hfr
  obtain ⟨res, cc', heq, hiff⟩ :=
    stop_in_handler_iff (Sample.fresh_wheel 0) (Run.of_exec hr) hp ⟨false, true⟩ rfl (some 3)
  refine ⟨r, ct, fr, hr, hp, res, cc', heq, hiff.mpr ⟨.inl ?_, fun _ => .inr hunlocked⟩⟩
  rw [hc]
  exact hdirect

/-- Armed without `C_DIRECT_EXEC`, the callout is not found running: its handler's stop returns -1. -/
theorem stop_in_handler_not_recognised :
    ¬ ∀ (s : World Nat Nat Nat) (ts : List (Transition (World Nat Nat Nat) (Action Nat Nat Nat)))
        (ct : BitVec 32) (fr : Frame Nat Nat) (flags : StopFlags) (drain : Option Nat),
      Run (Timeout.step 2) (Sample.wheel 0) ts s → s.phase = .handler ct fr →
      flags.csDrain = false →
      ∃ r cc', calloutStopSafe 2 fr.c flags drain s.cc = some (r, cc') ∧
        StopsRunning 2 s fr flags drain r cc' := by
  intro hclaim
  obtain ⟨r, hr⟩ := Option.isSome_iff_exists.mp (by decide :
    (exec (Timeout.step 2) (Sample.wheel 0) (Sample.armed false)).isSome = true)
  have hend : (exec (Timeout.step 2) (Sample.wheel 0) (Sample.armed false)).map (fun r =>
      ((Sample.frame r.2.phase).map (·.c),
        (calloutStopSafe 2 0 ⟨false, false⟩ none r.2.cc).map (·.1))) =
      some (some 0, some (-1)) := by decide
  rw [hr, Option.map_some, Option.some.injEq, Prod.mk.injEq, Option.map_eq_some_iff] at hend
  obtain ⟨⟨fr, hfr, hc⟩, hresult⟩ := hend
  obtain ⟨ct, hp⟩ := Sample.handler_of_frame hfr
  obtain ⟨res, cc', heq, hstops⟩ := hclaim _ _ ct fr ⟨false, false⟩ none (Run.of_exec hr) hp rfl
  rw [hc] at heq
  rw [heq, Option.map_some, Option.some.injEq] at hresult
  have hzero : res = 0 := hstops.2.1
  omega

end LazyBsd.Timeout
