/-
# LazyBsd.Timeout.Preservation — every step keeps the invariant.

One lemma for the calls of the interface, which reset, stop and initialisation share, and one for each
move of `lazybsd_hardclock`. The log of every run from an empty wheel is therefore legal.
-/
import LazyBsd.Timeout.Serving

namespace LazyBsd.Timeout

open Lib

variable {ι φ α : Type*} [DecidableEq ι] {k : Nat} {s : World ι φ α} {ct : BitVec 32}
  {fr : Frame ι α}

/-! ## The calls of the interface -/

section Calls

variable {cc' : CalloutCpu ι φ α} {c : ι} {e : Event ι φ α}

/-- A call for `c` keeps the invariant, if what it leaves serves the request it makes and the walk it
was made in, should there be one, still covers its bucket. -/
theorem WorldOk.call (h : WorldOk k s) (hout : s.phase.outside = true) (he : e.OfCaller c)
    (hallowed : Admits s.log e) (hcpu : CpuOk k cc') (hclock : SameClock s.cc cc')
    (hcovers : ∀ ct, s.cc.ccBucket = calloutGetBucket k ct → Covers k ct s.cc s.cc.ccNext →
      Covers k ct cc' cc'.ccNext)
    (hothers : ∀ x, x ≠ c → cc'.callouts x = s.cc.callouts x)
    (hself : Serves s.cc.ticks (cc'.callouts c) (track c (inForce c s.log) e)) (inited : ι → Bool) :
    WorldOk k { s with cc := cc', inited := inited, log := s.log ++ [e] } where
  cpu := hcpu
  phase := by
    have hphase := h.phase
    unfold PhaseOk at hphase ⊢
    -- the walk waits outside of the list, so it is enough that its cursor still covers the bucket
    have hwalk (ct : BitVec 32) (hw : Walking k ct s.cc.ccNext s.cc)
        (hb : s.cc.ccBucket = calloutGetBucket k ct) : Walking k ct cc'.ccNext cc' :=
      ⟨by rw [hclock.softticks, hclock.ticks, hw.softticks], by rw [hclock.ticks, hw.next],
        hcovers ct hb hw.covers⟩
    cases hp : s.phase with
    | idle =>
        simp only [hp, hclock.softticks, hclock.ticks] at hphase ⊢
        exact ⟨hphase.1, hphase.2.append_call he⟩
    | outer =>
        rw [hp] at hout
        cases hout
    | walk ct cur =>
        rw [hp] at hout
        cases hout
    | handler ct fr =>
        simp only [hp, hclock.bucket, hclock.curr] at hphase ⊢
        obtain ⟨hw, hb, hrest⟩ := hphase
        exact ⟨hwalk ct hw hb, hb, hrest⟩
    | drain ct fr =>
        simp only [hp, hclock.bucket] at hphase ⊢
        obtain ⟨hw, hb, hrest⟩ := hphase
        exact ⟨hwalk ct hw hb, hb, hrest⟩
  serves x := by
    show Serves cc'.ticks (cc'.callouts x) (inForce x (s.log ++ [e]))
    rw [inForce_append, hclock.ticks]
    by_cases hx : x = c
    · rw [hx]
      exact hself
    · rw [he.track_of_ne hx, hothers x hx]
      exact h.serves x
  legal := h.legal.append hallowed
  ticking hp := (he.ticking_append s.log).trans (h.ticking hp)

theorem WorldOk.init {r : Callout φ α} (h : WorldOk k s) (hout : s.phase.outside = true)
    (hoff : OffWheel k c s.cc) (hr : Initial r) (inited : ι → Bool) :
    WorldOk k { s with cc := s.cc.modify c fun _ => r, inited := inited, log := s.log ++ [.init c] } := by
  have hpending := h.cpu.offWheel_iff.mp hoff
  have hforce : inForce c s.log = none := by
    by_contra hne
    obtain ⟨q, hq⟩ := Option.ne_none_iff_exists'.mp hne
    have hserves := h.serves c
    rw [hq] at hserves
    exact Bool.false_ne_true (hpending.symm.trans hserves.1)
  refine h.call (c := c) (e := .init c) hout rfl hforce
    (h.cpu.init hpending hr.plain hr.pending hr.direct) ⟨rfl, rfl, rfl, fun _ => rfl, fun _ => rfl⟩
    (fun ct _ hc => ?_) (fun x hx => CalloutCpu.modify_of_ne _ hx) ?_ _
  · refine Cursor.imp hc fun x hx htime => ?_
    have hne : x ≠ c := by
      rintro rfl
      exact Bool.false_ne_true (hpending.symm.trans ((h.cpu.mem_iff x _).mp hx).1)
    rwa [CalloutCpu.modify_of_ne _ hne] at htime
  · rw [CalloutCpu.modify_self, track, if_pos rfl]
    exact hr.pending

theorem WorldOk.reset {t : BitVec 32} {f : φ} {a : Option α} {direct : Bool} (h : WorldOk k s)
    (hout : s.phase.outside = true) (hr : Reset k c t f a direct s.cc cc') :
    WorldOk k { s with cc := cc', log := s.log ++ [.reset c t f a] } := by
  refine h.call (c := c) (e := .reset c t f a) hout rfl trivial (h.cpu.reset hr) hr.toSameClock
    (fun ct hb hc => hr.toArmed.covers h.cpu hb hc) hr.others ?_ s.inited
  rw [track, if_pos rfl]
  refine ⟨by rw [hr.iflags], hr.func, hr.arg, ?_⟩
  rw [hr.time]
  exact BitVec.add_zero _

theorem WorldOk.stop (h : WorldOk k s) (hout : s.phase.outside = true)
    (hd : Disarmed k c s.cc cc') : WorldOk k { s with cc := cc', log := s.log ++ [.stop c] } := by
  refine h.call (c := c) (e := .stop c) hout rfl trivial (h.cpu.disarmed hd) hd.toSameClock
    (fun ct _ hc => hd.covers h.cpu hc) hd.others ?_ s.inited
  rw [track, if_pos rfl, Serves, hd.iflags]

end Calls

/-! ## The clock -/

/-- The clock ticks. -/
theorem WorldOk.tick (h : WorldOk k s) (hp : s.phase = .idle) :
    WorldOk k { s with
      cc := { s.cc with ticks := s.cc.ticks + 1 }
      phase := .outer
      log := s.log ++ [.tick] } := by
  have hphase := h.phase
  simp only [PhaseOk, hp] at hphase
  exact
    { cpu := { h.cpu with }
      phase := .inr (congrArg (· + 1) hphase.1)
      serves := fun c => by
        rw [inForce_append]
        exact (h.serves c).tick
      legal := h.legal.append hphase.2
      ticking := fun _ => by simp [Timeout.ticking] }

/-- `lazybsd_hardclock` returns. -/
theorem WorldOk.tock (h : WorldOk k s) (hp : s.phase = .outer)
    (hsoft : s.cc.ccSoftticks = s.cc.ticks) :
    WorldOk k { s with phase := .idle, log := s.log ++ [.tock] } := by
  have hphase := h.phase
  simp only [PhaseOk, hp] at hphase
  have hdue : NoneDue s.log := by
    rcases hphase with hdone | hbehind
    · exact hdone.2
    · rw [hsoft] at hbehind
      bv_omega
  exact
    { cpu := h.cpu
      phase := ⟨hsoft, fun c r hr => hdue c r (by simpa [track] using hr)⟩
      serves := fun c => by
        rw [inForce_append]
        exact h.serves c
      legal := h.legal.append hdue
      ticking := fun hne => absurd rfl hne }

/-- A tick with an empty bucket: nothing was due in it, and `cc_softticks` catches up. -/
theorem WorldOk.quietTick (h : WorldOk k s) (hp : s.phase = .idle)
    (hbucket : s.cc.ccCallwheel (calloutGetBucket k s.cc.ccSoftticks) = []) :
    WorldOk k { s with
      cc := { s.cc with ticks := s.cc.ticks + 1, ccSoftticks := s.cc.ticks + 1 }
      phase := .idle
      log := s.log ++ [.tick] ++ [.tock] } := by
  have hphase := h.phase
  simp only [PhaseOk, hp] at hphase
  have htick := h.tick hp
  have hbehind : s.cc.ccSoftticks + 1 = s.cc.ticks + 1 := congrArg (· + 1) hphase.1
  have hdue : NoneDue (s.log ++ [.tick]) := htick.noneDue hbehind fun c hc => by
    rw [show _ = [] from hbucket] at hc
    cases hc
  have hcaught : WorldOk k { s with
      cc := { s.cc with ticks := s.cc.ticks + 1, ccSoftticks := s.cc.ticks + 1 }
      phase := .outer
      log := s.log ++ [.tick] } :=
    { htick with
      cpu := { htick.cpu with }
      phase := .inl ⟨rfl, hdue⟩ }
  exact hcaught.tock rfl rfl

/-! ## `softclock` -/

/-- The walk over the next bucket begins. -/
theorem WorldOk.bucket (h : WorldOk k s) (hp : s.phase = .outer)
    (hsoft : s.cc.ccSoftticks ≠ s.cc.ticks) :
    WorldOk k { s with
      cc := { s.cc with ccSoftticks := s.cc.ccSoftticks + 1 }
      phase := .walk s.cc.ccSoftticks
        (s.cc.ccCallwheel (calloutGetBucket k s.cc.ccSoftticks)).head? } := by
  have hphase := h.phase
  simp only [PhaseOk, hp] at hphase
  have hbehind : s.cc.ccSoftticks + 1 = s.cc.ticks :=
    hphase.resolve_left fun hdone => hsoft hdone.1
  exact
    { cpu := { h.cpu with }
      phase := ⟨hbehind, hbehind, Cursor.start⟩
      serves := h.serves
      legal := h.legal
      ticking := fun _ => h.ticking (by simp [hp]) }

/-- The walk ends: nothing in the bucket is due any more. -/
theorem WorldOk.bucketEnd (h : WorldOk k s) (hp : s.phase = .walk ct none) :
    WorldOk k { s with phase := .outer } := by
  have hw := h.phase
  simp only [PhaseOk, hp] at hw
  exact
    { h with
      phase := .inl ⟨hw.softticks, h.noneDue hw.next hw.covers.finished⟩
      ticking := fun _ => h.ticking (by simp [hp]) }

/-- The walk passes a callout of another turn of the wheel. -/
theorem WorldOk.skip {c : ι} (h : WorldOk k s) (hp : s.phase = .walk ct (some c))
    (hdue : (s.cc.callouts c).cTime ≠ ct) :
    WorldOk k { s with phase := .walk ct (listNextLe k c s.cc) } := by
  have hw := h.phase
  simp only [PhaseOk, hp] at hw
  have hskip : Covers k ct s.cc (listNextLe k c s.cc) := by
    rw [Covers.listNextLe_eq h.cpu hw.covers]
    exact Cursor.skip (h.cpu.wheel.nodup _) hw.covers hdue
  exact
    { h with
      phase := ⟨hw.softticks, hw.next, hskip⟩
      ticking := fun _ => h.ticking (by simp [hp]) }

theorem CpuOk.entered {cc cc' : CalloutCpu ι φ α} {c : ι} (h : CpuOk k cc)
    (he : Entered k ct c cc cc') : CpuOk k cc' where
  wheel := he.toRemoved.buckets h
  plain := he.toRemoved.plain h
  waiting d := by
    cases d with
    | false => rw [he.swi, h.waiting]
    | true => rw [he.waiting, h.waiting]
  swi := by rw [he.swi, h.swi]
  started x hcurr _ hlock := by
    obtain rfl : c = x := Option.some.inj (he.curr.symm.trans hcurr)
    rw [he.cancel, ← he.lock]
    exact hlock

/-- A due callout is called: its request is exactly one tick over. -/
theorem WorldOk.called {cc' : CalloutCpu ι φ α} {c : ι} {f : φ} (h : WorldOk k s)
    (hp : s.phase = .walk ct (some c)) (hdue : (s.cc.callouts c).cTime = ct)
    (hf : (s.cc.callouts c).cFunc = some f) (he : Entered k ct c s.cc cc') :
    WorldOk k { s with
      cc := cc'
      phase := .handler ct ⟨c, (s.cc.callouts c).cLock, (s.cc.callouts c).cArg,
        (s.cc.callouts c).cIflags⟩
      log := s.log ++ [.call c f (s.cc.callouts c).cArg] } := by
  have hw := h.phase
  simp only [PhaseOk, hp] at hw
  have hticking := h.ticking (by simp [hp])
  obtain ⟨q, hq, hserves⟩ := h.request ((h.cpu.mem_iff c _).mp hw.covers.mem).1
  have hage : q.age = delay q.toTicks + 1 :=
    (hserves.due_iff (h.legal.age_le hq)).mp (by rw [hdue, hw.next])
  have hfunc : q.func = f := Option.some.inj (hserves.2.1.symm.trans hf)
  -- the callout is off the list, and the walk has been moved past it
  have hcovers := he.toRemoved.covers h.cpu hw.covers
  rw [if_pos rfl, ← he.next] at hcovers
  exact
    { cpu := h.cpu.entered he
      phase := ⟨⟨by rw [he.softticks, he.ticks, hw.softticks], by rw [he.ticks, hw.next], hcovers⟩,
        he.bucket, (h.cpu.plain c).localAlloc, he.curr⟩
      serves := fun x => by
        show Serves cc'.ticks _ _
        rw [inForce_append, he.ticks]
        by_cases hx : x = c
        · rw [hx, track, if_pos rfl, Serves, he.iflags]
        · rw [track, if_neg (Ne.symm hx), he.others x hx]
          exact h.serves x
      legal := h.legal.append ⟨hticking, q.toTicks, by rw [hq, hserves.2.2.1, ← hage, ← hfunc]⟩
      ticking := fun _ => by simpa [Timeout.ticking] using hticking }

/-! ## The return of a handler -/

/-- The handler has returned, and the walk has not gone on yet. -/
theorem WorldOk.leave (h : WorldOk k s) (hp : s.phase = .handler ct fr) :
    WorldOk k { s with cc := leaveCc s.cc, phase := .drain ct fr } := by
  have hphase := h.phase
  simp only [PhaseOk, hp] at hphase
  obtain ⟨hw, hb, hlocal, -⟩ := hphase
  exact
    { cpu := h.cpu.leave
      phase := ⟨{ hw with }, hb, hlocal⟩
      serves := h.serves
      legal := h.legal
      ticking := fun _ => h.ticking (by simp [hp]) }

/-- The call of a drain function is nothing to the wheel. -/
theorem WorldOk.drainCall (h : WorldOk k s) (hp : s.phase = .drain ct fr) (d : φ) (a : Option α) :
    WorldOk k { s with log := s.log ++ [.drainCall d a] } where
  cpu := h.cpu
  phase := by
    have hphase := h.phase
    simpa only [PhaseOk, hp] using hphase
  serves c := by
    rw [inForce_append]
    exact h.serves c
  legal := h.legal.append trivial
  ticking hne := by
    have hold := h.ticking hne
    simpa [Timeout.ticking] using hold

/-- `softclock` goes on at `cc_next`. -/
theorem WorldOk.resume (h : WorldOk k s) (hp : s.phase = .drain ct fr) :
    WorldOk k { s with cc := { s.cc with ccNext := none }, phase := .walk ct s.cc.ccNext } := by
  have hphase := h.phase
  simp only [PhaseOk, hp] at hphase
  exact
    { cpu := { h.cpu with }
      phase := { hphase.1 with }
      serves := h.serves
      legal := h.legal
      ticking := fun _ => h.ticking (by simp [hp]) }

/-! ## Every step -/

/-- **The invariant is kept by every step.** -/
theorem WorldOk.step {s' : World ι φ α} {a : Action ι φ α} (h : WorldOk k s)
    (hs : step k s a = some s') : WorldOk k s' := by
  cases step_cases h hs with
  | init _ hout hoff hr _ => exact h.init hout hoff hr _
  | reset hout _ hr => exact h.reset hout hr
  | stop hout _ hstop => exact h.stop hout hstop.toDisarmed
  | quietTick hp _ hbucket => exact h.quietTick hp hbucket
  | tick hp _ => exact h.tick hp
  | tock hp hsoft => exact h.tock hp hsoft
  | bucket hp hsoft => exact h.bucket hp hsoft
  | bucketEnd hp => exact h.bucketEnd hp
  | skip hp hdue => exact h.skip hp hdue
  | call hp hdue hf henter => exact h.called hp hdue hf henter
  | left hp _ => exact (h.leave hp).resume rfl
  | drain hp _ => exact (h.leave hp).drainCall rfl _ _
  | drained hp => exact h.resume hp

/-- **It holds in every run from an empty wheel.** -/
theorem WorldOk.run {s₀ : World ι φ α}
    {ts : List (Transition (World ι φ α) (Action ι φ α))}
    (h₀ : Fresh s₀) (h : Run (Timeout.step k) s₀ ts s) : WorldOk k s :=
  h.invariant (fun hok hs => hok.step hs) (.fresh h₀)

end LazyBsd.Timeout
