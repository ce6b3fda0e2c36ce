/-
# LazyBsd.Timeout.Serving — the wheel serves the requests that are in force.

`WorldOk` ties the wheel to the log: a callout is pending exactly when a request is in force for it, with
that request's function and argument and with `c_time` the tick it waits for; the phase of `softclock`
says which requests may still be one tick over; and the log is legal. Each step of the process keeps it,
by one lemma for the calls of the interface and one for each step of `lazybsd_hardclock`.
-/
import LazyBsd.Timeout.Wheel
import Mathlib.Order.Lattice

namespace LazyBsd.Timeout

open Lib

variable {ι φ α : Type*} {k : Nat}

/-! ## Ticks -/

theorem toNat_atLeastOne (t : BitVec 32) : (atLeastOne t).toNat = delay t := by
  have hlt := t.isLt
  unfold atLeastOne delay
  rw [BitVec.toInt_eq_toNat_cond]
  split_ifs with hsign hpos hpos
  · rw [max_eq_right (by omega)]
    rfl
  · rw [max_eq_left (by omega), Int.toNat_natCast]
  · rw [max_eq_right (by omega)]
    rfl
  · omega

theorem delay_pos (t : BitVec 32) : 0 < delay t := by
  unfold delay
  have := le_max_right t.toInt 1
  omega

theorem delay_lt (t : BitVec 32) : delay t < 2 ^ 31 := by
  have := BitVec.toInt_lt (x := t)
  unfold delay
  omega

/-- A reset never asks for the tick that is being worked on, across the wrap of `ticks` as well. -/
theorem reset_ne_curticks {curticks ticks : BitVec 32} (h : curticks + 1 = ticks) (t : BitVec 32) :
    ticks + atLeastOne t ≠ curticks := by
  have hd := toNat_atLeastOne t
  -- at least one and less than 2 ^ 31 ticks ahead, so never 2 ^ 32 - 1
  have hlt := delay_lt t
  have hpos := delay_pos t
  generalize atLeastOne t = d at *
  bv_omega

/-! ## The wheel serves the requests -/

/-- A callout waits for its request: with the function and the argument of it, and `c_time` such that
`age` ticks ago it was the delay away. -/
def Serves (ticks : BitVec 32) (r : Callout φ α) : Option (Request φ α) → Prop
  | none => r.cIflags.pending = false
  | some q =>
      r.cIflags.pending = true ∧ r.cFunc = some q.func ∧ r.cArg = q.arg ∧
        r.cTime + BitVec.ofNat 32 q.age = ticks + atLeastOne q.toTicks

/-- A callout that is due is one whose request is one tick over. -/
theorem Serves.due_iff {ticks : BitVec 32} {r : Callout φ α} {q : Request φ α}
    (h : Serves ticks r (some q)) (hage : q.age ≤ delay q.toTicks + 1) :
    r.cTime + 1 = ticks ↔ q.age = delay q.toTicks + 1 := by
  have htime := h.2.2.2
  have hd := toNat_atLeastOne q.toTicks
  have hlt := delay_lt q.toTicks
  generalize atLeastOne q.toTicks = d at *
  have hn : (BitVec.ofNat 32 q.age).toNat = q.age := by
    rw [BitVec.toNat_ofNat, Nat.mod_eq_of_lt (by omega)]
  generalize BitVec.ofNat 32 q.age = n at *
  constructor
  · intro heq
    bv_omega
  · intro heq
    bv_omega

/-- A tick later the request is a tick older. -/
theorem Serves.tick {ticks : BitVec 32} {r : Callout φ α} {req : Option (Request φ α)}
    (h : Serves ticks r req) :
    Serves (ticks + 1) r (req.map fun q => { q with age := q.age + 1 }) := by
  cases req with
  | none => exact h
  | some q =>
      obtain ⟨hp, hf, ha, htime⟩ := h
      refine ⟨hp, hf, ha, ?_⟩
      have hsucc : BitVec.ofNat 32 (q.age + 1) = BitVec.ofNat 32 q.age + 1 := by
        rw [BitVec.ofNat_add]
        rfl
      show r.cTime + BitVec.ofNat 32 (q.age + 1) = ticks + 1 + atLeastOne q.toTicks
      rw [hsucc, ← BitVec.add_assoc, htime, BitVec.add_assoc, BitVec.add_assoc,
        BitVec.add_comm (atLeastOne q.toTicks) 1]

/-! ## The invariant of the process -/

/-- The walk over the bucket of the tick before `ticks` reaches every callout that is due. -/
structure Walking (k : Nat) (curticks : BitVec 32) (cur : Option ι) (cc : CalloutCpu ι φ α) :
    Prop where
  softticks : cc.ccSoftticks = cc.ticks
  next : curticks + 1 = cc.ticks
  covers : Covers k curticks cc cur

variable [DecidableEq ι]

/-- What each phase of `softclock` adds. -/
def PhaseOk (k : Nat) (s : World ι φ α) : Prop :=
  match s.phase with
  | .idle => s.cc.ccSoftticks = s.cc.ticks ∧ NoneDue s.log
  | .outer => s.cc.ccSoftticks = s.cc.ticks ∧ NoneDue s.log ∨ s.cc.ccSoftticks + 1 = s.cc.ticks
  | .walk curticks cur => Walking k curticks cur s.cc
  | .handler curticks fr =>
      Walking k curticks s.cc.ccNext s.cc ∧ s.cc.ccBucket = calloutGetBucket k curticks ∧
        fr.cIflags.localAlloc = false ∧ (s.cc.ccExecEntity true).ccCurr = some fr.c
  | .drain curticks fr =>
      Walking k curticks s.cc.ccNext s.cc ∧ s.cc.ccBucket = calloutGetBucket k curticks ∧
        fr.cIflags.localAlloc = false

/-- The invariant of every run. -/
structure WorldOk (k : Nat) (s : World ι φ α) : Prop where
  cpu : CpuOk k s.cc
  phase : PhaseOk k s
  serves : ∀ c, Serves s.cc.ticks (s.cc.callouts c) (inForce c s.log)
  legal : Legal s.log
  ticking : s.phase ≠ .idle → ticking s.log = true

theorem WorldOk.fresh {s : World ι φ α} (h : Fresh s) : WorldOk k s where
  cpu :=
    { wheel := by
        have hplace : (fun c => (s.cc.callouts c).place k) = fun _ => none := by
          funext c
          rw [h.zeroed c]
          rfl
        rw [hplace]
        exact .empty h.empty
      plain := fun c => by rw [h.zeroed c]; exact ⟨rfl, rfl, rfl⟩
      waiting := h.waiting
      swi := h.curr false
      started := fun c hc => by rw [h.curr true] at hc; cases hc }
  phase := by
    unfold PhaseOk
    rw [h.phase]
    refine ⟨h.softticks, fun c r hr => ?_⟩
    rw [h.log] at hr
    cases hr
  serves c := by
    rw [h.log, h.zeroed c]
    rfl
  legal := by
    rw [h.log]
    exact .nil
  ticking hphase := absurd h.phase hphase

/-- A request that is in force at a call of the process is the one the callout serves. -/
theorem WorldOk.request {s : World ι φ α} (h : WorldOk k s) {c : ι}
    (hp : (s.cc.callouts c).cIflags.pending = true) :
    ∃ q, inForce c s.log = some q ∧ Serves s.cc.ticks (s.cc.callouts c) (some q) := by
  have hc := h.serves c
  cases hq : inForce c s.log with
  | none =>
      rw [hq, Serves, hp] at hc
      cases hc
  | some q => exact ⟨q, rfl, hq ▸ hc⟩

/-- Between two ticks nothing is due but what lies in the bucket of the tick before. -/
theorem WorldOk.noneDue {s : World ι φ α} (h : WorldOk k s) {curticks : BitVec 32}
    (hct : curticks + 1 = s.cc.ticks)
    (hdone : ∀ c ∈ s.cc.ccCallwheel (calloutGetBucket k curticks),
      (s.cc.callouts c).cTime ≠ curticks) : NoneDue s.log := by
  intro c q hq
  have hserves : Serves s.cc.ticks (s.cc.callouts c) (some q) := hq ▸ h.serves c
  have hle := h.legal.age_le hq
  by_contra hover
  have htime := (hserves.due_iff hle).mpr (by omega)
  have hcur : (s.cc.callouts c).cTime = curticks := (BitVec.add_left_inj 1).mp (htime.trans hct.symm)
  exact hdone c ((h.cpu.mem_iff c _).mpr ⟨hserves.1, by rw [hcur]⟩) hcur

/-! ## What a step can do -/

section Moves

variable {s s' : World ι φ α} {ct : BitVec 32} {fr : Frame ι α}

omit [DecidableEq ι] in
/-- With one tick to catch up on, `callout_tick` looks at one bucket. -/
theorem calloutTick_eq {cc : CalloutCpu ι φ α} (h : cc.ccSoftticks + 1 = cc.ticks) :
    calloutTick k cc =
      if cc.ccCallwheel (calloutGetBucket k cc.ccSoftticks) ≠ [] then (cc, true)
      else ({ cc with ccSoftticks := cc.ticks }, false) := by
  have hfuel : (cc.ticks - cc.ccSoftticks).toNat = 1 := by bv_omega
  have hbehind : (cc.ccSoftticks - cc.ticks).toInt < 0 := by
    have heq : cc.ccSoftticks - cc.ticks = 0xffffffff#32 := by bv_omega
    rw [heq]
    decide
  rw [calloutTick, hfuel, calloutTickLoop, if_pos hbehind, ← h]
  rfl

omit [DecidableEq ι] in
/-- A hardclock call that starts with `cc_softticks = ticks` has one bucket to look at. -/
theorem hardclockStep_eq (h : s.cc.ccSoftticks = s.cc.ticks) :
    hardclockStep k s =
      if s.cc.ccCallwheel (calloutGetBucket k s.cc.ccSoftticks) = [] then
        { s with
          cc := { s.cc with ticks := s.cc.ticks + 1, ccSoftticks := s.cc.ticks + 1 }
          phase := .idle
          log := s.log ++ [.tick] ++ [.tock] }
      else
        { s with
          cc := { s.cc with ticks := s.cc.ticks + 1 }
          phase := .outer
          log := s.log ++ [.tick] } := by
  have heq : calloutTick k { s.cc with ticks := s.cc.ticks + 1 } = _ :=
    calloutTick_eq (congrArg (· + 1) h)
  unfold hardclockStep
  by_cases hbucket : s.cc.ccCallwheel (calloutGetBucket k s.cc.ccSoftticks) = []
  · rw [heq, if_neg (not_not_intro hbucket), if_pos hbucket]
    rfl
  · rw [heq, if_pos hbucket, if_neg hbucket]
    rfl

/-- `softclock_call_cc` up to the handler, for a callout of this build. -/
theorem softclockCallCcEnter_eq {cc : CalloutCpu ι φ α} {c : ι} (d : Bool)
    (hplain : (cc.callouts c).cIflags.Plain) :
    softclockCallCcEnter d c cc =
      (cc.modify c fun r => { r with cIflags := { r.cIflags with pending := false } }).modifyExec d
        fun e => { e with ccCurr := some c, ccCancel := (cc.callouts c).cLock.isSome, ccDrain := none } := by
  have hmodify : cc.modify c (fun r =>
      { r with
        cIflags :=
          if r.cIflags.localAlloc then { Iflags.zero with localAlloc := true }
          else { r.cIflags with pending := false } }) =
      cc.modify c fun r => { r with cIflags := { r.cIflags with pending := false } } := by
    apply CalloutCpu.modify_congr
    rw [hplain.localAlloc]
    rfl
  unfold softclockCallCcEnter
  dsimp only
  rw [hmodify]
  cases hlock : (cc.callouts c).cLock.isSome with
  | false => rw [if_neg Bool.false_ne_true]
  | true => rw [if_pos rfl, CalloutCpu.modifyExec_modifyExec]

/-- The state in which the handler of a due callout is called. -/
def enterCc (k : Nat) (curticks : BitVec 32) (c : ι) (cc : CalloutCpu ι φ α) : CalloutCpu ι φ α :=
  softclockCallCcEnter true c (listRemoveLe c
    { cc with ccNext := listNextLe k c cc, ccBucket := calloutGetBucket k curticks })

theorem callStep_eq {c : ι} {f : φ} (hf : (s.cc.callouts c).cFunc = some f) :
    callStep k ct c s =
      some { s with
        cc := enterCc k ct c s.cc
        phase := .handler ct ⟨c, (s.cc.callouts c).cLock, (s.cc.callouts c).cArg,
          (s.cc.callouts c).cIflags⟩
        log := s.log ++ [.call c f (s.cc.callouts c).cArg] } := by
  unfold callStep
  simp only [listRemoveLe, hf]
  rfl

/-- What the handler of `c` finds: `c` off the wheel and running in slot 1, and the walk waiting at the
callout behind it. -/
structure Entered (k : Nat) (curticks : BitVec 32) (c : ι) (cc cc' : CalloutCpu ι φ α) : Prop
    extends Removed c cc cc' where
  ticks : cc'.ticks = cc.ticks
  softticks : cc'.ccSoftticks = cc.ccSoftticks
  bucket : cc'.ccBucket = calloutGetBucket k curticks
  next : cc'.ccNext = listNextLe k c cc
  curr : (cc'.ccExecEntity true).ccCurr = some c
  cancel : (cc'.ccExecEntity true).ccCancel = (cc.callouts c).cLock.isSome
  drain : (cc'.ccExecEntity true).ccDrain = none
  waiting : (cc'.ccExecEntity true).ccWaiting = (cc.ccExecEntity true).ccWaiting
  swi : cc'.ccExecEntity false = cc.ccExecEntity false

theorem enterCc_spec {cc : CalloutCpu ι φ α} {c : ι} (hplain : (cc.callouts c).cIflags.Plain) :
    Entered k ct c cc (enterCc k ct c cc) := by
  have heq : enterCc k ct c cc = _ := softclockCallCcEnter_eq true hplain
  rw [heq]
  exact
    { wheel := fun _ => rfl
      others := fun x hx => Function.update_of_ne hx _ _
      time := by simp [listRemoveLe]
      lock := by simp [listRemoveLe]
      iflags := by simp [listRemoveLe]
      ticks := rfl
      softticks := rfl
      bucket := rfl
      next := rfl
      curr := by simp
      cancel := by simp [listRemoveLe]
      drain := by simp
      waiting := by simp [listRemoveLe]
      swi := CalloutCpu.modifyExec_of_ne _ _ Bool.false_ne_true }

/-- Nobody waits for the handler and it is not locally allocated: there is nothing more to do. -/
theorem softclockCallCcFinish_eq {cc : CalloutCpu ι φ α} (h : CpuOk k cc)
    (hlocal : fr.cIflags.localAlloc = false) : softclockCallCcFinish true fr cc = cc := by
  have hwaiting : cc.modifyExec true (fun e => { e with ccWaiting := false }) = cc :=
    CalloutCpu.modifyExec_eq_self _ _ (by rw [← h.waiting true])
  unfold softclockCallCcFinish
  dsimp only
  rw [hlocal, if_neg Bool.false_ne_true, hwaiting]

theorem finishStep_eq (h : CpuOk k s.cc) (hlocal : fr.cIflags.localAlloc = false) :
    finishStep ct fr s =
      { s with cc := { s.cc with ccNext := none }, phase := .walk ct s.cc.ccNext } := by
  unfold finishStep
  rw [softclockCallCcFinish_eq h hlocal]

/-- The state after the return of the handler, before its drain function is called. -/
def leaveCc (cc : CalloutCpu ι φ α) : CalloutCpu ι φ α :=
  cc.modifyExec true fun e => { e with ccCurr := none, ccDrain := none }

omit [DecidableEq ι] in
theorem CpuOk.leave {cc : CalloutCpu ι φ α} (h : CpuOk k cc) : CpuOk k (leaveCc cc) where
  wheel := h.wheel
  plain := h.plain
  waiting d := (CalloutCpu.modifyExec_proj _ true CcExec.ccWaiting rfl d).trans (h.waiting d)
  swi := by
    rw [leaveCc, CalloutCpu.modifyExec_of_ne _ _ Bool.false_ne_true]
    exact h.swi
  started x hcurr := by
    rw [leaveCc, CalloutCpu.modifyExec_self] at hcurr
    cases hcurr

/-- `softclock_call_cc` can unlock what it locked, or need not. -/
def CanReturn (lock : Option Lock) (iflags : Iflags) : Prop :=
  lock.isSome = true ∨ iflags.returnUnlocked = true

/-- A callout as `callout_init` and `_callout_init_lock` leave it. -/
structure Initial (r : Callout φ α) : Prop where
  plain : r.cIflags.Plain
  pending : r.cIflags.pending = false
  direct : r.cIflags.direct = false

/-- The initialisation gives the callout a lock or says that it needs none. -/
def Action.HasLock : Action ι φ α → Prop
  | .initLock _ lock returnUnlocked => lock.isSome = true ∨ returnUnlocked = true
  | _ => True

/-- `Moves k s a s'`: the action `a` leads from `s` to `s'`, and how. One constructor for each way the
code can go. -/
inductive Moves (k : Nat) (s : World ι φ α) : Action ι φ α → World ι φ α → Prop
  | init {a : Action ι φ α} {c : ι} {r : Callout φ α} (hcall : a.isCall = true)
      (hout : s.phase.outside = true) (hoff : OffWheel k c s.cc) (hr : Initial r)
      (hlock : a.HasLock → CanReturn r.cLock r.cIflags) :
      Moves k s a { s with
        cc := s.cc.modify c fun _ => r
        inited := Function.update s.inited c true
        log := s.log ++ [.init c] }
  | reset {c : ι} {t : BitVec 32} {f : φ} {arg : Option α} {direct : Bool} {cc' : CalloutCpu ι φ α}
      (hout : s.phase.outside = true) (hinit : s.inited c = true)
      (hreset : Reset k c t f arg direct s.cc cc') :
      Moves k s (.reset c t f arg direct) { s with cc := cc', log := s.log ++ [.reset c t f arg] }
  | stop {c : ι} {flags : StopFlags} {drain : Option φ} {r : Int} {cc' : CalloutCpu ι φ α}
      (hout : s.phase.outside = true) (hinit : s.inited c = true)
      (hstop : Stopped k c flags drain s.cc r cc') :
      Moves k s (.stop c flags drain) { s with cc := cc', log := s.log ++ [.stop c] }
  | quietTick (hp : s.phase = .idle) (hsoft : s.cc.ccSoftticks = s.cc.ticks)
      (hbucket : s.cc.ccCallwheel (calloutGetBucket k s.cc.ccSoftticks) = []) :
      Moves k s .hardclock { s with
        cc := { s.cc with ticks := s.cc.ticks + 1, ccSoftticks := s.cc.ticks + 1 }
        phase := .idle
        log := s.log ++ [.tick] ++ [.tock] }
  | tick (hp : s.phase = .idle) (hsoft : s.cc.ccSoftticks = s.cc.ticks) :
      Moves k s .hardclock { s with
        cc := { s.cc with ticks := s.cc.ticks + 1 }
        phase := .outer
        log := s.log ++ [.tick] }
  | tock (hp : s.phase = .outer) (hsoft : s.cc.ccSoftticks = s.cc.ticks) :
      Moves k s .softclock { s with phase := .idle, log := s.log ++ [.tock] }
  | bucket (hp : s.phase = .outer) (hsoft : s.cc.ccSoftticks ≠ s.cc.ticks) :
      Moves k s .softclock { s with
        cc := { s.cc with ccSoftticks := s.cc.ccSoftticks + 1 }
        phase := .walk s.cc.ccSoftticks
          (s.cc.ccCallwheel (calloutGetBucket k s.cc.ccSoftticks)).head? }
  | bucketEnd {ct : BitVec 32} (hp : s.phase = .walk ct none) :
      Moves k s .softclock { s with phase := .outer }
  | skip {ct : BitVec 32} {c : ι} (hp : s.phase = .walk ct (some c))
      (hdue : (s.cc.callouts c).cTime ≠ ct) :
      Moves k s .softclock { s with phase := .walk ct (listNextLe k c s.cc) }
  | call {ct : BitVec 32} {c : ι} {f : φ} {cc' : CalloutCpu ι φ α}
      (hp : s.phase = .walk ct (some c)) (hdue : (s.cc.callouts c).cTime = ct)
      (hf : (s.cc.callouts c).cFunc = some f) (henter : Entered k ct c s.cc cc') :
      Moves k s .softclock { s with
        cc := cc'
        phase := .handler ct ⟨c, (s.cc.callouts c).cLock, (s.cc.callouts c).cArg,
          (s.cc.callouts c).cIflags⟩
        log := s.log ++ [.call c f (s.cc.callouts c).cArg] }
  | left {ct : BitVec 32} {fr : Frame ι α} (hp : s.phase = .handler ct fr)
      (hdrain : (s.cc.ccExecEntity true).ccDrain = none) :
      Moves k s .ret { s with
        cc := { leaveCc s.cc with ccNext := none }
        phase := .walk ct s.cc.ccNext }
  | drain {ct : BitVec 32} {fr : Frame ι α} {d : φ} (hp : s.phase = .handler ct fr)
      (hdrain : (s.cc.ccExecEntity true).ccDrain = some d) :
      Moves k s .ret { s with
        cc := leaveCc s.cc
        phase := .drain ct fr
        log := s.log ++ [.drainCall d fr.cArg] }
  | drained {ct : BitVec 32} {fr : Frame ι α} (hp : s.phase = .drain ct fr) :
      Moves k s .ret { s with
        cc := { s.cc with ccNext := none }
        phase := .walk ct s.cc.ccNext }

theorem initial_calloutInit (mpsafe : Bool) : Initial (calloutInit mpsafe : Callout φ α) := by
  cases mpsafe with
  | false => exact ⟨⟨rfl, rfl, rfl⟩, rfl, rfl⟩
  | true => exact ⟨⟨rfl, rfl, rfl⟩, rfl, rfl⟩

theorem canReturn_calloutInit (mpsafe : Bool) :
    CanReturn (calloutInit mpsafe : Callout φ α).cLock (calloutInit mpsafe : Callout φ α).cIflags := by
  cases mpsafe with
  | false => exact .inl rfl
  | true => exact .inr rfl

theorem Moves.of_initStep {a : Action ι φ α} {c : ι} {r : Callout φ α} (hcall : a.isCall = true)
    (hr : Initial r) (hlock : a.HasLock → CanReturn r.cLock r.cIflags)
    (hs : initStep k c r s = some s') : Moves k s a s' := by
  unfold initStep at hs
  split_ifs at hs with hguard
  obtain rfl := Option.some.inj hs
  exact .init hcall hguard.1 hguard.2 hr hlock

theorem Moves.of_hardclock (h : WorldOk k s) (hp : s.phase = .idle) :
    Moves k s .hardclock (hardclockStep k s) := by
  have hphase := h.phase
  simp only [PhaseOk, hp] at hphase
  rw [hardclockStep_eq hphase.1]
  split_ifs with hbucket
  · exact .quietTick hp hphase.1 hbucket
  · exact .tick hp hphase.1

theorem Moves.of_outerStep (hp : s.phase = .outer) : Moves k s .softclock (outerStep k s) := by
  unfold outerStep
  split_ifs with hsoft
  · exact .tock hp hsoft
  · exact .bucket hp hsoft

theorem Moves.of_walkStep {cur : Option ι} (h : WorldOk k s) (hp : s.phase = .walk ct cur)
    (hs : walkStep k ct cur s = some s') : Moves k s .softclock s' := by
  cases cur with
  | none =>
      obtain rfl := Option.some.inj hs
      exact .bucketEnd hp
  | some c =>
      have hphase := h.phase
      simp only [PhaseOk, hp] at hphase
      obtain ⟨q, -, hserves⟩ := h.request ((h.cpu.mem_iff c _).mp hphase.covers.mem).1
      unfold walkStep at hs
      dsimp only at hs
      split_ifs at hs with hdue
      · obtain rfl := Option.some.inj hs
        exact .skip hp hdue
      · rw [callStep_eq hserves.2.1] at hs
        obtain rfl := Option.some.inj hs
        exact .call hp (not_not.mp hdue) hserves.2.1 (enterCc_spec (h.cpu.plain c))

theorem Moves.of_returnStep (h : WorldOk k s) (hp : s.phase = .handler ct fr)
    (hs : returnStep ct fr s = some s') : Moves k s .ret s' := by
  have hphase := h.phase
  simp only [PhaseOk, hp] at hphase
  unfold returnStep softclockCallCcReturn at hs
  split_ifs at hs with hcrash
  cases hdrain : (s.cc.ccExecEntity true).ccDrain with
  | none =>
      simp only [hdrain] at hs
      have hfinish : some (finishStep ct fr { s with cc := leaveCc s.cc }) = some s' := hs
      rw [finishStep_eq (s := { s with cc := leaveCc s.cc }) h.cpu.leave hphase.2.2.1] at hfinish
      obtain rfl := Option.some.inj hfinish
      exact .left hp hdrain
  | some d =>
      simp only [hdrain] at hs
      obtain rfl := Option.some.inj hs
      exact .drain hp hdrain

/-- **Every step of the process is one of the moves.** -/
theorem step_cases {a : Action ι φ α} (h : WorldOk k s) (hs : step k s a = some s') :
    Moves k s a s' := by
  cases a with
  | init c mpsafe =>
      exact .of_initStep rfl (initial_calloutInit mpsafe) (fun _ => canReturn_calloutInit mpsafe) hs
  | initLock c lock returnUnlocked =>
      exact .of_initStep rfl ⟨⟨rfl, rfl, rfl⟩, rfl, rfl⟩ id hs
  | reset c t f a direct =>
      simp only [step] at hs
      split_ifs at hs with hguard
      obtain rfl := Option.some.inj hs
      exact .reset hguard.1 hguard.2 (calloutResetTickOn_spec h.cpu t f a direct)
  | stop c flags drain =>
      simp only [step] at hs
      split_ifs at hs with hguard
      obtain ⟨r, hr, rfl⟩ := Option.map_eq_some_iff.mp hs
      exact .stop hguard.1 hguard.2 (Stopped.of_eq h.cpu hr)
  | hardclock =>
      cases hp : s.phase with
      | idle =>
          simp only [step, hp] at hs
          obtain rfl := Option.some.inj hs
          exact .of_hardclock h hp
      | _ => simp [step, hp] at hs
  | softclock =>
      cases hp : s.phase with
      | outer =>
          simp only [step, hp] at hs
          obtain rfl := Option.some.inj hs
          exact .of_outerStep hp
      | walk ct cur =>
          simp only [step, hp] at hs
          exact .of_walkStep h hp hs
      | _ => simp [step, hp] at hs
  | ret =>
      cases hp : s.phase with
      | handler ct fr =>
          simp only [step, hp] at hs
          exact .of_returnStep h hp hs
      | drain ct fr =>
          have hphase := h.phase
          simp only [PhaseOk, hp] at hphase
          simp only [step, hp, finishStep_eq h.cpu hphase.2.2] at hs
          obtain rfl := Option.some.inj hs
          exact .drained hp
      | _ => simp [step, hp] at hs

end Moves

end LazyBsd.Timeout
