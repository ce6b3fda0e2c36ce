/-
# LazyBsd.Clock — times and interval timers of `lazybsd_patch.c`.

A `timeval` has seconds and microseconds; it is `Normal` when the microseconds are those of less than a
second, and `micros` is the time as one number. `itimerdecr` takes a number of microseconds from an
interval timer and loads the interval again when the timer expires. A timer that `itimerfix` has accepted,
decremented by at most a tick at a time, expires when it should, however often (`timer_on_schedule`); a
decrement that is larger than what is left and the interval together stops it for good (`timer_lost`).

`time_t` and `long` are integers here; the products of `tvtohz`, which are near the end of their range, are
taken in 64 bits.
-/
import Mathlib.Tactic.Common
import Mathlib.Tactic.Linarith
import Mathlib.Tactic.Ring
import LazyBsd.Lib.Run

namespace LazyBsd.Clock

open Lib

/-! ## The code -/

/-- `struct timeval`. -/
structure Timeval where
  sec : Int
  usec : Int
  deriving DecidableEq

/-- `struct itimerval`. -/
structure Itimerval where
  interval : Timeval
  value : Timeval
  deriving DecidableEq

/-- `timevalisset`. -/
def timevalisset (tv : Timeval) : Bool := tv.sec ≠ 0 || tv.usec ≠ 0

/-- `timevalcmp(tvp, uvp, >=)`. -/
def timevalGe (tvp uvp : Timeval) : Bool :=
  if tvp.sec = uvp.sec then uvp.usec ≤ tvp.usec else uvp.sec ≤ tvp.sec

/-- `timevalfix`. -/
def timevalfix (t1 : Timeval) : Timeval :=
  let t1 := if t1.usec < 0 then ⟨t1.sec - 1, t1.usec + 1000000⟩ else t1
  if 1000000 ≤ t1.usec then ⟨t1.sec + 1, t1.usec - 1000000⟩ else t1

/-- `timevalsub`. -/
def timevalsub (t1 t2 : Timeval) : Timeval := timevalfix ⟨t1.sec - t2.sec, t1.usec - t2.usec⟩

/-- `itimerfix`; `none` is `EINVAL`. -/
def itimerfix (tick : Int) (tv : Timeval) : Option Timeval :=
  if tv.sec < 0 ∨ tv.usec < 0 ∨ 1000000 ≤ tv.usec then none
  else if tv.sec = 0 ∧ tv.usec ≠ 0 ∧ tv.usec < tick then some { tv with usec := tick }
  else some tv

/-- The code behind the label `expire`: the timer with the interval loaded, `usec` of it used up. -/
def expire (itp : Itimerval) (usec : Int) : Itimerval :=
  if timevalisset itp.interval then
    let value := { itp.interval with usec := itp.interval.usec - usec }
    { itp with value := if value.usec < 0 then ⟨value.sec - 1, value.usec + 1000000⟩ else value }
  else { itp with value := { itp.value with usec := 0 } }

/-- `itimerdecr`: the timer, and whether it is still running. -/
def itimerdecr (itp : Itimerval) (usec : Int) : Itimerval × Bool :=
  if itp.value.usec < usec ∧ itp.value.sec = 0 then (expire itp (usec - itp.value.usec), false)
  else
    let value := if itp.value.usec < usec then ⟨itp.value.sec - 1, itp.value.usec + 1000000⟩
      else itp.value
    let itp := { itp with value := { value with usec := value.usec - usec } }
    if timevalisset itp.value then (itp, true) else (expire itp 0, false)

/-! ## Times -/

/-- The time in microseconds. -/
def Timeval.micros (t : Timeval) : Int := t.sec * 1000000 + t.usec

/-- The microseconds are those of less than a second. -/
def Timeval.Normal (t : Timeval) : Prop := 0 ≤ t.usec ∧ t.usec < 1000000

variable {t t1 t2 : Timeval} {tick usec : Int} {itp : Itimerval}

theorem timevalfix_spec (hlow : -1000000 ≤ t.usec) (hhigh : t.usec < 2000000) :
    (timevalfix t).Normal ∧ (timevalfix t).micros = t.micros := by
  unfold timevalfix Timeval.Normal Timeval.micros
  by_cases hneg : t.usec < 0
  · rw [if_pos hneg]
    dsimp only
    rw [if_neg (by omega)]
    dsimp only
    omega
  · rw [if_neg hneg]
    by_cases hbig : 1000000 ≤ t.usec
    · rw [if_pos hbig]
      dsimp only
      omega
    · rw [if_neg hbig]
      omega

theorem timevalsub_spec (h1 : t1.Normal) (h2 : t2.Normal) :
    (timevalsub t1 t2).Normal ∧ (timevalsub t1 t2).micros = t1.micros - t2.micros := by
  obtain ⟨hn, hm⟩ := timevalfix_spec (t := ⟨t1.sec - t2.sec, t1.usec - t2.usec⟩)
    (by have := h1.1; have := h2.2; dsimp only; omega) (by have := h1.2; have := h2.1; dsimp only; omega)
  refine ⟨hn, hm.trans ?_⟩
  unfold Timeval.micros
  dsimp only
  omega

theorem timevalGe_iff (h1 : t1.Normal) (h2 : t2.Normal) :
    timevalGe t1 t2 = true ↔ t2.micros ≤ t1.micros := by
  obtain ⟨h1l, h1h⟩ := h1
  obtain ⟨h2l, h2h⟩ := h2
  unfold timevalGe Timeval.micros
  split_ifs with h <;> rw [decide_eq_true_iff] <;> omega

theorem timevalisset_iff (h : t.Normal) : timevalisset t = true ↔ t.micros ≠ 0 := by
  obtain ⟨hl, hh⟩ := h
  unfold timevalisset Timeval.micros
  rw [Bool.or_eq_true, decide_eq_true_iff, decide_eq_true_iff]
  omega

/-- What `itimerfix` accepts is normal, not negative, and zero or at least a tick. -/
theorem itimerfix_spec {tv : Timeval} (htick : 0 < tick) (hsecond : tick ≤ 1000000)
    (h : itimerfix tick tv = some t) :
    0 ≤ t.usec ∧ t.usec ≤ 1000000 ∧ 0 ≤ t.sec ∧ (t.micros = 0 ∨ tick ≤ t.micros) := by
  unfold itimerfix at h
  unfold Timeval.micros
  split_ifs at h with hbad hsmall
  · obtain rfl := Option.some.inj h
    dsimp only
    omega
  · obtain rfl := Option.some.inj h
    omega

/-! ## One decrement -/

/-- A timer that runs, of which neither part is shorter than a tick. -/
structure Good (tick : Int) (itp : Itimerval) : Prop where
  value : itp.value.Normal
  interval : itp.interval.Normal
  running : 0 < itp.value.micros
  long : tick ≤ itp.interval.micros

/-- The timer expires: the interval follows without a gap. -/
theorem expire_spec (itp : Itimerval) (usec : Int) (hi : itp.interval.Normal)
    (hset : 0 < itp.interval.micros) (hlow : 0 ≤ usec) (hhigh : usec < 1000000) :
    (expire itp usec).value.Normal ∧ (expire itp usec).value.micros = itp.interval.micros - usec ∧
      (expire itp usec).interval = itp.interval := by
  have hisset : timevalisset itp.interval = true := (timevalisset_iff hi).mpr (by omega)
  obtain ⟨hil, hih⟩ := hi
  unfold expire
  rw [if_pos hisset]
  dsimp only
  unfold Timeval.Normal Timeval.micros
  split <;> refine ⟨⟨?_, ?_⟩, ?_, rfl⟩ <;> dsimp only <;> omega

/-- **One decrement** of a good timer: less is left, or the interval follows without a gap. -/
theorem itimerdecr_spec (h : Good tick itp) (hpos : 0 < usec) (htick : usec ≤ tick)
    (hsecond : tick < 1000000) :
    Good tick (itimerdecr itp usec).1 ∧ (itimerdecr itp usec).1.interval = itp.interval ∧
      if usec < itp.value.micros then
        (itimerdecr itp usec).2 = true ∧
          (itimerdecr itp usec).1.value.micros = itp.value.micros - usec
      else
        (itimerdecr itp usec).2 = false ∧
          (itimerdecr itp usec).1.value.micros = itp.value.micros - usec + itp.interval.micros := by
  obtain ⟨⟨hvl, hvh⟩, hi, hrun, hlong⟩ := h
  unfold itimerdecr
  by_cases hover : itp.value.usec < usec ∧ itp.value.sec = 0
  · -- expired, and already in the next interval
    have hvalue : itp.value.micros = itp.value.usec := by
      unfold Timeval.micros
      omega
    obtain ⟨hn, hm, hint⟩ := expire_spec itp (usec - itp.value.usec) hi (by omega)
      (by omega) (by omega)
    rw [if_pos hover, if_neg (by omega)]
    dsimp only
    exact ⟨⟨hn, by rw [hint]; exact hi, by omega, by rw [hint]; exact hlong⟩, hint, rfl, by omega⟩
  · rw [if_neg hover]
    dsimp only
    set value : Timeval := { (if itp.value.usec < usec then
      (⟨itp.value.sec - 1, itp.value.usec + 1000000⟩ : Timeval) else itp.value) with
        usec := (if itp.value.usec < usec then
          (⟨itp.value.sec - 1, itp.value.usec + 1000000⟩ : Timeval) else itp.value).usec - usec }
      with hvalue
    have hspec : value.Normal ∧ value.micros = itp.value.micros - usec := by
      rw [hvalue]
      unfold Timeval.Normal Timeval.micros
      split <;> dsimp only <;> omega
    by_cases hset : timevalisset value = true
    · have hne := (timevalisset_iff hspec.1).mp hset
      have hnonneg : 0 ≤ value.micros := by
        rw [hspec.2]
        unfold Timeval.micros at hrun ⊢
        omega
      rw [if_pos hset, if_pos (by omega)]
      exact ⟨⟨hspec.1, hi, by show 0 < value.micros; omega, hlong⟩, rfl, rfl, hspec.2⟩
    · -- expired, exactly at the end of the interval
      have hzero : value.micros = 0 := by
        by_contra hne
        exact hset ((timevalisset_iff hspec.1).mpr hne)
      obtain ⟨hn, hm, hint⟩ := expire_spec { itp with value := value } 0 hi
        (by dsimp only; omega) le_rfl (by decide)
      dsimp only at hint hm
      rw [if_neg hset, if_neg (by omega)]
      exact ⟨⟨hn, by rw [hint]; exact hi, by rw [hm]; omega, by rw [hint]; exact hlong⟩, hint, rfl,
        by rw [hm]; omega⟩

/-! ## A timer in a run -/

/-- A timer with the microseconds taken from it and how often it has expired. -/
structure Timer where
  itp : Itimerval
  elapsed : Int
  expired : Nat

/-- A decrement by at most a tick. -/
def decr (tick : Int) (t : Timer) (usec : Int) : Option Timer :=
  if 0 < usec ∧ usec ≤ tick then
    some ⟨(itimerdecr t.itp usec).1, t.elapsed + usec,
      t.expired + if (itimerdecr t.itp usec).2 then 0 else 1⟩
  else none

/-- **The schedule**: what is left and what has elapsed add up to the first value and the intervals of the
expirations so far. -/
structure OnSchedule (tick : Int) (start : Itimerval) (t : Timer) : Prop where
  good : Good tick t.itp
  interval : t.itp.interval = start.interval
  sum : t.itp.value.micros + t.elapsed = start.value.micros + t.expired * start.interval.micros
  next : t.expired ≠ 0 → t.itp.value.micros ≤ start.interval.micros
  elapsed : 0 ≤ t.elapsed

variable {start : Itimerval} {s s' : Timer}

theorem OnSchedule.decr (h : OnSchedule tick start s) (hsecond : tick < 1000000)
    (hs : decr tick s usec = some s') : OnSchedule tick start s' := by
  unfold Clock.decr at hs
  split at hs
  swap
  · cases hs
  rename_i hu
  obtain rfl := Option.some.inj hs
  obtain ⟨hgood, hint, hcase⟩ := itimerdecr_spec h.good hu.1 hu.2 hsecond
  have hsum := h.sum
  have hinterval := congrArg Timeval.micros h.interval
  refine ⟨hgood, hint.trans h.interval, ?_, ?_, by dsimp only; have := h.elapsed; omega⟩
  · dsimp only
    split at hcase
    · rw [hcase.1, hcase.2]
      simp only [if_true, Nat.add_zero]
      omega
    · rw [hcase.1, hcase.2, hinterval]
      simp only [Bool.false_eq_true, if_false]
      push_cast
      linarith
  · intro hne
    dsimp only at hne ⊢
    split at hcase
    · rename_i hless
      rw [hcase.1] at hne
      have hnext := h.next (by simpa using hne)
      omega
    · omega

/-- **A timer is on schedule.** Take a timer whose parts `itimerfix` has accepted and are set, and any
decrements by at most a tick. Then what is left, and how often the timer has expired, is what the time
that has elapsed says: it expires at its first value and after every interval from there, and no
decrement that comes late moves a later expiration. -/
theorem timer_on_schedule {value interval : Timeval} {ts : List (Transition Timer Int)}
    (htick : 0 < tick) (hsecond : tick < 1000000)
    (hvalue : itimerfix tick value = some start.value)
    (hinterval : itimerfix tick interval = some start.interval)
    (hset : timevalisset start.value = true) (hperiodic : timevalisset start.interval = true)
    (h : Run (decr tick) ⟨start, 0, 0⟩ ts s) :
    s.itp.interval = start.interval ∧ s.itp.value.Normal ∧ 0 < s.itp.value.micros ∧
      s.itp.value.micros = start.value.micros + s.expired * start.interval.micros - s.elapsed ∧
      (s.expired : Int) = if s.elapsed < start.value.micros then 0
        else (s.elapsed - start.value.micros) / start.interval.micros + 1 := by
  have hnormal {tv t : Timeval} (hfix : itimerfix tick tv = some t) : t.Normal := by
    unfold itimerfix at hfix
    unfold Timeval.Normal
    split_ifs at hfix
    · obtain rfl := Option.some.inj hfix
      dsimp only
      omega
    · obtain rfl := Option.some.inj hfix
      omega
  have hlong {tv t : Timeval} (hfix : itimerfix tick tv = some t) (ht : timevalisset t = true) :
      tick ≤ t.micros := by
    have hne := (timevalisset_iff (hnormal hfix)).mp ht
    obtain ⟨-, -, -, hor⟩ := itimerfix_spec htick (by omega) hfix
    omega
  have hstart : OnSchedule tick start ⟨start, 0, 0⟩ := by
    refine ⟨⟨hnormal hvalue, hnormal hinterval, ?_, hlong hinterval hperiodic⟩, rfl, ?_, ?_, le_rfl⟩
    · have hle := hlong hvalue hset
      show 0 < start.value.micros
      omega
    · simp
    · intro hne
      exact absurd rfl hne
  have hend : OnSchedule tick start s :=
    h.invariant (I := OnSchedule tick start) (fun hI hs => hI.decr hsecond hs) hstart
  obtain ⟨hgood, hint, hsum, hnext, -⟩ := hend
  refine ⟨hint, hgood.value, hgood.running, by omega, ?_⟩
  have hpositive : 0 < start.interval.micros := by
    have hle := hlong hinterval hperiodic
    omega
  have hrun := hgood.running
  rcases Nat.eq_zero_or_pos s.expired with h0 | hpos
  · rw [h0] at hsum ⊢
    rw [if_pos (by simp at hsum; omega)]
    rfl
  · have hle := hnext (by omega)
    -- the time since the first expiration lies in the interval that runs
    have hsplit : s.elapsed - start.value.micros = (start.interval.micros - s.itp.value.micros) +
        (s.expired - 1) * start.interval.micros := by
      linarith
    have hnonneg : 0 ≤ ((s.expired : Int) - 1) * start.interval.micros :=
      Int.mul_nonneg (by omega) hpositive.le
    rw [if_neg (by omega), hsplit, Int.add_mul_ediv_right _ _ hpositive.ne',
      Int.ediv_eq_zero_of_lt (by omega) (by omega)]
    omega

/-- A timer of 25 ms and then every 10 ms, in ticks of 10 ms: it has expired twice after four ticks. -/
theorem timer_on_schedule_two :
    ∃ r, exec (decr 10000) ⟨⟨⟨0, 10000⟩, ⟨0, 25000⟩⟩, 0, 0⟩ [10000, 10000, 10000, 10000] = some r ∧
      (r.2.expired : Int) = (40000 - 25000) / 10000 + 1 := by
  obtain ⟨r, hr⟩ := Option.isSome_iff_exists.mp (by decide +kernel :
    (exec (decr 10000) ⟨⟨⟨0, 10000⟩, ⟨0, 25000⟩⟩, 0, 0⟩ [10000, 10000, 10000, 10000]).isSome = true)
  have helapsed : r.2.elapsed = 40000 := by
    have hmap : (exec (decr 10000) ⟨⟨⟨0, 10000⟩, ⟨0, 25000⟩⟩, 0, 0⟩
        [10000, 10000, 10000, 10000]).map (fun r => r.2.elapsed) = some 40000 := by decide +kernel
    rw [hr] at hmap
    exact Option.some.inj hmap
  obtain ⟨-, -, -, -, hexpired⟩ := @timer_on_schedule 10000 ⟨⟨0, 10000⟩, ⟨0, 25000⟩⟩ _
    ⟨0, 25000⟩ ⟨0, 5000⟩ _ (by decide) (by decide) rfl rfl rfl rfl (Run.of_exec hr)
  rw [helapsed] at hexpired
  exact ⟨r, hr, hexpired⟩

/-! ## A decrement that is too large -/

/-- A timer whose value is before the beginning. -/
def Lost (itp : Itimerval) : Prop := itp.value.sec < 0 ∧ itp.value.Normal

theorem Lost.itimerdecr (h : Lost itp) (hlow : 0 ≤ usec) (hhigh : usec < 1000000) :
    Lost (itimerdecr itp usec).1 ∧ (itimerdecr itp usec).2 = true := by
  obtain ⟨hsec, hl, hh⟩ := h
  unfold Clock.itimerdecr
  rw [if_neg (by omega)]
  dsimp only
  set value : Timeval := { (if itp.value.usec < usec then
    (⟨itp.value.sec - 1, itp.value.usec + 1000000⟩ : Timeval) else itp.value) with
      usec := (if itp.value.usec < usec then
        (⟨itp.value.sec - 1, itp.value.usec + 1000000⟩ : Timeval) else itp.value).usec - usec }
    with hvalue
  have hspec : value.sec < 0 ∧ value.Normal := by
    rw [hvalue]
    unfold Timeval.Normal
    split <;> dsimp only <;> omega
  have hset : timevalisset value = true := by
    unfold timevalisset
    rw [Bool.or_eq_true, decide_eq_true_iff]
    left
    omega
  rw [if_pos hset]
  exact ⟨hspec, rfl⟩

/-- **A timer that is decremented too much never expires again.** If a decrement is larger than what is
left and the interval together, the timer expires once and then, whatever decrements of less than a second
follow, says that it is still running. Each takes a second at most, so `tv_sec` is a `long` for the first
2^63 of them. -/
theorem timer_lost (hv : itp.value.Normal ∧ 0 ≤ itp.value.sec)
    (hi : itp.interval.Normal ∧ 0 < itp.interval.micros) (hhigh : usec < 1000000)
    (hover : itp.value.micros + itp.interval.micros < usec) (us : List Int)
    (hus : ∀ u ∈ us, 0 ≤ u ∧ u < 1000000) :
    (itimerdecr itp usec).2 = false ∧
      ∀ u, 0 ≤ u ∧ u < 1000000 →
        (itimerdecr (us.foldl (fun itp u => (itimerdecr itp u).1) (itimerdecr itp usec).1) u).2 =
          true := by
  obtain ⟨⟨hvl, hvh⟩, hsec⟩ := hv
  obtain ⟨hnormal, hpos⟩ := hi
  have hfirst : itp.value.usec < usec ∧ itp.value.sec = 0 := by
    unfold Timeval.micros at hover hpos
    omega
  have hstep : itimerdecr itp usec = (expire itp (usec - itp.value.usec), false) := by
    unfold itimerdecr
    rw [if_pos hfirst]
  have hlost : Lost (itimerdecr itp usec).1 := by
    rw [hstep]
    obtain ⟨hn, hm, -⟩ := expire_spec itp (usec - itp.value.usec) hnormal hpos
      (by omega) (by omega)
    refine ⟨?_, hn⟩
    obtain ⟨hnl, hnh⟩ := hn
    dsimp only
    unfold Timeval.micros at *
    omega
  refine ⟨by rw [hstep], fun u hu => ?_⟩
  have hall : Lost (us.foldl (fun itp u => (itimerdecr itp u).1) (itimerdecr itp usec).1) := by
    generalize (itimerdecr itp usec).1 = first at hlost
    induction us generalizing first with
    | nil => exact hlost
    | cons u us ih =>
        obtain ⟨hu, hmore⟩ := List.forall_mem_cons.mp hus
        exact ih hmore _ (hlost.itimerdecr hu.1 hu.2).1
  exact (hall.itimerdecr hu.1 hu.2).2

/-- An interval of 1 ms under decrements of 10 ms. -/
theorem timer_lost_millisecond :
    (itimerdecr ([10000, 10000].foldl (fun itp u => (itimerdecr itp u).1)
      (itimerdecr ⟨⟨0, 1000⟩, ⟨0, 1000⟩⟩ 10000).1) 10000).2 = true :=
  (@timer_lost 10000 ⟨⟨0, 1000⟩, ⟨0, 1000⟩⟩ ⟨⟨by decide, by decide⟩, by decide⟩
    ⟨⟨by decide, by decide⟩, by decide⟩ (by decide) (by decide) [10000, 10000] (by simp)).2 10000
      (by decide)

/-! ## `tvtohz` -/

/-- `LONG_MAX` and `INT_MAX`. -/
def longMax : Int := 0x7FFFFFFFFFFFFFFF
def intMax : Int := 0x7FFFFFFF

/-- A value as an `unsigned long` and as a `long`. -/
def ulong (v : Int) : Int := v % 0x10000000000000000
def long (v : Int) : Int := v.bmod 0x10000000000000000

/-- `tvtohz` before the last test: the ticks for the time, `usec` not negative. -/
def ticksOf (hz tick sec usec : Int) : Int :=
  if sec < 0 then 1
  else if sec ≤ longMax / 1000000 then ulong (ulong (sec * 1000000 + usec + (tick - 1)) / tick + 1)
  else if sec ≤ longMax / hz then ulong (sec * hz + ulong (usec + (tick - 1)) / tick + 1)
  else longMax

/-- `tvtohz`, with its `sec--`. -/
def tvtohz (hz tick : Int) (tv : Timeval) : Int :=
  let ticks := if tv.usec < 0 then ticksOf hz tick (long (tv.sec - 1)) (tv.usec + 1000000)
    else ticksOf hz tick tv.sec tv.usec
  if intMax < ticks then intMax else ticks

/-- The ticks that cover a time, and one more for the tick that is running. -/
def covering (tick t : Int) : Int := (t + tick - 1) / tick + 1

variable {hz sec : Int}

/-- `tick` is between a microsecond and a second. -/
theorem tick_bounds (hhz : 0 < hz) (hle : hz ≤ 1000000) (htick : tick = 1000000 / hz) :
    0 < tick ∧ tick ≤ 1000000 := by
  have hone : 1 ≤ tick := by
    rw [htick, Int.le_ediv_iff_mul_le hhz]
    omega
  exact ⟨by omega, htick ▸ Int.ediv_le_self _ (by decide)⟩

/-- The two branches for long times: more ticks than an `int` can hold, and so many are needed. -/
theorem ticksOf_long (sec usec : Int) (hhz : 0 < hz) (hle : hz ≤ 1000000) (htick : tick = 1000000 / hz)
    (hsec : longMax / 1000000 < sec) (hlow : 0 ≤ usec) (hhigh : usec < 1000000) :
    intMax < ticksOf hz tick sec usec ∧ intMax < covering tick (sec * 1000000 + usec) := by
  obtain ⟨htpos, htle⟩ := tick_bounds hhz hle htick
  have hbig : 9223372036854 < sec := hsec
  refine ⟨?_, ?_⟩
  · have hrest : 0 ≤ ulong (usec + (tick - 1)) / tick ∧ ulong (usec + (tick - 1)) / tick ≤ 2000000 := by
      have hu : ulong (usec + (tick - 1)) = usec + (tick - 1) := Int.emod_eq_of_lt (by omega) (by omega)
      rw [hu]
      exact ⟨Int.ediv_nonneg (by omega) htpos.le,
        (Int.ediv_le_self _ (by omega)).trans (by omega)⟩
    unfold ticksOf
    rw [if_neg (by omega), if_neg (by unfold longMax; omega)]
    split
    · rename_i hfits
      have hprod : sec * hz ≤ longMax := (Int.le_ediv_iff_mul_le hhz).mp hfits
      have hgrow : sec ≤ sec * hz := le_mul_of_one_le_right (by omega) (by omega)
      have hu : ulong (sec * hz + ulong (usec + (tick - 1)) / tick + 1) =
          sec * hz + ulong (usec + (tick - 1)) / tick + 1 := by
        unfold longMax at hprod
        exact Int.emod_eq_of_lt (by omega) (by omega)
      rw [hu]
      unfold intMax
      omega
    · decide
  · have hcover : sec ≤ (sec * 1000000 + usec + tick - 1) / tick := by
      rw [Int.le_ediv_iff_mul_le htpos]
      have hprod : sec * tick ≤ sec * 1000000 := mul_le_mul_of_nonneg_left htle (by omega)
      omega
    unfold covering intMax
    omega

/-- The ticks of a time that is not negative. -/
theorem ticksOf_eq (hhz : 0 < hz) (hle : hz ≤ 1000000) (htick : tick = 1000000 / hz) (hnonneg : 0 ≤ sec)
    (hlow : 0 ≤ usec) (hhigh : usec < 1000000) :
    (if intMax < ticksOf hz tick sec usec then intMax else ticksOf hz tick sec usec) =
      min intMax (covering tick (sec * 1000000 + usec)) := by
  obtain ⟨htpos, htle⟩ := tick_bounds hhz hle htick
  by_cases hshort : sec ≤ longMax / 1000000
  · have hbound : sec ≤ 9223372036854 := hshort
    have hu : ulong (sec * 1000000 + usec + (tick - 1)) = sec * 1000000 + usec + tick - 1 := by
      rw [ulong, Int.emod_eq_of_lt (by omega) (by omega)]
      omega
    have hdiv : (sec * 1000000 + usec + tick - 1) / tick ≤ sec * 1000000 + usec + tick - 1 :=
      Int.ediv_le_self _ (by omega)
    have hpos : 0 ≤ (sec * 1000000 + usec + tick - 1) / tick := Int.ediv_nonneg (by omega) htpos.le
    have hticks : ticksOf hz tick sec usec = covering tick (sec * 1000000 + usec) := by
      rw [ticksOf, if_neg (by omega), if_pos hshort, hu, ulong, Int.emod_eq_of_lt (by omega) (by omega)]
      rfl
    rw [hticks]
    omega
  · obtain ⟨hleft, hright⟩ :=
      ticksOf_long sec usec hhz hle htick (by omega) hlow hhigh
    rw [if_pos hleft, min_eq_left hright.le]

/-- **`tvtohz` is never early.** For every clock rate and every time, in all four branches: a time before
the beginning is one tick; any other time is as many ticks as cover it and one more, or `INT_MAX`. A sleep
of that many ticks, of which the first may be nearly over, lasts at least the time and less than two ticks
longer. The seconds are a `long` above `LONG_MIN`, from which `sec--` would overflow. -/
theorem tvtohz_covers {tv : Timeval} (hhz : 0 < hz) (hle : hz ≤ 1000000) (htick : tick = 1000000 / hz)
    (hsec : -longMax ≤ tv.sec) (hmax : tv.sec ≤ longMax) (hlow : -1000000 < tv.usec)
    (hhigh : tv.usec < 1000000) :
    (tv.micros < 0 → tvtohz hz tick tv = 1) ∧
    (0 ≤ tv.micros → tvtohz hz tick tv = min intMax (covering tick tv.micros) ∧
      tv.micros ≤ (covering tick tv.micros - 1) * tick ∧
      (covering tick tv.micros - 2) * tick < tv.micros) := by
  obtain ⟨htpos, -⟩ := tick_bounds hhz hle htick
  have hcover : tv.micros ≤ (covering tick tv.micros - 1) * tick ∧
      (covering tick tv.micros - 2) * tick < tv.micros := by
    have hdiv := Int.mul_ediv_add_emod (tv.micros + tick - 1) tick
    have hmod := Int.emod_lt_of_pos (tv.micros + tick - 1) htpos
    have hmod0 := Int.emod_nonneg (tv.micros + tick - 1) htpos.ne'
    rw [mul_comm] at hdiv
    unfold covering
    constructor
    · rw [Int.add_sub_cancel]
      omega
    · have hsplit : ((tv.micros + tick - 1) / tick + 1 - 2) * tick =
          (tv.micros + tick - 1) / tick * tick - tick := by ring
      rw [hsplit]
      omega
  -- seconds and microseconds with the microseconds made positive
  obtain ⟨sec, usec, hticks, hl, hh, hsum⟩ : ∃ sec usec,
      (if tv.usec < 0 then ticksOf hz tick (long (tv.sec - 1)) (tv.usec + 1000000)
        else ticksOf hz tick tv.sec tv.usec) = ticksOf hz tick sec usec ∧
      0 ≤ usec ∧ usec < 1000000 ∧ tv.micros = sec * 1000000 + usec := by
    have hlong : long (tv.sec - 1) = tv.sec - 1 := by
      unfold longMax at hsec hmax
      exact Int.bmod_eq_of_le (by omega) (by omega)
    rw [hlong]
    unfold Timeval.micros
    split
    · exact ⟨_, _, rfl, by omega, by omega, by omega⟩
    · exact ⟨_, _, rfl, by omega, by omega, by omega⟩
  unfold tvtohz
  dsimp only
  rw [hticks]
  refine ⟨fun hneg => ?_, fun hnonneg => ⟨?_, hcover⟩⟩
  · have hone : ticksOf hz tick sec usec = 1 := by
      rw [ticksOf, if_pos (by omega)]
    rw [hone]
    rfl
  · rw [hsum]
    exact ticksOf_eq hhz hle htick (by omega) hl hh

/-- A wait of 25 ms at 100 Hz: three ticks and the one that is running. -/
theorem tvtohz_covers_short : tvtohz 100 10000 ⟨0, 25000⟩ = min intMax (covering 10000 25000) ∧
    (25000 : Int) ≤ (covering 10000 25000 - 1) * 10000 := by
  obtain ⟨hticks, hle, -⟩ := (@tvtohz_covers 10000 100 ⟨0, 25000⟩ (by decide)
    (by decide) (by decide) (by decide) (by decide) (by decide) (by decide)).2 (by decide)
  exact ⟨hticks, hle⟩

/-! ## `ratecheck` -/

/-- `ratecheck` at the time `tv`: `*lasttime`, and whether the event is allowed. -/
def ratecheck (tv lasttime mininterval : Timeval) : Timeval × Bool :=
  if timevalGe (timevalsub tv lasttime) mininterval || (lasttime.sec = 0 && lasttime.usec = 0) then
    (tv, true)
  else (lasttime, false)

/-- A rate limit in a run: the time of the last call, `*lasttime`, and the times of the events that were
allowed. -/
structure Limiter where
  now : Timeval
  lasttime : Timeval
  allowed : List Timeval

/-- A call; the clock does not go back. -/
def check (mininterval : Timeval) (l : Limiter) (tv : Timeval) : Option Limiter :=
  if l.now.micros ≤ tv.micros ∧ 0 ≤ tv.usec ∧ tv.usec < 1000000 then
    let r := ratecheck tv l.lasttime mininterval
    some ⟨tv, r.1, if r.2 then l.allowed ++ [tv] else l.allowed⟩
  else none

/-- **The events allowed so far** are in order and spaced, but for events at the time zero; `*lasttime`
is the last of them, or zero. -/
structure Spaced (mininterval : Timeval) (l : Limiter) : Prop where
  normal : l.lasttime.Normal
  order : 0 ≤ l.lasttime.micros ∧ l.lasttime.micros ≤ l.now.micros
  last : l.lasttime.micros = 0 ∨ l.lasttime ∈ l.allowed
  past : ∀ a ∈ l.allowed, 0 ≤ a.micros ∧ a.micros ≤ l.lasttime.micros
  spaced : l.allowed.Pairwise fun a b =>
    a.micros ≠ 0 → mininterval.micros ≤ b.micros - a.micros

variable {mininterval tv : Timeval} {l l' : Limiter}

theorem ratecheck_allows (hn : tv.Normal) (hl : l.lasttime.Normal) (hm : mininterval.Normal) :
    (ratecheck tv l.lasttime mininterval).2 = true ↔
      mininterval.micros ≤ tv.micros - l.lasttime.micros ∨ l.lasttime.micros = 0 := by
  obtain ⟨hsub, hmicros⟩ := timevalsub_spec hn hl
  have hge := timevalGe_iff hsub hm
  rw [hmicros] at hge
  have hzero : (decide (l.lasttime.sec = 0) && decide (l.lasttime.usec = 0)) = true ↔
      l.lasttime.micros = 0 := by
    obtain ⟨hlow, hhigh⟩ := hl
    unfold Timeval.micros
    rw [Bool.and_eq_true, decide_eq_true_iff, decide_eq_true_iff]
    omega
  unfold ratecheck
  split
  · rename_i h
    rw [Bool.or_eq_true, hge, hzero] at h
    exact iff_of_true rfl h
  · rename_i h
    rw [Bool.or_eq_true, hge, hzero] at h
    exact iff_of_false Bool.false_ne_true h

theorem ratecheck_lasttime (mininterval tv : Timeval) (l : Limiter) :
    (ratecheck tv l.lasttime mininterval).1 =
      if (ratecheck tv l.lasttime mininterval).2 then tv else l.lasttime := by
  unfold ratecheck
  split <;> rfl

theorem Spaced.check (h : Spaced mininterval l) (hm : mininterval.Normal)
    (hs : check mininterval l tv = some l') : Spaced mininterval l' := by
  unfold Clock.check at hs
  split at hs
  swap
  · cases hs
  rename_i hok
  obtain ⟨hmono, hn⟩ := hok
  obtain rfl := Option.some.inj hs
  obtain ⟨hnonneg, hle⟩ := h.order
  have hallows := ratecheck_allows (l := l) hn h.normal hm
  have hlast := ratecheck_lasttime mininterval tv l
  cases hallowed : (ratecheck tv l.lasttime mininterval).2 with
  | true =>
      rw [hallowed, if_pos rfl] at hlast
      have hpast : ∀ a ∈ l.allowed, 0 ≤ a.micros ∧ a.micros ≤ tv.micros := fun a ha => by
        obtain ⟨ha0, hal⟩ := h.past a ha
        omega
      refine ⟨by rw [hlast]; exact hn, by rw [hlast]; dsimp only; omega, ?_, ?_, ?_⟩
      · rw [hlast, if_pos rfl]
        exact .inr (List.mem_append_right _ List.mem_cons_self)
      · rw [hlast, if_pos rfl]
        intro a ha
        rcases List.mem_append.mp ha with hold | hnew
        · exact hpast a hold
        · rw [List.mem_singleton.mp hnew]
          exact ⟨by omega, le_rfl⟩
      · rw [if_pos rfl]
        refine List.pairwise_append.mpr ⟨h.spaced, List.pairwise_singleton _ _, ?_⟩
        intro a ha b hb hne
        rw [List.mem_singleton.mp hb]
        obtain ⟨ha0, hal⟩ := h.past a ha
        -- an event after time zero keeps the limit, and `*lasttime` is not before it
        rcases hallows.mp hallowed with hspaced | hzero <;> omega
  | false =>
      rw [hallowed, if_neg Bool.false_ne_true] at hlast
      rw [if_neg Bool.false_ne_true, hlast]
      exact ⟨h.normal, ⟨hnonneg, by dsimp only; omega⟩, h.last, h.past, h.spaced⟩

/-- **The rate limit.** In every run from a zero `*lasttime`, with a clock that does not go back and a
`mininterval` that is normalised: two events that are allowed are at least `mininterval` apart, if the first
is not at the time zero; and an event is refused only if one was allowed less than `mininterval` before
it. -/
theorem ratecheck_spaces {now : Timeval} {ts : List (Transition Limiter Timeval)}
    (hm : mininterval.Normal) (hnow : 0 ≤ now.micros)
    (h : Run (check mininterval) ⟨now, ⟨0, 0⟩, []⟩ ts l) :
    (l.allowed.Pairwise fun a b => a.micros ≠ 0 → mininterval.micros ≤ b.micros - a.micros) ∧
    ∀ tr ∈ ts, (ratecheck tr.act tr.before.lasttime mininterval).2 = false →
      ∃ a ∈ tr.before.allowed, a.micros ≠ 0 ∧ a.micros ≤ tr.act.micros ∧
        tr.act.micros - a.micros < mininterval.micros := by
  have hstart : Spaced mininterval ⟨now, ⟨0, 0⟩, []⟩ :=
    ⟨⟨le_rfl, show (0 : Int) < 1000000 by decide⟩, ⟨le_rfl, hnow⟩, .inl rfl, by simp,
      List.Pairwise.nil⟩
  refine ⟨(h.invariant (I := Spaced mininterval) (fun hI hs => hI.check hm hs) hstart).spaced, ?_⟩
  intro tr htr hrefused
  obtain ⟨hbefore, hs, -⟩ :=
    h.of_mem (I := Spaced mininterval) (fun hI hs => hI.check hm hs) hstart tr htr
  unfold Clock.check at hs
  split at hs
  swap
  · cases hs
  rename_i hok
  have hallows := ratecheck_allows (l := tr.before) hok.2 hbefore.normal hm
  rw [hrefused] at hallows
  obtain ⟨hnear, hne⟩ := not_or.mp (fun hor => Bool.false_ne_true (hallows.mpr hor))
  obtain ⟨-, hle⟩ := hbefore.order
  exact ⟨tr.before.lasttime, hbefore.last.resolve_left hne, hne, by omega, by omega⟩

/-- A limit of one second: the events at 5 s and 6 s are allowed, the one between them is not. -/
theorem ratecheck_spaces_second :
    ∃ r, exec (check ⟨1, 0⟩) ⟨⟨0, 0⟩, ⟨0, 0⟩, []⟩ [⟨5, 0⟩, ⟨5, 500000⟩, ⟨6, 0⟩] = some r ∧
      r.2.allowed = [⟨5, 0⟩, ⟨6, 0⟩] ∧
      r.2.allowed.Pairwise fun a b => a.micros ≠ 0 → 1000000 ≤ b.micros - a.micros := by
  obtain ⟨r, hr⟩ := Option.isSome_iff_exists.mp (by decide +kernel :
    (exec (check ⟨1, 0⟩) ⟨⟨0, 0⟩, ⟨0, 0⟩, []⟩ [⟨5, 0⟩, ⟨5, 500000⟩, ⟨6, 0⟩]).isSome = true)
  have hallowed : (exec (check ⟨1, 0⟩) ⟨⟨0, 0⟩, ⟨0, 0⟩, []⟩ [⟨5, 0⟩, ⟨5, 500000⟩, ⟨6, 0⟩]).map
      (fun r => r.2.allowed) = some [⟨5, 0⟩, ⟨6, 0⟩] := by decide +kernel
  rw [hr] at hallowed
  exact ⟨r, hr, Option.some.inj hallowed,
    (ratecheck_spaces ⟨by decide, by decide⟩ le_rfl (Run.of_exec hr)).1⟩

end LazyBsd.Clock
