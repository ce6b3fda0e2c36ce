/-
# LazyBsd.Ratecheck — `ppsratecheck` of `lazybsd_patch.c`.

The pair `(lasttime, curpps)` holds the tick at which a window was opened and the calls counted in it. The
ticks are an `int` that wraps; a call sees the counter, `tickCounter` of the ticks since the start. Beside the
pair the state of a run holds the window as the ticks themselves cut it: the pair and the window agree as
long as no window is opened at the tick that the pair takes for "never used" and no call comes so late that
the wrapped difference is small again.

The comparison with `maxpps` is strict in every call but the one that opens the window, so a window allows
`maxpps - 1` calls, or the one that opens it.
-/
import LazyBsd.Lib.Run

namespace LazyBsd.Ratecheck

open Lib

/-- The two counters of a limiter: `lasttime->tv_sec` and `*curpps`. -/
structure Pair where
  lasttime : Int
  curpps : Int

/-- The `int` that a number of ticks leaves in the counter. -/
def tickCounter (t : Nat) : Int := (t : Int).bmod 0x100000000

/-- Whether the call resets the pair: `lasttime->tv_sec == 0 || (u_int)(now - lasttime->tv_sec) >= hz`. -/
def resets (hz : Nat) (p : Pair) (now : Int) : Bool :=
  p.lasttime = 0 || (hz : Int) ≤ (now - p.lasttime) % 0x100000000

/-- `(*curpps)++` of an `int`. -/
def increment (curpps : Int) : Int := (curpps + 1).bmod 0x100000000

/-- `ppsratecheck`: the pair after the call, and whether the call returns non-zero. -/
def ppsratecheck (hz : Nat) (maxpps : Int) (p : Pair) (now : Int) : Pair × Bool :=
  if resets hz p now then (⟨now, 1⟩, maxpps ≠ 0)
  else (⟨p.lasttime, increment p.curpps⟩, maxpps < 0 || increment p.curpps < maxpps)

/-! ## Windows -/

/-- A window: the tick at which it was opened, and the calls in it. -/
structure Window where
  opened : Nat
  calls : Nat

/-- The window of a call at tick `t`, the call counted: the first call opens one, and so does the first call
at least `hz` ticks after the window was opened. -/
def windowAt (hz : Nat) (w : Option Window) (t : Nat) : Window :=
  match w with
  | none => ⟨t, 1⟩
  | some w => if w.opened + hz ≤ t then ⟨t, 1⟩ else ⟨w.opened, w.calls + 1⟩

/-- The first `maxpps` calls of a window are allowed; all calls if `maxpps` is negative. -/
def allowed (maxpps : Int) (w : Window) : Bool := maxpps < 0 || (w.calls : Int) ≤ maxpps

/-- The limiter in a run: the ticks so far, the pair, and the window by the ticks. -/
structure Limiter where
  tick : Nat
  pair : Pair
  window : Option Window

/-- The pair initially zero, at any tick. -/
def Limiter.init (tick : Nat) : Limiter := ⟨tick, ⟨0, 0⟩, none⟩

/-- One call, some ticks after the last. -/
def call (hz : Nat) (maxpps : Int) (s : Limiter) (advance : Nat) : Option Limiter :=
  let t := s.tick + advance
  some ⟨t, (ppsratecheck hz maxpps s.pair (tickCounter t)).1, some (windowAt hz s.window t)⟩

/-- The call returns non-zero exactly when its window still allows it. -/
def Right (hz : Nat) (maxpps : Int) (tr : Transition Limiter Nat) : Prop :=
  (ppsratecheck hz maxpps tr.before.pair (tickCounter (tr.before.tick + tr.act))).2 =
    allowed maxpps (windowAt hz tr.before.window (tr.before.tick + tr.act))

/-! ## Calls that are counted as they should be -/

/-- A later call of a run with `maxpps` at least 1, in the window `w`. -/
def InStep (hz : Nat) (maxpps : Int) (w : Window) (t : Nat) : Prop :=
  if w.opened + hz ≤ t then w.opened % 0x100000000 = 0 ∨ hz ≤ (t - w.opened) % 0x100000000
  else w.opened % 0x100000000 ≠ 0 ∧ w.calls + 1 < 0x80000000 ∧ (maxpps = 1 ∨ (w.calls + 1 : Int) < maxpps)

/-- The calls that do not meet one of the defects. -/
def Counted (hz : Nat) (maxpps : Int) (s : Limiter) (advance : Nat) : Prop :=
  if maxpps < 0 then True
  else if maxpps = 0 then resets hz s.pair (tickCounter (s.tick + advance)) = true ∨ s.pair.curpps < 0x7FFFFFFF
  else ∀ w, s.window = some w → InStep hz maxpps w (s.tick + advance)

/-- The pair and the window agree. -/
structure Sync (s : Limiter) (w : Window) : Prop where
  opened : w.opened ≤ s.tick
  lasttime : s.pair.lasttime = tickCounter w.opened
  curpps : s.pair.curpps = w.calls
  pos : 1 ≤ w.calls
  small : w.calls < 0x80000000

/-- What holds between the calls, whatever the limit. -/
def Inv (maxpps : Int) (s : Limiter) : Prop :=
  if maxpps < 0 then True
  else if maxpps = 0 then 0 ≤ s.pair.curpps
  else (s.window = none ∧ s.pair = ⟨0, 0⟩) ∨ ∃ w, s.window = some w ∧ Sync s w

theorem inv_init (maxpps : Int) (tick : Nat) : Inv maxpps (Limiter.init tick) := by
  unfold Inv
  split_ifs
  · exact Int.le_refl 0
  · exact Or.inl ⟨rfl, rfl⟩

/-! ## The wrapped difference -/

theorem tickCounter_eq_zero_iff (t : Nat) : tickCounter t = 0 ↔ t % 0x100000000 = 0 := by
  unfold tickCounter
  simp only [Int.bmod_def]
  omega

theorem tickCounter_of_lt {t : Nat} (h : t < 0x80000000) : tickCounter t = t := by
  unfold tickCounter
  simp only [Int.bmod_def]
  omega

/-- The difference of two counters is that of the ticks, up to a wrap. -/
theorem tickCounter_sub {w t : Nat} (h : w ≤ t) :
    (tickCounter t - tickCounter w) % 0x100000000 = ((t - w) % 0x100000000 : Nat) := by
  unfold tickCounter
  simp only [Int.bmod_def]
  omega

/-- The pair resets for the wrapped distance, or because it takes its window for none. -/
theorem resets_iff {hz : Nat} {s : Limiter} {w : Window} (h : Sync s w) {t : Nat} (ht : s.tick ≤ t) :
    resets hz s.pair (tickCounter t) = true ↔
      w.opened % 0x100000000 = 0 ∨ hz ≤ (t - w.opened) % 0x100000000 := by
  have hle : w.opened ≤ t := Nat.le_trans h.opened ht
  rw [resets, h.lasttime, tickCounter_sub hle, Bool.or_eq_true, decide_eq_true_eq, decide_eq_true_eq,
    tickCounter_eq_zero_iff, Int.ofNat_le]

theorem increment_of_lt {curpps : Int} (h₀ : 0 ≤ curpps) (h : curpps < 0x7FFFFFFF) :
    increment curpps = curpps + 1 := by
  unfold increment
  simp only [Int.bmod_def]
  omega

/-- A call in the window that was not opened at a tick that reads zero finds the pair in use. -/
theorem not_resets_within {hz : Nat} {s : Limiter} {w : Window} (h : Sync s w) {advance : Nat}
    (hopen : s.tick + advance < w.opened + hz) (hzero : w.opened % 0x100000000 ≠ 0) :
    ¬ resets hz s.pair (tickCounter (s.tick + advance)) = true := by
  rw [resets_iff h (Nat.le_add_right s.tick advance)]
  rintro (h₀ | hlate)
  · exact hzero h₀
  · have hmod := Nat.mod_le (s.tick + advance - w.opened) 0x100000000
    have hle := h.opened
    omega

/-- The counter of the pair counts the calls of the window. -/
theorem increment_curpps {s : Limiter} {w : Window} (h : Sync s w) (hsmall : w.calls + 1 < 0x80000000) :
    increment s.pair.curpps = (w.calls : Int) + 1 := by
  rw [h.curpps]
  exact increment_of_lt (Int.natCast_nonneg _) (by omega)

/-! ## One call -/

theorem ppsratecheck_reset {hz : Nat} {p : Pair} {now : Int} (h : resets hz p now = true) (maxpps : Int) :
    ppsratecheck hz maxpps p now = (⟨now, 1⟩, decide (maxpps ≠ 0)) := by
  rw [ppsratecheck, if_pos h]

theorem ppsratecheck_count {hz : Nat} {p : Pair} {now : Int} (h : ¬ resets hz p now = true) (maxpps : Int) :
    ppsratecheck hz maxpps p now =
      (⟨p.lasttime, increment p.curpps⟩, decide (maxpps < 0) || decide (increment p.curpps < maxpps)) := by
  rw [ppsratecheck, if_neg h]

theorem windowAt_none (hz t : Nat) : windowAt hz none t = ⟨t, 1⟩ := rfl

theorem windowAt_over {hz t : Nat} {w : Window} (h : w.opened + hz ≤ t) :
    windowAt hz (some w) t = ⟨t, 1⟩ := if_pos h

theorem windowAt_within {hz t : Nat} {w : Window} (h : ¬ w.opened + hz ≤ t) :
    windowAt hz (some w) t = ⟨w.opened, w.calls + 1⟩ := if_neg h

theorem windowAt_calls_pos (hz : Nat) (w : Option Window) (t : Nat) : 1 ≤ (windowAt hz w t).calls := by
  unfold windowAt
  split
  · exact Nat.le_refl 1
  · split_ifs
    · exact Nat.le_refl 1
    · exact Nat.le_add_left 1 _

/-- No limit: every call returns non-zero. -/
theorem right_of_neg {hz : Nat} {maxpps : Int} (h : maxpps < 0) (tr : Transition Limiter Nat) :
    Right hz maxpps tr := by
  have hne : maxpps ≠ 0 := by omega
  unfold Right
  by_cases hr : resets hz tr.before.pair (tickCounter (tr.before.tick + tr.act)) = true
  · rw [ppsratecheck_reset hr]
    simp [allowed, h, hne]
  · rw [ppsratecheck_count hr]
    simp [allowed, h]

/-- Limit zero: no call is allowed, and the count does not come round. -/
theorem call_zero {hz : Nat} {s s' : Limiter} {advance : Nat} (hs : 0 ≤ s.pair.curpps)
    (hc : resets hz s.pair (tickCounter (s.tick + advance)) = true ∨ s.pair.curpps < 0x7FFFFFFF)
    (h : call hz 0 s advance = some s') : 0 ≤ s'.pair.curpps ∧ Right hz 0 ⟨s, advance, s'⟩ := by
  have hcalls := windowAt_calls_pos hz s.window (s.tick + advance)
  have hallowed : allowed 0 (windowAt hz s.window (s.tick + advance)) = false := by
    simp [allowed]
    omega
  obtain rfl := Option.some.inj h
  unfold Right
  by_cases hr : resets hz s.pair (tickCounter (s.tick + advance)) = true
  · simp only [ppsratecheck_reset hr, hallowed]
    exact ⟨Int.zero_le_ofNat 1, rfl⟩
  · have hlt := hc.resolve_left hr
    simp only [ppsratecheck_count hr, hallowed, increment_of_lt hs hlt]
    refine ⟨by omega, ?_⟩
    simp
    omega

theorem allowed_first {maxpps : Int} (hpos : 0 < maxpps) (t : Nat) :
    decide (maxpps ≠ 0) = allowed maxpps ⟨t, 1⟩ := by
  have hne : maxpps ≠ 0 := by omega
  have hle : 1 ≤ maxpps := by omega
  simp [allowed, hne, hle]

/-- A window that was just opened. -/
theorem sync_opened (t : Nat) : Sync ⟨t, ⟨tickCounter t, 1⟩, some ⟨t, 1⟩⟩ ⟨t, 1⟩ where
  opened := Nat.le_refl t
  lasttime := by dsimp only
  curpps := by dsimp only; rfl
  pos := Nat.le_refl 1
  small := by simp

/-- The first call opens a window and is allowed. -/
theorem call_first {hz : Nat} {maxpps : Int} (hpos : 0 < maxpps) {s s' : Limiter} {advance : Nat}
    (hw : s.window = none) (hp : s.pair = ⟨0, 0⟩) (h : call hz maxpps s advance = some s') :
    (∃ w, s'.window = some w ∧ Sync s' w) ∧ Right hz maxpps ⟨s, advance, s'⟩ := by
  have hr : resets hz s.pair (tickCounter (s.tick + advance)) = true := by
    rw [resets, hp]
    rfl
  obtain rfl := Option.some.inj h
  unfold Right
  simp only [ppsratecheck_reset hr, hw, windowAt_none]
  exact ⟨⟨_, rfl, sync_opened _⟩, allowed_first hpos _⟩

/-- A later call opens a window, or is counted in the one that is open. -/
theorem call_later {hz : Nat} {maxpps : Int} (hpos : 0 < maxpps) {s s' : Limiter} {advance : Nat} {w : Window}
    (hw : s.window = some w) (hsync : Sync s w) (hc : InStep hz maxpps w (s.tick + advance))
    (h : call hz maxpps s advance = some s') :
    (∃ w', s'.window = some w' ∧ Sync s' w') ∧ Right hz maxpps ⟨s, advance, s'⟩ := by
  have hresets := @resets_iff hz s w hsync (s.tick + advance) (Nat.le_add_right s.tick advance)
  obtain rfl := Option.some.inj h
  unfold Right InStep at *
  by_cases hopen : w.opened + hz ≤ s.tick + advance
  · -- the window is over: the pair resets
    rw [if_pos hopen] at hc
    simp only [ppsratecheck_reset (hresets.mpr hc), hw, windowAt_over hopen]
    exact ⟨⟨_, rfl, sync_opened _⟩, allowed_first hpos _⟩
  · -- the window goes on, and the wrapped distance is the distance
    rw [if_neg hopen] at hc
    obtain ⟨hzero, hsmall, hlimit⟩ := hc
    have hr := not_resets_within hsync (Nat.not_le.mp hopen) hzero
    have hinc := increment_curpps hsync hsmall
    simp only [ppsratecheck_count hr, hw, windowAt_within hopen, hinc]
    refine ⟨⟨_, rfl, Nat.le_trans hsync.opened (Nat.le_add_right _ _), hsync.lasttime, ?_,
      Nat.le_add_left 1 _, hsmall⟩, ?_⟩
    · show (w.calls : Int) + 1 = ((w.calls + 1 : Nat) : Int)
      omega
    · have hone := hsync.pos
      simp only [allowed]
      rcases hlimit with rfl | hlt
      · simp
        omega
      · simp [hlt]
        omega

theorem call_counted {hz : Nat} {maxpps : Int} {s s' : Limiter} {advance : Nat} (hs : Inv maxpps s)
    (hc : Counted hz maxpps s advance) (h : call hz maxpps s advance = some s') :
    Inv maxpps s' ∧ Right hz maxpps ⟨s, advance, s'⟩ := by
  unfold Inv Counted at *
  by_cases hneg : maxpps < 0
  · rw [if_pos hneg]
    exact ⟨trivial, right_of_neg hneg _⟩
  · rw [if_neg hneg] at hs hc ⊢
    by_cases hzero : maxpps = 0
    · subst hzero
      rw [if_pos rfl] at hs hc ⊢
      exact call_zero hs hc h
    · rw [if_neg hzero] at hs hc ⊢
      have hpos : 0 < maxpps := by omega
      rcases hs with ⟨hw, hp⟩ | ⟨w, hw, hsync⟩
      · obtain ⟨hsync, hright⟩ := call_first hpos hw hp h
        exact ⟨Or.inr hsync, hright⟩
      · obtain ⟨hsync, hright⟩ := call_later hpos hw hsync (hc w hw) h
        exact ⟨Or.inr hsync, hright⟩

/-! ## Runs -/

/-- **The rate limiter.** In a run whose calls are all counted as they should be, every call returns non-zero
exactly when it is one of the first `maxpps` of its window, or `maxpps` is negative. -/
theorem windows_allow_maxpps {hz : Nat} {maxpps : Int} {tick : Nat} {trs : List (Transition Limiter Nat)}
    {s : Limiter} (h : Run (call hz maxpps) (Limiter.init tick) trs s)
    (hC : ∀ tr ∈ trs, Counted hz maxpps tr.before tr.act) : ∀ tr ∈ trs, Right hz maxpps tr :=
  (h.guarded call_counted (inv_init maxpps tick) hC).2

/-- Two calls at tick 5 under the limit 3: both are counted, and both are allowed. -/
theorem windows_allow_maxpps_two_of_three :
    ∃ trs s, Run (call 100 3) (Limiter.init 5) trs s ∧ trs.length = 2 ∧ ∀ tr ∈ trs, Right 100 3 tr := by
  let s₁ : Limiter := ⟨5, ⟨5, 1⟩, some ⟨5, 1⟩⟩
  let s₂ : Limiter := ⟨5, ⟨5, 2⟩, some ⟨5, 2⟩⟩
  have hfive : tickCounter 5 = 5 := tickCounter_of_lt (by omega)
  have h₁ : call 100 3 (Limiter.init 5) 0 = some s₁ := by
    simp [call, ppsratecheck, resets, Limiter.init, windowAt, hfive, s₁]
  have h₂ : call 100 3 s₁ 0 = some s₂ := by
    simp [call, ppsratecheck, resets, increment, windowAt, hfive, s₁, s₂]
  have hrun : Run (call 100 3) (Limiter.init 5) [⟨Limiter.init 5, 0, s₁⟩, ⟨s₁, 0, s₂⟩] s₂ :=
    (Run.nil.snoc h₁).snoc h₂
  refine ⟨_, _, hrun, rfl, windows_allow_maxpps hrun ?_⟩
  simp [Counted, InStep, Limiter.init, s₁]

/-- The call that reaches the limit is refused: of a window in step, the one with number `maxpps`. -/
theorem last_allowed_call_refused {hz : Nat} {maxpps : Int} {s s' : Limiter} {advance : Nat} {w : Window}
    (hw : s.window = some w) (hsync : Sync s w) (hopen : s.tick + advance < w.opened + hz)
    (hzero : w.opened % 0x100000000 ≠ 0) (hlimit : (w.calls : Int) + 1 = maxpps) (hint : maxpps < 0x80000000) :
    ¬ Right hz maxpps ⟨s, advance, s'⟩ := by
  have hr := not_resets_within hsync hopen hzero
  have hinc : increment s.pair.curpps = maxpps := (increment_curpps hsync (by omega)).trans hlimit
  unfold Right
  simp only [ppsratecheck_count hr, hw, windowAt_within (Nat.not_le.mpr hopen), hinc]
  simp [allowed]
  omega

/-- Two calls at tick 5 under the limit 2: the second is refused. -/
theorem second_of_two_refused :
    ¬ ∀ (hz : Nat) (maxpps : Int) (tick : Nat) (trs : List (Transition Limiter Nat)) (s : Limiter),
      1 ≤ hz → 1 ≤ maxpps → Run (call hz maxpps) (Limiter.init tick) trs s →
        ∀ tr ∈ trs, Right hz maxpps tr := by
  intro h
  let s₁ : Limiter := ⟨5, ⟨5, 1⟩, some ⟨5, 1⟩⟩
  let s₂ : Limiter := ⟨5, ⟨5, 2⟩, some ⟨5, 2⟩⟩
  have hfive : tickCounter 5 = 5 := tickCounter_of_lt (by omega)
  have h₁ : call 100 2 (Limiter.init 5) 0 = some s₁ := by
    simp [call, ppsratecheck, resets, Limiter.init, windowAt, hfive, s₁]
  have h₂ : call 100 2 s₁ 0 = some s₂ := by
    simp [call, ppsratecheck, resets, increment, windowAt, hfive, s₁, s₂]
  have hright := h 100 2 5 _ s₂ (by omega) (by omega) ((Run.nil.snoc h₁).snoc h₂) ⟨s₁, 0, s₂⟩ (by simp)
  have hreturned : (ppsratecheck 100 2 s₁.pair (tickCounter 5)).2 = false := by
    simp [ppsratecheck, resets, increment, hfive, s₁]
  have hallowed : allowed 2 (windowAt 100 s₁.window 5) = true := rfl
  rw [Right] at hright
  exact absurd (hreturned.symm.trans (hright.trans hallowed)) Bool.false_ne_true

end LazyBsd.Ratecheck
