/-
# LazyBsd.Timeout.Firing — every callout is run exactly once, at its tick.

The log of a run is legal because every step keeps `WorldOk`. What remains is that `softclock` gets done:
it is never stuck, and `rank` decreases with each of its steps while the calls made by handlers do not
increase it. The number of callouts that are due in the bucket comes first: a handler may put the walk
back to the head of the list as often as it likes, but it cannot make anything due.
-/
import LazyBsd.Timeout.Preservation
import Mathlib.Data.List.Count
import Mathlib.Data.Prod.Lex

namespace LazyBsd.Timeout

open Lib

variable {ι φ α : Type*} [DecidableEq ι] {k : Nat}

/-! ## The due callouts of a bucket -/

/-- How many callouts of the bucket of `curticks` are due. -/
def dueCount (k : Nat) (curticks : BitVec 32) (cc : CalloutCpu ι φ α) : Nat :=
  (cc.ccCallwheel (calloutGetBucket k curticks)).countP fun c =>
    decide ((cc.callouts c).cTime = curticks)

section Due

variable {cc cc' : CalloutCpu ι φ α} {c : ι} {ct : BitVec 32}

/-- Off the callout that changes, the same callouts are due. -/
theorem countP_due_erase (h : CpuOk k cc) (b : Nat)
    (hothers : ∀ x, x ≠ c → cc'.callouts x = cc.callouts x) :
    (((cc.ccCallwheel b).erase c).countP fun x => decide ((cc'.callouts x).cTime = ct)) =
      ((cc.ccCallwheel b).erase c).countP fun x => decide ((cc.callouts x).cTime = ct) := by
  refine List.countP_congr fun x hx => ?_
  rw [hothers x ((h.wheel.nodup b).mem_erase_iff.mp hx).1]

theorem Removed.dueCount_le (h : CpuOk k cc) (hr : Removed c cc cc') :
    dueCount k ct cc' ≤ dueCount k ct cc := by
  rw [dueCount, hr.wheel, countP_due_erase h _ hr.others]
  exact List.erase_sublist.countP_le

/-- The callout that is called was due. -/
theorem Removed.dueCount_lt (h : CpuOk k cc) (hr : Removed c cc cc')
    (hc : c ∈ cc.ccCallwheel (calloutGetBucket k ct)) (hdue : (cc.callouts c).cTime = ct) :
    dueCount k ct cc' < dueCount k ct cc := by
  have hpos : 0 < dueCount k ct cc := List.countP_pos_iff.mpr ⟨c, hc, by simpa using hdue⟩
  have heq : dueCount k ct cc' = dueCount k ct cc - 1 := by
    rw [dueCount, hr.wheel, countP_due_erase h _ hr.others, List.countP_erase,
      if_pos ⟨hc, by simpa using hdue⟩]
    rfl
  omega

/-- A reset makes nothing due. -/
theorem Armed.dueCount_le {t : BitVec 32} {f : φ} {a : Option α} {direct : Bool} (h : CpuOk k cc)
    (ha : Armed k c t f a direct cc cc') (hct : ct + 1 = cc.ticks) :
    dueCount k ct cc' ≤ dueCount k ct cc := by
  have hle : (((cc.ccCallwheel (calloutGetBucket k ct)).erase c).countP fun x =>
      decide ((cc'.callouts x).cTime = ct)) ≤ dueCount k ct cc := by
    rw [countP_due_erase h _ ha.others]
    exact List.erase_sublist.countP_le
  rw [dueCount, ha.wheel]
  by_cases hb : calloutGetBucket k ct = calloutGetBucket k (cc.ticks + atLeastOne t)
  · have hnot : ¬ (cc'.callouts c).cTime = ct := by
      rw [ha.time]
      exact reset_ne_curticks hct t
    rw [← hb, Function.update_self, List.countP_cons_of_neg (by simpa using hnot)]
    exact hle
  · rw [Function.update_of_ne hb]
    exact hle

/-- Nor does the initialisation of a callout that is off the wheel. -/
theorem dueCount_init {r : Callout φ α} (hoff : ∀ b, c ∉ cc.ccCallwheel b) :
    dueCount k ct (cc.modify c fun _ => r) = dueCount k ct cc := by
  refine List.countP_congr fun x hx => ?_
  have hne : x ≠ c := by
    rintro rfl
    exact hoff _ hx
  rw [CalloutCpu.modify_of_ne _ hne]

end Due

/-! ## The measure -/

/-- What is left to do in a hardclock call: the stage of `softclock`, the callouts that are due in the
bucket, what is left of the call in progress, and the way to the end of the list. -/
def rank (k : Nat) (s : World ι φ α) : Nat ×ₗ Nat ×ₗ Nat ×ₗ Nat :=
  match s.phase with
  | .idle => toLex (0, toLex (0, toLex (0, 0)))
  | .outer =>
      if s.cc.ccSoftticks = s.cc.ticks then toLex (1, toLex (0, toLex (0, 0)))
      else toLex (3, toLex (0, toLex (0, 0)))
  | .walk ct cur =>
      toLex (2, toLex (dueCount k ct s.cc,
        toLex (0, distance (s.cc.ccCallwheel (calloutGetBucket k ct)) cur)))
  | .handler ct _ => toLex (2, toLex (dueCount k ct s.cc, toLex (2, 0)))
  | .drain ct _ => toLex (2, toLex (dueCount k ct s.cc, toLex (1, 0)))

theorem rank_lt_le {p : Prop} {r r' : Nat ×ₗ Nat ×ₗ Nat ×ₗ Nat} (h : r' < r) :
    r' ≤ r ∧ (p → r' < r) :=
  ⟨h.le, fun _ => h⟩

theorem lex_le {a b c d a' b' c' d' : Nat} :
    (toLex (a, toLex (b, toLex (c, d))) : Nat ×ₗ Nat ×ₗ Nat ×ₗ Nat) ≤
        toLex (a', toLex (b', toLex (c', d'))) ↔
      a < a' ∨ a = a' ∧ (b < b' ∨ b = b' ∧ (c < c' ∨ c = c' ∧ d ≤ d')) := by
  simp only [Prod.Lex.toLex_le_toLex]

theorem lex_lt {a b c d a' b' c' d' : Nat} :
    (toLex (a, toLex (b, toLex (c, d))) : Nat ×ₗ Nat ×ₗ Nat ×ₗ Nat) <
        toLex (a', toLex (b', toLex (c', d'))) ↔
      a < a' ∨ a = a' ∧ (b < b' ∨ b = b' ∧ (c < c' ∨ c = c' ∧ d < d')) := by
  simp only [Prod.Lex.toLex_lt_toLex]

/-- The call in progress has come further, and the callouts that are due are the same. -/
theorem lex_lt_of_stage {a b c d c' d' : Nat} (h : c < c') :
    (toLex (a, toLex (b, toLex (c, d))) : Nat ×ₗ Nat ×ₗ Nat ×ₗ Nat) <
      toLex (a, toLex (b, toLex (c', d'))) :=
  lex_lt.mpr (.inr ⟨rfl, .inr ⟨rfl, .inl h⟩⟩)

/-- A call of the interface does not increase the measure. -/
theorem rank_call_le {s : World ι φ α} {cc' : CalloutCpu ι φ α} {inited : ι → Bool}
    {log : List (Event ι φ α)} (h : WorldOk k s) (hout : s.phase.outside = true)
    (hdue : ∀ ct, ct + 1 = s.cc.ticks → dueCount k ct cc' ≤ dueCount k ct s.cc) :
    rank k { s with cc := cc', inited := inited, log := log } ≤ rank k s := by
  have hphase := h.phase
  unfold PhaseOk at hphase
  unfold rank
  cases hp : s.phase with
  | idle => exact le_rfl
  | outer =>
      rw [hp] at hout
      cases hout
  | walk ct cur =>
      rw [hp] at hout
      cases hout
  | handler ct fr =>
      simp only [hp] at hphase ⊢
      have hle := hdue ct hphase.1.next
      rw [lex_le]
      omega
  | drain ct fr =>
      simp only [hp] at hphase ⊢
      have hle := hdue ct hphase.1.next
      rw [lex_le]
      omega

/-- **Every step of `softclock` decreases the measure**, and no call of the interface increases it. -/
theorem rank_step {s s' : World ι φ α} {a : Action ι φ α} (h : WorldOk k s)
    (hs : step k s a = some s') (hbusy : s.phase ≠ .idle) :
    rank k s' ≤ rank k s ∧ (a.isCall = false → rank k s' < rank k s) := by
  have hphase := h.phase
  unfold PhaseOk at hphase
  cases step_cases h hs with
  | init hcall hout hoff hr _ =>
      refine ⟨rank_call_le h hout fun ct _ => (dueCount_init fun b hmem => ?_).le, fun hno => ?_⟩
      · exact Bool.false_ne_true
          ((h.cpu.offWheel_iff.mp hoff).symm.trans ((h.cpu.mem_iff _ b).mp hmem).1)
      · rw [hcall] at hno
        cases hno
  | reset hout _ hr =>
      exact ⟨rank_call_le h hout fun ct hct => hr.toArmed.dueCount_le h.cpu hct, nofun⟩
  | stop hout _ hstop =>
      exact ⟨rank_call_le h hout fun ct _ => hstop.toRemoved.dueCount_le h.cpu, nofun⟩
  | quietTick hp _ _ => exact absurd hp hbusy
  | tick hp _ => exact absurd hp hbusy
  -- the stages go down 3, 2, 1, 0; within a bucket every call takes a due callout off it
  | tock hp hsoft =>
      refine rank_lt_le ?_
      simp only [rank, hp, if_pos hsoft]
      rw [lex_lt]
      omega
  | bucket hp hsoft =>
      refine rank_lt_le ?_
      simp only [rank, hp, if_neg hsoft]
      rw [lex_lt]
      omega
  | bucketEnd hp =>
      -- the bucket of the last tick: `cc_softticks` has caught up
      simp only [hp] at hphase
      refine rank_lt_le ?_
      simp only [rank, hp, if_pos hphase.softticks]
      rw [lex_lt]
      omega
  | skip hp hdue =>
      simp only [hp] at hphase
      have hshort := Cursor.distance_listNext (h.cpu.wheel.nodup _) hphase.covers
      rw [← Covers.listNextLe_eq h.cpu hphase.covers] at hshort
      refine rank_lt_le ?_
      simp only [rank, hp]
      rw [lex_lt]
      omega
  | call hp hdue _ henter =>
      simp only [hp] at hphase
      have hfewer := henter.toRemoved.dueCount_lt h.cpu hphase.covers.mem hdue
      refine rank_lt_le ?_
      simp only [rank, hp]
      rw [lex_lt]
      omega
  -- a call in progress goes from its handler to the drain, and from there back to the walk
  | left hp _ =>
      refine rank_lt_le ?_
      simp only [rank, hp]
      exact lex_lt_of_stage (by omega)
  | drain hp _ =>
      refine rank_lt_le ?_
      simp only [rank, hp]
      exact lex_lt_of_stage (by omega)
  | drained hp =>
      refine rank_lt_le ?_
      simp only [rank, hp]
      exact lex_lt_of_stage (by omega)

/-! ## The clock -/

/-- The tick counter has counted the ticks of the log. -/
def ClockOk (ticks₀ : BitVec 32) (s : World ι φ α) : Prop :=
  s.cc.ticks = ticks₀ + BitVec.ofNat 32 (ticksIn s.log)

omit [DecidableEq ι] in
theorem ClockOk.of_silent {t₀ : BitVec 32} {s s' : World ι φ α} (h : ClockOk t₀ s)
    (hticks : s'.cc.ticks = s.cc.ticks) (hlog : ticksIn s'.log = ticksIn s.log) : ClockOk t₀ s' := by
  rw [ClockOk, hticks, hlog, h]

omit [DecidableEq ι] in
theorem ClockOk.of_tick {t₀ : BitVec 32} {s s' : World ι φ α} (h : ClockOk t₀ s)
    (hticks : s'.cc.ticks = s.cc.ticks + 1) (hlog : ticksIn s'.log = ticksIn s.log + 1) :
    ClockOk t₀ s' := by
  rw [ClockOk, hticks, hlog, h, BitVec.ofNat_add, BitVec.add_assoc]
  rfl

theorem ClockOk.step {t₀ : BitVec 32} {s s' : World ι φ α} {a : Action ι φ α} (hok : WorldOk k s)
    (h : ClockOk t₀ s) (hs : step k s a = some s') : ClockOk t₀ s' := by
  cases step_cases hok hs with
  | init _ _ _ _ _ => exact h.of_silent rfl (ticksIn_append _ _)
  | reset _ _ hr => exact h.of_silent hr.ticks (ticksIn_append _ _)
  | stop _ _ hstop => exact h.of_silent hstop.ticks (ticksIn_append _ _)
  | quietTick _ _ _ =>
      refine h.of_tick rfl ?_
      rw [ticksIn_append, ticksIn_append]
      rfl
  | tick _ _ => exact h.of_tick rfl (ticksIn_append _ _)
  | tock _ _ => exact h.of_silent rfl (ticksIn_append _ _)
  | bucket _ _ => exact h.of_silent rfl rfl
  | bucketEnd _ => exact h.of_silent rfl rfl
  | skip _ _ => exact h.of_silent rfl rfl
  | call _ _ _ henter => exact h.of_silent henter.ticks (ticksIn_append _ _)
  | left _ _ => exact h.of_silent rfl rfl
  | drain _ _ => exact h.of_silent rfl (ticksIn_append _ _)
  | drained _ => exact h.of_silent rfl rfl

/-! ## No step is stuck -/

/-- Every callout that the code may call can be returned from. -/
structure Returnable (s : World ι φ α) : Prop where
  inited : ∀ c, s.inited c = true → CanReturn (s.cc.callouts c).cLock (s.cc.callouts c).cIflags
  pending : ∀ c, (s.cc.callouts c).cIflags.pending = true → s.inited c = true
  frame : ∀ ct fr, s.phase = .handler ct fr → CanReturn fr.cLock fr.cIflags

omit [DecidableEq ι] in
theorem Returnable.fresh {s : World ι φ α} (h : Fresh s) : Returnable s where
  inited c hc := by
    rw [h.inited c] at hc
    cases hc
  pending c hc := by
    rw [h.zeroed c] at hc
    cases hc
  frame ct fr hp := by
    rw [h.phase] at hp
    cases hp

omit [DecidableEq ι] in
/-- A step that initialises nothing. -/
theorem Returnable.of_callouts {s s' : World ι φ α} (h : Returnable s)
    (hinited : s'.inited = s.inited)
    (hlock : ∀ c, (s'.cc.callouts c).cLock = (s.cc.callouts c).cLock ∧
      (s'.cc.callouts c).cIflags.returnUnlocked = (s.cc.callouts c).cIflags.returnUnlocked)
    (hpending : ∀ c, (s'.cc.callouts c).cIflags.pending = true → s.inited c = true)
    (hframe : ∀ ct fr, s'.phase = .handler ct fr → CanReturn fr.cLock fr.cIflags) :
    Returnable s' where
  inited c hc := by
    rw [hinited] at hc
    rw [CanReturn, (hlock c).1, (hlock c).2]
    exact h.inited c hc
  pending c hc := by
    rw [hinited]
    exact hpending c hc
  frame := hframe

omit [DecidableEq ι] in
/-- A step that leaves the callouts alone. -/
theorem Returnable.of_same {s s' : World ι φ α} (h : Returnable s) (hinited : s'.inited = s.inited)
    (hcallouts : s'.cc.callouts = s.cc.callouts)
    (hframe : ∀ ct fr, s'.phase = .handler ct fr → CanReturn fr.cLock fr.cIflags) :
    Returnable s' := by
  refine h.of_callouts hinited (fun c => ?_) (fun c hc => ?_) hframe
  · rw [hcallouts]
    exact ⟨rfl, rfl⟩
  · rw [hcallouts] at hc
    exact h.pending c hc

/-- A callout that only leaves the wheel is locked as before. -/
theorem Removed.lock_eq {cc cc' : CalloutCpu ι φ α} {c : ι} (hr : Removed c cc cc') (x : ι) :
    (cc'.callouts x).cLock = (cc.callouts x).cLock ∧
      (cc'.callouts x).cIflags.returnUnlocked = (cc.callouts x).cIflags.returnUnlocked := by
  by_cases hx : x = c
  · rw [hx, hr.lock, hr.iflags]
    exact ⟨rfl, rfl⟩
  · rw [hr.others x hx]
    exact ⟨rfl, rfl⟩

theorem Removed.pending {cc cc' : CalloutCpu ι φ α} {c x : ι} (hr : Removed c cc cc')
    (hx : (cc'.callouts x).cIflags.pending = true) : (cc.callouts x).cIflags.pending = true := by
  by_cases hxc : x = c
  · rw [hxc, hr.iflags] at hx
    cases hx
  · rwa [hr.others x hxc] at hx

theorem Returnable.step {s s' : World ι φ α} {a : Action ι φ α} (hok : WorldOk k s)
    (h : Returnable s) (ha : a.HasLock) (hs : step k s a = some s') : Returnable s' := by
  cases step_cases hok hs with
  -- the callout initialised is the only one that gets another lock
  | @init _ c r _ _ _ _ hlock =>
      have hinited (x : ι) (hx : x ≠ c) : Function.update s.inited c true x = s.inited x :=
        Function.update_of_ne hx ..
      exact
        { inited := fun x hx => by
            by_cases hxc : x = c
            · rw [hxc, CalloutCpu.modify_self]
              exact hlock ha
            · rw [CalloutCpu.modify_of_ne _ hxc]
              exact h.inited x ((hinited x hxc).symm.trans hx)
          pending := fun x hx => by
            by_cases hxc : x = c
            · exact hxc ▸ Function.update_self ..
            · rw [CalloutCpu.modify_of_ne _ hxc] at hx
              exact (hinited x hxc).trans (h.pending x hx)
          frame := h.frame }
  | @reset c t f arg direct cc' _ hinit hr =>
      refine h.of_callouts rfl (fun x => ?_) (fun x hx => ?_) h.frame
      · by_cases hxc : x = c
        · rw [hxc, hr.lock, hr.iflags]
          exact ⟨rfl, rfl⟩
        · rw [hr.others x hxc]
          exact ⟨rfl, rfl⟩
      · by_cases hxc : x = c
        · rwa [hxc]
        · rw [hr.others x hxc] at hx
          exact h.pending x hx
  | stop _ _ hstop =>
      exact h.of_callouts rfl hstop.toRemoved.lock_eq
        (fun x hx => h.pending x (hstop.toRemoved.pending hx)) h.frame
  | quietTick _ _ _ => exact h.of_same rfl rfl fun _ _ hp => by cases hp
  | tick _ _ => exact h.of_same rfl rfl fun _ _ hp => by cases hp
  | tock _ _ => exact h.of_same rfl rfl fun _ _ hp => by cases hp
  | bucket _ _ => exact h.of_same rfl rfl fun _ _ hp => by cases hp
  | bucketEnd _ => exact h.of_same rfl rfl fun _ _ hp => by cases hp
  | skip _ _ => exact h.of_same rfl rfl fun _ _ hp => by cases hp
  | @call ct c _ _ hp _ _ henter =>
      have hphase := hok.phase
      simp only [PhaseOk, hp] at hphase
      have hpending := ((hok.cpu.mem_iff c _).mp hphase.covers.mem).1
      refine h.of_callouts rfl henter.toRemoved.lock_eq
        (fun x hx => h.pending x (henter.toRemoved.pending hx)) fun ct' fr hfr => ?_
      obtain ⟨-, rfl⟩ := Phase.handler.inj hfr
      exact h.inited c (h.pending c hpending)
  | left _ _ => exact h.of_same rfl rfl fun _ _ hp => by cases hp
  | drain _ _ => exact h.of_same rfl rfl fun _ _ hp => by cases hp
  | drained _ => exact h.of_same rfl rfl fun _ _ hp => by cases hp

/-- Inside a hardclock call the next step of the code itself is always possible. -/
theorem WorldOk.progress {s : World ι φ α} (h : WorldOk k s) (hr : Returnable s)
    (hbusy : s.phase ≠ .idle) :
    ∃ a : Action ι φ α, a.isCall = false ∧ (Timeout.step k s a).isSome = true := by
  have hphase := h.phase
  unfold PhaseOk at hphase
  cases hp : s.phase with
  | idle => exact absurd hp hbusy
  | outer => exact ⟨.softclock, rfl, by simp [Timeout.step, hp]⟩
  | walk ct cur =>
      refine ⟨.softclock, rfl, ?_⟩
      simp only [Timeout.step, hp]
      cases cur with
      | none => rfl
      | some c =>
          simp only [hp] at hphase
          obtain ⟨q, -, hserves⟩ := h.request ((h.cpu.mem_iff c _).mp hphase.covers.mem).1
          unfold walkStep
          dsimp only
          rw [callStep_eq hserves.2.1]
          split_ifs <;> rfl
  | handler ct fr =>
      refine ⟨.ret, rfl, ?_⟩
      -- the frame was copied from an initialised callout, which has a lock or needs none
      have hcrash : ¬ (fr.cIflags.returnUnlocked = false ∧ fr.cLock = none) := by
        rintro ⟨hun, hlock⟩
        rcases hr.frame ct fr hp with hsome | hret
        · rw [hlock] at hsome
          cases hsome
        · exact Bool.false_ne_true (hun.symm.trans hret)
      simp only [Timeout.step, hp, returnStep, softclockCallCcReturn, if_neg hcrash]
      cases hdrain : (s.cc.ccExecEntity true).ccDrain <;> rfl
  | drain ct fr => exact ⟨.ret, rfl, by simp [Timeout.step, hp]⟩

/-! ## Every run -/

/-- If the handlers and the drain functions that it calls return, every hardclock call returns. -/
theorem WorldOk.hardclock_returns {run : Nat → World ι φ α} {acts : Nat → Action ι φ α}
    (h : WorldOk k (run 0)) (hrun : ∀ n, Timeout.step k (run n) (acts n) = some (run (n + 1)))
    (hreturn : ∀ n, ∃ m, n ≤ m ∧ (acts m).isCall = false) : ∃ n, (run n).phase = .idle := by
  have hok (n : Nat) : WorldOk k (run n) := by
    induction n with
    | zero => exact h
    | succ n ih => exact ih.step (hrun n)
  refine exists_done_of_measure (fun s => s.phase = .idle) (rank k)
    (fun n hbusy => (rank_step (hok n) (hrun n) hbusy).1) fun n => ?_
  obtain ⟨m, hnm, hm⟩ := hreturn n
  exact ⟨m, hnm, fun hbusy => (rank_step (hok m) (hrun m) hbusy).2 hm⟩

theorem ClockOk.run {s₀ s : World ι φ α} {ts : List (Transition (World ι φ α) (Action ι φ α))}
    (h₀ : Fresh s₀) (h : Run (Timeout.step k) s₀ ts s) : ClockOk s₀.cc.ticks s := by
  have hstart : ClockOk s₀.cc.ticks s₀ := by
    rw [ClockOk, h₀.log]
    exact (BitVec.add_zero _).symm
  exact (h.invariant (I := fun s => WorldOk k s ∧ ClockOk s₀.cc.ticks s)
    (fun hok hs => ⟨hok.1.step hs, hok.2.step hok.1 hs⟩) ⟨.fresh h₀, hstart⟩).2

theorem Returnable.run {s₀ s : World ι φ α} {ts : List (Transition (World ι φ α) (Action ι φ α))}
    (h₀ : Fresh s₀) (h : Run (Timeout.step k) s₀ ts s) (hlock : ∀ tr ∈ ts, tr.act.HasLock) :
    Returnable s := by
  induction h with
  | nil => exact .fresh h₀
  | snoc hrun ha ih =>
      simp only [List.forall_mem_append, List.forall_mem_singleton] at hlock
      exact (ih hlock.1).step (.run h₀ hrun) hlock.2 ha

/-- **Exact firing.** In every run from an empty wheel: what becomes of each reset and where each call
comes from, in ticks of the clock; `cc_softticks` catches up whenever a hardclock call has returned; and
with callouts that have a lock or need none, a hardclock call is never stuck and, whatever the handlers do
before they return, it returns. -/
theorem callouts_fire_exactly {s₀ s : World ι φ α}
    {ts : List (Transition (World ι φ α) (Action ι φ α))} (h₀ : Fresh s₀)
    (h : Run (Timeout.step k) s₀ ts s) :
    (∀ pre post c t f a, s.log = pre ++ .reset c t f a :: post →
      Outcome c t f a (delay t + 1) post ∧ (s.phase = .idle → Outcome c t f a (delay t) post)) ∧
    (∀ pre post c f a, s.log = pre ++ .call c f a :: post →
      ticking pre = true ∧ ∃ t p q, pre = p ++ .reset c t f a :: q ∧ Untouched c q ∧
        ticksIn q = delay t + 1) ∧
    s.cc.ticks = s₀.cc.ticks + BitVec.ofNat 32 (ticksIn s.log) ∧
    (s.phase = .idle → s.cc.ccSoftticks = s.cc.ticks) ∧
    ((∀ tr ∈ ts, tr.act.HasLock) → s.phase ≠ .idle →
      ∃ a : Action ι φ α, a.isCall = false ∧ (Timeout.step k s a).isSome = true) ∧
    ∀ (run : Nat → World ι φ α) (acts : Nat → Action ι φ α), run 0 = s →
      (∀ n, Timeout.step k (run n) (acts n) = some (run (n + 1))) →
      (∀ n, ∃ m, n ≤ m ∧ (acts m).isCall = false) → ∃ n, (run n).phase = .idle := by
  have hok : WorldOk k s := .run h₀ h
  have hidle (hp : s.phase = .idle) : s.cc.ccSoftticks = s.cc.ticks ∧ NoneDue s.log := by
    have hphase := hok.phase
    simpa only [PhaseOk, hp] using hphase
  refine ⟨?_, ?_, ClockOk.run h₀ h, fun hp => (hidle hp).1, ?_, ?_⟩
  · intro pre post c t f a hlog
    have hlegal := hlog ▸ hok.legal
    refine ⟨hlegal.outcome fun r hr ht => ?_, fun hp => hlegal.outcome fun r hr ht => ?_⟩
    · exact ht ▸ hlegal.age_le hr
    · exact ht ▸ (hidle hp).2 c r (hlog ▸ hr)
  · intro pre post c f a hlog
    exact (hlog ▸ hok.legal).origin
  · intro hlock hbusy
    exact hok.progress (.run h₀ h hlock) hbusy
  · rintro run acts rfl hrun hreturn
    exact hok.hardclock_returns hrun hreturn

/-- A callout that is reset for one tick, two ticks before the tick counter wraps, and that resets itself
when it is called. -/
def Sample.rearm : List (Action Nat Nat Nat) :=
  [.init 0 true, .reset 0 1 7 (some 5) false, .hardclock, .hardclock, .softclock, .softclock,
    .reset 0 0 7 (some 6) false, .ret, .softclock, .softclock]

theorem callouts_fire_exactly_rearm :
    ∃ r, exec (Timeout.step 2) (Sample.wheel 0xfffffffe) Sample.rearm = some r ∧
      (∀ pre post c t f a, r.2.log = pre ++ .reset c t f a :: post →
        Outcome c t f a (delay t + 1) post) ∧
      r.2.cc.ticks = 0 := by
  obtain ⟨r, hr⟩ := Option.isSome_iff_exists.mp (by decide :
    (exec (Timeout.step 2) (Sample.wheel 0xfffffffe) Sample.rearm).isSome = true)
  have hticks : (exec (Timeout.step 2) (Sample.wheel 0xfffffffe) Sample.rearm).map
      (fun r => ticksIn r.2.log) = some 2 := by decide
  rw [hr] at hticks
  obtain ⟨houtcome, -, hclock, -⟩ :=
    callouts_fire_exactly (Sample.fresh_wheel 0xfffffffe) (Run.of_exec hr)
  refine ⟨r, hr, fun pre post c t f a hlog => (houtcome pre post c t f a hlog).1, ?_⟩
  have htwo : ticksIn r.2.log = 2 := Option.some.inj hticks
  rw [hclock, htwo]
  decide

end LazyBsd.Timeout
