/-
# LazyBsd.Loop.Accounting — the time stamps of `main_loop` in `lazybsd_dpdk.cc`.

A clock is the sequence of its readings, which never decreases; the loop takes the next reading at each
`rte_rdtsc`. Every subtraction is logged with both its numbers, so that "no subtraction goes below zero" is a
statement about the log. What an iteration finds (the frames that wait, the packets of each queue, whether a
dispatcher is registered when a packet is handled) is its input.

The stamps of an iteration are nested: the calls of the dispatcher lie between the first stamp and `div_tsc`,
the user's function between `div_tsc` and `idle_sleep_tsc`, the sleep after that. So the shares never exceed
the whole, and the totals never exceed the last reading of the clock.
-/
import LazyBsd.Control.Handlers
import LazyBsd.Lib.Trace
import Mathlib.Algebra.GroupWithZero.Nat

namespace LazyBsd.Loop

open Lib Lib.Traced

/-! ## The loop -/

/-- The readings of `rte_rdtsc`. -/
structure Clock where
  read : Nat → UInt64
  mono : ∀ i j, i ≤ j → read i ≤ read j

/-- The two numbers of a subtraction. -/
structure Sub where
  minuend : UInt64
  subtrahend : UInt64

/-- A subtraction of 64-bit numbers. -/
def sub (a b : UInt64) : Traced Sub UInt64 := do
  emit ⟨a, b⟩
  return a - b

/-- How far the clock was read, and `usr_cb_tsc`. -/
structure Meter where
  reads : Nat
  usrCbTsc : UInt64

/-- `process_packets` with one packet, as far as the stamps go: the call of the dispatcher is timed. -/
def processPacket (clock : Clock) (pktsFromRing dispatcher : Bool) (m : Meter) : Traced Sub Meter :=
  if !pktsFromRing && dispatcher then do
    let curTsc := clock.read m.reads
    let elapsed ← sub (clock.read (m.reads + 1)) curTsc
    return { reads := m.reads + 2, usrCbTsc := m.usrCbTsc + elapsed }
  else return m

/-- The packets one after the other; for each, whether a dispatcher is registered. -/
def processPackets (clock : Clock) (pktsFromRing : Bool) : List Bool → Meter → Traced Sub Meter
  | [], m => return m
  | dispatcher :: packets, m => do
      let m ← processPacket clock pktsFromRing dispatcher m
      processPackets clock pktsFromRing packets m

/-- What one queue holds: the packets of its dispatch ring and those that were received. -/
structure RxQueue where
  ring : List Bool
  received : List Bool

/-- The loop over the queues: `idle` and the meter after it. -/
def rxLoop (clock : Clock) : List RxQueue → Bool → Meter → Traced Sub (Bool × Meter)
  | [], idle, m => return (idle, m)
  | q :: queues, idle, m => do
      let m ← processPackets clock true q.ring m
      let idle := idle && q.ring.isEmpty
      if q.received.isEmpty then rxLoop clock queues idle m
      else do
        let m ← processPackets clock false q.received m
        rxLoop clock queues false m

/-- What an iteration finds: the lengths of the transmit tables and the queues. -/
structure Turn where
  txLens : List Nat
  rxQueues : List RxQueue

/-- `drain_tsc`, `lr->loop != NULL` and `idle_sleep`. -/
structure LoopCfg where
  drainTsc : UInt64
  loop : Bool
  idleSleep : UInt32

/-- `lazybsd_top_status`, and what one iteration adds to it. -/
structure TopArgs where
  loops : UInt64
  idleTsc : UInt64
  workTsc : UInt64
  sysTsc : UInt64
  usrTsc : UInt64

/-- The variables of the loop between two iterations, and the readings so far. -/
structure LoopState where
  prevTsc : UInt64
  uschTsc : UInt64
  reads : Nat
  top : TopArgs

/-- The state in front of the loop. -/
def LoopState.init : LoopState := ⟨0, 0, 0, ⟨0, 0, 0, 0, 0⟩⟩

/-- The condition of the user's function; the stamps are compared only when the loop was idle. -/
def userDue (cfg : LoopCfg) (idle : Bool) (curTsc uschTsc : UInt64) : Traced Sub Bool :=
  if !cfg.loop then return false
  else if !idle then return true
  else do
    let elapsed ← sub curTsc uschTsc
    return elapsed ≥ cfg.drainTsc

/-- `usr_tsc`. -/
def usrShare (ran : Bool) (usrCbTsc idleSleepTsc divTsc : UInt64) : Traced Sub UInt64 :=
  if ran then do
    let elapsed ← sub idleSleepTsc divTsc
    return usrCbTsc + elapsed
  else return usrCbTsc

/-- `sys_tsc`. -/
def sysShare (idle : Bool) (usrCbTsc divTsc curTsc : UInt64) : Traced Sub UInt64 :=
  if idle then return 0
  else do
    let elapsed ← sub divTsc curTsc
    sub elapsed usrCbTsc

/-- `end_tsc - cur_tsc - usr_tsc - sys_tsc`. -/
def idleShare (endTsc curTsc usrTsc sysTsc : UInt64) : Traced Sub UInt64 := do
  let elapsed ← sub endTsc curTsc
  let elapsed ← sub elapsed usrTsc
  sub elapsed sysTsc

/-- One iteration of `main_loop`: the state after it and what it adds to the counters. -/
def mainLoopTurn (cfg : LoopCfg) (clock : Clock) (t : Turn) (s : LoopState) :
    Traced Sub (LoopState × TopArgs) := do
  let curTsc := clock.read s.reads
  let diffTsc ← sub curTsc s.prevTsc
  -- the drain: the loop is not idle if a frame waits
  let drained := diffTsc ≥ cfg.drainTsc
  let idle := !drained || t.txLens.all (· == 0)
  let prevTsc := if drained then curTsc else s.prevTsc
  let (idle, m) ← rxLoop clock t.rxQueues idle ⟨s.reads + 1, 0⟩
  let divTsc := clock.read m.reads
  let due ← userDue cfg idle curTsc s.uschTsc
  let uschTsc := if due then curTsc else s.uschTsc
  let idleSleepTsc := clock.read (m.reads + 1)
  let sleeps := idle && cfg.idleSleep != 0
  let endTsc := if sleeps then clock.read (m.reads + 2) else idleSleepTsc
  let usrTsc ← usrShare (uschTsc == curTsc) m.usrCbTsc idleSleepTsc divTsc
  let sysTsc ← sysShare idle m.usrCbTsc divTsc curTsc
  let workTsc ← sub endTsc curTsc
  let idleTsc ← idleShare endTsc curTsc usrTsc sysTsc
  let top := {
    loops := s.top.loops + 1
    idleTsc := s.top.idleTsc + idleTsc
    workTsc := s.top.workTsc + workTsc
    sysTsc := s.top.sysTsc + sysTsc
    usrTsc := s.top.usrTsc + usrTsc }
  return ({ prevTsc, uschTsc, reads := m.reads + if sleeps then 3 else 2, top },
    { loops := 1, idleTsc, workTsc, sysTsc, usrTsc })

/-- The first iterations of `main_loop`: the state after them and what each has added. -/
def mainLoop (cfg : LoopCfg) (clock : Clock) : List Turn → LoopState → Traced Sub (LoopState × List TopArgs)
  | [], s => return (s, [])
  | t :: turns, s => do
      let r ← mainLoopTurn cfg clock t s
      let rest ← mainLoop cfg clock turns r.1
      return (rest.1, r.2 :: rest.2)

/-! ## What the stamps mean -/

/-- The subtraction does not go below zero. -/
def InRange (e : Sub) : Prop := e.subtrahend ≤ e.minuend

/-- The equality of the counters. -/
def TopArgs.AddsUp (a : TopArgs) : Prop :=
  a.workTsc.toNat = a.idleTsc.toNat + a.sysTsc.toNat + a.usrTsc.toNat

/-- The four counters of ticks have grown from `a` to `a'` by the amounts, without a wrap. -/
structure TopArgs.Grown (a : TopArgs) (amounts : List TopArgs) (a' : TopArgs) : Prop where
  idle : a'.idleTsc.toNat = a.idleTsc.toNat + (amounts.map fun b => b.idleTsc.toNat).sum
  work : a'.workTsc.toNat = a.workTsc.toNat + (amounts.map fun b => b.workTsc.toNat).sum
  sys : a'.sysTsc.toNat = a.sysTsc.toNat + (amounts.map fun b => b.sysTsc.toNat).sum
  usr : a'.usrTsc.toNat = a.usrTsc.toNat + (amounts.map fun b => b.usrTsc.toNat).sum

/-- A number of ticks that every reading from the `k`-th on has reached. -/
def Clock.Reached (clock : Clock) (k n : Nat) : Prop := ∀ i, k ≤ i → n ≤ (clock.read i).toNat

/-! ## The pieces -/

theorem toNat_add_of_lt {a b : UInt64} (h : a.toNat + b.toNat < 2 ^ 64) :
    (a + b).toNat = a.toNat + b.toNat := by
  rw [UInt64.toNat_add, Nat.mod_eq_of_lt h]

theorem sub_meets {a b : UInt64} (h : b ≤ a) :
    (sub a b).Meets InRange fun d => d.toNat = a.toNat - b.toNat := by
  have hin : InRange ⟨a, b⟩ := h
  unfold sub
  refine (Meets.emit hin trivial).bind (Q := fun _ => True) fun _ _ => Meets.pure ?_
  exact UInt64.toNat_sub_of_le _ _ h

/-- **One packet.** What the dispatchers took since the stamp `c` fits between `c` and every later reading. -/
theorem processPacket_meets {clock : Clock} {c : Nat} {m : Meter} (fromRing dispatcher : Bool)
    (h : clock.Reached m.reads (c + m.usrCbTsc.toNat)) :
    (processPacket clock fromRing dispatcher m).Meets InRange fun m' =>
      clock.Reached m'.reads (c + m'.usrCbTsc.toNat) := by
  unfold processPacket
  split
  · have hle := clock.mono m.reads (m.reads + 1) (Nat.le_add_right _ 1)
    refine (sub_meets hle).bind fun d hd => Meets.pure ?_
    intro i hi
    have hnow := h m.reads (Nat.le_refl _)
    have hlast := UInt64.le_iff_toNat_le.mp (clock.mono (m.reads + 1) i (Nat.le_of_succ_le hi))
    have hbound := (clock.read (m.reads + 1)).toNat_lt
    rw [UInt64.le_iff_toNat_le] at hle
    show c + (m.usrCbTsc + d).toNat ≤ (clock.read i).toNat
    rw [toNat_add_of_lt (by omega)]
    omega
  · exact Meets.pure h

theorem processPackets_meets {clock : Clock} {c : Nat} {m : Meter} (fromRing : Bool) (packets : List Bool)
    (h : clock.Reached m.reads (c + m.usrCbTsc.toNat)) :
    (processPackets clock fromRing packets m).Meets InRange fun m' =>
      clock.Reached m'.reads (c + m'.usrCbTsc.toNat) := by
  induction packets generalizing m with
  | nil => exact Meets.pure h
  | cons dispatcher packets ih =>
      unfold processPackets
      exact (processPacket_meets fromRing dispatcher h).bind fun m' hm' => ih hm'

/-- The loop over the queues, by induction on them. -/
theorem rxLoop_meets {clock : Clock} {c : Nat} {m : Meter} (queues : List RxQueue) (idle : Bool)
    (h : clock.Reached m.reads (c + m.usrCbTsc.toNat)) :
    (rxLoop clock queues idle m).Meets InRange fun r =>
      clock.Reached r.2.reads (c + r.2.usrCbTsc.toNat) := by
  induction queues generalizing m idle with
  | nil => exact Meets.pure h
  | cons q queues ih =>
      unfold rxLoop
      refine (processPackets_meets true q.ring h).bind fun m₁ h₁ => ?_
      dsimp only
      split
      · exact ih _ h₁
      · exact (processPackets_meets false q.received h₁).bind fun m₂ h₂ => ih _ h₂

theorem userDue_meets (cfg : LoopCfg) (idle : Bool) {curTsc uschTsc : UInt64} (h : uschTsc ≤ curTsc) :
    (userDue cfg idle curTsc uschTsc).Meets InRange fun _ => True := by
  unfold userDue
  split
  · exact Meets.pure trivial
  · split
    · exact Meets.pure trivial
    · exact (sub_meets h).bind fun _ _ => Meets.pure trivial

theorem usrShare_meets (ran : Bool) {usrCbTsc idleSleepTsc divTsc : UInt64} (hle : divTsc ≤ idleSleepTsc)
    (hcb : usrCbTsc.toNat ≤ divTsc.toNat) :
    (usrShare ran usrCbTsc idleSleepTsc divTsc).Meets InRange fun usr =>
      usr.toNat = usrCbTsc.toNat + if ran then idleSleepTsc.toNat - divTsc.toNat else 0 := by
  unfold usrShare
  cases ran with
  | true =>
      refine (sub_meets hle).bind fun d hd => Meets.pure ?_
      have hbound := idleSleepTsc.toNat_lt
      rw [UInt64.le_iff_toNat_le] at hle
      rw [toNat_add_of_lt (by omega), hd]
      rfl
  | false => exact Meets.pure rfl

theorem sysShare_meets (idle : Bool) {usrCbTsc divTsc curTsc : UInt64}
    (h : curTsc.toNat + usrCbTsc.toNat ≤ divTsc.toNat) :
    (sysShare idle usrCbTsc divTsc curTsc).Meets InRange fun sys =>
      sys.toNat = if idle then 0 else divTsc.toNat - curTsc.toNat - usrCbTsc.toNat := by
  unfold sysShare
  cases idle with
  | true => exact Meets.pure rfl
  | false =>
      refine (sub_meets (UInt64.le_iff_toNat_le.mpr (by omega))).bind fun d hd => ?_
      refine (sub_meets (UInt64.le_iff_toNat_le.mpr (by omega))).imp fun sys hsys => ?_
      rw [hsys, hd]
      rfl

theorem idleShare_meets {endTsc curTsc usrTsc sysTsc : UInt64}
    (h : curTsc.toNat + usrTsc.toNat + sysTsc.toNat ≤ endTsc.toNat) :
    (idleShare endTsc curTsc usrTsc sysTsc).Meets InRange fun idle =>
      idle.toNat = endTsc.toNat - curTsc.toNat - usrTsc.toNat - sysTsc.toNat := by
  unfold idleShare
  refine (sub_meets (UInt64.le_iff_toNat_le.mpr (by omega))).bind fun d₁ h₁ => ?_
  refine (sub_meets (UInt64.le_iff_toNat_le.mpr (by omega))).bind fun d₂ h₂ => ?_
  refine (sub_meets (UInt64.le_iff_toNat_le.mpr (by omega))).imp fun idle hidle => ?_
  omega

/-! ## An iteration -/

/-- Between two iterations: the stamps that are kept are past, and the totals add up and are past. -/
structure Inv (clock : Clock) (s : LoopState) : Prop where
  prev : clock.Reached s.reads s.prevTsc.toNat
  usch : clock.Reached s.reads s.uschTsc.toNat
  total : s.top.AddsUp
  past : clock.Reached s.reads s.top.workTsc.toNat

theorem inv_init (clock : Clock) : Inv clock LoopState.init :=
  ⟨fun _ _ => Nat.zero_le _, fun _ _ => Nat.zero_le _, rfl, fun _ _ => Nat.zero_le _⟩

/-- The last stamp of an iteration: it is taken behind the others, and every later reading has reached it. -/
theorem lastStamp (clock : Clock) (k : Nat) (sleeps : Bool) :
    clock.read (k + 1) ≤ (if sleeps then clock.read (k + 2) else clock.read (k + 1)) ∧
      clock.Reached (k + if sleeps then 3 else 2)
        (if sleeps then clock.read (k + 2) else clock.read (k + 1)).toNat := by
  cases sleeps with
  | true =>
      refine ⟨clock.mono _ _ (Nat.le_add_right _ 1), fun i hi => ?_⟩
      exact UInt64.le_iff_toNat_le.mp (clock.mono (k + 2) i (Nat.le_of_succ_le hi))
  | false =>
      refine ⟨UInt64.le_refl _, fun i hi => ?_⟩
      exact UInt64.le_iff_toNat_le.mp (clock.mono (k + 1) i (Nat.le_of_succ_le hi))

/-- The shares of an iteration add up to the whole. -/
theorem amounts_addUp {cur cb div sleep stop usr sys : Nat} (idle ran : Bool) (hcb : cur + cb ≤ div)
    (hsleep : div ≤ sleep) (hstop : sleep ≤ stop) (husr : usr = cb + if ran then sleep - div else 0)
    (hsys : sys = if idle then 0 else div - cur - cb) : cur + usr + sys ≤ stop := by
  cases idle <;> cases ran <;> simp at husr hsys <;> omega

/-- What an iteration adds to totals that add up and are past keeps them so. -/
theorem totals_addUp {clock : Clock} {s : LoopState} {a : TopArgs} {cur stop : UInt64} {k : Nat}
    (h : Inv clock s) (hcur : clock.read s.reads = cur) (hstop : clock.Reached k stop.toNat)
    (hwork : a.workTsc.toNat = stop.toNat - cur.toNat) (hle : cur.toNat ≤ stop.toNat) (ha : a.AddsUp) :
    (TopArgs.AddsUp ⟨s.top.loops + 1, s.top.idleTsc + a.idleTsc, s.top.workTsc + a.workTsc,
        s.top.sysTsc + a.sysTsc, s.top.usrTsc + a.usrTsc⟩) ∧
      clock.Reached k (s.top.workTsc + a.workTsc).toNat ∧
      s.top.Grown [a] ⟨s.top.loops + 1, s.top.idleTsc + a.idleTsc, s.top.workTsc + a.workTsc,
        s.top.sysTsc + a.sysTsc, s.top.usrTsc + a.usrTsc⟩ := by
  have hpast := h.past s.reads (Nat.le_refl _)
  have htotal := h.total
  have hbound := stop.toNat_lt
  rw [hcur] at hpast
  unfold TopArgs.AddsUp at *
  -- the total is at most the last stamp, so no counter wraps
  have hadd : (s.top.workTsc + a.workTsc).toNat = s.top.workTsc.toNat + a.workTsc.toNat :=
    toNat_add_of_lt (by omega)
  have hidle : (s.top.idleTsc + a.idleTsc).toNat = s.top.idleTsc.toNat + a.idleTsc.toNat :=
    toNat_add_of_lt (by omega)
  have hsys : (s.top.sysTsc + a.sysTsc).toNat = s.top.sysTsc.toNat + a.sysTsc.toNat :=
    toNat_add_of_lt (by omega)
  have husr : (s.top.usrTsc + a.usrTsc).toNat = s.top.usrTsc.toNat + a.usrTsc.toNat :=
    toNat_add_of_lt (by omega)
  refine ⟨?_, fun i hi => ?_, ⟨hidle, hadd, hsys, husr⟩⟩
  · rw [hadd, hidle, hsys, husr]
    omega
  · have hlast := hstop i hi
    omega

/-- **One iteration.** No subtraction goes below zero, the amounts add up, and so do the totals after it. -/
theorem mainLoopTurn_meets {clock : Clock} {s : LoopState} (cfg : LoopCfg) (t : Turn) (h : Inv clock s) :
    (mainLoopTurn cfg clock t s).Meets InRange fun r =>
      Inv clock r.1 ∧ r.2.AddsUp ∧ s.top.Grown [r.2] r.1.top := by
  have hcur : clock.Reached (s.reads + 1) ((clock.read s.reads).toNat + (0 : UInt64).toNat) := fun i hi =>
    UInt64.le_iff_toNat_le.mp (clock.mono s.reads i (Nat.le_of_succ_le hi))
  have hprev : s.prevTsc ≤ clock.read s.reads := UInt64.le_iff_toNat_le.mpr (h.prev _ (Nat.le_refl _))
  have husch : s.uschTsc ≤ clock.read s.reads := UInt64.le_iff_toNat_le.mpr (h.usch _ (Nat.le_refl _))
  unfold mainLoopTurn
  refine (sub_meets hprev).bind fun diff _ => ?_
  refine (rxLoop_meets t.rxQueues _ hcur).bind ?_
  rintro ⟨idle, m⟩ hm
  refine (userDue_meets cfg idle husch).bind fun due _ => ?_
  -- the stamps after the packets, in the order in which they are taken
  have hdiv : (clock.read s.reads).toNat + m.usrCbTsc.toNat ≤ (clock.read m.reads).toNat :=
    hm m.reads (Nat.le_refl _)
  have hsleep : clock.read m.reads ≤ clock.read (m.reads + 1) := clock.mono _ _ (Nat.le_add_right _ 1)
  obtain ⟨hend, hlast⟩ := lastStamp clock m.reads (idle && cfg.idleSleep != 0)
  dsimp only
  generalize (if (idle && cfg.idleSleep != 0) = true then clock.read (m.reads + 2)
    else clock.read (m.reads + 1)) = endTsc at hend hlast ⊢
  rw [UInt64.le_iff_toNat_le] at hend
  have hsleep' := UInt64.le_iff_toNat_le.mp hsleep
  refine (usrShare_meets _ hsleep (by omega)).bind fun usr husr => ?_
  refine (sysShare_meets idle hdiv).bind fun sys hsys => ?_
  have hwhole := amounts_addUp idle _ hdiv hsleep' hend husr hsys
  refine (sub_meets (UInt64.le_iff_toNat_le.mpr (by omega))).bind fun work hwork => ?_
  refine (idleShare_meets hwhole).bind fun idleTsc hidle => Meets.pure ?_
  have hadds : TopArgs.AddsUp ⟨1, idleTsc, work, sys, usr⟩ := by
    show work.toNat = idleTsc.toNat + sys.toNat + usr.toNat
    omega
  obtain ⟨htotal, hpast, hgrown⟩ := totals_addUp h rfl hlast hwork (by omega) hadds
  -- the stamps that are kept are no later than the first one of the iteration
  have hkept : ∀ (p : Prop) [Decidable p] (v : UInt64), v ≤ clock.read s.reads →
      clock.Reached (m.reads + if (idle && cfg.idleSleep != 0) = true then 3 else 2)
        (if p then clock.read s.reads else v).toNat := by
    intro p _ v hv i hi
    have hi' := hlast i hi
    rw [UInt64.le_iff_toNat_le] at hv
    split <;> omega
  exact ⟨⟨hkept _ _ hprev, hkept _ _ husch, htotal, hpast⟩, hadds, hgrown⟩

/-! ## Runs -/

theorem TopArgs.Grown.cons {a b a' a'' : TopArgs} {amounts : List TopArgs} (h : a.Grown [b] a')
    (h' : a'.Grown amounts a'') : a.Grown (b :: amounts) a'' where
  idle := by rw [h'.idle, h.idle, Nat.add_assoc]; rfl
  work := by rw [h'.work, h.work, Nat.add_assoc]; rfl
  sys := by rw [h'.sys, h.sys, Nat.add_assoc]; rfl
  usr := by rw [h'.usr, h.usr, Nat.add_assoc]; rfl

/-- The iterations one after the other, by induction on them. -/
theorem mainLoop_meets {clock : Clock} {s : LoopState} (cfg : LoopCfg) (turns : List Turn) (h : Inv clock s) :
    (mainLoop cfg clock turns s).Meets InRange fun r =>
      Inv clock r.1 ∧ r.2.length = turns.length ∧ (∀ a ∈ r.2, a.AddsUp) ∧ s.top.Grown r.2 r.1.top := by
  induction turns generalizing s with
  | nil => exact Meets.pure ⟨h, rfl, by simp, rfl, rfl, rfl, rfl⟩
  | cons t turns ih =>
      unfold mainLoop
      refine (mainLoopTurn_meets cfg t h).bind fun r hr => ?_
      refine (ih hr.1).bind fun rest hrest => Meets.pure ?_
      obtain ⟨hinv, hlen, hall, hgrown⟩ := hrest
      exact ⟨hinv, by rw [List.length_cons, List.length_cons, hlen],
        List.forall_mem_cons.mpr ⟨hr.2.1, hall⟩, hr.2.2.cons hgrown⟩

/-! ## The report -/

/-- A counter as two words of the message. -/
def words (v : UInt64) : Nat → UInt32
  | 0 => v.toUInt32
  | _ => (v >>> 32).toUInt32

/-- `lazybsd_top_status` as the words of the union of arguments. -/
def TopArgs.args (a : TopArgs) : Control.Args := fun i =>
  match i / 2 with
  | 0 => words a.loops (i % 2)
  | 1 => words a.idleTsc (i % 2)
  | 2 => words a.workTsc (i % 2)
  | 3 => words a.sysTsc (i % 2)
  | _ => words a.usrTsc (i % 2)

/-- A counter read from two words. -/
def counter (args : Control.Args) (i : Nat) : UInt64 :=
  (args (2 * i)).toUInt64 ||| ((args (2 * i + 1)).toUInt64 <<< 32)

/-- The counters that the sender of a top message reads. -/
def reported (msg : Control.Msg) : TopArgs :=
  ⟨counter msg.args 0, counter msg.args 1, counter msg.args 2, counter msg.args 3, counter msg.args 4⟩

theorem counter_words (v : UInt64) : v.toUInt32.toUInt64 ||| ((v >>> 32).toUInt32.toUInt64 <<< 32) = v := by
  apply UInt64.toNat_inj.mp
  have hv := v.toNat_lt
  have hhigh : v.toNat / 2 ^ 32 < 2 ^ 32 := by omega
  have hshift : v.toNat / 2 ^ 32 * 2 ^ 32 < 2 ^ 64 := by omega
  rw [UInt64.toNat_or, UInt64.toNat_shiftLeft]
  simp only [UInt32.toNat_toUInt64, UInt64.toNat_toUInt32, UInt64.toNat_shiftRight]
  show v.toNat % 2 ^ 32 ||| ((v.toNat >>> 32) % 2 ^ 32) <<< 32 % 2 ^ 64 = v.toNat
  rw [Nat.shiftRight_eq_div_pow, Nat.mod_eq_of_lt hhigh, Nat.shiftLeft_eq, Nat.mod_eq_of_lt hshift,
    Nat.or_comm, Nat.mul_comm, ← Nat.two_pow_add_eq_or_of_lt (Nat.mod_lt _ (Nat.two_pow_pos 32))]
  omega

/-- `handle_top_msg` reports the totals as they are. -/
theorem reported_handleTopMsg (msg : Control.Msg) (p : Control.Proc) (a : TopArgs) :
    reported (Control.handleTopMsg msg { p with topStatus := a.args }).1 = a := by
  have hcounter : ∀ (args : Control.Args) (i : Nat) (v : UInt64),
      args (2 * i) = words v 0 → args (2 * i + 1) = words v 1 → counter args i = v := by
    intro args i v h₀ h₁
    rw [counter, h₀, h₁]
    exact counter_words v
  unfold reported Control.handleTopMsg
  cases a
  congr 1 <;> exact hcounter _ _ _ rfl rfl

/-- **Time accounting.** In any number of iterations no subtraction goes below zero; every iteration comes to
its end and adds amounts with `work_tsc = idle_tsc + sys_tsc + usr_tsc`; the totals are the sums of these
amounts; and those that a top message reports after them satisfy the same equality. -/
theorem loop_time_adds_up (cfg : LoopCfg) (clock : Clock) (turns : List Turn) :
    (mainLoop cfg clock turns .init).All InRange ∧
      ∃ s amounts, (mainLoop cfg clock turns .init).res = some (s, amounts) ∧
        amounts.length = turns.length ∧ (∀ a ∈ amounts, a.AddsUp) ∧
        LoopState.init.top.Grown amounts s.top ∧
        ∀ (msg : Control.Msg) (p : Control.Proc),
          (reported (Control.handleTopMsg msg { p with topStatus := s.top.args }).1).AddsUp := by
  obtain ⟨hall, ⟨s, amounts⟩, hres, hinv, hlen, hadds, hgrown⟩ :=
    mainLoop_meets cfg turns (inv_init clock)
  refine ⟨hall, s, amounts, hres, hlen, hadds, hgrown, fun msg p => ?_⟩
  rw [reported_handleTopMsg]
  exact hinv.total

namespace Sample

/-- A hundred ticks from one reading to the next, up to a bound. -/
def clock : Clock where
  read i := UInt64.ofNat (min (100 * i) 100000)
  mono i j h := by
    rw [UInt64.le_iff_toNat_le, UInt64.toNat_ofNat', UInt64.toNat_ofNat', Nat.mod_eq_of_lt (by omega),
      Nat.mod_eq_of_lt (by omega)]
    omega

/-- With a user function, which is due every 500 ticks at least, and a sleep when the loop is idle. -/
def loopCfg : LoopCfg := ⟨500, true, 20⟩

/-- A packet for the dispatcher and one from the ring; nothing; a frame that waits. -/
def turns : List Turn := [⟨[0], [⟨[true], [true]⟩]⟩, ⟨[0], [⟨[], []⟩]⟩, ⟨[3], [⟨[], []⟩]⟩]

end Sample

/-- Three iterations of 400, 300 and 300 ticks: of the thousand the loop was idle in 500, and 300 are the
user's. -/
theorem loop_time_adds_up_three :
    ∃ s amounts, (mainLoop Sample.loopCfg Sample.clock Sample.turns .init).res = some (s, amounts) ∧
      amounts.map (fun a => a.workTsc.toNat) = [400, 300, 300] ∧
      s.top.workTsc.toNat = 1000 ∧ s.top.idleTsc.toNat = 500 ∧ s.top.sysTsc.toNat = 200 ∧
      s.top.usrTsc.toNat = 300 := by
  obtain ⟨-, s, amounts, hres, -, -, hgrown, -⟩ :=
    loop_time_adds_up Sample.loopCfg Sample.clock Sample.turns
  have hshares : (mainLoop Sample.loopCfg Sample.clock Sample.turns .init).res.map
      (fun r => (r.2.map (fun a => a.workTsc.toNat), r.2.map (fun a => a.idleTsc.toNat),
        r.2.map (fun a => a.sysTsc.toNat), r.2.map fun a => a.usrTsc.toNat)) =
        some ([400, 300, 300], [0, 200, 300], [200, 0, 0], [200, 100, 0]) := by
    decide +kernel
  rw [hres] at hshares
  obtain ⟨hwork, hidle, hsys, husr⟩ : amounts.map (fun a => a.workTsc.toNat) = [400, 300, 300] ∧
      amounts.map (fun a => a.idleTsc.toNat) = [0, 200, 300] ∧
      amounts.map (fun a => a.sysTsc.toNat) = [200, 0, 0] ∧
      amounts.map (fun a => a.usrTsc.toNat) = [200, 100, 0] := by
    simpa using hshares
  refine ⟨s, amounts, hres, hwork, ?_, ?_, ?_, ?_⟩
  · rw [hgrown.work, hwork]
    rfl
  · rw [hgrown.idle, hidle]
    rfl
  · rw [hgrown.sys, hsys]
    rfl
  · rw [hgrown.usr, husr]
    rfl

end LazyBsd.Loop
