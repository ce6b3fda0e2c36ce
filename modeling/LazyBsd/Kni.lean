/-
# LazyBsd.Kni — the exchange of packets with the kernel interface.

Any process puts packets on the ring of a port; the primary process takes them off and hands them to the
kernel interface, and sends what the kernel interface has for the port. Both ways end with a burst call
that may take fewer packets than it is offered, and what it does not take is freed. The bursts are the
environment's: an action says how many packets a call takes and which ones it gives.
-/
import LazyBsd.Lib.Run
import Mathlib.Data.List.Count
import Mathlib.Logic.Function.Basic

namespace LazyBsd.Kni

open LazyBsd.Lib

/-! ## The state -/

def maxPktBurst : Nat := 32
def kniTypeKni : Int := 0
def kniTypeVirtio : Int := 1

/-- Is `LAZYBSD_KNI_KNI` defined, the value of `kni.type`, and the `ring_queue_size` of the rings. -/
structure Config where
  kniKni : Bool
  type : Int
  ringQueueSize : Nat

/-- The calls behind the two tests of `kni.type`; a type that is neither has none. -/
inductive Way
  | kni
  | virtio
  | none
deriving DecidableEq, Repr

def Config.way (cfg : Config) : Way :=
  if cfg.kniKni then
    if cfg.type = kniTypeKni then .kni
    else if cfg.type = kniTypeVirtio then .virtio
    else .none
  else .virtio

/-- `struct kni_interface_stats`. -/
structure Stats where
  rxPackets : UInt64
  rxDropped : UInt64
  txPackets : UInt64
  txDropped : UInt64
deriving DecidableEq, Repr

/-- What can happen to a packet of a port. -/
inductive Kind
  | enqueued
  | refused
  | toKernel
  | rxDropped
  | fromKernel
  | sent
  | txDropped
deriving DecidableEq, Repr

structure Event (Pkt : Type*) where
  kind : Kind
  pkt : Pkt
deriving DecidableEq, Repr

/-- `requests` counts the calls of `rte_kni_handle_request`. -/
structure PortState (Pkt : Type*) where
  ring : List Pkt
  stat : Stats
  requests : Nat
  log : List (Event Pkt)

/-- Where the primary process stands in `lazybsd_kni_process`, with `pkts_burst`. -/
inductive Phase (Port Pkt : Type*)
  | idle
  | toKernel (p : Port) (burst : List Pkt)
  | fromKernel (p : Port)
  | toPort (p : Port) (burst : List Pkt)

structure World (Port Pkt : Type*) where
  ports : Port → PortState Pkt
  phase : Phase Port Pkt

variable {Port Pkt : Type*}

def PortState.init : PortState Pkt := ⟨[], ⟨0, 0, 0, 0⟩, 0, []⟩

def World.init : World Port Pkt := ⟨fun _ => PortState.init, .idle⟩

/-- The same thing happens to packets one after the other. -/
def PortState.note (k : Kind) (ms : List Pkt) (s : PortState Pkt) : PortState Pkt :=
  { s with log := s.log ++ ms.map (Event.mk k) }

/-! ## The functions, on the state of one port -/

/-- `lazybsd_kni_enqueue`: the ring owns the packet, or it is freed. -/
def kniEnqueue (cfg : Config) (m : Pkt) (s : PortState Pkt) : PortState Pkt :=
  if s.ring.length < cfg.ringQueueSize - 1 then { s with ring := s.ring ++ [m] }.note .enqueued [m]
  else s.note .refused [m]

/-- `rte_ring_dequeue_burst` at the head of `kni_process_tx`. -/
def dequeueBurst (count : Nat) (s : PortState Pkt) : List Pkt × PortState Pkt :=
  (s.ring.take count, { s with ring := s.ring.drop count })

/-- The rest of `kni_process_tx`, where the call took `n` packets of the burst. -/
def kniProcessTx (cfg : Config) (burst : List Pkt) (n : Nat) (s : PortState Pkt) : PortState Pkt :=
  let s := s.note .toKernel (burst.take n)
  let s := if cfg.way = .kni then { s with requests := s.requests + 1 } else s
  let s := if n < burst.length then
      { s.note .rxDropped (burst.drop n) with
        stat.rxDropped := s.stat.rxDropped + UInt64.ofNat (burst.length - n) }
    else s
  { s with stat.rxPackets := s.stat.rxPackets + UInt64.ofNat n }

/-- `kni_process_rx`, where the kernel interface gave the burst and `n` packets of it were sent. -/
def kniProcessRx (burst : List Pkt) (n : Nat) (s : PortState Pkt) : PortState Pkt :=
  if 0 < burst.length then
    let s := s.note .sent (burst.take n)
    let s := if n < burst.length then
        { s.note .txDropped (burst.drop n) with
          stat.txDropped := s.stat.txDropped + UInt64.ofNat (burst.length - n) }
      else s
    { s with stat.txPackets := s.stat.txPackets + UInt64.ofNat n }
  else s

/-! ## Steps -/

/-- What happens next: a process enqueues, or the primary process goes on. `taken`, `given` and `sent` are
what the burst calls answer. -/
inductive Action (Port Pkt : Type*)
  | enqueue (p : Port) (m : Pkt)
  | process (p : Port)
  | taken (n : Nat)
  | given (burst : List Pkt)
  | sent (n : Nat)

variable [DecidableEq Port]

def World.setPort (p : Port) (ps : PortState Pkt) (s : World Port Pkt) : World Port Pkt :=
  { s with ports := Function.update s.ports p ps }

/-- One step. A burst call takes a first part of what it is offered and gives at most `MAX_PKT_BURST`
packets; without a call no packet is taken or given. -/
def step (cfg : Config) (s : World Port Pkt) : Action Port Pkt → Option (World Port Pkt)
  | .enqueue p m => some (s.setPort p (kniEnqueue cfg m (s.ports p)))
  | .process p =>
      match s.phase with
      | .idle =>
          let (burst, ps) := dequeueBurst maxPktBurst (s.ports p)
          some { s.setPort p ps with phase := .toKernel p burst }
      | _ => none
  | .taken n =>
      match s.phase with
      | .toKernel p burst =>
          if n ≤ burst.length ∧ (cfg.way = .none → n = 0) then
            some { s.setPort p (kniProcessTx cfg burst n (s.ports p)) with phase := .fromKernel p }
          else none
      | _ => none
  | .given burst =>
      match s.phase with
      | .fromKernel p =>
          if burst.length ≤ maxPktBurst ∧ (cfg.way = .none → burst = []) then
            some { s.setPort p ((s.ports p).note .fromKernel burst) with phase := .toPort p burst }
          else none
      | _ => none
  | .sent n =>
      match s.phase with
      | .toPort p burst =>
          if n ≤ burst.length then
            some { s.setPort p (kniProcessRx burst n (s.ports p)) with phase := .idle }
          else none
      | _ => none

/-! ## The ledger of a port -/

/-- The packets that one of the things `ks` happened to, in order. -/
def packets (ks : List Kind) (log : List (Event Pkt)) : List Pkt :=
  (log.filter (·.kind ∈ ks)).map Event.pkt

theorem packets_map (ks : List Kind) (k : Kind) (ms : List Pkt) :
    packets ks (ms.map (Event.mk k)) = if k ∈ ks then ms else [] := by
  induction ms with
  | nil => exact (ite_self []).symm
  | cons m ms ih =>
      rw [List.map_cons, packets, List.filter_cons]
      by_cases hk : k ∈ ks
      · rw [if_pos hk] at ih ⊢
        rw [if_pos (decide_eq_true hk), List.map_cons]
        exact congrArg _ ih
      · rw [if_neg hk] at ih ⊢
        rw [if_neg (by simpa using hk)]
        exact ih

section Note

variable (k : Kind) (ms : List Pkt) (s : PortState Pkt)

@[simp] theorem packets_note (ks : List Kind) :
    packets ks (s.note k ms).log = packets ks s.log ++ if k ∈ ks then ms else [] := by
  rw [← packets_map]
  show packets ks (s.log ++ ms.map (Event.mk k)) = _
  rw [packets, List.filter_append, List.map_append]
  rfl

@[simp] theorem note_ring : (s.note k ms).ring = s.ring := rfl

@[simp] theorem note_stat : (s.note k ms).stat = s.stat := rfl

end Note

/-- The packets of a port between the ring and the kernel interface. -/
def Phase.outward (p : Port) : Phase Port Pkt → List Pkt
  | .toKernel p' burst => if p = p' then burst else []
  | _ => []

/-- The packets of a port between the kernel interface and the port. -/
def Phase.inward (p : Port) : Phase Port Pkt → List Pkt
  | .toPort p' burst => if p = p' then burst else []
  | _ => []

/-- The counters that belong to a log. -/
def statOf (log : List (Event Pkt)) : Stats where
  rxPackets := UInt64.ofNat (packets [.toKernel] log).length
  rxDropped := UInt64.ofNat (packets [.rxDropped] log).length
  txPackets := UInt64.ofNat (packets [.sent] log).length
  txDropped := UInt64.ofNat (packets [.txDropped] log).length

/-- The books of a port: `ms` are the packets that `lazybsd_kni_enqueue` was given for it, `out` and `back`
those that the primary process has in its hands. -/
structure Ledger (cfg : Config) (ms out back : List Pkt) (s : PortState Pkt) : Prop where
  handed : packets [.enqueued, .refused] s.log = ms
  outward : packets [.enqueued] s.log = packets [.toKernel, .rxDropped] s.log ++ out ++ s.ring
  inward : packets [.fromKernel] s.log = packets [.sent, .txDropped] s.log ++ back
  stat : s.stat = statOf s.log
  bounded : s.ring.length ≤ cfg.ringQueueSize - 1
  nowhere : cfg.way = .none → packets [.toKernel] s.log = [] ∧ packets [.fromKernel] s.log = []

/-! ## What one function does to the books -/

section Functions

variable {cfg : Config} {ms out back burst : List Pkt} {s : PortState Pkt} {n : Nat}

theorem ledger_init : Ledger cfg [] [] [] (PortState.init : PortState Pkt) :=
  ⟨rfl, rfl, rfl, rfl, Nat.zero_le _, fun _ => ⟨rfl, rfl⟩⟩

theorem ledger_enqueue (h : Ledger cfg ms out back s) (m : Pkt) :
    Ledger cfg (ms ++ [m]) out back (kniEnqueue cfg m s) := by
  unfold kniEnqueue
  split
  · rename_i hroom
    constructor
    · simp [h.handed]
    · simp [h.outward]
    · simp [h.inward]
    · simp [h.stat, statOf]
    · simp only [note_ring, List.length_append, List.length_singleton]
      omega
    · simpa using h.nowhere
  · constructor
    · simp [h.handed]
    · simp [h.outward]
    · simp [h.inward]
    · simp [h.stat, statOf]
    · exact h.bounded
    · simpa using h.nowhere

/-- The packets of a burst are out of the ring and in the hands of the primary process. -/
theorem ledger_dequeue (h : Ledger cfg ms [] back s) (count : Nat) :
    Ledger cfg ms (dequeueBurst count s).1 back (dequeueBurst count s).2 := by
  have hsplit : s.ring.take count ++ s.ring.drop count = s.ring := List.take_append_drop ..
  constructor
  · exact h.handed
  · simp [dequeueBurst, h.outward, hsplit]
  · exact h.inward
  · exact h.stat
  · have hlen := h.bounded
    simp only [dequeueBurst, List.length_drop]
    omega
  · exact h.nowhere

/-- A loop over the packets that a call left does nothing if it left none. -/
theorem processTx_eq (cfg : Config) (s : PortState Pkt) (hn : n ≤ burst.length) :
    (kniProcessTx cfg burst n s).ring = s.ring ∧
      (kniProcessTx cfg burst n s).stat =
        { s.stat with
          rxPackets := s.stat.rxPackets + UInt64.ofNat n
          rxDropped := s.stat.rxDropped + UInt64.ofNat (burst.length - n) } ∧
      ∀ ks, packets ks (kniProcessTx cfg burst n s).log =
        packets ks s.log ++ (if .toKernel ∈ ks then burst.take n else []) ++
          if .rxDropped ∈ ks then burst.drop n else [] := by
  by_cases hless : n < burst.length
  · unfold kniProcessTx
    simp only [if_pos hless]
    split <;> exact ⟨rfl, rfl, fun ks => by simp⟩
  · obtain rfl : n = burst.length := by omega
    unfold kniProcessTx
    simp only [if_neg hless, List.drop_length, Nat.sub_self, ite_self, List.append_nil]
    split <;> exact ⟨rfl, by simp, fun ks => by simp⟩

theorem processRx_eq (hn : n ≤ burst.length) :
    (kniProcessRx burst n s).ring = s.ring ∧
      (kniProcessRx burst n s).stat =
        { s.stat with
          txPackets := s.stat.txPackets + UInt64.ofNat n
          txDropped := s.stat.txDropped + UInt64.ofNat (burst.length - n) } ∧
      ∀ ks, packets ks (kniProcessRx burst n s).log =
        packets ks s.log ++ (if .sent ∈ ks then burst.take n else []) ++
          if .txDropped ∈ ks then burst.drop n else [] := by
  unfold kniProcessRx
  split
  · by_cases hless : n < burst.length
    · simp only [if_pos hless]
      exact ⟨rfl, rfl, fun ks => by simp⟩
    · obtain rfl : n = burst.length := by omega
      simp only [if_neg hless, List.drop_length, Nat.sub_self, ite_self, List.append_nil]
      exact ⟨rfl, by simp, fun ks => by simp⟩
  · rename_i hnone
    obtain rfl : burst = [] := List.eq_nil_of_length_eq_zero (by omega)
    obtain rfl : n = 0 := Nat.le_zero.mp hn
    exact ⟨rfl, by simp, fun ks => by simp⟩

/-- **Every packet of the burst is delivered or dropped**, and counted so. -/
theorem ledger_processTx (h : Ledger cfg ms burst back s) (hn : n ≤ burst.length)
    (hway : cfg.way = .none → n = 0) :
    Ledger cfg ms [] back (kniProcessTx cfg burst n s) := by
  obtain ⟨hring, hstat, hlog⟩ := processTx_eq cfg s hn
  constructor
  · simp [hlog, h.handed]
  · simp [hlog, hring, h.outward]
  · simp [hlog, h.inward]
  · simp [hlog, hstat, statOf, h.stat, UInt64.ofNat_add, hn]
  · rw [hring]
    exact h.bounded
  · intro hnone
    obtain ⟨hto, hfrom⟩ := h.nowhere hnone
    rw [hlog, hlog, hto, hfrom, hway hnone]
    simp

theorem ledger_given (h : Ledger cfg ms out [] s) (hway : cfg.way = .none → burst = []) :
    Ledger cfg ms out burst (s.note .fromKernel burst) := by
  constructor
  · simp [h.handed]
  · simp [h.outward]
  · simp [h.inward]
  · simp [h.stat, statOf]
  · exact h.bounded
  · intro hnone
    obtain ⟨hto, hfrom⟩ := h.nowhere hnone
    simp [hto, hfrom, hway hnone]

theorem ledger_processRx (h : Ledger cfg ms out burst s) (hn : n ≤ burst.length) :
    Ledger cfg ms out [] (kniProcessRx burst n s) := by
  obtain ⟨hring, hstat, hlog⟩ := processRx_eq (s := s) hn
  constructor
  · simp [hlog, h.handed]
  · simp [hlog, hring, h.outward]
  · simp [hlog, h.inward]
  · simp [hlog, hstat, statOf, h.stat, UInt64.ofNat_add, hn]
  · rw [hring]
    exact h.bounded
  · simpa [hlog] using h.nowhere

end Functions

/-! ## What a step and a run do -/

section Runs

variable {cfg : Config} {s s' : World Port Pkt} {ps : PortState Pkt} {p : Port} {phase : Phase Port Pkt}
  {a : Action Port Pkt} {as : List (Action Port Pkt)}
  {ts : List (Transition (World Port Pkt) (Action Port Pkt))}

/-- The packet that an action gives to `lazybsd_kni_enqueue` for the port. -/
def Action.handed? (p : Port) : Action Port Pkt → Option Pkt
  | .enqueue p' m => if p' = p then some m else none
  | _ => none

/-- The books of all ports after the actions `as`. -/
def Inv (cfg : Config) (as : List (Action Port Pkt)) (s : World Port Pkt) : Prop :=
  ∀ p, Ledger cfg (as.filterMap (Action.handed? p)) (s.phase.outward p) (s.phase.inward p) (s.ports p)

theorem filterMap_snoc (p : Port) (as : List (Action Port Pkt)) (a : Action Port Pkt) :
    (as ++ [a]).filterMap (Action.handed? p) =
      as.filterMap (Action.handed? p) ++ (a.handed? p).toList := by
  rw [List.filterMap_append]
  cases h : a.handed? p with
  | none => rw [List.filterMap_cons_none h]; rfl
  | some m => rw [List.filterMap_cons_some h]; rfl

/-- Work on one port leaves the books of the others. -/
theorem Inv.setPort (h : Inv cfg as s)
    (hp : Ledger cfg ((as ++ [a]).filterMap (Action.handed? p)) (phase.outward p) (phase.inward p) ps)
    (hothers : ∀ p' ≠ p, a.handed? p' = none ∧ phase.outward p' = s.phase.outward p' ∧
      phase.inward p' = s.phase.inward p') :
    Inv cfg (as ++ [a]) { s.setPort p ps with phase := phase } := by
  intro p'
  show Ledger cfg _ (phase.outward p') (phase.inward p') (Function.update s.ports p ps p')
  by_cases heq : p' = p
  · subst heq
    rw [Function.update_self]
    exact hp
  · obtain ⟨hnone, hout, hin⟩ := hothers p' heq
    rw [filterMap_snoc, hnone, Option.toList_none, List.append_nil, Function.update_of_ne heq, hout, hin]
    exact h p'

/-- Only an enqueue gives a packet. -/
theorem Inv.at (h : Inv cfg as s) (p : Port) (ha : a.handed? p = none) :
    Ledger cfg ((as ++ [a]).filterMap (Action.handed? p)) (s.phase.outward p) (s.phase.inward p)
      (s.ports p) := by
  rw [filterMap_snoc, ha, Option.toList_none, List.append_nil]
  exact h p

/-- **Every step keeps the books.** -/
theorem inv_step (h : Inv cfg as s) (hstep : step cfg s a = some s') : Inv cfg (as ++ [a]) s' := by
  cases a with
  | enqueue p m =>
      obtain rfl := Option.some.inj hstep
      show Inv cfg _ { s.setPort p _ with phase := s.phase }
      refine h.setPort ?_ fun p' hne => ⟨if_neg hne.symm, rfl, rfl⟩
      rw [filterMap_snoc]
      simpa [Action.handed?] using ledger_enqueue (h p) m
  | process p =>
      simp only [step] at hstep
      split at hstep
      · rename_i hphase
        obtain rfl := Option.some.inj hstep
        have hp := h.at (a := .process p) p rfl
        simp only [hphase, Phase.outward, Phase.inward] at hp
        refine h.setPort ?_ fun p' hne => ?_
        · simpa [Phase.outward, Phase.inward] using ledger_dequeue hp maxPktBurst
        · simp [Phase.outward, Phase.inward, Action.handed?, hphase, hne]
      · exact absurd hstep.symm (Option.some_ne_none _)
  | taken n =>
      simp only [step] at hstep
      split at hstep
      · rename_i p burst hphase
        obtain ⟨⟨hn, hway⟩, hstep⟩ := Option.ite_none_right_eq_some.mp hstep
        obtain rfl := Option.some.inj hstep
        have hp := h.at (a := .taken n) p rfl
        simp only [hphase, Phase.outward, Phase.inward, if_true] at hp
        refine h.setPort (ledger_processTx hp hn hway) fun p' hne => ?_
        simp [Phase.outward, Phase.inward, Action.handed?, hphase, hne]
      · exact absurd hstep.symm (Option.some_ne_none _)
  | given burst =>
      simp only [step] at hstep
      split at hstep
      · rename_i p hphase
        obtain ⟨⟨-, hway⟩, hstep⟩ := Option.ite_none_right_eq_some.mp hstep
        obtain rfl := Option.some.inj hstep
        have hp := h.at (a := .given burst) p rfl
        simp only [hphase, Phase.outward, Phase.inward] at hp
        refine h.setPort ?_ fun p' hne => ?_
        · simpa [Phase.outward, Phase.inward] using ledger_given hp hway
        · simp [Phase.outward, Phase.inward, Action.handed?, hphase, hne]
      · exact absurd hstep.symm (Option.some_ne_none _)
  | sent n =>
      simp only [step] at hstep
      split at hstep
      · rename_i p burst hphase
        obtain ⟨hn, hstep⟩ := Option.ite_none_right_eq_some.mp hstep
        obtain rfl := Option.some.inj hstep
        have hp := h.at (a := .sent n) p rfl
        simp only [hphase, Phase.outward, Phase.inward, if_true] at hp
        refine h.setPort (ledger_processRx hp hn) fun p' hne => ?_
        simp [Phase.outward, Phase.inward, Action.handed?, hphase, hne]
      · exact absurd hstep.symm (Option.some_ne_none _)

theorem inv_run (h : Run (step cfg) World.init ts s) : Inv cfg (ts.map Transition.act) s := by
  induction h with
  | nil => exact fun p => ledger_init
  | snoc hrun hstep ih =>
      rw [List.map_append]
      exact inv_step ih hstep

/-- **No packet is lost or delivered twice, whatever the processes do in whatever order.** The packets
that were enqueued for a port are, in their order, those the kernel interface took or left, those in the
hands of the primary process and those on the ring; what is given to `lazybsd_kni_enqueue` is enqueued or
freed at once. What came from the kernel interface is, in its order, sent or dropped. The counters count
exactly this, and where `kni.type` is unknown nothing passes at all. -/
theorem kni_exchange (h : Run (step cfg) World.init ts s) (p : Port) :
    packets [.enqueued, .refused] (s.ports p).log =
        (ts.map Transition.act).filterMap (Action.handed? p) ∧
      packets [.enqueued] (s.ports p).log =
        packets [.toKernel, .rxDropped] (s.ports p).log ++ s.phase.outward p ++ (s.ports p).ring ∧
      packets [.fromKernel] (s.ports p).log =
        packets [.sent, .txDropped] (s.ports p).log ++ s.phase.inward p ∧
      (s.ports p).stat = statOf (s.ports p).log ∧
      (s.ports p).ring.length ≤ cfg.ringQueueSize - 1 ∧
      (cfg.way = .none →
        packets [.toKernel] (s.ports p).log = [] ∧ packets [.fromKernel] (s.ports p).log = []) := by
  have hp := inv_run h p
  exact ⟨hp.handed, hp.outward, hp.inward, hp.stat, hp.bounded, hp.nowhere⟩

end Runs

namespace Sample

/-- Rings of three packets, a virtio port. -/
def config : Config := ⟨false, 1, 4⟩

/-- The fourth packet for the port finds its ring full, the kernel interface leaves the third, and a
process enqueues while the primary process has the burst in its hands. -/
def acts : List (Action Bool Nat) :=
  [.enqueue false 1, .enqueue false 2, .enqueue true 3, .enqueue false 4, .enqueue false 5,
    .process false, .enqueue false 6, .taken 2, .given [7, 8], .sent 1]

end Sample

theorem kni_exchange_sample :
    ∃ r, exec (step Sample.config) World.init Sample.acts = some r ∧
      (r.2.ports false).stat = ⟨2, 1, 1, 1⟩ ∧ (r.2.ports false).ring = [6] ∧
      (r.2.ports false).stat = statOf (r.2.ports false).log := by
  obtain ⟨r, hr⟩ := Option.isSome_iff_exists.mp (by decide :
    (exec (step Sample.config) World.init Sample.acts).isSome = true)
  have hend : (exec (step Sample.config) World.init Sample.acts).map
      (fun r => ((r.2.ports false).stat, (r.2.ports false).ring)) = some (⟨2, 1, 1, 1⟩, [6]) := by
    decide
  rw [hr] at hend
  obtain ⟨hstat, hring⟩ := Prod.mk.inj (Option.some.inj hend)
  exact ⟨r, hr, hstat, hring, (kni_exchange (Run.of_exec hr) false).2.2.2.1⟩

end LazyBsd.Kni
