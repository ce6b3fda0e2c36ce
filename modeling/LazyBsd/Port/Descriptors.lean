/-
# LazyBsd.Port.Descriptors — the descriptor counts of the rings.

`init_port_start` keeps the two counts in static variables. For each port it lets DPDK adjust them in
place to the limits of that port, and sets up the port's queues with the result: so a port starts from
what the port before it left, and not from `RX_QUEUE_SIZE` and `TX_QUEUE_SIZE`. The loops over ports and
slaves are one run, port after port, to which the carry rule applies.
-/
import LazyBsd.Lib.Run
import LazyBsd.Port.Start

namespace LazyBsd.Port

open Lib

/-! ## The loops as a run -/

/-- One turn of the inner loop. -/
structure Turn where
  hasConf : Bool
  nbQueues : UInt16
  uPort : UInt16
  port : UInt16
  deriving DecidableEq, Repr

/-- All turns: under each port of the configuration its slaves and itself, then the kernel ports. -/
def turns (cfg : DpdkCfg) : List Turn :=
  (cfg.portidList.flatMap fun u =>
    (portsUnder cfg u).map fun p => ⟨true, (cfg.portCfgs u).nbLcores, u, p⟩) ++
  (kniPorts cfg).map fun p => ⟨false, 1, p, p⟩

def turnStep (cfg : DpdkCfg) (dev : EthDev) (s : PortState) (t : Turn) : Option PortState :=
  (initPort cfg dev t.hasConf t.nbQueues t.uPort t.port s).toOption

/-- The counts of `port`, for receive and for transmit: `RX_QUEUE_SIZE` and `TX_QUEUE_SIZE` adjusted to
its limits. -/
def ownCounts (dev : EthDev) (port : UInt16) : UInt16 × UInt16 :=
  dev.adjustNbDesc port PortState.init.nbDesc

/-- The two runs set up the queues of each port with the counts of that port. The counts of a turn are
those it leaves (`initPort_setup`), also where there is no queue to set up. -/
def SameCounts (dev : EthDev) (ts₁ ts₂ : List (Transition PortState Turn)) : Prop :=
  ∀ tr₁ ∈ ts₁, ∀ tr₂ ∈ ts₂, tr₁.act.port = tr₂.act.port →
    tr₁.after.nbDesc = ownCounts dev tr₁.act.port ∧ tr₂.after.nbDesc = ownCounts dev tr₁.act.port

/-- No port adjusts the counts of the port listed right before it to anything else than its own. -/
def NeighboursAgree (cfg : DpdkCfg) (dev : EthDev) : Prop :=
  ((turns cfg).map Turn.port).IsChain fun a b => dev.adjustNbDesc b (ownCounts dev a) = ownCounts dev b

instance (cfg : DpdkCfg) (dev : EthDev) : Decidable (NeighboursAgree cfg dev) :=
  inferInstanceAs (Decidable (List.IsChain _ _))

section Turns

variable {cfg : DpdkCfg} {dev : EthDev} {s s' : PortState}

/-- A loop whose turns are runs is a run. -/
theorem initAll_run {turn : UInt16 → PortState → Except Stop PortState} {g : UInt16 → List Turn}
    {ps : List UInt16}
    (hturn : ∀ p s s', turn p s = .ok s' →
      ∃ ts, Run (turnStep cfg dev) s ts s' ∧ ts.map Transition.act = g p)
    (h : initAll turn ps s = .ok s') :
    ∃ ts, Run (turnStep cfg dev) s ts s' ∧ ts.map Transition.act = ps.flatMap g := by
  induction ps generalizing s with
  | nil =>
      obtain rfl := Except.ok.inj h
      exact ⟨[], .nil, rfl⟩
  | cons p ps ih =>
      rw [initAll] at h
      cases hp : turn p s with
      | error e => simp [hp] at h
      | ok s₁ =>
          simp only [hp] at h
          obtain ⟨ts, hfirst, hacts⟩ := hturn p s s₁ hp
          obtain ⟨ts', hrest, hacts'⟩ := ih h
          refine ⟨ts ++ ts', hfirst.append hrest, ?_⟩
          rw [List.map_append, hacts, hacts', List.flatMap_cons]

theorem initPort_run {t : Turn} (h : initPort cfg dev t.hasConf t.nbQueues t.uPort t.port s = .ok s') :
    ∃ ts, Run (turnStep cfg dev) s ts s' ∧ ts.map Transition.act = [t] := by
  have hstep : turnStep cfg dev s t = some s' := by
    rw [turnStep, h]
    rfl
  exact ⟨_, .snoc .nil hstep, rfl⟩

/-- `init_port_start` is the run of its turns. -/
theorem initPortStart_run (h : initPortStart cfg dev s = .ok s') :
    ∃ ts, Run (turnStep cfg dev) s ts s' ∧ ts.map Transition.act = turns cfg := by
  obtain ⟨s₁, hconf, hkniPorts⟩ := initPortStart_inv h
  obtain ⟨ts, hports, hacts⟩ := initAll_run (g := fun u =>
    (portsUnder cfg u).map fun p => ⟨true, (cfg.portCfgs u).nbLcores, u, p⟩) (by
      intro u s s' hu
      obtain ⟨ts, hrun, hacts⟩ := initAll_run (g := fun p =>
        [⟨true, (cfg.portCfgs u).nbLcores, u, p⟩]) (fun p s s' hp => initPort_run hp) hu
      exact ⟨ts, hrun, hacts.trans List.map_eq_flatMap.symm⟩) hconf
  obtain ⟨ts', hkni, hacts'⟩ := initAll_run (g := fun p => [⟨false, 1, p, p⟩])
    (fun p s s' hp => initPort_run hp) hkniPorts
  refine ⟨ts ++ ts', hports.append hkni, ?_⟩
  rw [List.map_append, hacts, hacts', turns, List.map_eq_flatMap (l := kniPorts cfg)]

theorem fillConf_nbDesc {info : DevInfo} {conf : PortConf} {uPort port : UInt16}
    (h : fillConf cfg dev info uPort port s = .ok (conf, s')) : s'.nbDesc = s.nbDesc := by
  have hkeep : (chooseKey cfg info s).nbDesc = s.nbDesc := by
    unfold chooseKey
    split <;> split <;> rfl
  unfold fillConf at h
  split at h
  · obtain ⟨-, rfl⟩ := Prod.mk.inj (Except.ok.inj h)
    exact hkeep
  · split at h
    · obtain ⟨-, rfl⟩ := Prod.mk.inj (Except.ok.inj h)
      exact hkeep
    · cases h

/-- In the primary process a turn sets up the queues with the counts it leaves: those it found, adjusted
to its port. -/
theorem initPort_setup {hasConf : Bool} {nbQueues uPort port : UInt16} (hprimary : cfg.primary = true)
    (h : initPort cfg dev hasConf nbQueues uPort port s = .ok s') :
    s'.nbDesc = dev.adjustNbDesc port s.nbDesc ∧
      ∃ conf, setupQueues dev port conf s'.nbDesc (List.range nbQueues.toNat) = .ok () := by
  obtain ⟨info, conf, s₁, -, hfill, hstart⟩ := initPort_inv h
  simp only [hprimary, Bool.not_true, Bool.false_eq_true, if_false] at hstart
  obtain ⟨rfl, hqueues⟩ := startPort_ok hstart
  have hsame : s₁.nbDesc = s.nbDesc := by
    cases hasConf with
    | true => exact fillConf_nbDesc hfill
    | false =>
        obtain ⟨-, rfl⟩ := Prod.mk.inj (Except.ok.inj hfill)
        rfl
  exact ⟨congrArg (dev.adjustNbDesc port) hsame, conf, hqueues⟩

/-- One run gives every port its own counts exactly if neighbours agree. -/
theorem own_counts_iff {ts : List (Transition PortState Turn)} (hprimary : cfg.primary = true)
    (h : Run (turnStep cfg dev) .init ts s') (hacts : ts.map Transition.act = turns cfg) :
    (∀ tr ∈ ts, tr.after.nbDesc = ownCounts dev tr.act.port) ↔ NeighboursAgree cfg dev := by
  have hstep {s : PortState} {t : Turn} {s' : PortState} (ht : turnStep cfg dev s t = some s') :
      s'.nbDesc = dev.adjustNbDesc t.port s.nbDesc := by
    rw [turnStep] at ht
    cases hok : initPort cfg dev t.hasConf t.nbQueues t.uPort t.port s with
    | error e =>
        rw [hok] at ht
        cases ht
    | ok s₁ =>
        rw [hok] at ht
        obtain rfl := Option.some.inj ht
        exact (initPort_setup hprimary hok).1
  have hcarried := h.carried_iff (v := PortState.nbDesc) (f := fun t => dev.adjustNbDesc t.port) hstep
  rw [hacts] at hcarried
  rw [NeighboursAgree, List.isChain_map]
  exact hcarried

end Turns

/-! ## Two orders -/

/-- For every two orders of the same ports in which `init_port_start` completes: both set up the queues
of every port with `RX_QUEUE_SIZE` and `TX_QUEUE_SIZE` adjusted to that port, exactly if in both orders
no port adjusts its predecessor's counts to others than its own. -/
theorem ring_sizes_are_own_iff (cfg₁ cfg₂ : DpdkCfg) (dev : EthDev) (s₁ s₂ : PortState)
    (hprimary₁ : cfg₁.primary = true) (hprimary₂ : cfg₂.primary = true)
    (hports : ∀ p, p ∈ (turns cfg₁).map Turn.port ↔ p ∈ (turns cfg₂).map Turn.port)
    (h₁ : initPortStart cfg₁ dev .init = .ok s₁) (h₂ : initPortStart cfg₂ dev .init = .ok s₂) :
    ∃ ts₁ ts₂, Run (turnStep cfg₁ dev) .init ts₁ s₁ ∧ ts₁.map Transition.act = turns cfg₁ ∧
      Run (turnStep cfg₂ dev) .init ts₂ s₂ ∧ ts₂.map Transition.act = turns cfg₂ ∧
      (SameCounts dev ts₁ ts₂ ↔ NeighboursAgree cfg₁ dev ∧ NeighboursAgree cfg₂ dev) := by
  obtain ⟨ts₁, hrun₁, hacts₁⟩ := initPortStart_run h₁
  obtain ⟨ts₂, hrun₂, hacts₂⟩ := initPortStart_run h₂
  refine ⟨ts₁, ts₂, hrun₁, hacts₁, hrun₂, hacts₂, ?_⟩
  rw [← own_counts_iff hprimary₁ hrun₁ hacts₁, ← own_counts_iff hprimary₂ hrun₂ hacts₂]
  have hmem {ts ts' : List (Transition PortState Turn)} {cfg cfg' : DpdkCfg}
      (hacts : ts.map Transition.act = turns cfg) (hacts' : ts'.map Transition.act = turns cfg')
      (hsub : ∀ p, p ∈ (turns cfg).map Turn.port → p ∈ (turns cfg').map Turn.port) :
      ∀ tr ∈ ts, ∃ tr' ∈ ts', tr'.act.port = tr.act.port := by
    intro tr htr
    rw [← hacts, ← hacts', List.map_map, List.map_map] at hsub
    obtain ⟨tr', htr', hport⟩ := List.mem_map.mp (hsub _ (List.mem_map_of_mem htr))
    exact ⟨tr', htr', hport⟩
  constructor
  · intro hsame
    constructor
    · intro tr htr
      obtain ⟨tr', htr', hport⟩ := hmem hacts₁ hacts₂ (fun p => (hports p).mp) tr htr
      exact (hsame tr htr tr' htr' hport.symm).1
    · intro tr htr
      obtain ⟨tr', htr', hport⟩ := hmem hacts₂ hacts₁ (fun p => (hports p).mpr) tr htr
      rw [← hport]
      exact (hsame tr' htr' tr htr hport).2
  · rintro ⟨hown₁, hown₂⟩ tr₁ htr₁ tr₂ htr₂ hport
    refine ⟨hown₁ tr₁ htr₁, ?_⟩
    rw [hport]
    exact hown₂ tr₂ htr₂

/-! ## Two ports, in both orders -/

namespace Sample

/-- What the `rte_eth_desc_lim` of a device does to a count: up to the alignment, down to the maximum, up
to the minimum. -/
def adjust (align maximum minimum n : UInt16) : UInt16 :=
  let n := if align = 0 then n else (n + align - 1) / align * align
  let n := if maximum = 0 then n else min n maximum
  max n minimum

/-- Port 0 has at most `maximum` descriptors, the others have at most 4096. -/
def dev (maximum : UInt16) : EthDev where
  rssProtoMask := 0
  infoGet _ := .ok ⟨1, 1, 40, 0, 0, 0, 0⟩
  configure _ _ _ := 0
  adjustNbDesc p n :=
    let most := if p = 0 then maximum else 4096
    (adjust 8 most 64 n.1, adjust 8 most 64 n.2)
  txQueueSetup _ _ _ _ := 0
  rxQueueSetup _ _ _ _ := 0
  start _ := 0
  rssRetaUpdate _ _ _ := 0

/-- The two ports in the order `ids`, without bonds. -/
def cfg (ids : List UInt16) : DpdkCfg :=
  ⟨ids, fun _ => ⟨1, []⟩, false, false, false, false, false, true, 2⟩

end Sample

/-- Ports with room for 512 descriptors agree in both orders. -/
theorem ring_sizes_of_large_ports : ∃ s₁ s₂ ts₁ ts₂,
    Run (turnStep (Sample.cfg [0, 1]) (Sample.dev 1024)) .init ts₁ s₁ ∧
      Run (turnStep (Sample.cfg [1, 0]) (Sample.dev 1024)) .init ts₂ s₂ ∧
      SameCounts (Sample.dev 1024) ts₁ ts₂ := by
  have hports : ∀ p, p ∈ (turns (Sample.cfg [0, 1])).map Turn.port ↔
      p ∈ (turns (Sample.cfg [1, 0])).map Turn.port := by
    intro p
    show p ∈ [0, 1] ↔ p ∈ [1, 0]
    simp [or_comm]
  have hagree₁ : NeighboursAgree (Sample.cfg [0, 1]) (Sample.dev 1024) := by decide
  have hagree₂ : NeighboursAgree (Sample.cfg [1, 0]) (Sample.dev 1024) := by decide
  obtain ⟨ts₁, ts₂, hrun₁, -, hrun₂, -, hiff⟩ := ring_sizes_are_own_iff (Sample.cfg [0, 1])
    (Sample.cfg [1, 0]) (Sample.dev 1024) _ _ rfl rfl hports rfl rfl
  exact ⟨_, _, ts₁, ts₂, hrun₁, hrun₂, hiff.mpr ⟨hagree₁, hagree₂⟩⟩

/-- Port 0 has at most 256 descriptors. Listed first it leaves 256 to port 1, which gets 512 when it is
listed first itself. -/
theorem small_port_shrinks_the_next : ∃ s₁ s₂ ts₁ ts₂,
    exec (turnStep (Sample.cfg [0, 1]) (Sample.dev 256)) .init (turns (Sample.cfg [0, 1])) =
        some (ts₁, s₁) ∧
      exec (turnStep (Sample.cfg [1, 0]) (Sample.dev 256)) .init (turns (Sample.cfg [1, 0])) =
        some (ts₂, s₂) ∧
      ts₁.map (fun tr => (tr.act.port, tr.after.nbDesc)) = [(0, (256, 256)), (1, (256, 256))] ∧
      ts₂.map (fun tr => (tr.act.port, tr.after.nbDesc)) = [(1, (512, 512)), (0, (256, 256))] ∧
      ¬ SameCounts (Sample.dev 256) ts₁ ts₂ := by
  refine ⟨_, _, _, _, rfl, rfl, by decide, by decide, ?_⟩
  intro hsame
  have hcounts := (hsame _ (List.mem_cons_of_mem _ List.mem_cons_self) _ List.mem_cons_self rfl).1
  exact absurd hcounts (by decide)

end LazyBsd.Port
