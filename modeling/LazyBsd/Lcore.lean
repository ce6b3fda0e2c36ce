/-
# LazyBsd.Lcore — which process polls which hardware queue.

A port has a list of lcores, and its queue `q` belongs to the lcore at position `q`. Every process runs
`init_lcore_conf` for its own lcore over all ports and takes the queue it finds its lcore at. The runs
know nothing of each other; that each queue is taken exactly once follows from the lists.
-/
import Mathlib.Algebra.Group.Nat.Defs
import Mathlib.Data.List.GetD
import Mathlib.Data.List.Nodup
import Mathlib.Data.List.Perm.Subperm
import Mathlib.Logic.Function.Basic

namespace LazyBsd.Lcore

/-! ## The configuration -/

def dpdkMaxLcore : Nat := 128
def maxRxQueuePerLcore : Nat := 16

/-- `struct lazybsd_port_cfg`: the first `nb_lcores` entries of its `lcore_list`. -/
structure PortCfg where
  lcoreList : List UInt16
  fits : lcoreList.length ≤ dpdkMaxLcore

def PortCfg.nbLcores (p : PortCfg) : Nat := p.lcoreList.length

/-- The fields of `dpdk` in the global configuration; `nb_procs` and `nb_ports` are the lengths. -/
structure DpdkCfg where
  procLcore : List UInt16
  portidList : List UInt16
  maxPortid : UInt16
  portCfgs : UInt16 → PortCfg
  numaOn : Bool

/-- What DPDK tells a process. -/
structure Eal where
  devCountAvail : Nat
  rteMaxEthports : Nat
  avail_le : devCountAvail ≤ rteMaxEthports
  lcoreIsEnabled : UInt16 → Bool
  socketId : UInt16

/-! ## `init_lcore_conf` -/

structure LcoreRxQueue where
  portId : UInt16
  queueId : UInt16
deriving DecidableEq, Repr

/-- `lcore_conf`; the lists are the arrays up to `nb_rx_queue` and `nb_tx_port`. -/
structure LcoreConf where
  procId : UInt16
  socketId : UInt16
  nbQueueList : UInt16 → UInt16
  rxQueueList : List LcoreRxQueue
  txPortId : List UInt16
  txQueueId : UInt16 → UInt16

/-- The ways not to return: `rte_exit`, and a write beyond one of the arrays. -/
inductive Stop
  | noDevices
  | noPort (portid : UInt16)
  | lcoreUnavailable (lcoreId : UInt16)
  | nothingToDo (lcoreId : UInt16)
  | overrun
deriving DecidableEq, Repr

/-- The inner loop, from `i` on. -/
def queueidLoop (lcoreId : UInt16) : List UInt16 → Nat → Int → Int
  | [], _, queueid => queueid
  | lcore :: rest, i, queueid =>
      queueidLoop lcoreId rest (i + 1) (if lcore = lcoreId then i else queueid)

/-- The outer loop. -/
def portLoop (cfg : DpdkCfg) (eal : Eal) (lcoreId : UInt16) :
    List UInt16 → LcoreConf → Except Stop LcoreConf
  | [], conf => .ok conf
  | portId :: rest, conf =>
      let pconf := cfg.portCfgs portId
      let queueid := queueidLoop lcoreId pconf.lcoreList 0 (-1)
      if queueid < 0 then portLoop cfg eal lcoreId rest conf
      else if conf.rxQueueList.length ≥ maxRxQueuePerLcore ∨ portId.toNat ≥ eal.rteMaxEthports ∨
          conf.txPortId.length ≥ eal.rteMaxEthports then
        .error .overrun
      else
        portLoop cfg eal lcoreId rest
          { conf with
            rxQueueList := conf.rxQueueList ++ [⟨portId, UInt16.ofInt queueid⟩]
            txQueueId := Function.update conf.txQueueId portId (UInt16.ofInt queueid)
            txPortId := conf.txPortId ++ [portId]
            nbQueueList := Function.update conf.nbQueueList portId (UInt16.ofNat pconf.nbLcores) }

/-- The static `lcore_conf` is all zero, and `nb_dev_ports` is 0 before. -/
def initLcoreConf (cfg : DpdkCfg) (eal : Eal) (procId : Nat) : Except Stop LcoreConf :=
  let nbDevPorts := eal.devCountAvail
  if nbDevPorts = 0 then .error .noDevices
  else if cfg.maxPortid.toNat ≥ nbDevPorts then .error (.noPort cfg.maxPortid)
  else
    let conf : LcoreConf :=
      { procId := UInt16.ofNat procId
        socketId := if cfg.numaOn then eal.socketId else 0
        nbQueueList := fun _ => 0
        rxQueueList := []
        txPortId := []
        txQueueId := fun _ => 0 }
    let lcoreId := cfg.procLcore.getD conf.procId.toNat 0
    if !eal.lcoreIsEnabled lcoreId then .error (.lcoreUnavailable lcoreId)
    else
      match portLoop cfg eal lcoreId cfg.portidList conf with
      | .error stop => .error stop
      | .ok conf => if conf.rxQueueList = [] then .error (.nothingToDo lcoreId) else .ok conf

/-! ## One process -/

/-- The ports of `ports` with a queue for the lcore. -/
def servedPorts (cfg : DpdkCfg) (lcoreId : UInt16) (ports : List UInt16) : List UInt16 :=
  ports.filter fun p => lcoreId ∈ (cfg.portCfgs p).lcoreList

/-- The queue of a port that belongs to the lcore. -/
def queueOf (cfg : DpdkCfg) (lcoreId portId : UInt16) : Nat :=
  (cfg.portCfgs portId).lcoreList.idxOf lcoreId

section Process

variable {cfg : DpdkCfg} {eal : Eal} {lcoreId p : UInt16} {ports l : List UInt16} {conf : LcoreConf}

theorem queueidLoop_of_notMem (h : lcoreId ∉ l) (i : Nat) (queueid : Int) :
    queueidLoop lcoreId l i queueid = queueid := by
  induction l generalizing i with
  | nil => rfl
  | cons lcore rest ih =>
      rw [List.mem_cons, not_or] at h
      obtain ⟨hne, hrest⟩ := h
      rw [queueidLoop, if_neg (Ne.symm hne)]
      exact ih hrest (i + 1)

/-- The loop keeps the last match, which is the only one. -/
theorem queueidLoop_of_mem (h : lcoreId ∈ l) (hnodup : l.Nodup) (i : Nat) (queueid : Int) :
    queueidLoop lcoreId l i queueid = (i + l.idxOf lcoreId : Nat) := by
  induction l generalizing i queueid with
  | nil => cases h
  | cons lcore rest ih =>
      obtain ⟨hlcore, hrest⟩ := List.nodup_cons.mp hnodup
      rw [queueidLoop]
      by_cases heq : lcore = lcoreId
      · subst heq
        rw [if_pos rfl, queueidLoop_of_notMem hlcore, List.idxOf_cons_self]
        rfl
      · have hmem : lcoreId ∈ rest := (List.mem_cons.mp h).resolve_left (Ne.symm heq)
        rw [if_neg heq, ih hmem hrest, List.idxOf_cons_ne _ heq]
        congr 1
        omega

/-- What the outer loop makes of `conf` when it has gone through `ports`. -/
structure Serves (cfg : DpdkCfg) (lcoreId : UInt16) (ports : List UInt16)
    (conf conf' : LcoreConf) : Prop where
  rx : conf'.rxQueueList = conf.rxQueueList ++
    (servedPorts cfg lcoreId ports).map fun p => ⟨p, UInt16.ofNat (queueOf cfg lcoreId p)⟩
  tx : conf'.txPortId = conf.txPortId ++ servedPorts cfg lcoreId ports
  queue : ∀ p, conf'.txQueueId p = if p ∈ servedPorts cfg lcoreId ports then
    UInt16.ofNat (queueOf cfg lcoreId p) else conf.txQueueId p
  queues : ∀ p, conf'.nbQueueList p = if p ∈ servedPorts cfg lcoreId ports then
    UInt16.ofNat (cfg.portCfgs p).nbLcores else conf.nbQueueList p

theorem servedPorts_cons_of_mem (ports : List UInt16)
    (h : lcoreId ∈ (cfg.portCfgs p).lcoreList) :
    servedPorts cfg lcoreId (p :: ports) = p :: servedPorts cfg lcoreId ports :=
  List.filter_cons_of_pos (decide_eq_true h)

theorem servedPorts_cons_of_notMem (ports : List UInt16)
    (h : lcoreId ∉ (cfg.portCfgs p).lcoreList) :
    servedPorts cfg lcoreId (p :: ports) = servedPorts cfg lcoreId ports :=
  List.filter_cons_of_neg (by simpa using h)

/-- A port that the lcore has no queue of is passed over. -/
theorem portLoop_skip (h : lcoreId ∉ (cfg.portCfgs p).lcoreList) :
    portLoop cfg eal lcoreId (p :: ports) conf = portLoop cfg eal lcoreId ports conf := by
  rw [portLoop]
  simp only [queueidLoop_of_notMem h]
  rfl

/-- What one port of the lcore's adds. -/
def LcoreConf.serve (cfg : DpdkCfg) (lcoreId p : UInt16) (conf : LcoreConf) : LcoreConf :=
  { conf with
    rxQueueList := conf.rxQueueList ++ [⟨p, UInt16.ofNat (queueOf cfg lcoreId p)⟩]
    txQueueId := Function.update conf.txQueueId p (UInt16.ofNat (queueOf cfg lcoreId p))
    txPortId := conf.txPortId ++ [p]
    nbQueueList := Function.update conf.nbQueueList p (UInt16.ofNat (cfg.portCfgs p).nbLcores) }

theorem portLoop_serve (h : lcoreId ∈ (cfg.portCfgs p).lcoreList)
    (hnodup : (cfg.portCfgs p).lcoreList.Nodup) (hport : p.toNat < eal.rteMaxEthports)
    (hrx : conf.rxQueueList.length < maxRxQueuePerLcore)
    (htx : conf.txPortId.length < eal.rteMaxEthports) :
    portLoop cfg eal lcoreId (p :: ports) conf =
      portLoop cfg eal lcoreId ports (conf.serve cfg lcoreId p) := by
  have hqueueid : queueidLoop lcoreId (cfg.portCfgs p).lcoreList 0 (-1) =
      (queueOf cfg lcoreId p : Nat) := by
    rw [queueidLoop_of_mem h hnodup, Nat.zero_add]
    rfl
  have hroom : ¬ (conf.rxQueueList.length ≥ maxRxQueuePerLcore ∨
      p.toNat ≥ eal.rteMaxEthports ∨ conf.txPortId.length ≥ eal.rteMaxEthports) := by
    omega
  have hnonneg : ¬ ((queueOf cfg lcoreId p : Nat) : Int) < 0 := by omega
  have hofInt : UInt16.ofInt ((queueOf cfg lcoreId p : Nat) : Int) =
      UInt16.ofNat (queueOf cfg lcoreId p) := by
    apply UInt16.toNat.inj
    rw [UInt16.ofInt, UInt16.toNat_ofNat', UInt16.toNat_ofNat']
    omega
  rw [portLoop]
  simp only [hqueueid, if_neg hnonneg, if_neg hroom, hofInt]
  rfl

/-- An entry that was set for `p` is one of the entries for the ports served. -/
theorem update_served (served : List UInt16) (f g : UInt16 → UInt16) (p q : UInt16) :
    (if q ∈ served then f q else Function.update g p (f p) q) =
      if q ∈ p :: served then f q else g q := by
  by_cases hq : q = p
  · subst hq
    rw [Function.update_self, if_pos List.mem_cons_self, ite_self]
  · rw [Function.update_of_ne hq]
    simp only [List.mem_cons, hq, false_or]

theorem Serves.cons {conf' : LcoreConf} (h : lcoreId ∈ (cfg.portCfgs p).lcoreList)
    (hserves : Serves cfg lcoreId ports (conf.serve cfg lcoreId p) conf') :
    Serves cfg lcoreId (p :: ports) conf conf' := by
  have hserved := servedPorts_cons_of_mem ports h
  refine ⟨?_, ?_, fun q => ?_, fun q => ?_⟩
  · rw [hserves.rx, hserved]
    exact List.append_assoc _ _ _
  · rw [hserves.tx, hserved]
    exact List.append_assoc _ _ _
  · rw [hserves.queue q, hserved]
    exact update_served _ (fun p => UInt16.ofNat (queueOf cfg lcoreId p)) conf.txQueueId p q
  · rw [hserves.queues q, hserved]
    exact update_served _ (fun p => UInt16.ofNat (cfg.portCfgs p).nbLcores) conf.nbQueueList p q

/-- The induction is over the ports still to come. -/
theorem portLoop_serves (eal : Eal) (lcoreId : UInt16) (conf : LcoreConf)
    (hlists : ∀ p ∈ ports, (cfg.portCfgs p).lcoreList.Nodup)
    (hports : ∀ p ∈ ports, p.toNat < eal.rteMaxEthports)
    (hrx : conf.rxQueueList.length + (servedPorts cfg lcoreId ports).length ≤ maxRxQueuePerLcore)
    (htx : conf.txPortId.length + (servedPorts cfg lcoreId ports).length ≤ eal.rteMaxEthports) :
    ∃ conf', portLoop cfg eal lcoreId ports conf = .ok conf' ∧
      Serves cfg lcoreId ports conf conf' := by
  induction ports generalizing conf with
  | nil =>
      refine ⟨conf, rfl, ?_, ?_, ?_, ?_⟩
      · exact (List.append_nil _).symm
      · exact (List.append_nil _).symm
      · intro p
        exact (if_neg List.not_mem_nil).symm
      · intro p
        exact (if_neg List.not_mem_nil).symm
  | cons p ports ih =>
      have hlists' : ∀ p ∈ ports, (cfg.portCfgs p).lcoreList.Nodup :=
        fun q hq => hlists q (List.mem_cons_of_mem _ hq)
      have hports' : ∀ p ∈ ports, p.toNat < eal.rteMaxEthports :=
        fun q hq => hports q (List.mem_cons_of_mem _ hq)
      by_cases hmem : lcoreId ∈ (cfg.portCfgs p).lcoreList
      · -- the lists have room for this port and for those to come
        have hserved := servedPorts_cons_of_mem ports hmem
        rw [hserved, List.length_cons] at hrx htx
        rw [portLoop_serve hmem (hlists p List.mem_cons_self) (hports p List.mem_cons_self)
          (by omega) (by omega)]
        have hrx' : (conf.serve cfg lcoreId p).rxQueueList.length +
            (servedPorts cfg lcoreId ports).length ≤ maxRxQueuePerLcore := by
          show (conf.rxQueueList ++ [_]).length + _ ≤ _
          rw [List.length_append, List.length_singleton]
          omega
        have htx' : (conf.serve cfg lcoreId p).txPortId.length +
            (servedPorts cfg lcoreId ports).length ≤ eal.rteMaxEthports := by
          show (conf.txPortId ++ [_]).length + _ ≤ _
          rw [List.length_append, List.length_singleton]
          omega
        obtain ⟨conf', hloop, hserves⟩ := ih _ hlists' hports' hrx' htx'
        exact ⟨conf', hloop, hserves.cons hmem⟩
      · have hserved := servedPorts_cons_of_notMem ports hmem
        rw [hserved] at hrx htx
        rw [portLoop_skip hmem]
        obtain ⟨conf', hloop, hserves⟩ := ih conf hlists' hports' hrx htx
        refine ⟨conf', hloop, ?_, ?_, ?_, ?_⟩
        · rw [hserved]
          exact hserves.rx
        · rw [hserved]
          exact hserves.tx
        · rw [hserved]
          exact hserves.queue
        · rw [hserved]
          exact hserves.queues

end Process

/-! ## All processes -/

/-- What the configuration promises. The machine has the ports. -/
structure Valid (cfg : DpdkCfg) (eal : Eal) : Prop where
  procs : cfg.procLcore.Nodup
  enabled : ∀ lcore ∈ cfg.procLcore, eal.lcoreIsEnabled lcore
  ports : cfg.portidList.Nodup
  maxPortid : ∀ p ∈ cfg.portidList, p ≤ cfg.maxPortid
  probed : cfg.maxPortid.toNat < eal.devCountAvail
  lcores : ∀ p ∈ cfg.portidList, (cfg.portCfgs p).lcoreList.Nodup ∧
    ∀ lcore ∈ (cfg.portCfgs p).lcoreList, lcore ∈ cfg.procLcore
  served : ∀ lcore, (servedPorts cfg lcore cfg.portidList).length ≤ maxRxQueuePerLcore

/-- Process `i` has queue `q` of port `p` in its `rx_queue_list`. -/
def Polls (cfg : DpdkCfg) (eal : Eal) (i : Nat) (p : UInt16) (q : Nat) : Prop :=
  ∃ conf, initLcoreConf cfg eal i = .ok conf ∧ ∃ rx ∈ conf.rxQueueList,
    rx.portId = p ∧ rx.queueId.toNat = q

/-- Where process `i` has ended up, with the queues of its lcore: it has exited or has them all. -/
structure Outcome (cfg : DpdkCfg) (eal : Eal) (i : Nat) (lcoreId : UInt16) (conf : LcoreConf) :
    Prop where
  rx : conf.rxQueueList = (servedPorts cfg lcoreId cfg.portidList).map fun p =>
    ⟨p, UInt16.ofNat (queueOf cfg lcoreId p)⟩
  tx : conf.txPortId = servedPorts cfg lcoreId cfg.portidList
  queue : ∀ p ∈ servedPorts cfg lcoreId cfg.portidList,
    conf.txQueueId p = UInt16.ofNat (queueOf cfg lcoreId p)
  queues : ∀ p ∈ servedPorts cfg lcoreId cfg.portidList,
    conf.nbQueueList p = UInt16.ofNat (cfg.portCfgs p).nbLcores
  result : initLcoreConf cfg eal i =
    if conf.rxQueueList = [] then .error (.nothingToDo lcoreId) else .ok conf

section Processes

variable {cfg : DpdkCfg} {eal : Eal} {lcoreId p : UInt16} {i q : Nat} {conf : LcoreConf}

/-- Distinct numbers below `n` are at most `n`. -/
theorem length_le_of_nodup {l : List UInt16} {n : Nat} (hnodup : l.Nodup)
    (h : ∀ x ∈ l, x.toNat < n) : l.length ≤ n := by
  have hmap : (l.map UInt16.toNat).Nodup := by
    apply (List.nodup_map_iff_inj_on hnodup).mpr
    intro x _ y _ hxy
    exact UInt16.toNat.inj hxy
  have hsub : l.map UInt16.toNat ⊆ List.range n := by
    intro k hk
    obtain ⟨x, hx, rfl⟩ := List.mem_map.mp hk
    exact List.mem_range.mpr (h x hx)
  have hle := (List.subperm_of_subset hmap hsub).length_le
  rwa [List.length_map, List.length_range] at hle

theorem mem_servedPorts :
    p ∈ servedPorts cfg lcoreId cfg.portidList ↔
      p ∈ cfg.portidList ∧ lcoreId ∈ (cfg.portCfgs p).lcoreList := by
  rw [servedPorts, List.mem_filter, decide_eq_true_iff]

/-- The spec of `init_lcore_conf` for one process. -/
theorem initLcoreConf_outcome (h : Valid cfg eal) (hi : i < cfg.procLcore.length) :
    ∃ conf, Outcome cfg eal i cfg.procLcore[i] conf := by
  have hprocs : cfg.procLcore.length ≤ 2 ^ 16 :=
    length_le_of_nodup h.procs fun x _ => x.toNat_lt
  have hmod : (UInt16.ofNat i).toNat = i := UInt16.toNat_ofNat_of_lt' (by show i < 2 ^ 16; omega)
  have hlcore : cfg.procLcore.getD i 0 = cfg.procLcore[i] := List.getD_eq_getElem _ _ hi
  have henabled := h.enabled _ (List.getElem_mem hi)
  have hprobed := h.probed
  have hports : ∀ p ∈ cfg.portidList, p.toNat < eal.rteMaxEthports := by
    intro p hp
    have hmax : p.toNat ≤ cfg.maxPortid.toNat := h.maxPortid p hp
    have havail := eal.avail_le
    omega
  have htx : (servedPorts cfg cfg.procLcore[i] cfg.portidList).length ≤ eal.rteMaxEthports := by
    apply length_le_of_nodup (h.ports.filter _)
    intro p hp
    exact hports p (List.mem_of_mem_filter hp)
  obtain ⟨conf, hloop, hserves⟩ := portLoop_serves eal cfg.procLcore[i]
    ⟨UInt16.ofNat i, if cfg.numaOn then eal.socketId else 0, fun _ => 0, [], [], fun _ => 0⟩
    (fun p hp => (h.lcores p hp).1) hports
    (by rw [List.length_nil, Nat.zero_add]; exact h.served _)
    (by rw [List.length_nil, Nat.zero_add]; exact htx)
  refine ⟨conf, hserves.rx, hserves.tx, ?_, ?_, ?_⟩
  · intro p hp
    rw [hserves.queue, if_pos hp]
  · intro p hp
    rw [hserves.queues, if_pos hp]
  · have havail : ¬ eal.devCountAvail = 0 := by omega
    have hport : ¬ cfg.maxPortid.toNat ≥ eal.devCountAvail := by omega
    simp only [initLcoreConf, if_neg havail, if_neg hport, hmod, hlcore, henabled, hloop]
    rfl

/-- The queue of an lcore is where it stands in the port's list. -/
theorem queueOf_toNat (hmem : lcoreId ∈ (cfg.portCfgs p).lcoreList) :
    queueOf cfg lcoreId p < (cfg.portCfgs p).nbLcores ∧
      (UInt16.ofNat (queueOf cfg lcoreId p)).toNat = queueOf cfg lcoreId p := by
  have hlt : queueOf cfg lcoreId p < (cfg.portCfgs p).nbLcores := List.idxOf_lt_length_of_mem hmem
  have hfits : (cfg.portCfgs p).nbLcores ≤ dpdkMaxLcore := (cfg.portCfgs p).fits
  unfold dpdkMaxLcore at hfits
  exact ⟨hlt, UInt16.toNat_ofNat_of_lt' (by show _ < 2 ^ 16; omega)⟩

/-- A process polls the queues of its lcore, and no others. -/
theorem polls_iff (h : Valid cfg eal) (hi : i < cfg.procLcore.length) :
    Polls cfg eal i p q ↔ p ∈ cfg.portidList ∧ cfg.procLcore[i] ∈ (cfg.portCfgs p).lcoreList ∧
      queueOf cfg cfg.procLcore[i] p = q := by
  obtain ⟨conf, hout⟩ := initLcoreConf_outcome h hi
  constructor
  · rintro ⟨conf', hok, rx, hrx, rfl, rfl⟩
    rw [hout.result] at hok
    split at hok
    · cases hok
    · obtain rfl := Except.ok.inj hok
      rw [hout.rx] at hrx
      obtain ⟨p, hp, rfl⟩ := List.mem_map.mp hrx
      obtain ⟨hport, hmem⟩ := mem_servedPorts.mp hp
      exact ⟨hport, hmem, (queueOf_toNat hmem).2.symm⟩
  · rintro ⟨hport, hmem, rfl⟩
    have hserved := mem_servedPorts.mpr ⟨hport, hmem⟩
    have hrx : ⟨p, UInt16.ofNat (queueOf cfg cfg.procLcore[i] p)⟩ ∈ conf.rxQueueList := by
      rw [hout.rx]
      exact List.mem_map.mpr ⟨p, hserved, rfl⟩
    refine ⟨conf, ?_, _, hrx, rfl, (queueOf_toNat hmem).2⟩
    rw [hout.result, if_neg (List.ne_nil_of_mem hrx)]

/-- The process whose lcore has the queue polls it, and by the lists there is one. -/
theorem exists_unique_poller (h : Valid cfg eal) (hp : p ∈ cfg.portidList)
    (hq : q < (cfg.portCfgs p).nbLcores) :
    ∃! i, i < cfg.procLcore.length ∧ Polls cfg eal i p q := by
  obtain ⟨hnodup, hlcores⟩ := h.lcores p hp
  have hmem : (cfg.portCfgs p).lcoreList[q] ∈ (cfg.portCfgs p).lcoreList := List.getElem_mem hq
  obtain ⟨i, hi, hlcore⟩ := List.getElem_of_mem (hlcores _ hmem)
  refine ⟨i, ⟨hi, ?_⟩, ?_⟩
  · apply (polls_iff h hi).mpr
    rw [hlcore]
    exact ⟨hp, hmem, hnodup.idxOf_getElem q hq⟩
  · rintro j ⟨hj, hpolls⟩
    obtain ⟨-, hmem', hqueue⟩ := (polls_iff h hj).mp hpolls
    have hsame : cfg.procLcore[j] = (cfg.portCfgs p).lcoreList[q] := by
      rw [← List.getElem_idxOf (List.idxOf_lt_length_of_mem hmem')]
      congr 1
    exact h.procs.getElem_inj_iff.mp (hsame.trans hlcore.symm)

/-- What the process that polls a queue knows of it. -/
structure Owns (cfg : DpdkCfg) (conf : LcoreConf) (p : UInt16) (q : Nat) : Prop where
  once : conf.rxQueueList.count ⟨p, UInt16.ofNat q⟩ = 1
  txQueue : (conf.txQueueId p).toNat = q
  txPort : conf.txPortId.count p = 1
  queues : (conf.nbQueueList p).toNat = (cfg.portCfgs p).nbLcores

theorem polls_owns (h : Valid cfg eal) (hi : i < cfg.procLcore.length)
    (hok : initLcoreConf cfg eal i = .ok conf) (hpolls : Polls cfg eal i p q) :
    Owns cfg conf p q := by
  obtain ⟨hport, hmem, rfl⟩ := (polls_iff h hi).mp hpolls
  obtain ⟨hlt, htoNat⟩ := queueOf_toNat hmem
  have hserved := mem_servedPorts.mpr ⟨hport, hmem⟩
  obtain ⟨conf', hout⟩ := initLcoreConf_outcome h hi
  rw [hout.result] at hok
  split at hok
  · cases hok
  · obtain rfl := Except.ok.inj hok
    have hnodup : (servedPorts cfg cfg.procLcore[i] cfg.portidList).Nodup := h.ports.filter _
    refine ⟨?_, ?_, ?_, ?_⟩
    · rw [hout.rx]
      apply List.count_eq_one_of_mem
      · apply (List.nodup_map_iff_inj_on hnodup).mpr
        intro p' _ p'' _ heq
        exact congrArg LcoreRxQueue.portId heq
      · exact List.mem_map.mpr ⟨p, hserved, rfl⟩
    · rw [hout.queue p hserved, htoNat]
    · rw [hout.tx]
      exact List.count_eq_one_of_mem hnodup hserved
    · rw [hout.queues p hserved]
      have hfits : (cfg.portCfgs p).nbLcores ≤ dpdkMaxLcore := (cfg.portCfgs p).fits
      unfold dpdkMaxLcore at hfits
      exact UInt16.toNat_ofNat_of_lt' (by show _ < 2 ^ 16; omega)

/-- A process returns exactly if its lcore has a queue of some port, and exits otherwise. -/
theorem initLcoreConf_result (h : Valid cfg eal) (hi : i < cfg.procLcore.length) :
    if ∃ p ∈ cfg.portidList, cfg.procLcore[i] ∈ (cfg.portCfgs p).lcoreList then
      ∃ conf, initLcoreConf cfg eal i = .ok conf
    else initLcoreConf cfg eal i = .error (.nothingToDo cfg.procLcore[i]) := by
  obtain ⟨conf, hout⟩ := initLcoreConf_outcome h hi
  have hempty : conf.rxQueueList = [] ↔
      ∀ p ∈ cfg.portidList, cfg.procLcore[i] ∉ (cfg.portCfgs p).lcoreList := by
    rw [hout.rx, List.map_eq_nil_iff, servedPorts, List.filter_eq_nil_iff]
    simp
  split
  · next hserves =>
      obtain ⟨p, hp, hmem⟩ := hserves
      refine ⟨conf, ?_⟩
      rw [hout.result, if_neg]
      intro hnil
      exact hempty.mp hnil p hp hmem
  · next hidle =>
      rw [hout.result, if_pos]
      apply hempty.mpr
      intro p hp hmem
      exact hidle ⟨p, hp, hmem⟩

/-- Every hardware queue has exactly one poller, which knows it under the same number for sending, and a
process without a queue exits. -/
theorem queues_have_one_poller (cfg : DpdkCfg) (eal : Eal) (h : Valid cfg eal) :
    (∀ p ∈ cfg.portidList, ∀ q < (cfg.portCfgs p).nbLcores,
      (∃! i, i < cfg.procLcore.length ∧ Polls cfg eal i p q) ∧
        ∀ i < cfg.procLcore.length, ∀ conf, initLcoreConf cfg eal i = .ok conf →
          Polls cfg eal i p q → Owns cfg conf p q) ∧
    ∀ i (hi : i < cfg.procLcore.length),
      (∀ p ∈ cfg.portidList, cfg.procLcore[i] ∉ (cfg.portCfgs p).lcoreList) →
        initLcoreConf cfg eal i = .error (.nothingToDo cfg.procLcore[i]) := by
  constructor
  · intro p hp q hq
    refine ⟨exists_unique_poller h hp hq, ?_⟩
    intro i hi conf hok hpolls
    exact polls_owns h hi hok hpolls
  · intro i hi hidle
    have hresult := initLcoreConf_result h hi
    rw [if_neg] at hresult
    · exact hresult
    · rintro ⟨p, hp, hmem⟩
      exact hidle p hp hmem

end Processes

namespace Sample

/-- Three processes, and two ports of two queues and of one. -/
def cfg : DpdkCfg where
  procLcore := [4, 5, 6]
  portidList := [1, 0]
  maxPortid := 1
  portCfgs p := if p = 0 then ⟨[5, 4], by decide⟩ else ⟨[4], by decide⟩
  numaOn := false

def eal : Eal where
  devCountAvail := 2
  rteMaxEthports := 32
  avail_le := by decide
  lcoreIsEnabled lcore := lcore < 8
  socketId := 0

theorem servedPorts_le (lcore : UInt16) :
    (servedPorts cfg lcore cfg.portidList).length ≤ maxRxQueuePerLcore := by
  apply Nat.le_trans (List.length_filter_le _ _)
  decide

/-- A property of all members, computed along the list. -/
theorem forall_of_all {l : List UInt16} {P : UInt16 → Prop} [DecidablePred P]
    (h : l.all (fun x => decide (P x)) = true) : ∀ x ∈ l, P x := by
  intro x hx
  exact of_decide_eq_true (List.all_eq_true.mp h x hx)

theorem valid : Valid cfg eal where
  procs := by decide
  enabled := forall_of_all (by decide)
  ports := by decide
  maxPortid := forall_of_all (by decide)
  probed := by decide
  lcores := by
    intro p hp
    rcases List.mem_cons.mp hp with rfl | hp
    · exact ⟨by decide, forall_of_all (by decide)⟩
    · obtain rfl := List.mem_singleton.mp hp
      exact ⟨by decide, forall_of_all (by decide)⟩
  served := servedPorts_le

end Sample

/-- Queue 1 of port 0 is polled by the first process, and the third process has nothing to do. -/
theorem queues_of_three_processes :
    (∃! i, i < 3 ∧ Polls Sample.cfg Sample.eal i 0 1) ∧
      initLcoreConf Sample.cfg Sample.eal 2 = .error (.nothingToDo 6) := by
  obtain ⟨hpolls, hidle⟩ := queues_have_one_poller Sample.cfg Sample.eal Sample.valid
  exact ⟨(hpolls 0 (by decide) 1 (by decide)).1,
    hidle 2 (by decide) (Sample.forall_of_all (by decide))⟩

end LazyBsd.Lcore
