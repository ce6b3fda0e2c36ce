/-
# LazyBsd.Port.Start — `init_port_start`: the ports are configured one after the other.

The loop runs over the ports of the configuration (for a bond first its slaves, then the bond itself)
and, with the kernel interface enabled, over the virtio ports behind them. For each port it asks the
device for its capabilities and fills a `port_conf`. Three things outlive the turn of the loop: the
process-wide `rsskey` and `rsskey_len`, the table sizes in `rss_reta_size`, and the `hw_features` of the
port configuration, which a bond shares with its slaves.

DPDK is a parameter (`EthDev`): what a device reports and which of its calls fail. The process ends in
`rte_exit` or in the assertion on the table size, or `init_port_start` returns early with an error code;
these are the errors of the model.
-/
import Mathlib.Logic.Function.Basic
import LazyBsd.Rss.Reta

namespace LazyBsd.Port

/-! ## DPDK -/

/-- `RTE_ETH_TX_OFFLOAD_*` and `RTE_ETH_RX_OFFLOAD_*`. -/
def txOffloadIpv4Cksum : UInt64 := (1 : UInt64) <<< (1 : UInt64)
def txOffloadUdpCksum : UInt64 := (1 : UInt64) <<< (2 : UInt64)
def txOffloadTcpCksum : UInt64 := (1 : UInt64) <<< (3 : UInt64)
def txOffloadTcpTso : UInt64 := (1 : UInt64) <<< (5 : UInt64)
def txOffloadMbufFastFree : UInt64 := (1 : UInt64) <<< (16 : UInt64)
def rxOffloadVlanStrip : UInt64 := (1 : UInt64) <<< (0 : UInt64)
def rxOffloadIpv4Cksum : UInt64 := (1 : UInt64) <<< (1 : UInt64)
def rxOffloadUdpCksum : UInt64 := (1 : UInt64) <<< (2 : UInt64)
def rxOffloadTcpCksum : UInt64 := (1 : UInt64) <<< (3 : UInt64)
def rxOffloadChecksum : UInt64 := rxOffloadIpv4Cksum ||| rxOffloadUdpCksum ||| rxOffloadTcpCksum
def rxOffloadKeepCrc : UInt64 := (1 : UInt64) <<< (16 : UInt64)

/-- Does the mask have the flag? -/
def has (mask flag : UInt64) : Bool := mask &&& flag != 0

/-- The fields of `struct rte_eth_dev_info` that the code reads. -/
structure DevInfo where
  maxRxQueues : UInt16
  maxTxQueues : UInt16
  hashKeySize : UInt8
  flowTypeRssOffloads : UInt64
  txOffloadCapa : UInt64
  rxOffloadCapa : UInt64
  retaSize : UInt16
  deriving DecidableEq

/-- The three key arrays of the process. -/
inductive RssKey
  | default40
  | default52
  | symmetric
  deriving DecidableEq, Repr

/-- `default_rsskey_40bytes`, `default_rsskey_52bytes` and `symmetric_rsskey`. -/
def RssKey.bytes : RssKey → List UInt8
  | .default40 =>
      [0xd1, 0x81, 0xc6, 0x2c, 0xf7, 0xf4, 0xdb, 0x5b, 0x19, 0x83, 0xa2, 0xfc, 0x94, 0x3e, 0x1a, 0xdb,
       0xd9, 0x38, 0x9e, 0x6b, 0xd1, 0x03, 0x9c, 0x2c, 0xa7, 0x44, 0x99, 0xad, 0x59, 0x3d, 0x56, 0xd9,
       0xf3, 0x25, 0x3c, 0x06, 0x2a, 0xdc, 0x1f, 0xfc]
  | .default52 =>
      [0x44, 0x39, 0x79, 0x6b, 0xb5, 0x4c, 0x50, 0x23, 0xb6, 0x75, 0xea, 0x5b, 0x12, 0x4f, 0x9f, 0x30,
       0xb8, 0xa2, 0xc0, 0x3d, 0xdf, 0xdc, 0x4d, 0x02, 0xa0, 0x8c, 0x9b, 0x33, 0x4a, 0xf6, 0x4a, 0x4c,
       0x05, 0xc6, 0xfa, 0x34, 0x39, 0x58, 0xd8, 0x55, 0x7d, 0x99, 0x58, 0x3a, 0xe1, 0x38, 0xc9, 0x2e,
       0x81, 0x15, 0x03, 0x66]
  | .symmetric => (List.replicate 26 [0x6d, 0x5a]).flatten

/-- Byte `i` of a key array. -/
def RssKey.byte (k : RssKey) (i : Nat) : UInt8 := k.bytes.getD i 0

/-- `struct rte_eth_rss_conf`. -/
structure RssConf where
  rssKey : RssKey
  rssKeyLen : UInt8
  rssHf : UInt64
  deriving DecidableEq

/-- What the code sets in `struct rte_eth_conf`: `rss` is `mq_mode = RSS` with its `rss_conf`. -/
structure PortConf where
  rss : Option RssConf
  rxOffloads : UInt64
  txOffloads : UInt64
  deriving DecidableEq

/-- `port_conf = { 0 }`. -/
def PortConf.zero : PortConf := ⟨none, 0, 0⟩

/-- The devices as the loop sees them: the result of every call, any `int`. -/
structure EthDev where
  rssProtoMask : UInt64
  infoGet : UInt16 → Except Int DevInfo
  configure : UInt16 → UInt16 → PortConf → Int
  /-- `rte_eth_dev_adjust_nb_rx_tx_desc` on the two descriptor counts. -/
  adjustNbDesc : UInt16 → UInt16 × UInt16 → UInt16 × UInt16
  txQueueSetup : UInt16 → Nat → UInt16 → UInt64 → Int
  rxQueueSetup : UInt16 → Nat → UInt16 → UInt64 → Int
  start : UInt16 → Int
  rssRetaUpdate : UInt16 → List (List Nat) → UInt16 → Int

/-! ## The configuration and the state of the process -/

/-- `struct lazybsd_hw_features`, without the `rx_lro` that is never set. -/
structure HwFeatures where
  rxCsum : Bool
  txCsumIp : Bool
  txCsumL4 : Bool
  txTso : Bool
  deriving DecidableEq, Repr

/-- The fields of `struct lazybsd_port_cfg` that the loop reads. -/
structure PortCfg where
  nbLcores : UInt16
  slavePortidList : List UInt16
  deriving DecidableEq

/-- The `dpdk` section of the configuration, with `enable_kni`, the process type and `nb_dev_ports`. -/
structure DpdkCfg where
  portidList : List UInt16
  portCfgs : UInt16 → PortCfg
  symmetricRss : Bool
  vlanStrip : Bool
  txCsumOffoadSkip : Bool
  tso : Bool
  enableKni : Bool
  primary : Bool
  nbDevPorts : UInt16

/-- What outlives a turn of the loop. `placed` records the `port_conf` that was filled last for a port
of the configuration. -/
structure PortState where
  rsskey : RssKey
  rsskeyLen : Nat
  rssRetaSize : UInt16 → UInt16
  hwFeatures : UInt16 → HwFeatures
  nbDesc : UInt16 × UInt16
  placed : UInt16 → Option PortConf

/-- The static initialisers. -/
def PortState.init : PortState where
  rsskey := .default40
  rsskeyLen := 40
  rssRetaSize _ := 0
  hwFeatures _ := ⟨false, false, false, false⟩
  nbDesc := (512, 512)
  placed _ := none

/-- How the loop ends early. -/
inductive Stop
  | rteExit
  | assertFailed
  | returned (ret : Int)
  deriving DecidableEq, Repr

/-! ## One port -/

/-- The choice of the process-wide key. -/
def chooseKey (cfg : DpdkCfg) (info : DevInfo) (s : PortState) : PortState :=
  let s := if info.hashKeySize = 52 then { s with rsskey := .default52, rsskeyLen := 52 } else s
  if cfg.symmetricRss then { s with rsskey := .symmetric } else s

/-- The `txmode.offloads` of a port. -/
def txOffloads (cfg : DpdkCfg) (info : DevInfo) : UInt64 :=
  let offloads := if has info.txOffloadCapa txOffloadMbufFastFree then txOffloadMbufFastFree else 0
  let offloads := if !cfg.txCsumOffoadSkip && has info.txOffloadCapa txOffloadIpv4Cksum then
      offloads ||| txOffloadIpv4Cksum
    else offloads
  let offloads := if !cfg.txCsumOffoadSkip && (has info.txOffloadCapa txOffloadUdpCksum &&
        has info.txOffloadCapa txOffloadTcpCksum) then
      offloads ||| (txOffloadUdpCksum ||| txOffloadTcpCksum)
    else offloads
  if cfg.tso && has info.txOffloadCapa txOffloadTcpTso then offloads ||| txOffloadTcpTso else offloads

/-- All three receive checksums. -/
def rxCsumCapa (info : DevInfo) : Bool :=
  has info.rxOffloadCapa rxOffloadIpv4Cksum && has info.rxOffloadCapa rxOffloadUdpCksum &&
    has info.rxOffloadCapa rxOffloadTcpCksum

/-- The `rxmode.offloads` of a port. -/
def rxOffloads (cfg : DpdkCfg) (info : DevInfo) : UInt64 :=
  let offloads := if cfg.vlanStrip && has info.rxOffloadCapa rxOffloadVlanStrip then rxOffloadVlanStrip
    else 0
  let offloads := offloads &&& ~~~ rxOffloadKeepCrc
  if rxCsumCapa info then offloads ||| rxOffloadChecksum else offloads

/-- The features that a device adds to those of its port configuration; none is ever taken away. -/
def addFeatures (cfg : DpdkCfg) (info : DevInfo) (hw : HwFeatures) : HwFeatures where
  rxCsum := hw.rxCsum || rxCsumCapa info
  txCsumIp := hw.txCsumIp || (!cfg.txCsumOffoadSkip && has info.txOffloadCapa txOffloadIpv4Cksum)
  txCsumL4 := hw.txCsumL4 || (!cfg.txCsumOffoadSkip && (has info.txOffloadCapa txOffloadUdpCksum &&
    has info.txOffloadCapa txOffloadTcpCksum))
  txTso := hw.txTso || (cfg.tso && has info.txOffloadCapa txOffloadTcpTso)

/-- The block under `if (pconf)`: fill `port_conf` and the process state. -/
def fillConf (cfg : DpdkCfg) (dev : EthDev) (info : DevInfo) (uPort port : UInt16) (s : PortState) :
    Except Stop (PortConf × PortState) :=
  let s := chooseKey cfg info s
  let conf : PortConf :=
    { rss := some ⟨s.rsskey, UInt8.ofNat s.rsskeyLen, dev.rssProtoMask &&& info.flowTypeRssOffloads⟩
      rxOffloads := rxOffloads cfg info
      txOffloads := txOffloads cfg info }
  let s :=
    { s with
      hwFeatures := Function.update s.hwFeatures uPort (addFeatures cfg info (s.hwFeatures uPort))
      placed := Function.update s.placed port (some conf) }
  if info.retaSize = 0 then .ok (conf, s)
  else if info.retaSize &&& (info.retaSize - 1) = 0 then
    .ok (conf, { s with rssRetaSize := Function.update s.rssRetaSize port info.retaSize })
  else .error .assertFailed

/-- The loop over the queues of a port. -/
def setupQueues (dev : EthDev) (port : UInt16) (conf : PortConf) (nbDesc : UInt16 × UInt16) :
    List Nat → Except Stop Unit
  | [] => .ok ()
  | q :: qs =>
      let ret := dev.txQueueSetup port q nbDesc.2 conf.txOffloads
      if ret < 0 then .error (.returned ret)
      else
        let ret := dev.rxQueueSetup port q nbDesc.1 conf.rxOffloads
        if ret < 0 then .error (.returned ret) else setupQueues dev port conf nbDesc qs

/-- Configure, set up the queues, start, fill the redirection table. -/
def startPort (dev : EthDev) (port nbQueues : UInt16) (info : DevInfo) (conf : PortConf)
    (s : PortState) : Except Stop PortState :=
  let ret := dev.configure port nbQueues conf
  if ret ≠ 0 then .error (.returned ret)
  else
    let s := { s with nbDesc := dev.adjustNbDesc port s.nbDesc }
    match setupQueues dev port conf s.nbDesc (List.range nbQueues.toNat) with
    | .error e => .error e
    | .ok () =>
        let ret := dev.start port
        if ret < 0 then .error (.returned ret)
        else if 1 < nbQueues then
          match Rss.setRssTable info.retaSize nbQueues with
          | none => .ok s
          | some table => if dev.rssRetaUpdate port table info.retaSize ≠ 0 then .error .rteExit else .ok s
        else .ok s

/-- One turn of the inner loop. `hasConf` is `pconf != NULL`. -/
def initPort (cfg : DpdkCfg) (dev : EthDev) (hasConf : Bool) (nbQueues uPort port : UInt16)
    (s : PortState) : Except Stop PortState :=
  match dev.infoGet port with
  | .error _ => .error .rteExit
  | .ok info =>
      if info.maxRxQueues < nbQueues then .error .rteExit
      else if info.maxTxQueues < nbQueues then .error .rteExit
      else
        match if hasConf then fillConf cfg dev info uPort port s else .ok (.zero, s) with
        | .error e => .error e
        | .ok (conf, s) => if !cfg.primary then .ok s else startPort dev port nbQueues info conf s

/-! ## All ports -/

/-- One turn for each element of a list, until one fails. -/
def initAll (turn : UInt16 → PortState → Except Stop PortState) :
    List UInt16 → PortState → Except Stop PortState
  | [], s => .ok s
  | p :: ps, s =>
      match turn p s with
      | .error e => .error e
      | .ok s => initAll turn ps s

/-- The ports under one port of the configuration: the slaves, then the port itself. -/
def portsUnder (cfg : DpdkCfg) (uPort : UInt16) : List UInt16 :=
  (cfg.portCfgs uPort).slavePortidList ++ [uPort]

/-- A turn of the outer loop for a port of the configuration. -/
def initConfPort (cfg : DpdkCfg) (dev : EthDev) (uPort : UInt16) (s : PortState) :
    Except Stop PortState :=
  initAll (initPort cfg dev true (cfg.portCfgs uPort).nbLcores uPort) (portsUnder cfg uPort) s

/-- The kernel virtio ports, when there are any. -/
def kniPorts (cfg : DpdkCfg) : List UInt16 :=
  if cfg.enableKni && cfg.primary then
    (List.range cfg.portidList.length).map fun i => UInt16.ofNat i + cfg.nbDevPorts
  else []

/-- `init_port_start`. -/
def initPortStart (cfg : DpdkCfg) (dev : EthDev) (s : PortState) : Except Stop PortState :=
  match initAll (initConfPort cfg dev) cfg.portidList s with
  | .error e => .error e
  | .ok s => initAll (fun p => initPort cfg dev false 1 p p) (kniPorts cfg) s

/-- The ports that get a `port_conf` from the configuration, in the order of the loop. -/
def confPorts (cfg : DpdkCfg) : List UInt16 := cfg.portidList.flatMap (portsUnder cfg)

/-! ## What a turn does -/

section Turn

variable {cfg : DpdkCfg} {dev : EthDev} {nbQueues uPort port : UInt16} {s s' : PortState}

/-- Starting a port adjusts the descriptor counts, sets up the queues with them, and changes nothing else
of the process. -/
theorem startPort_ok {info : DevInfo} {conf : PortConf}
    (h : startPort dev port nbQueues info conf s = .ok s') :
    s' = { s with nbDesc := dev.adjustNbDesc port s.nbDesc } ∧
      setupQueues dev port conf s'.nbDesc (List.range nbQueues.toNat) = .ok () := by
  unfold startPort at h
  by_cases hconf : dev.configure port nbQueues conf ≠ 0
  · rw [if_pos hconf] at h
    cases h
  · rw [if_neg hconf] at h
    cases hq : setupQueues dev port conf (dev.adjustNbDesc port s.nbDesc)
        (List.range nbQueues.toNat) with
    | error e => simp [hq] at h
    | ok u =>
        simp only [hq] at h
        -- every way through the rest ends with the state as it is
        have hsame : { s with nbDesc := dev.adjustNbDesc port s.nbDesc } = s' := by
          split at h
          · cases h
          · split at h
            · split at h
              · exact Except.ok.inj h
              · split at h
                · cases h
                · exact Except.ok.inj h
            · exact Except.ok.inj h
        rw [← hsame]
        exact ⟨rfl, hq⟩

/-- What a turn that completes has done: it asked the device, filled the `port_conf` of a port of the
configuration, and in the primary process started the port. -/
theorem initPort_inv {hasConf : Bool} (h : initPort cfg dev hasConf nbQueues uPort port s = .ok s') :
    ∃ info conf s₁, dev.infoGet port = .ok info ∧
      (if hasConf then fillConf cfg dev info uPort port s else .ok (.zero, s)) = .ok (conf, s₁) ∧
      (if !cfg.primary then .ok s₁ else startPort dev port nbQueues info conf s₁) = .ok s' := by
  unfold initPort at h
  cases hinfo : dev.infoGet port with
  | error e => simp [hinfo] at h
  | ok info =>
      simp only [hinfo] at h
      split at h
      · cases h
      · split at h
        · cases h
        · cases hfill : (if hasConf then fillConf cfg dev info uPort port s else .ok (.zero, s)) with
          | error e => simp [hfill] at h
          | ok r =>
              simp only [hfill] at h
              exact ⟨info, r.1, r.2, rfl, hfill, h⟩

/-- A turn changes nothing but the descriptor counts after `port_conf` was filled. -/
theorem initPort_ok {hasConf : Bool} (h : initPort cfg dev hasConf nbQueues uPort port s = .ok s') :
    ∃ info, dev.infoGet port = .ok info ∧
      ∃ conf s₁ nb, (if hasConf then fillConf cfg dev info uPort port s else .ok (.zero, s)) = .ok (conf, s₁) ∧
        s' = { s₁ with nbDesc := nb } := by
  obtain ⟨info, conf, s₁, hinfo, hfill, hstart⟩ := initPort_inv h
  refine ⟨info, hinfo, conf, s₁, ?_⟩
  split at hstart
  · obtain rfl := Except.ok.inj hstart
    exact ⟨s₁.nbDesc, hfill, rfl⟩
  · obtain ⟨rfl, -⟩ := startPort_ok hstart
    exact ⟨_, hfill, rfl⟩

/-- What `fillConf` leaves, apart from the table size. -/
theorem fillConf_ok {info : DevInfo} {conf : PortConf}
    (h : fillConf cfg dev info uPort port s = .ok (conf, s')) :
    conf.txOffloads = txOffloads cfg info ∧
      conf.rss = some ⟨(chooseKey cfg info s).rsskey, UInt8.ofNat (chooseKey cfg info s).rsskeyLen,
        dev.rssProtoMask &&& info.flowTypeRssOffloads⟩ ∧
      s'.rsskey = (chooseKey cfg info s).rsskey ∧ s'.rsskeyLen = (chooseKey cfg info s).rsskeyLen ∧
      s'.hwFeatures = Function.update s.hwFeatures uPort (addFeatures cfg info (s.hwFeatures uPort)) ∧
      s'.placed = Function.update s.placed port (some conf) := by
  have hkeep : (chooseKey cfg info s).hwFeatures = s.hwFeatures ∧
      (chooseKey cfg info s).placed = s.placed := by
    unfold chooseKey
    split <;> split <;> exact ⟨rfl, rfl⟩
  unfold fillConf at h
  simp only [hkeep.1, hkeep.2] at h
  split at h
  · obtain ⟨rfl, rfl⟩ := Prod.mk.inj (Except.ok.inj h)
    exact ⟨rfl, rfl, rfl, rfl, rfl, rfl⟩
  · split at h
    · obtain ⟨rfl, rfl⟩ := Prod.mk.inj (Except.ok.inj h)
      exact ⟨rfl, rfl, rfl, rfl, rfl, rfl⟩
    · cases h

/-- **The loop rule.** What a turn makes of a prefix of the ports, the loop makes of all of them. -/
theorem initAll_induct {turn : UInt16 → PortState → Except Stop PortState}
    {I : List UInt16 → PortState → Prop} {ps : List UInt16} (done : List UInt16)
    (hturn : ∀ {done p s s'}, p ∈ ps → I done s → turn p s = .ok s' → I (done ++ [p]) s')
    (hs : I done s) (h : initAll turn ps s = .ok s') : I (done ++ ps) s' := by
  induction ps generalizing done s with
  | nil =>
      obtain rfl := Except.ok.inj h
      simpa using hs
  | cons p ps ih =>
      unfold initAll at h
      cases hp : turn p s with
      | error e => simp [hp] at h
      | ok s₁ =>
          simp only [hp] at h
          have hone := hturn List.mem_cons_self hs hp
          have hrest := ih _ (fun hmem => hturn (List.mem_cons_of_mem p hmem)) hone h
          simpa using hrest

/-- `init_port_start` is two loops, one after the other. -/
theorem initPortStart_inv (h : initPortStart cfg dev s = .ok s') :
    ∃ s₁, initAll (initConfPort cfg dev) cfg.portidList s = .ok s₁ ∧
      initAll (fun p => initPort cfg dev false 1 p p) (kniPorts cfg) s₁ = .ok s' := by
  unfold initPortStart at h
  cases hconf : initAll (initConfPort cfg dev) cfg.portidList s with
  | error e => simp [hconf] at h
  | ok s₁ =>
      simp only [hconf] at h
      exact ⟨s₁, rfl, h⟩

/-- The same for `init_port_start`: turns for the ports of the configuration, then turns that only
adjust the descriptor counts. -/
theorem initPortStart_induct {I : List UInt16 → PortState → Prop}
    (hturn : ∀ {done uPort p nbQueues s s'}, uPort ∈ cfg.portidList → p ∈ portsUnder cfg uPort →
      I done s → initPort cfg dev true nbQueues uPort p s = .ok s' → I (done ++ [p]) s')
    (hnb : ∀ {done s nb}, I done s → I done { s with nbDesc := nb }) (hs : I [] s)
    (h : initPortStart cfg dev s = .ok s') : I (confPorts cfg) s' := by
  obtain ⟨s₁, hconf, hkni⟩ := initPortStart_inv h
  have houter : I (([] ++ cfg.portidList).flatMap (portsUnder cfg)) s₁ := by
    refine initAll_induct (I := fun done s => I (done.flatMap (portsUnder cfg)) s) [] ?_ hs hconf
    intro done uPort s s' hmem hI hrun
    rw [List.flatMap_append, List.flatMap_singleton]
    exact initAll_induct _ (fun hp hI' hturn' => hturn hmem hp hI' hturn') hI hrun
  refine initAll_induct (I := fun _ s => I (confPorts cfg) s) [] ?_ houter hkni
  intro done p s s' _ hI hrun
  obtain ⟨info, _, conf, s₂, nb, heq, rfl⟩ := initPort_ok hrun
  obtain ⟨_, rfl⟩ := Prod.mk.inj (Except.ok.inj heq)
  exact hnb hI

end Turn

end LazyBsd.Port
