/-
# LazyBsd.MemPool — `init_mem_pool`: one packet pool for each socket.

The loop runs over the lcores of the processes. The first time it meets a socket it creates the packet
pool of that socket and, in the page-array build, the reference pool. One variable holds the number of
mbufs of both: it starts as the count for packet pools, and from the first reference pool on it is the
count for reference pools. So only the first socket gets a packet pool of full size.

DPDK is a parameter (`Eal`): the socket of an lcore, and which pools there is memory for. The pools that
are created are the events of a computation which `rte_exit` cuts off.
-/
import Mathlib.Algebra.Group.Nat.Defs
import Mathlib.Data.List.Basic
import Mathlib.Logic.Function.Basic
import LazyBsd.Lib.Trace

namespace LazyBsd.MemPool

open Lib Traced

/-! ## Sizes -/

def rxQueueSize : UInt32 := 512
def txQueueSize : UInt32 := 512
def maxPktBurst : UInt32 := 32
def mempoolCacheSize : UInt32 := 256
def dispatchRingSize : UInt32 := 2048
def kniMbufMax : UInt32 := 2048
def kniQueueSize : UInt32 := kniMbufMax
def nbSockets : UInt32 := 8

/-- `RTE_MBUF_DEFAULT_BUF_SIZE`: 2048 bytes of data and 128 of headroom. -/
def rteMbufDefaultBufSize : UInt16 := 2176

/-- `RTE_ALIGN_CEIL`, for a power of two. -/
def rteAlignCeil (val align : UInt32) : UInt32 := (val + (align - 1)) &&& ~~~(align - 1)

/-- What `init_mem_pool` reads; `nb_procs` is the length of `proc_lcore`, which `lazybsd_dpdk_init` has
checked against `RTE_MAX_LCORE`. `kni` and `pageArray` are options of the build. -/
structure PoolCfg where
  nbPorts : UInt8
  procLcore : List UInt16
  nbRxQueue : UInt16
  maxPortid : UInt16
  numaOn : Bool
  primary : Bool
  kni : Bool
  pageArray : Bool
  deriving DecidableEq

def PoolCfg.nbLcores (cfg : PoolCfg) : UInt32 := UInt32.ofNat cfg.procLcore.length

/-- The `nb_mbuf` that is computed before the loop. -/
def packetMbufs (cfg : PoolCfg) : UInt32 :=
  let nbPorts := cfg.nbPorts.toUInt32
  let nbTxQueue := cfg.nbLcores
  let nbRxQueue := cfg.nbRxQueue.toUInt32 * cfg.nbLcores
  let portids := cfg.maxPortid.toUInt32 + 1
  rteAlignCeil (nbRxQueue * portids * 2 * rxQueueSize +
      nbPorts * portids * 2 * cfg.nbLcores * maxPktBurst +
      nbPorts * portids * 2 * nbTxQueue * txQueueSize + cfg.nbLcores * mempoolCacheSize +
      (if cfg.kni then nbPorts * kniMbufMax + nbPorts * kniQueueSize else 0) +
      cfg.nbLcores * nbPorts * dispatchRingSize) 8192

/-- The `nb_mbuf` of the reference pools. -/
def refMbufs (cfg : PoolCfg) : UInt32 :=
  let nbPorts := cfg.nbPorts.toUInt32
  let nbTxQueue := cfg.nbLcores
  rteAlignCeil (nbPorts * cfg.nbLcores * maxPktBurst + nbPorts * nbTxQueue * txQueueSize +
    cfg.nbLcores * mempoolCacheSize) 4096

/-! ## Pools -/

/-- The arguments of `rte_pktmbuf_pool_create`. -/
structure Pool where
  name : String
  n : UInt32
  cacheSize : UInt32
  privSize : UInt16
  dataRoomSize : UInt16
  socketId : UInt32
  deriving DecidableEq, Repr

structure Eal where
  lcoreToSocketId : UInt16 → UInt32
  /-- Is there memory for the pool? -/
  pktmbufPoolCreate : Pool → Bool
  mempoolLookup : String → Option Pool

/-- A pool that was created, with its place in `pktmbuf_pool` or `lazybsd_ref_pool`. -/
inductive PoolEvent
  | packet (socketid : UInt32) (p : Pool)
  | ref (socketid : UInt32) (p : Pool)
  deriving DecidableEq, Repr

/-- `nb_mbuf`, `pktmbuf_pool` and `lazybsd_ref_pool`. -/
structure PoolState where
  nbMbuf : UInt32
  pktmbufPool : UInt32 → Option Pool
  refPool : UInt32 → Option Pool

def packetPool (nbMbuf socketid : UInt32) : Pool :=
  ⟨"mbuf_pool_" ++ toString socketid, nbMbuf, mempoolCacheSize, 0, rteMbufDefaultBufSize, socketid⟩

def refPool (nbMbuf socketid : UInt32) : Pool :=
  ⟨"lazybsd_ref_pool_" ++ toString socketid, nbMbuf, mempoolCacheSize, 0, 0, socketid⟩

/-- The pool that the primary process creates and the others look up. -/
def obtainPool (cfg : PoolCfg) (eal : Eal) (p : Pool) (event : PoolEvent) :
    Traced PoolEvent (Option Pool) :=
  if cfg.primary then
    if eal.pktmbufPoolCreate p then do
      emit event
      pure (some p)
    else pure none
  else pure (eal.mempoolLookup p.name)

/-- A reference pool that cannot be created is not an error here. -/
def lazybsdInitRefPool (cfg : PoolCfg) (eal : Eal) (nbMbuf socketid : UInt32) (st : PoolState) :
    Traced PoolEvent PoolState :=
  if (st.refPool socketid).isSome then pure st
  else do
    let p := refPool nbMbuf socketid
    let pool ← obtainPool cfg eal p (.ref socketid p)
    pure { st with refPool := Function.update st.refPool socketid pool }

def socketOf (cfg : PoolCfg) (eal : Eal) (lcoreId : UInt16) : UInt32 :=
  if cfg.numaOn then eal.lcoreToSocketId lcoreId else 0

/-- One turn of the loop. -/
def poolTurn (cfg : PoolCfg) (eal : Eal) (lcoreId : UInt16) (st : PoolState) :
    Traced PoolEvent PoolState :=
  let socketid := socketOf cfg eal lcoreId
  if nbSockets ≤ socketid then cut
  else if (st.pktmbufPool socketid).isSome then pure st
  else do
    let p := packetPool st.nbMbuf socketid
    match ← obtainPool cfg eal p (.packet socketid p) with
    | none => cut
    | some pool =>
        let st := { st with pktmbufPool := Function.update st.pktmbufPool socketid (some pool) }
        if cfg.pageArray then
          lazybsdInitRefPool cfg eal (refMbufs cfg) socketid { st with nbMbuf := refMbufs cfg }
        else pure st

def poolLoop (cfg : PoolCfg) (eal : Eal) : List UInt16 → PoolState → Traced PoolEvent PoolState
  | [], st => pure st
  | lcoreId :: lcores, st => do
      let st ← poolTurn cfg eal lcoreId st
      poolLoop cfg eal lcores st

def initMemPool (cfg : PoolCfg) (eal : Eal) : Traced PoolEvent PoolState :=
  poolLoop cfg eal cfg.procLcore ⟨packetMbufs cfg, fun _ => none, fun _ => none⟩

/-! ## The right size -/

/-- A packet pool has the count computed before the loop, a reference pool its own. -/
def RightSize (cfg : PoolCfg) : PoolEvent → Prop
  | .packet _ p => p.n = packetMbufs cfg
  | .ref _ p => p.n = refMbufs cfg

instance (cfg : PoolCfg) (e : PoolEvent) : Decidable (RightSize cfg e) := by
  cases e <;> exact inferInstanceAs (Decidable (_ = _))

/-- Of the processes' sockets `s` is the first that is not `s₀`, and there is memory for a packet pool of
the reference count on it. -/
def NextPool (cfg : PoolCfg) (eal : Eal) (s₀ : UInt32) (lcores : List UInt16) : Prop :=
  ∃ s, (lcores.map (socketOf cfg eal)).find? (fun s => s ≠ s₀) = some s ∧ s < nbSockets ∧
    eal.pktmbufPoolCreate (packetPool (refMbufs cfg) s) = true

/-- Packet pools are created on two sockets. -/
def SecondPool (cfg : PoolCfg) (eal : Eal) : Prop :=
  ∃ s₀, (cfg.procLcore.map (socketOf cfg eal)).head? = some s₀ ∧ s₀ < nbSockets ∧
    eal.pktmbufPoolCreate (packetPool (packetMbufs cfg) s₀) = true ∧
    NextPool cfg eal s₀ cfg.procLcore

/-! ## One turn -/

section Turn

variable {cfg : PoolCfg} {eal : Eal} {lcoreId : UInt16} {lcores : List UInt16} {st : PoolState}
  {s₀ : UInt32}

@[simp] theorem packetPool_n (nbMbuf socketid : UInt32) : (packetPool nbMbuf socketid).n = nbMbuf := rfl

@[simp] theorem refPool_n (nbMbuf socketid : UInt32) : (refPool nbMbuf socketid).n = nbMbuf := rfl

theorem obtainPool_room {p : Pool} (event : PoolEvent) (hprimary : cfg.primary = true)
    (hroom : eal.pktmbufPoolCreate p = true) :
    obtainPool cfg eal p event = (do emit event; pure (some p)) := by
  rw [obtainPool, if_pos hprimary, if_pos hroom]

theorem obtainPool_full {p : Pool} (event : PoolEvent) (hprimary : cfg.primary = true)
    (hfull : eal.pktmbufPoolCreate p = false) : obtainPool cfg eal p event = pure none := by
  rw [obtainPool, if_pos hprimary, hfull, if_neg Bool.false_ne_true]

/-- In the primary process reference pools have their count, and are all the function touches. -/
theorem lazybsdInitRefPool_spec (eal : Eal) (hprimary : cfg.primary = true) (socketid : UInt32)
    (st : PoolState) :
    (lazybsdInitRefPool cfg eal (refMbufs cfg) socketid st).All (RightSize cfg) ∧
      ∃ st', (lazybsdInitRefPool cfg eal (refMbufs cfg) socketid st).res = some st' ∧
        st'.nbMbuf = st.nbMbuf ∧ st'.pktmbufPool = st.pktmbufPool := by
  unfold lazybsdInitRefPool
  by_cases hknown : (st.refPool socketid).isSome = true
  · rw [if_pos hknown]
    exact ⟨all_pure.mpr trivial, st, rfl, rfl, rfl⟩
  · rw [if_neg hknown]
    dsimp only
    by_cases hroom : eal.pktmbufPoolCreate (refPool (refMbufs cfg) socketid) = true
    · rw [obtainPool_room _ hprimary hroom]
      exact ⟨by simp [RightSize], _, rfl, rfl, rfl⟩
    · rw [obtainPool_full _ hprimary (Bool.not_eq_true _ ▸ hroom)]
      exact ⟨by simp, _, rfl, rfl, rfl⟩

/-- The exits. -/
theorem poolTurn_range (hrange : nbSockets ≤ socketOf cfg eal lcoreId) :
    poolTurn cfg eal lcoreId st = cut := by
  unfold poolTurn
  rw [if_pos hrange]

theorem poolTurn_full (hprimary : cfg.primary = true)
    (hnew : st.pktmbufPool (socketOf cfg eal lcoreId) = none)
    (hfull : eal.pktmbufPoolCreate (packetPool st.nbMbuf (socketOf cfg eal lcoreId)) = false) :
    poolTurn cfg eal lcoreId st = cut := by
  unfold poolTurn
  by_cases hrange : nbSockets ≤ socketOf cfg eal lcoreId
  · rw [if_pos hrange]
  · rw [if_neg hrange, hnew, if_neg (by decide)]
    dsimp only
    rw [obtainPool_full _ hprimary hfull]
    rfl

/-- A socket that has its pool. -/
theorem poolTurn_known (hrange : ¬ nbSockets ≤ socketOf cfg eal lcoreId)
    (hknown : (st.pktmbufPool (socketOf cfg eal lcoreId)).isSome = true) :
    poolTurn cfg eal lcoreId st = pure st := by
  unfold poolTurn
  rw [if_neg hrange, if_pos hknown]

/-- A new socket gets a packet pool of the current count; with its reference pool the count changes. -/
theorem poolTurn_new (hprimary : cfg.primary = true) (hrange : ¬ nbSockets ≤ socketOf cfg eal lcoreId)
    (hnew : st.pktmbufPool (socketOf cfg eal lcoreId) = none)
    (hroom : eal.pktmbufPoolCreate (packetPool st.nbMbuf (socketOf cfg eal lcoreId)) = true) :
    ((poolTurn cfg eal lcoreId st).All (RightSize cfg) ↔ st.nbMbuf = packetMbufs cfg) ∧
      ∃ st', (poolTurn cfg eal lcoreId st).res = some st' ∧
        st'.nbMbuf = (if cfg.pageArray then refMbufs cfg else st.nbMbuf) ∧
        st'.pktmbufPool = Function.update st.pktmbufPool (socketOf cfg eal lcoreId)
          (some (packetPool st.nbMbuf (socketOf cfg eal lcoreId))) := by
  unfold poolTurn
  rw [if_neg hrange, hnew, if_neg (by decide)]
  dsimp only
  rw [obtainPool_room _ hprimary hroom]
  cases hpage : cfg.pageArray with
  | false =>
      refine ⟨?_, _, rfl, rfl, rfl⟩
      simp [RightSize]
  | true =>
      obtain ⟨hall, st', hres, hcount, hpools⟩ := lazybsdInitRefPool_spec eal hprimary
        (socketOf cfg eal lcoreId) { st with
          nbMbuf := refMbufs cfg
          pktmbufPool := Function.update st.pktmbufPool (socketOf cfg eal lcoreId)
            (some (packetPool st.nbMbuf (socketOf cfg eal lcoreId))) }
      refine ⟨?_, st', hres, hcount, hpools⟩
      simp [RightSize, hall]

end Turn

/-! ## All turns -/

section Loop

variable {cfg : PoolCfg} {eal : Eal} {lcores : List UInt16} {st : PoolState} {s₀ : UInt32}

theorem poolLoop_all_cons {P : PoolEvent → Prop} {lcoreId : UInt16} {st' : PoolState}
    (h : (poolTurn cfg eal lcoreId st).res = some st') :
    (poolLoop cfg eal (lcoreId :: lcores) st).All P ↔
      (poolTurn cfg eal lcoreId st).All P ∧ (poolLoop cfg eal lcores st').All P := by
  rw [poolLoop, all_bind_of_res h]

theorem poolLoop_all_cut {P : PoolEvent → Prop} {lcoreId : UInt16}
    (h : poolTurn cfg eal lcoreId st = cut) : (poolLoop cfg eal (lcoreId :: lcores) st).All P := by
  rw [poolLoop, h, all_bind]
  exact ⟨all_cut.mpr trivial, fun a ha => absurd ha.symm (Option.some_ne_none a)⟩

/-- Where the reference count is not used, or is the same, all pools have the full count. -/
theorem poolLoop_steady (hprimary : cfg.primary = true) (hcount : st.nbMbuf = packetMbufs cfg)
    (hsame : cfg.pageArray = true → packetMbufs cfg = refMbufs cfg) :
    (poolLoop cfg eal lcores st).All (RightSize cfg) := by
  induction lcores generalizing st with
  | nil => exact all_pure.mpr trivial
  | cons lcoreId lcores ih =>
      by_cases hrange : nbSockets ≤ socketOf cfg eal lcoreId
      · exact poolLoop_all_cut (poolTurn_range hrange)
      · cases hpool : st.pktmbufPool (socketOf cfg eal lcoreId) with
        | some p =>
            have hturn := poolTurn_known hrange (Option.isSome_of_eq_some hpool)
            rw [poolLoop_all_cons (by rw [hturn]; rfl), hturn]
            exact ⟨all_pure.mpr trivial, ih hcount⟩
        | none =>
            cases hroom : eal.pktmbufPoolCreate (packetPool st.nbMbuf (socketOf cfg eal lcoreId)) with
            | false => exact poolLoop_all_cut (poolTurn_full hprimary hpool hroom)
            | true =>
                obtain ⟨hall, st', hres, hcount', -⟩ := poolTurn_new hprimary hrange hpool hroom
                rw [poolLoop_all_cons hres]
                refine ⟨hall.mpr hcount, ih ?_⟩
                rw [hcount']
                split
                · next hpage => exact (hsame hpage).symm
                · exact hcount

theorem nextPool_cons_same {lcoreId : UInt16} (h : socketOf cfg eal lcoreId = s₀) :
    NextPool cfg eal s₀ (lcoreId :: lcores) ↔ NextPool cfg eal s₀ lcores := by
  rw [NextPool, NextPool, List.map_cons, List.find?_cons_of_neg (by simp [h])]

theorem nextPool_cons_other {lcoreId : UInt16} (h : socketOf cfg eal lcoreId ≠ s₀) :
    NextPool cfg eal s₀ (lcoreId :: lcores) ↔ socketOf cfg eal lcoreId < nbSockets ∧
      eal.pktmbufPoolCreate (packetPool (refMbufs cfg) (socketOf cfg eal lcoreId)) = true := by
  rw [NextPool, List.map_cons, List.find?_cons_of_pos (by simp [h])]
  constructor
  · rintro ⟨s, hs, hrange, hroom⟩
    obtain rfl := Option.some.inj hs
    exact ⟨hrange, hroom⟩
  · rintro ⟨hrange, hroom⟩
    exact ⟨_, rfl, hrange, hroom⟩

/-- After the first socket the count is the one for reference pools: a packet pool on another socket is
too small. -/
theorem poolLoop_rest (hprimary : cfg.primary = true) (hdiff : packetMbufs cfg ≠ refMbufs cfg)
    (hcount : st.nbMbuf = refMbufs cfg) (hrange₀ : s₀ < nbSockets)
    (hpools : ∀ s, (st.pktmbufPool s).isSome = true ↔ s = s₀) :
    (poolLoop cfg eal lcores st).All (RightSize cfg) ↔ ¬ NextPool cfg eal s₀ lcores := by
  induction lcores with
  | nil =>
      refine iff_of_true (all_pure.mpr trivial) ?_
      rintro ⟨s, hs, -⟩
      cases hs
  | cons lcoreId lcores ih =>
      by_cases hsocket : socketOf cfg eal lcoreId = s₀
      · have hturn : poolTurn cfg eal lcoreId st = pure st :=
          poolTurn_known (by rw [hsocket]; exact UInt32.not_le.mpr hrange₀) ((hpools _).mpr hsocket)
        rw [poolLoop_all_cons (by rw [hturn]; rfl), hturn, all_pure, true_and, ih,
          nextPool_cons_same hsocket]
      · rw [nextPool_cons_other hsocket]
        have hnew : st.pktmbufPool (socketOf cfg eal lcoreId) = none := by
          rw [← Option.not_isSome_iff_eq_none, hpools]
          exact hsocket
        by_cases hrange : nbSockets ≤ socketOf cfg eal lcoreId
        · refine iff_of_true (poolLoop_all_cut (poolTurn_range hrange)) ?_
          rintro ⟨hlt, -⟩
          exact UInt32.not_le.mpr hlt hrange
        · rw [← hcount]
          cases hroom : eal.pktmbufPoolCreate (packetPool st.nbMbuf (socketOf cfg eal lcoreId)) with
          | false =>
              refine iff_of_true (poolLoop_all_cut (poolTurn_full hprimary hnew hroom)) ?_
              rintro ⟨-, hfalse⟩
              cases hfalse
          | true =>
              obtain ⟨hall, st', hres, -, -⟩ := poolTurn_new hprimary hrange hnew hroom
              rw [poolLoop_all_cons hres, hall, hcount]
              apply iff_of_false
              · rintro ⟨hsame, -⟩
                exact hdiff hsame.symm
              · exact not_not_intro ⟨UInt32.not_le.mp hrange, rfl⟩

end Loop

/-- In the primary process every pool has its size, exactly if this is not the page-array build, or the
two counts are the same, or no packet pool is created on a second socket. -/
theorem pools_have_full_size_iff (cfg : PoolCfg) (eal : Eal) (hprimary : cfg.primary = true) :
    (initMemPool cfg eal).All (RightSize cfg) ↔
      ¬ (cfg.pageArray = true ∧ packetMbufs cfg ≠ refMbufs cfg ∧ SecondPool cfg eal) := by
  unfold initMemPool
  by_cases hsame : cfg.pageArray = true → packetMbufs cfg = refMbufs cfg
  · refine iff_of_true (poolLoop_steady hprimary rfl hsame) ?_
    rintro ⟨hpage, hdiff, -⟩
    exact hdiff (hsame hpage)
  · obtain ⟨hpage, hdiff⟩ := Classical.not_imp.mp hsame
    have hcond : (cfg.pageArray = true ∧ packetMbufs cfg ≠ refMbufs cfg ∧ SecondPool cfg eal) ↔
        SecondPool cfg eal := ⟨fun h => h.2.2, fun h => ⟨hpage, hdiff, h⟩⟩
    rw [hcond, SecondPool]
    cases hlcores : cfg.procLcore with
    | nil =>
        refine iff_of_true (all_pure.mpr trivial) ?_
        rintro ⟨s, hs, -⟩
        cases hs
    | cons lcoreId lcores =>
        -- the first two cases end the process at the first lcore, with no pool made
        by_cases hrange : nbSockets ≤ socketOf cfg eal lcoreId
        · refine iff_of_true (poolLoop_all_cut (poolTurn_range hrange)) ?_
          rintro ⟨s, hs, hlt, -⟩
          obtain rfl := Option.some.inj hs
          exact UInt32.not_le.mpr hlt hrange
        · cases hroom : eal.pktmbufPoolCreate
              (packetPool (packetMbufs cfg) (socketOf cfg eal lcoreId)) with
          | false =>
              refine iff_of_true (poolLoop_all_cut (poolTurn_full hprimary rfl hroom)) ?_
              rintro ⟨s, hs, -, hcreate, -⟩
              obtain rfl := Option.some.inj hs
              rw [hroom] at hcreate
              cases hcreate
          | true =>
              -- behind the first turn there is one pool, and the number is that of the reference pool
              have hnew : (⟨packetMbufs cfg, fun _ => none, fun _ => none⟩ : PoolState).pktmbufPool
                  (socketOf cfg eal lcoreId) = none := rfl
              obtain ⟨hall, st', hres, hcount, hpools⟩ := poolTurn_new hprimary hrange hnew hroom
              rw [hpage, if_pos rfl] at hcount
              have hlt := UInt32.not_le.mp hrange
              rw [poolLoop_all_cons hres, poolLoop_rest hprimary hdiff hcount hlt (by
                intro s
                rw [hpools]
                by_cases hs : s = socketOf cfg eal lcoreId
                · rw [hs, Function.update_self]
                  simp
                · rw [Function.update_of_ne hs]
                  simp [hs])]
              rw [and_iff_right (hall.mpr rfl), ← nextPool_cons_same rfl]
              apply not_congr
              constructor
              · intro hnext
                exact ⟨_, rfl, hlt, hroom, hnext⟩
              · rintro ⟨s, hs, -, -, hnext⟩
                obtain rfl := Option.some.inj hs
                exact hnext

/-! ## Two processes -/

namespace Sample

/-- Lcores 0 and 1 poll one port, in the page-array build. -/
def cfg (numaOn : Bool) : PoolCfg := ⟨1, [0, 1], 1, 0, numaOn, true, false, true⟩

/-- Each lcore is on a socket of its own, with memory for everything. -/
def eal : Eal := ⟨fun lcoreId => lcoreId.toUInt32, fun _ => true, fun _ => none⟩

end Sample

/-- Without NUMA both share the pools of socket 0. -/
theorem pools_of_one_socket : (initMemPool (Sample.cfg false) Sample.eal).All
    (RightSize (Sample.cfg false)) := by
  refine (pools_have_full_size_iff (Sample.cfg false) Sample.eal rfl).mpr ?_
  rintro ⟨-, -, s₀, hs₀, -, -, s, hs, -⟩
  obtain rfl := Option.some.inj hs₀
  cases hs

/-- On two sockets the second packet pool has as few mbufs as a reference pool: 4096, not 16384. -/
theorem second_socket_gets_small_pool :
    (initMemPool (Sample.cfg true) Sample.eal).log =
      [.packet 0 (packetPool 16384 0), .ref 0 (refPool 4096 0),
        .packet 1 (packetPool 4096 1), .ref 1 (refPool 4096 1)] ∧
      packetMbufs (Sample.cfg true) = 16384 ∧
      ¬ (initMemPool (Sample.cfg true) Sample.eal).All (RightSize (Sample.cfg true)) := by
  have hlog : (initMemPool (Sample.cfg true) Sample.eal).log =
      [.packet 0 (packetPool 16384 0), .ref 0 (refPool 4096 0),
        .packet 1 (packetPool 4096 1), .ref 1 (refPool 4096 1)] := rfl
  refine ⟨hlog, rfl, ?_⟩
  intro hall
  have hsecond : (packetPool 4096 1).n = packetMbufs (Sample.cfg true) :=
    hall (.packet 1 (packetPool 4096 1)) (by
      rw [hlog]
      exact List.mem_cons_of_mem _ (List.mem_cons_of_mem _ List.mem_cons_self))
  exact absurd hsecond (by decide)

end LazyBsd.MemPool
