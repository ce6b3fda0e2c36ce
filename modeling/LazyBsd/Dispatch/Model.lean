/-
# LazyBsd.Dispatch.Model — the workers of all ports and the rings between them.

Every queue of a port has a worker, which takes mbufs from its NIC queue or from its own dispatch ring
and runs `process_packets` over them, one after the other. On the way an mbuf can be put on the ring of
another worker of the port. The workers run in any order: a step of the model is one step of one
worker, and a step touches at most one ring.

An mbuf has a name that is never used again: the worker that received the frame it carries, the number
of that frame, and 0 for the received mbuf itself or the number of the copy. `packet` is the content that `protocol_filter` and the dispatcher see: the data of the
first segment and its length. The dispatcher rewrites the data in place, but only a local copy of the
length. What it answers, whether a clone can be allocated and whether the KNI ring has room is part of
the action. The fields `home` and `log` only record what happened: on which ring an mbuf was put, and the
events so far.
-/
import Mathlib.Logic.Function.Basic
import LazyBsd.Filter.Classifier

namespace LazyBsd.Dispatch

open LazyBsd.Filter

/-- `MAX_PKT_BURST`. -/
def maxPktBurst : Nat := 32

/-- `DISPATCH_RING_SIZE`; a ring of this size holds one mbuf less. -/
def dispatchRingSize : Nat := 2048

/-- `LAZYBSD_DISPATCH_ERROR` and `LAZYBSD_DISPATCH_RESPONSE`. -/
def dispatchError : Int := -1
def dispatchResponse : Int := -2

/-- `enum LAZYBSD_KNICTL_ACTION`: the value of `knictl_action`. -/
inductive KnictlAction
  | default
  | allToKni
  | allToFf
  | other
  deriving DecidableEq, Repr

/-- A worker: its port and its queue. -/
abbrev Wid (Port : Type*) := Port × Nat

/-! ## What is fixed -/

/-- The configuration: what a worker's process has registered and enabled, and its `protocol_filter`.
The classifier of a build with KNI or INET6 need not return (`none`). -/
structure Config (Port Data : Type*) where
  nbQueues : Port → Nat
  packetDispatcher : Wid Port → Bool
  enableKni : Wid Port → Bool
  primary : Wid Port → Bool
  kniAccept : Wid Port → Bool
  inet6 : Bool
  protocolFilter : Wid Port → Data → UInt16 → Option FilterReturn

/-- The frames that every worker of the port gets a copy of. -/
def Config.forAll {Port Data : Type*} (cfg : Config Port Data) (r : FilterReturn) : Bool :=
  r == .arp || (cfg.inet6 && r == .ndp)

/-! ## State -/

/-- The name of an mbuf. -/
structure Mbuf (Port : Type*) where
  receiver : Wid Port
  frame : Nat
  copy : Nat
  deriving DecidableEq

/-- The frame an mbuf carries. -/
def Mbuf.origin {Port : Type*} (m : Mbuf Port) : Wid Port × Nat := (m.receiver, m.frame)

/-- Where an mbuf is handed on to. -/
inductive Dest
  | vethInput
  | txTable
  | dispatchRing (queue : Nat)
  | kniRing
  | freed
  deriving DecidableEq, Repr

/-- What happens to mbufs. -/
inductive Event (Port : Type*)
  /-- The worker receives a frame from its NIC queue. -/
  | received (w : Wid Port) (m : Mbuf Port)
  /-- The worker takes an mbuf from its ring. -/
  | dequeued (w : Wid Port) (m : Mbuf Port)
  /-- The worker gives an mbuf to the dispatcher. -/
  | dispatched (w : Wid Port) (m : Mbuf Port)
  /-- The worker hands on an mbuf that it took. -/
  | passed (w : Wid Port) (m : Mbuf Port) (d : Dest)
  /-- The worker made the copy `c` of `m` and hands it on. -/
  | cloned (w : Wid Port) (m c : Mbuf Port) (d : Dest)
  deriving DecidableEq

/-- The first segment of an mbuf. -/
structure Packet (Data : Type*) where
  data : Data
  dataLen : UInt16

/-- Where `process_packets` stands with the first mbuf of the batch; `len` is its local variable. -/
inductive Phase
  | start
  | filter (len : UInt16)
  | clone (j : Nat)
  | kni
  | input
  deriving DecidableEq, Repr

/-- The mbufs a worker still has to process, and `pkts_from_ring`. -/
structure Worker (Port : Type*) where
  batch : List (Mbuf Port)
  fromRing : Bool
  phase : Phase
  deriving DecidableEq

/-- The state of all workers and rings. -/
structure World (Port Data : Type*) where
  workers : Wid Port → Worker Port
  rings : Wid Port → List (Mbuf Port)
  packet : Mbuf Port → Packet Data
  frames : Nat
  copies : Nat
  home : Mbuf Port → Wid Port
  log : List (Event Port)

/-- Before the workers run: no mbuf anywhere. -/
def World.init {Port Data : Type*} (packet : Mbuf Port → Packet Data) : World Port Data where
  workers _ := ⟨[], false, .start⟩
  rings _ := []
  packet := packet
  frames := 0
  copies := 0
  home m := m.receiver
  log := []

variable {Port Data : Type*} [DecidableEq Port]

/-! ## The pieces of `process_packets` -/

/-- Go on with the first mbuf of the batch in another phase. -/
def setPhase (w : Wid Port) (p : Phase) (s : World Port Data) : World Port Data :=
  { s with workers := Function.update s.workers w { s.workers w with phase := p } }

/-- The worker hands on the first mbuf of its batch and turns to the next. -/
def handOn (w : Wid Port) (m : Mbuf Port) (d : Dest) (s : World Port Data) : World Port Data :=
  { s with
    workers := Function.update s.workers w
      { s.workers w with batch := (s.workers w).batch.tail, phase := .start }
    log := s.log ++ [.passed w m d] }

/-- Does `rte_ring_enqueue` find room? -/
def hasRoom (r : Wid Port) (s : World Port Data) : Bool :=
  decide ((s.rings r).length < dispatchRingSize - 1)

/-- The store of a successful `rte_ring_enqueue`. -/
def putOnRing (r : Wid Port) (m : Mbuf Port) (s : World Port Data) : World Port Data :=
  { s with
    rings := Function.update s.rings r (s.rings r ++ [m])
    home := Function.update s.home m r }

/-- Enqueue on the ring of another queue of the port; a full ring frees the mbuf. -/
def redirect (w : Wid Port) (m : Mbuf Port) (q : Nat) (s : World Port Data) : World Port Data :=
  if hasRoom (w.1, q) s then handOn w m (.dispatchRing q) (putOnRing (w.1, q) m s)
  else handOn w m .freed s

/-- `lazybsd_kni_enqueue`: the mbuf is owned, a full ring frees it. -/
def kniEnqueue (room : Bool) : Dest := if room then .kniRing else .freed

/-- Store to the first segment of an mbuf. -/
def setPacket (m : Mbuf Port) (p : Packet Data) (s : World Port Data) : World Port Data :=
  { s with packet := Function.update s.packet m p }

/-- The call of the dispatcher, which leaves `data` in the mbuf. -/
def askDispatcher (w : Wid Port) (m : Mbuf Port) (data : Data) (s : World Port Data) :
    World Port Data :=
  { setPacket m ⟨data, (s.packet m).dataLen⟩ s with log := s.log ++ [.dispatched w m] }

/-- The block under `if (!pkts_from_ring && packet_dispatcher)`: the dispatcher leaves `data` and `len`
and answers `ret`. An answer that is neither of the two codes nor at least 0 is not allowed. -/
def dispatchAnswer (cfg : Config Port Data) (w : Wid Port) (m : Mbuf Port) (ret : Int) (data : Data)
    (len : UInt16) (s : World Port Data) : Option (World Port Data) :=
  let s := askDispatcher w m data s
  if ret = dispatchResponse then some (handOn w m .txTable (setPacket m ⟨data, len⟩ s))
  else if ret = dispatchError ∨ (cfg.nbQueues w.1 : Int) ≤ ret then some (handOn w m .freed s)
  else if ret < 0 then none
  else if ret ≠ w.2 then some (redirect w m ret.toNat s)
  else some (setPhase w (.filter len) s)

/-- The tests on the result of `protocol_filter` for a frame that is not for all workers. -/
def unicastDest (cfg : Config Port Data) (w : Wid Port) (r : FilterReturn) (a : KnictlAction)
    (room : Bool) : Dest :=
  if cfg.enableKni w then
    match a with
    | .allToKni => kniEnqueue room
    | .allToFf => .vethInput
    | .default =>
        if (r == .kni && cfg.kniAccept w) || (r == .unknown && !cfg.kniAccept w) then kniEnqueue room
        else .vethInput
    | .other => .vethInput
  else .vethInput

/-- The name of the next copy of `m`. -/
def nextCopy (m : Mbuf Port) (s : World Port Data) : Mbuf Port := { m with copy := s.copies + 1 }

/-- `pktmbuf_deep_clone`. -/
def deepClone (m : Mbuf Port) (s : World Port Data) : World Port Data :=
  { s with
    packet := Function.update s.packet (nextCopy m s) (s.packet m)
    copies := s.copies + 1 }

/-- Record that the copy `c` of `m` is handed on. -/
def logClone (w : Wid Port) (m c : Mbuf Port) (d : Dest) (s : World Port Data) : World Port Data :=
  { s with log := s.log ++ [.cloned w m c d] }

/-- One turn of the loop over the other queues: clone and enqueue; a full ring frees the clone. -/
def cloneFor (w : Wid Port) (m : Mbuf Port) (j : Nat) (s : World Port Data) : World Port Data :=
  if hasRoom (w.1, j) s then
    logClone w m (nextCopy m s) (.dispatchRing j) (putOnRing (w.1, j) (nextCopy m s) (deepClone m s))
  else logClone w m (nextCopy m s) .freed (deepClone m s)

/-- The copy for the kernel. -/
def cloneForKni (w : Wid Port) (m : Mbuf Port) (room : Bool) (s : World Port Data) : World Port Data :=
  logClone w m (nextCopy m s) (kniEnqueue room) (deepClone m s)

/-! ## Steps -/

/-- A step of a worker. -/
inductive Action (Data : Type*)
  /-- `rte_eth_rx_burst` delivers frames. -/
  | rxBurst (packets : List (Packet Data))
  /-- `rte_ring_dequeue_burst` on the worker's ring. -/
  | ringBurst
  /-- Up to the dispatcher's answer, if it is asked. -/
  | dispatch (ret : Int) (data : Data) (len : UInt16)
  /-- `protocol_filter` and the choice it decides. -/
  | filter (a : KnictlAction) (room : Bool)
  /-- One turn of the loop over the other queues. -/
  | clone (allocOk : Bool)
  /-- The copy for the kernel. -/
  | kni (allocOk room : Bool)
  /-- `lazybsd_veth_input` at the end of the branch. -/
  | input

/-- The mbufs of the next `n` frames. -/
def nextFrames (w : Wid Port) (n : Nat) (s : World Port Data) : List (Mbuf Port) :=
  (List.range' s.frames n).map fun i => ⟨w, i, 0⟩

/-- A burst from the NIC queue becomes the batch. -/
def receive (w : Wid Port) (packets : List (Packet Data)) (s : World Port Data) : World Port Data :=
  let ms := nextFrames w packets.length s
  { s with
    workers := Function.update s.workers w ⟨ms, false, .start⟩
    packet := fun m => if s.frames ≤ m.frame then packets.getD (m.frame - s.frames) (s.packet m)
      else s.packet m
    frames := s.frames + packets.length
    log := s.log ++ ms.map (.received w) }

/-- At most `MAX_PKT_BURST` mbufs leave the ring. -/
def dequeueBurst (w : Wid Port) (s : World Port Data) : World Port Data :=
  let ms := (s.rings w).take maxPktBurst
  { s with
    workers := Function.update s.workers w ⟨ms, true, .start⟩
    rings := Function.update s.rings w ((s.rings w).drop maxPktBurst)
    log := s.log ++ ms.map (.dequeued w) }

/-- The body of `process_packets` on the first mbuf `m` of the batch. -/
def processPacket (cfg : Config Port Data) (w : Wid Port) (m : Mbuf Port) (s : World Port Data) :
    Phase → Action Data → Option (World Port Data)
  | .start, .dispatch ret data len =>
      if !(s.workers w).fromRing && cfg.packetDispatcher w then dispatchAnswer cfg w m ret data len s
      else some (setPhase w (.filter (s.packet m).dataLen) s)
  | .filter len, .filter a room =>
      match cfg.protocolFilter w (s.packet m).data len with
      | none => none
      | some r =>
          if cfg.forAll r then
            some (setPhase w (if (s.workers w).fromRing then .kni else .clone 0) s)
          else some (handOn w m (unicastDest cfg w r a room) s)
  | .clone j, .clone allocOk =>
      if cfg.nbQueues w.1 ≤ j then some (setPhase w .kni s)
      else if j = w.2 ∨ !allocOk then some (setPhase w (.clone (j + 1)) s)
      else some (setPhase w (.clone (j + 1)) (cloneFor w m j s))
  | .kni, .kni allocOk room =>
      if cfg.enableKni w && cfg.primary w && allocOk then
        some (setPhase w .input (cloneForKni w m room s))
      else some (setPhase w .input s)
  | .input, .input => some (handOn w m .vethInput s)
  | _, _ => none

/-- One step of the worker `w`: a new burst when it has nothing to do, else the next step with the first
mbuf of its batch. -/
def step (cfg : Config Port Data) (s : World Port Data) (a : Wid Port × Action Data) :
    Option (World Port Data) :=
  if a.1.2 < cfg.nbQueues a.1.1 then
    match (s.workers a.1).batch, a.2 with
    | [], .rxBurst packets =>
        if packets.length ≤ maxPktBurst then some (receive a.1 packets s) else none
    | [], .ringBurst => some (dequeueBurst a.1 s)
    | [], _ => none
    | m :: _, act => processPacket cfg a.1 m s (s.workers a.1).phase act
  else none

end LazyBsd.Dispatch
