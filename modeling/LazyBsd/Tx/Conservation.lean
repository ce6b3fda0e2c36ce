/-
# LazyBsd.Tx.Conservation — no queued frame is lost, and when one is.

Every frame stored into a transmit table has been handed to `rte_eth_tx_burst` or still waits in its
table, in the order of the stores: `stored = handed ++ queued` for every port. Successful sends,
responses, bursts and drains keep this law. A send whose conversion fails does not:
`lazybsd_if_send_onepkt` reports failure by returning 0, and `lazybsd_dpdk_if_send` stores that 0 as the
new length of the table. The run theorem says exactly when the law survives: each failing send must
find its table empty.
-/
import LazyBsd.Tx.Queue

namespace LazyBsd.Tx

open Lib

variable {Port : Type*} [DecidableEq Port]

/-! ## The law -/

/-- The frames stored for `p` are those handed over, then the first `n` slots of the table. -/
def ConservedAt (s : TxState Port) (p : Port) (n : Nat) : Prop :=
  s.stored p = s.handed p ++ (List.range n).map (s.txMbufs p).mTable

/-- Each stored frame was handed to the NIC or is queued. -/
def Conserved (s : TxState Port) : Prop := ∀ p, ConservedAt s p (s.txMbufs p).len

section Pieces

variable {s : TxState Port} {port : Port} {n : Nat}

/-- A new length is right if the table conserves at that length. -/
theorem setLen_conserved (hother : ∀ q, q ≠ port → ConservedAt s q (s.txMbufs q).len)
    (hport : ConservedAt s port n) : Conserved (setLen port n s) := by
  intro q
  by_cases hq : q = port
  · subst hq
    simpa [ConservedAt, setLen] using hport
  · simpa [ConservedAt, setLen, hq] using hother q hq

/-- Forgetting the table conserves only an empty table. -/
theorem setLen_zero_conserved_iff (h : Conserved s) :
    Conserved (setLen port 0 s) ↔ (s.txMbufs port).len = 0 := by
  constructor
  · intro hafter
    have hp := hafter port
    simp only [ConservedAt, setLen, Function.update_self, List.range_zero, List.map_nil,
      List.append_nil] at hp
    have hold := h port
    rw [ConservedAt, hp, List.self_eq_append_right, List.map_eq_nil_iff, List.range_eq_nil] at hold
    exact hold
  · intro hlen
    refine setLen_conserved (fun q _ => h q) ?_
    rw [← hlen]
    exact h port

/-- A burst of the first `n` slots moves them from the table to the NIC. -/
theorem sendBurst_conservedAt (accepted : Nat) (hport : ConservedAt s port n) :
    ConservedAt (sendBurst port n accepted s) port 0 := by
  simp only [ConservedAt, sendBurst_stored, sendBurst_handed, Function.update_self, List.range_zero,
    List.map_nil, List.append_nil]
  exact hport

theorem sendBurst_conservedAt_of_ne (accepted : Nat) {q : Port} (hq : q ≠ port) {k : Nat}
    (h : ConservedAt s q k) : ConservedAt (sendBurst port n accepted s) q k := by
  simpa [ConservedAt, sendBurst_handed, hq] using h

/-- Flushing a full table conserves. -/
theorem flushFull_conserved (accepted : Nat)
    (hother : ∀ q, q ≠ port → ConservedAt s q (s.txMbufs q).len) (hport : ConservedAt s port n) :
    Conserved (flushFull port n accepted s) := by
  unfold flushFull
  by_cases hfull : n = maxPktBurst
  · subst hfull
    rw [if_pos rfl]
    exact setLen_conserved (fun q hq => sendBurst_conservedAt_of_ne accepted hq (hother q hq))
      (sendBurst_conservedAt accepted hport)
  · rw [if_neg hfull]
    exact setLen_conserved hother hport

/-- The table with one more frame at its end. -/
theorem range_map_update (f : Nat → Nat) (n m : Nat) :
    (List.range (n + 1)).map (Function.update f n m) = (List.range n).map f ++ [m] := by
  rw [List.range_succ, List.map_append, List.map_singleton, Function.update_self]
  congr 1
  refine List.map_congr_left fun i hi => ?_
  have hne : i ≠ n := (List.mem_range.mp hi).ne
  exact Function.update_of_ne hne _ _

/-- A frame stored at the end of the table is one more stored frame. -/
theorem storeGiven_conserved (accepted head : Nat) (heap : RteHeap) (mem : Mem) (h : Conserved s) :
    Conserved (flushFull port ((s.txMbufs port).len + 1) accepted (storeGiven port head heap mem s)) := by
  refine flushFull_conserved accepted ?_ ?_
  · intro q hq
    simpa [ConservedAt, storeGiven, hq] using h q
  · simp only [ConservedAt, storeGiven, Function.update_self, range_map_update]
    rw [h port, List.append_assoc]

theorem sendSinglePacket_conserved (m accepted : Nat) (h : Conserved s) :
    Conserved (sendSinglePacket m port accepted s) := by
  refine flushFull_conserved accepted ?_ ?_
  · intro q hq
    simpa [ConservedAt, storeResponse, hq] using h q
  · simp only [ConservedAt, storeResponse, Function.update_self, range_map_update]
    rw [h port, List.append_assoc]

theorem drain_conserved (accepted : Nat) (h : Conserved s) : Conserved (drain port accepted s) := by
  unfold drain
  by_cases hlen : (s.txMbufs port).len = 0
  · rw [if_pos hlen]
    exact h
  · rw [if_neg hlen]
    exact setLen_conserved (fun q hq => sendBurst_conservedAt_of_ne accepted hq (h q))
      (sendBurst_conservedAt accepted (h port))

/-- A drain leaves nothing queued. -/
theorem drain_len (accepted : Nat) : ((drain port accepted s).txMbufs port).len = 0 := by
  unfold drain
  by_cases hlen : (s.txMbufs port).len = 0
  · rwa [if_pos hlen]
  · rw [if_neg hlen]
    simp [setLen]

end Pieces

/-! ## Runs -/

section Runs

variable {d : Dpdk} {pg : PageArray} {txCsumL4 : Port → Bool} {s s' : TxState Port}
  {a : Action Port}

/-- The condition on a step: a send that fails finds its table empty. -/
def FailsOnEmptyTable (d : Dpdk) (pg : PageArray) (s : TxState Port) : Action Port → Prop
  | .send port m _ _ => SendFails d pg s.heap m → (s.txMbufs port).len = 0
  | _ => True

/-- **The step lemma.** From a conserving state a step conserves exactly when it meets the condition. -/
theorem step_conserved_iff (h : Conserved s) (hstep : step d pg txCsumL4 s a = some s') :
    Conserved s' ↔ FailsOnEmptyTable d pg s a := by
  cases a with
  | send port m total accepted =>
      rcases lazybsdDpdkIfSend_cases hstep with
        ⟨hfail, ⟨_, rfl⟩ | ⟨heap, _, rfl⟩⟩ | ⟨hno, head, heap, mem, rfl⟩
      · rw [setLen_zero_conserved_iff h]
        exact ⟨fun hlen _ => hlen, fun himp => himp hfail⟩
      · rw [setLen_zero_conserved_iff (s := freeGiven heap s) h]
        exact ⟨fun hlen _ => hlen, fun himp => himp hfail⟩
      · exact iff_of_true (storeGiven_conserved accepted head heap mem h) fun hfail => absurd hfail hno
  | respond m port accepted =>
      obtain rfl := Option.some.inj hstep
      exact iff_of_true (sendSinglePacket_conserved m accepted h) trivial
  | drain port accepted =>
      obtain rfl := Option.some.inj hstep
      exact iff_of_true (drain_conserved accepted h) trivial
  | elsewhere heap mem =>
      obtain rfl := Option.some.inj hstep
      exact iff_of_true h trivial

/-- A failing send changes no waiting entry of any table and leaves no reference mbuf allocated. -/
def FailedSendKeeps (d : Dpdk) (pg : PageArray) (tr : Transition (TxState Port) (Action Port)) : Prop :=
  ∀ port m total accepted, tr.act = .send port m total accepted → SendFails d pg tr.before.heap m →
    (∀ p, (tr.after.txMbufs p).len = (tr.before.txMbufs p).len ∧
      ∀ i < (tr.before.txMbufs p).len,
        (tr.after.txMbufs p).mTable i = (tr.before.txMbufs p).mTable i ∧
        (tr.after.txMbufs p).bsdMTable i = (tr.before.txMbufs p).bsdMTable i) ∧
    tr.after.heap.live = tr.before.heap.live

/-- A drain hands over every frame of the port that was stored so far. -/
def DrainDelivers (tr : Transition (TxState Port) (Action Port)) : Prop :=
  ∀ port accepted, tr.act = .drain port accepted → tr.after.handed port = tr.after.stored port

/-- Storing the length it already has changes no table. -/
theorem setLen_self (s : TxState Port) (port : Port) {n : Nat} (hn : (s.txMbufs port).len = n) :
    setLen port n s = s := by
  subst hn
  simp [setLen]

theorem failedSendKeeps_of_empty {tr : Transition (TxState Port) (Action Port)}
    (hstep : step d pg txCsumL4 tr.before tr.act = some tr.after)
    (hC : FailsOnEmptyTable d pg tr.before tr.act) : FailedSendKeeps d pg tr := by
  intro port m total accepted hact hfail
  rw [hact] at hstep hC
  have hlen : (tr.before.txMbufs port).len = 0 := hC hfail
  rcases lazybsdDpdkIfSend_cases hstep with ⟨_, ⟨_, hs⟩ | ⟨heap, hlive, hs⟩⟩ | ⟨hno, _⟩
  · rw [hs, setLen_self _ _ hlen]
    exact ⟨fun p => ⟨rfl, fun i _ => ⟨rfl, rfl⟩⟩, rfl⟩
  · rw [hs, setLen_self (freeGiven heap tr.before) _ hlen]
    exact ⟨fun p => ⟨rfl, fun i _ => ⟨rfl, rfl⟩⟩, hlive⟩
  · exact absurd hfail hno

theorem drainDelivers_of_conserved {tr : Transition (TxState Port) (Action Port)}
    (hstep : step d pg txCsumL4 tr.before tr.act = some tr.after) (h : Conserved tr.after) :
    DrainDelivers tr := by
  intro port accepted hact
  rw [hact] at hstep
  have hafter : drain port accepted tr.before = tr.after := Option.some.inj hstep
  have hlen : (tr.after.txMbufs port).len = 0 := by
    rw [← hafter]
    exact drain_len accepted
  have hp := h port
  rw [ConservedAt, hlen, List.range_zero, List.map_nil, List.append_nil] at hp
  exact hp.symm

variable {t : TxState Port} {ts : List (Transition (TxState Port) (Action Port))}

/-- **Queued frames survive failed sends exactly when there are none.** Over any run, from any tables
that conserve: every failing send keeps the waiting entries and leaves no reference mbuf behind, every
state conserves and every drain delivers, if and only if each failing send finds its table empty. -/
theorem failed_sends_keep_queue_iff (hrun : Run (step d pg txCsumL4) s ts t) (h : Conserved s) :
    (∀ tr ∈ ts, FailedSendKeeps d pg tr ∧ Conserved tr.after ∧ DrainDelivers tr) ↔
      ∀ tr ∈ ts, FailsOnEmptyTable d pg tr.before tr.act := by
  have hsteps := hrun.of_mem (I := fun _ => True) (fun _ _ => trivial) trivial
  have hiff := (hrun.forall_iff (I := fun _ => True) (P := Conserved)
    (C := FailsOnEmptyTable d pg) (fun _ _ => trivial) (fun _ hP => step_conserved_iff hP) trivial h).1
  constructor
  · intro hall
    exact hiff.mp fun tr htr => (hall tr htr).2.1
  · intro hC tr htr
    have hstep := (hsteps tr htr).2.1
    have hafter := hiff.mpr hC tr htr
    exact ⟨failedSendKeeps_of_empty hstep (hC tr htr), hafter, drainDelivers_of_conserved hstep hafter⟩

end Runs

/-! ### A queue that is dropped -/

namespace Sample

omit [DecidableEq Port] in
/-- The empty tables conserve. -/
theorem init_conserved (heap : RteHeap) (mem : Mem) :
    Conserved (TxState.init heap mem : TxState Port) := by
  intro p
  rfl

/-- Two sends of a one-mbuf packet; the second one asks for a reference mbuf that is not there. -/
def sendTwice : List (Action Unit) :=
  [.send () (some (packet pageMbuf)) 60 0, .send () (some (packet pageMbuf)) 60 0]

/-- Only the first allocation of the process succeeds. -/
def scarce : Dpdk := dpdk fun n => n == 0

end Sample

theorem failed_sends_keep_queue_sendTwice :
    ∃ r, exec (step Sample.scarce Sample.pages fun _ => false)
        (.init Sample.heap Sample.mem : TxState Unit) Sample.sendTwice = some r ∧
      ((∀ tr ∈ r.1, FailedSendKeeps Sample.scarce Sample.pages tr ∧ Conserved tr.after ∧
          DrainDelivers tr) ↔
        ∀ tr ∈ r.1, FailsOnEmptyTable Sample.scarce Sample.pages tr.before tr.act) := by
  obtain ⟨r, hr⟩ := Option.isSome_iff_exists.mp (by decide :
    (exec (step Sample.scarce Sample.pages fun _ => false)
      (.init Sample.heap Sample.mem : TxState Unit) Sample.sendTwice).isSome = true)
  exact ⟨r, hr, failed_sends_keep_queue_iff (Run.of_exec hr) (Sample.init_conserved _ _)⟩

/-- The second send drops the frame that the first one queued: the table is empty again, and the frame
was not handed to the NIC. -/
theorem failed_send_drops_queue :
    ¬ ∀ (ts : List (Transition (TxState Unit) (Action Unit))) (t : TxState Unit),
      Run (step Sample.scarce Sample.pages fun _ => false) (.init Sample.heap Sample.mem) ts t →
        ∀ tr ∈ ts, FailedSendKeeps Sample.scarce Sample.pages tr ∧ Conserved tr.after ∧
          DrainDelivers tr := by
  intro hclaim
  obtain ⟨r, hr⟩ := Option.isSome_iff_exists.mp (by decide :
    (exec (step Sample.scarce Sample.pages fun _ => false)
      (.init Sample.heap Sample.mem : TxState Unit) Sample.sendTwice).isSome = true)
  have hend : (exec (step Sample.scarce Sample.pages fun _ => false)
      (.init Sample.heap Sample.mem : TxState Unit) Sample.sendTwice).map
        (fun r => (r.2.stored (), r.2.handed (), (r.2.txMbufs ()).len)) = some ([0], [], 0) := by
    decide
  rw [hr] at hend
  obtain ⟨hstored, hhanded, hlen⟩ : r.2.stored () = [0] ∧ r.2.handed () = [] ∧
      (r.2.txMbufs ()).len = 0 := by
    simpa using hend
  have hrun := Run.of_exec hr
  have hlast : Conserved r.2 :=
    (hrun.forall_iff (I := fun _ => True) (P := Conserved) (fun _ _ => trivial)
      (fun _ hP => step_conserved_iff hP) trivial (Sample.init_conserved _ _)).2
      fun tr htr => (hclaim _ _ hrun tr htr).2.1
  have hp := hlast ()
  simp [ConservedAt, hstored, hhanded, hlen] at hp

end LazyBsd.Tx
