/-
# LazyBsd.Dispatch.Interleaving — every mbuf is handed on once, whatever the order of the workers.

A run without end takes the steps of the workers in any order (`Endless`); it is fair if a worker that
can go on does so, sooner or later. What no order breaks is `Safe`: nothing is handed on twice, nothing
comes back to a ring, and no frame reaches a stack twice. That everything is handed on in the end,
`Delivered`, is another matter: `process_packets` calls `protocol_filter`, and a call that does not return
keeps the worker, its batch and its ring for ever. So in a fair run `Delivered` is exactly that
`protocol_filter` returns for every packet that it is given.
-/
import LazyBsd.Filter.Result
import LazyBsd.Dispatch.Delivery
import LazyBsd.Dispatch.Rings

namespace LazyBsd.Dispatch

open LazyBsd.Filter Lib

variable {Port Data : Type*} [DecidableEq Port] {cfg : Config Port Data} {s s' : World Port Data}
  {w v r : Wid Port} {m : Mbuf Port} {d : Dest}

/-! ## A worker gets through its batch -/

/-- At most so many steps are left for the batch of the worker. -/
def work (cfg : Config Port Data) (s : World Port Data) (w : Wid Port) : Nat :=
  match (s.workers w).batch with
  | [] => 0
  | _ :: rest => rest.length * (cfg.nbQueues w.1 + 5) + (s.workers w).phase.work (cfg.nbQueues w.1)

theorem work_setPhase_lt {rest : List (Mbuf Port)} {p : Phase}
    (hb : (s.workers w).batch = m :: rest) (hb' : (s'.workers w).batch = m :: rest)
    (hp : p.work (cfg.nbQueues w.1) < (s.workers w).phase.work (cfg.nbQueues w.1)) :
    work cfg (setPhase w p s') w < work cfg s w := by
  simp only [work, setPhase_batch, hb, hb', setPhase_phase, if_true]
  omega

theorem work_handOn_lt {rest : List (Mbuf Port)} (hb : (s.workers w).batch = m :: rest)
    (hb' : (s'.workers w).batch = m :: rest) : work cfg (handOn w m d s') w < work cfg s w := by
  have hpos : 0 < (s.workers w).phase.work (cfg.nbQueues w.1) := by
    cases (s.workers w).phase <;> simp [Phase.work]
  simp only [work, handOn_batch, if_true, hb, hb', List.tail_cons, handOn_phase]
  cases rest with
  | nil =>
      dsimp only
      omega
  | cons m' rest =>
      have hstart : Phase.start.work (cfg.nbQueues w.1) = cfg.nbQueues w.1 + 5 := rfl
      simp only [List.length_cons, Nat.add_mul, Nat.one_mul, hstart]
      omega

/-- **A step of a worker with a batch leaves it less to do.** -/
theorem step_work {act : Action Data} {rest : List (Mbuf Port)} (hc : ClonesOwn s)
    (hb : (s.workers w).batch = m :: rest) (hs : step cfg s (w, act) = some s') :
    work cfg s' w < work cfg s w := by
  have hhead {m' : Mbuf Port} {rest' : List (Mbuf Port)} (h' : (s.workers w).batch = m' :: rest') :
      m' = m := by
    rw [hb] at h'
    exact (List.cons.inj h').1.symm
  have hto : StepTo cfg s w s' := (step_cases hc hs).2
  cases hto with
  | receive packets h => simp [hb] at h
  | dequeue h => simp [hb] at h
  | move _ hp =>
      obtain rfl := hhead ‹_›
      exact work_setPhase_lt hb hb hp.work
  | answered data h hnic hd hphase hto =>
      obtain rfl := hhead h
      rcases hto with ⟨len, rfl⟩ | rfl | ⟨q, -, -, rfl⟩ | ⟨len, rfl⟩
      · exact work_handOn_lt hb hb
      · exact work_handOn_lt hb hb
      · unfold redirect
        split <;> exact work_handOn_lt hb hb
      · exact work_setPhase_lt hb hb (by simp [hphase, Phase.work])
  | unicast h =>
      obtain rfl := hhead h
      exact work_handOn_lt hb hb
  | @clone m' _ j h hphase hj hne =>
      have hstays : ((cloneFor w m' j s).workers w).batch = m :: rest := by
        unfold cloneFor
        split <;> exact hb
      refine work_setPhase_lt hb hstays ?_
      simp only [hphase, Phase.work]
      omega
  | kni room h hphase => exact work_setPhase_lt hb hb (by simp [hphase, Phase.work])
  | input h =>
      obtain rfl := hhead h
      exact work_handOn_lt hb hb

/-- **No step leaves a worker with a batch more to do.** -/
theorem work_le {a : Wid Port × Action Data} (hc : ClonesOwn s) (hbusy : (s.workers w).batch ≠ [])
    (hs : step cfg s a = some s') : work cfg s' w ≤ work cfg s w := by
  obtain ⟨v, act⟩ := a
  by_cases hv : w = v
  · subst hv
    obtain ⟨m, rest, hb⟩ := List.exists_cons_of_ne_nil hbusy
    exact le_of_lt (step_work hc hb hs)
  · have hsame := (step_cases hc hs).2.workers_of_ne hv
    rw [work, work, hsame]

/-! ## A worker whose filter does not return -/

/-- Does `protocol_filter` return for the packet that the worker has given to it? -/
def filterReturns (cfg : Config Port Data) (w : Wid Port) (s : World Port Data) : Bool :=
  match (s.workers w).batch, (s.workers w).phase with
  | m :: _, .filter len => (cfg.protocolFilter w (s.packet m).data len).isSome
  | _, _ => true

/-- The worker `w` has given the mbuf `m` to a call of `protocol_filter` that does not return. -/
structure Stuck (cfg : Config Port Data) (w : Wid Port) (m : Mbuf Port) (s : World Port Data) : Prop where
  head : (s.workers w).batch.head? = some m
  call : ∃ len, (s.workers w).phase = .filter len ∧
    cfg.protocolFilter w (s.packet m).data len = none

omit [DecidableEq Port] in
theorem filterReturns_eq_false : filterReturns cfg w s = false ↔ ∃ m, Stuck cfg w m s := by
  constructor
  · intro h
    unfold filterReturns at h
    split at h
    · rename_i m rest len hb hphase
      exact ⟨m, by rw [hb]; rfl, len, hphase, by simpa using h⟩
    · cases h
  · rintro ⟨m, hhead, len, hphase, hnone⟩
    obtain ⟨rest, hb⟩ := List.head?_eq_some_iff.mp hhead
    simp [filterReturns, hb, hphase, hnone]

omit [DecidableEq Port] in
/-- A worker with nothing in its hands has called nothing. -/
theorem filterReturns_of_idle (hb : (s.workers w).batch = []) : filterReturns cfg w s = true := by
  simp [filterReturns, hb]

omit [DecidableEq Port] in
/-- With the code's classifier the call returns unless the packet leads to a header that carries itself. -/
theorem filterReturns_of_classify {cfg : Config Port Bytes} {s : World Port Bytes} {c : FilterConfig}
    (hc : cfg.protocolFilter w = classify c) :
    filterReturns cfg w s = true ↔ ∀ m len, (s.workers w).batch.head? = some m →
      (s.workers w).phase = .filter len → ∀ p q, FrameIp c (s.packet m).data len p →
        Relation.ReflTransGen (Tunnel (s.packet m).data) p q → ¬ EndlessTunnel (s.packet m).data q := by
  rw [← Bool.not_eq_false, filterReturns_eq_false]
  constructor
  · intro hno m len hhead hphase p q hframe hreach hendless
    refine hno ⟨m, hhead, len, hphase, ?_⟩
    rw [hc, classify_eq_none]
    exact ⟨p, q, hframe, hreach, hendless⟩
  · rintro hall ⟨m, hhead, len, hphase, hnone⟩
    rw [hc, classify_eq_none] at hnone
    obtain ⟨p, q, hframe, hreach, hendless⟩ := hnone
    exact hall m len hhead hphase p q hframe hreach hendless

theorem Stuck.step_eq_none (h : Stuck cfg w m s) (act : Action Data) : step cfg s (w, act) = none := by
  obtain ⟨len, hphase, hnone⟩ := h.call
  obtain ⟨rest, hb⟩ := List.head?_eq_some_iff.mp h.head
  simp only [step, hb, hphase]
  cases act <;> simp [processPacket, hnone]

/-- No step of another worker helps it. -/
theorem Stuck.step {a : Wid Port × Action Data} (hinv : Inv cfg s) (h : Stuck cfg w m s)
    (hs : Dispatch.step cfg s a = some s') : Stuck cfg w m s' := by
  have hne : w ≠ a.1 := by
    rintro rfl
    rw [h.step_eq_none a.2] at hs
    cases hs
  have hsame := (step_cases hinv.cloning hs).2.workers_of_ne hne
  have hpacket : s'.packet m = s.packet m := by
    refine hinv.packet_kept (.inl ⟨w, List.mem_of_mem_head? h.head⟩) (fun hother _ _ => ?_) hs
    exact absurd (hinv.places.owner_unique (List.mem_of_mem_head? h.head) (List.mem_of_mem_head? hother)) hne
  obtain ⟨len, hphase, hnone⟩ := h.call
  exact ⟨by rw [hsame]; exact h.head, len, by rw [hsame]; exact hphase, by rw [hpacket]; exact hnone⟩

/-- A worker with a batch can go on, unless its filter does not return. -/
theorem step_enabled {rest : List (Mbuf Port)} (hq : w.2 < cfg.nbQueues w.1)
    (hfilter : filterReturns cfg w s = true) (hb : (s.workers w).batch = m :: rest) :
    ∃ act s', step cfg s (w, act) = some s' := by
  have hgo (act : Action Data) (h : (processPacket cfg w m s (s.workers w).phase act).isSome) :
      ∃ act s', step cfg s (w, act) = some s' := by
    obtain ⟨s', hs'⟩ := Option.isSome_iff_exists.mp h
    refine ⟨act, s', ?_⟩
    simpa [step, hq, hb] using hs'
  cases hphase : (s.workers w).phase with
  | start =>
      apply hgo (.dispatch dispatchError (s.packet m).data 0)
      rw [hphase]
      simp only [processPacket]
      split
      · simp [dispatchAnswer, dispatchError, dispatchResponse]
      · rfl
  | filter len =>
      apply hgo (.filter .default false)
      rw [hphase]
      simp only [processPacket]
      cases hr : cfg.protocolFilter w (s.packet m).data len with
      | none => simp [filterReturns, hb, hphase, hr] at hfilter
      | some r =>
          dsimp only
          split <;> rfl
  | clone j =>
      apply hgo (.clone false)
      rw [hphase]
      simp only [processPacket]
      repeat' split
      all_goals rfl
  | kni =>
      apply hgo (.kni false false)
      rw [hphase]
      simp only [processPacket]
      split <;> rfl
  | input =>
      apply hgo .input
      rw [hphase]
      rfl

/-! ## What no order of the workers breaks -/

/-- **Nothing is handed on twice.** What a worker took it has handed on or has in its batch, and it took it
once; an mbuf is taken from a ring by one worker, and after that it goes to no ring and to no dispatcher; a
frame is input at most once by a worker, which is one of its port's; a frame for all workers that a worker
without a dispatcher has received is waiting there or has been input once; and what was put on a ring was
taken from it or is on it, in the same order. -/
structure Safe (cfg : Config Port Data) (s : World Port Data) : Prop where
  ledger : ∀ w m, s.log.countP (Event.takes w m) =
    s.log.countP (Event.hands w m) + (s.workers w).batch.count m
  once : ∀ w m, s.log.countP (Event.takes w m) ≤ 1
  oneWorker : ∀ w w' m, Event.dequeued w m ∈ s.log → Event.dequeued w' m ∈ s.log → w = w'
  final : s.log.Pairwise Final
  inputs : ∀ w o, s.log.countP (Event.inputs w o) ≤ 1
  place : ∀ w o, 0 < s.log.countP (Event.inputs w o) → w.1 = o.1.1 ∧ w.2 < cfg.nbQueues w.1
  receiver : ∀ w m, Event.received w m ∈ s.log → cfg.packetDispatcher w = false →
    ForAll cfg w (s.packet m) → m ∈ (s.workers w).batch ∨ s.log.countP (Event.inputs w m.origin) = 1
  rings : ∀ r, entered r s.log = dequeued r s.log ++ s.rings r

theorem Inv.receiver (h : Inv cfg s) (hlog : Event.received w m ∈ s.log) (hoff : cfg.packetDispatcher w = false)
    (hall : ForAll cfg w (s.packet m)) :
    m ∈ (s.workers w).batch ∨ s.log.countP (Event.inputs w m.origin) = 1 := by
  rcases h.reads.arrives w m hlog hoff hall with hin | hpassed
  · exact .inl hin
  · refine .inr (le_antisymm (h.inputs_le w m.origin) (List.countP_pos_iff.mpr ⟨_, hpassed, ?_⟩))
    simp [Event.inputs]

theorem Inv.safe (h : Inv cfg s) (hrings : Fifo s) : Safe cfg s where
  ledger := h.ledger.taken
  once := h.ledger.takes_le h.counts
  oneWorker w w' m hw hw' := (h.places.gone w m hw).1.symm.trans (h.places.gone w' m hw').1
  final := h.ledger.once
  inputs := h.inputs_le
  place _ _ := h.inputs_place
  receiver _ _ := h.receiver
  rings := hrings

theorem inv_of_run {packet : Mbuf Port → Packet Data}
    {ts : List (Transition (World Port Data) (Wid Port × Action Data))}
    (h : Run (step cfg) (World.init packet) ts s) : Inv cfg s ∧ Fifo s :=
  h.invariant (I := fun s => Inv cfg s ∧ Fifo s)
    (fun ⟨hinv, hfifo⟩ hs => ⟨hinv.step hs, hfifo.stepTo (step_cases hinv.cloning hs).2⟩)
    ⟨.init packet, .init packet⟩

/-! ## What a fair order comes to -/

/-- **Fairness.** A worker that has a batch and can go on does so, sooner or later. -/
def Fair (cfg : Config Port Data) (sched : Nat → Option (Wid Port × Action Data))
    (run : Nat → World Port Data) : Prop :=
  ∀ w n, ∃ k, n ≤ k ∧ (((run k).workers w).batch = [] ∨ (∀ act, step cfg (run k) (w, act) = none) ∨
    ∃ act, sched k = some (w, act))

/-- **Everything is handed on.** What a worker took it hands on, once; and a frame for all workers that a
worker without a dispatcher receives from its NIC queue, it inputs, once. -/
structure Delivered (cfg : Config Port Data) (sched : Nat → Option (Wid Port × Action Data))
    (run : Nat → World Port Data) : Prop where
  handed : ∀ n w m, 0 < (run n).log.countP (Event.takes w m) →
    ∃ k, ∀ j, k ≤ j → (run j).log.countP (Event.hands w m) = 1
  receiver : ∀ n w packets i p, sched n = some (w, .rxBurst packets) → packets[i]? = some p →
    cfg.packetDispatcher w = false → ForAll cfg w p →
    ∃ k, ∀ j, k ≤ j → (run j).log.countP (Event.inputs w (w, (run n).frames + i)) = 1

section Runs

variable {packet : Mbuf Port → Packet Data} {sched : Nat → Option (Wid Port × Action Data)}
  {run : Nat → World Port Data}

theorem inv_of_endless (h : Endless (step cfg) (World.init packet) sched run) (n : Nat) :
    Inv cfg (run n) ∧ Fifo (run n) := by
  obtain ⟨ts, hrun⟩ := h.reaches n
  exact inv_of_run hrun

/-- Events stay in the log. -/
theorem countP_log_le (h : Endless (step cfg) (World.init packet) sched run) (p : Event Port → Bool)
    {n k : Nat} (hnk : n ≤ k) : (run n).log.countP p ≤ (run k).log.countP p := by
  refine h.stays (P := fun t => (run n).log.countP p ≤ t.log.countP p) (I := Inv cfg) Inv.step
    (fun hinv hle hs => ?_) (.init packet) hnk le_rfl
  exact hle.trans ((step_cases hinv.cloning hs).2.log.sublist.countP_le)

/-- What a worker has taken and not handed on, it has in its batch. -/
theorem mem_batch_of_taken (h : Inv cfg s) (htaken : 0 < s.log.countP (Event.takes w m))
    (hnot : s.log.countP (Event.hands w m) = 0) : m ∈ (s.workers w).batch := by
  have hledger := h.ledger.taken w m
  rw [hnot, Nat.zero_add] at hledger
  exact List.count_pos_iff.mp (hledger ▸ htaken)

/-- **Progress.** In a fair run a worker whose filter returns gets to hand on what it took. -/
theorem handed_of_fair (h : Endless (step cfg) (World.init packet) sched run)
    (hfair : Fair cfg sched run) (hfilter : ∀ n, filterReturns cfg w (run n) = true) {n : Nat}
    (htaken : 0 < (run n).log.countP (Event.takes w m)) :
    ∃ k, n ≤ k ∧ 0 < (run k).log.countP (Event.hands w m) := by
  have hbusy (k : Nat) (hk : ¬ 0 < (run (n + k)).log.countP (Event.hands w m)) :
      m ∈ ((run (n + k)).workers w).batch :=
    mem_batch_of_taken (inv_of_endless h _).1 (htaken.trans_le (countP_log_le h _ (Nat.le_add_right n k)))
      (Nat.eq_zero_of_not_pos hk)
  -- the steps of the other workers leave it what it has to do, its own leave it less
  have hle (k : Nat) (hk : ¬ 0 < (run (n + k)).log.countP (Event.hands w m)) :
      work cfg (run (n + (k + 1))) w ≤ work cfg (run (n + k)) w := by
    rcases h.succ (n + k) with hsame | ⟨a, -, ha⟩
    · exact (congrArg (work cfg · w) hsame).le
    · exact work_le (inv_of_endless h _).1.cloning (List.ne_nil_of_mem (hbusy k hk)) ha
  have hlt (k : Nat) : ∃ j, k ≤ j ∧ (¬ 0 < (run (n + j)).log.countP (Event.hands w m) →
      work cfg (run (n + (j + 1))) w < work cfg (run (n + j)) w) := by
    obtain ⟨j, hj, hcan⟩ := hfair w (n + k)
    obtain ⟨i, rfl⟩ : ∃ i, j = n + i := ⟨j - n, by omega⟩
    refine ⟨i, by omega, fun hnot => ?_⟩
    have hmem := hbusy i hnot
    have hinv := (inv_of_endless h (n + i)).1
    obtain ⟨m', rest, hb⟩ := List.exists_cons_of_ne_nil (List.ne_nil_of_mem hmem)
    rcases hcan with hidle | hnone | ⟨act, hact⟩
    · rw [hidle] at hmem
      cases hmem
    · obtain ⟨act, s', hs⟩ := step_enabled (hinv.places.batchPort w m hmem).2 (hfilter (n + i)) hb
      rw [hnone act] at hs
      cases hs
    · exact step_work hinv.cloning hb (h.turn _ _ hact)
  obtain ⟨k, hk⟩ := exists_done_of_measure (fun t => 0 < t.log.countP (Event.hands w m))
    (fun t => work cfg t w) hle hlt
  exact ⟨n + k, Nat.le_add_right n k, hk⟩

theorem handed_once_of_fair (h : Endless (step cfg) (World.init packet) sched run)
    (hfair : Fair cfg sched run) (hfilter : ∀ n, filterReturns cfg w (run n) = true) {n : Nat}
    (htaken : 0 < (run n).log.countP (Event.takes w m)) :
    ∃ k, ∀ j, k ≤ j → (run j).log.countP (Event.hands w m) = 1 := by
  obtain ⟨k, -, hk⟩ := handed_of_fair h hfair hfilter htaken
  refine ⟨k, fun j hj => ?_⟩
  have hinv := (inv_of_endless h j).1
  have hpos := hk.trans_le (countP_log_le h (Event.hands w m) hj)
  have honce := hinv.ledger.takes_le hinv.counts w m
  have hledger := hinv.ledger.taken w m
  omega

/-- A frame that has been received keeps its content for a worker without a dispatcher. -/
theorem received_of_endless (h : Endless (step cfg) (World.init packet) sched run) {n i : Nat}
    {packets : List (Packet Data)} {p : Packet Data} (hact : sched n = some (w, .rxBurst packets))
    (hp : packets[i]? = some p) (hoff : cfg.packetDispatcher w = false) {j : Nat} (hj : n + 1 ≤ j) :
    Event.received w ⟨w, (run n).frames + i, 0⟩ ∈ (run j).log ∧
      (run j).packet ⟨w, (run n).frames + i, 0⟩ = p := by
  refine h.stays (I := Inv cfg) (P := fun t => Event.received w ⟨w, (run n).frames + i, 0⟩ ∈ t.log ∧
    t.packet ⟨w, (run n).frames + i, 0⟩ = p) Inv.step (fun hinv hP hs => ?_) (.init packet) hj
    (step_rxBurst (h.turn n _ hact) hp)
  obtain ⟨hlog, hkept⟩ := hinv.kept hP.1 hoff hs
  exact ⟨hlog, hkept.trans hP.2⟩

/-- **Delivery.** In a fair run everything is handed on, if `protocol_filter` always returns. -/
theorem delivered_of_fair (h : Endless (step cfg) (World.init packet) sched run)
    (hfair : Fair cfg sched run) (hfilter : ∀ n w, filterReturns cfg w (run n) = true) :
    Delivered cfg sched run := by
  have hhanded {n : Nat} {w : Wid Port} {m : Mbuf Port} :=
    handed_once_of_fair (w := w) (m := m) (n := n) h hfair fun n => hfilter n w
  refine ⟨fun n w m => hhanded, fun n w packets i p hact hp hoff hall => ?_⟩
  -- the frame is received and keeps its content, so it is waiting or has been input
  have htaken : 0 < (run (n + 1)).log.countP (Event.takes w ⟨w, (run n).frames + i, 0⟩) :=
    List.countP_pos_iff.mpr ⟨_, (received_of_endless h hact hp hoff le_rfl).1, by simp [Event.takes]⟩
  obtain ⟨k, hk⟩ := hhanded htaken
  refine ⟨max (n + 1) k, fun j hj => ?_⟩
  have hinv := (inv_of_endless h j).1
  obtain ⟨hlog, hsame⟩ := received_of_endless h hact hp hoff ((Nat.le_max_left _ _).trans hj)
  rcases hinv.receiver hlog hoff (hsame ▸ hall) with hin | hone
  · have hcount := List.count_pos_iff.mpr hin
    have hhands := hk j ((Nat.le_max_right _ _).trans hj)
    have hledger := hinv.ledger.taken w ⟨w, (run n).frames + i, 0⟩
    have honce := hinv.ledger.takes_le hinv.counts w ⟨w, (run n).frames + i, 0⟩
    omega
  · exact hone

/-- What a call of `protocol_filter` keeps for ever is never handed on. -/
theorem filterReturns_of_delivered (h : Endless (step cfg) (World.init packet) sched run)
    (hdelivered : Delivered cfg sched run) (n : Nat) (w : Wid Port) :
    filterReturns cfg w (run n) = true := by
  by_contra hfilter
  obtain ⟨m, hstuck⟩ := filterReturns_eq_false.mp (Bool.eq_false_iff.mpr hfilter)
  have hcount {j : Nat} (hj : Stuck cfg w m (run j)) : 0 < ((run j).workers w).batch.count m :=
    List.count_pos_iff.mpr (List.mem_of_mem_head? hj.head)
  have htaken := (inv_of_endless h n).1.ledger.taken w m
  have hbatch := hcount hstuck
  obtain ⟨k, hk⟩ := hdelivered.handed n w m (by omega)
  -- it is in the batch still when it has been handed on
  have hlater := h.stays (I := Inv cfg) (P := Stuck cfg w m) Inv.step
    (fun hinv hstuck hs => hstuck.step hinv hs) (.init packet) (Nat.le_max_left n k) hstuck
  have hbatch' := hcount hlater
  have hinv := (inv_of_endless h (max n k)).1
  have htaken' := hinv.ledger.taken w m
  have honce := hinv.ledger.takes_le hinv.counts w m
  have hone := hk (max n k) (Nat.le_max_right n k)
  omega

/-- **Nothing is handed on twice in any order of the workers; and in a fair order everything is handed on,
exactly if `protocol_filter` returns for every packet that it is given.** -/
theorem packets_are_handed_on_once_iff
    (h : Endless (step cfg) (World.init packet) sched run) :
    (∀ n, Safe cfg (run n)) ∧
    (Fair cfg sched run →
      (Delivered cfg sched run ↔ ∀ n w, filterReturns cfg w (run n) = true)) :=
  ⟨fun n => (inv_of_endless h n).1.safe (inv_of_endless h n).2,
    fun hfair => ⟨filterReturns_of_delivered h, delivered_of_fair h hfair⟩⟩

end Runs

/-- A run that stops is fair if every worker has run out of mbufs or cannot go on. -/
theorem fair_of_stopped {sched : Nat → Option (Wid Port × Action Data)} {run : Nat → World Port Data}
    {k : Nat} (hstop : ∀ n, k ≤ n → run n = s)
    (hdone : ∀ w, (s.workers w).batch = [] ∨ ∀ act, step cfg s (w, act) = none) :
    Fair cfg sched run := by
  intro w n
  refine ⟨max n k, Nat.le_max_left n k, ?_⟩
  rw [hstop _ (Nat.le_max_right n k)]
  rcases hdone w with hidle | hnone
  · exact .inl hidle
  · exact .inr (.inl hnone)

/-! ### An ARP frame at two workers, and a frame that is never handed on -/

namespace Sample

/-- Two queues, no dispatcher, and the classifier of a build with KNI. -/
def classifying : Config Unit Bytes where
  nbQueues _ := 2
  packetDispatcher _ := false
  enableKni _ := true
  primary _ := true
  kniAccept _ := false
  inet6 := false
  protocolFilter _ := classify Filter.Sample.config

/-- An ARP frame. -/
def arpFrame : Packet Bytes := ⟨fun off => if off = 12 then 0x08 else if off = 13 then 0x06 else 0, 42⟩

/-- The first worker clones the frame for the second and inputs it; the second inputs the clone. -/
def arpRun : List (Wid Unit × Action Bytes) :=
  [(((), 0), .rxBurst [arpFrame]), (((), 0), .dispatch 0 arpFrame.data 0),
    (((), 0), .filter .default false), (((), 0), .clone true), (((), 0), .clone true), (((), 1), .ringBurst),
    (((), 0), .clone true), (((), 1), .dispatch 0 arpFrame.data 0), (((), 0), .kni true true),
    (((), 1), .filter .default false), (((), 0), .input), (((), 1), .kni true true), (((), 1), .input)]

/-- The frame whose header carries itself. -/
def looping : Packet Bytes := ⟨Filter.Sample.loopingFrame, 34⟩

/-- The first worker receives it and calls `protocol_filter`. -/
def loopingRun : List (Wid Unit × Action Bytes) :=
  [(((), 0), .rxBurst [looping]), (((), 0), .dispatch 0 looping.data 0)]

/-- Its mbuf. -/
def loopingMbuf : Mbuf Unit := ⟨((), 0), 0, 0⟩

end Sample

/-- Only the queues of the port have workers. -/
theorem idle_of_noQueue (h : Inv cfg s) (hw : ¬ w.2 < cfg.nbQueues w.1) : (s.workers w).batch = [] :=
  List.eq_nil_iff_forall_not_mem.mpr fun m hm => hw (h.places.batchPort w m hm).2

/-- The call of `protocol_filter` for the frame does not return, and nobody hands the frame on. -/
theorem looping_frame_is_never_handed_on :
    ∃ sched run, Endless (step Sample.classifying) (World.init fun _ => Sample.looping) sched run ∧
      Fair Sample.classifying sched run ∧ ¬ Delivered Sample.classifying sched run ∧
      .received ((), 0) Sample.loopingMbuf ∈ (run 1).log ∧
      ∀ n, (run n).log.countP (Event.hands ((), 0) Sample.loopingMbuf) = 0 := by
  obtain ⟨r, hr, hbatch, hphase, hdata, hsecond, hlog⟩ :
      ∃ r, exec (step Sample.classifying) (World.init fun _ => Sample.looping) Sample.loopingRun = some r ∧
        (r.2.workers ((), 0)).batch = [Sample.loopingMbuf] ∧ (r.2.workers ((), 0)).phase = .filter 34 ∧
        (r.2.packet Sample.loopingMbuf).data = Filter.Sample.loopingFrame ∧
        (r.2.workers ((), 1)).batch = [] ∧ r.2.log = [.received ((), 0) Sample.loopingMbuf] :=
    ⟨_, rfl, rfl, rfl, rfl, rfl, rfl⟩
  have hrun := Endless.of_exec hr
  have hend (n : Nat) (hn : 2 ≤ n) :
      play (step Sample.classifying) (World.init fun _ => Sample.looping) Sample.loopingRun n = r.2 :=
    play_of_length_le hr hn
  have hstuck : Stuck Sample.classifying ((), 0) Sample.loopingMbuf r.2 :=
    ⟨by rw [hbatch]; rfl, 34, hphase, by simp only [Sample.classifying, hdata, classify_loopingFrame]⟩
  have hnever (n : Nat) : (play (step Sample.classifying) (World.init fun _ => Sample.looping)
      Sample.loopingRun n).log.countP (Event.hands ((), 0) Sample.loopingMbuf) = 0 := by
    have hle := countP_log_le hrun (Event.hands ((), 0) Sample.loopingMbuf) (Nat.le_max_left n 2)
    rw [hend _ (Nat.le_max_right n 2), hlog] at hle
    exact Nat.le_zero.mp hle
  have hfirst : Event.received ((), 0) Sample.loopingMbuf ∈ (play (step Sample.classifying)
      (World.init fun _ => Sample.looping) Sample.loopingRun 1).log := List.mem_singleton_self _
  refine ⟨_, _, hrun, fair_of_stopped hend fun w => ?_, fun hdelivered => ?_, hfirst, hnever⟩
  · obtain ⟨⟨⟩, q⟩ := w
    match q with
    | 0 => exact .inr hstuck.step_eq_none
    | 1 => exact .inl hsecond
    | q + 2 => exact .inl (idle_of_noQueue (inv_of_run (Run.of_exec hr)).1 (Nat.not_lt.mpr (Nat.le_add_left 2 q)))
  · have htaken := List.countP_pos_iff.mpr ⟨_, hfirst, (by decide :
      Event.takes ((), 0) Sample.loopingMbuf (.received ((), 0) Sample.loopingMbuf) = true)⟩
    obtain ⟨k, hk⟩ := hdelivered.handed 1 _ _ htaken
    have hone := hk k le_rfl
    rw [hnever k] at hone
    cases hone

theorem packets_are_handed_on_once_arp :
    ∃ sched run, Endless (step Sample.classifying) (World.init fun _ => Sample.arpFrame) sched run ∧
      (∀ n, Safe Sample.classifying (run n)) ∧ Fair Sample.classifying sched run ∧
      Delivered Sample.classifying sched run ∧ (run 13).log.countP (Event.inputs ((), 1) (((), 0), 0)) = 1 := by
  obtain ⟨r, hr, hfirst, hsecond⟩ :
      ∃ r, exec (step Sample.classifying) (World.init fun _ => Sample.arpFrame) Sample.arpRun = some r ∧
        (r.2.workers ((), 0)).batch = [] ∧ (r.2.workers ((), 1)).batch = [] :=
    ⟨_, rfl, rfl, rfl⟩
  have hrun := Endless.of_exec hr
  have hend (n : Nat) (hn : 13 ≤ n) :
      play (step Sample.classifying) (World.init fun _ => Sample.arpFrame) Sample.arpRun n = r.2 :=
    play_of_length_le hr hn
  have hnone (q : Nat) : ¬ q + 2 < Sample.classifying.nbQueues () := Nat.not_lt.mpr (Nat.le_add_left 2 q)
  have hidle (w : Wid Unit) : (r.2.workers w).batch = [] := by
    obtain ⟨⟨⟩, q⟩ := w
    match q with
    | 0 => exact hfirst
    | 1 => exact hsecond
    | q + 2 => exact idle_of_noQueue (inv_of_run (Run.of_exec hr)).1 (hnone q)
  have hreturns (n : Nat) (w : Wid Unit) : filterReturns Sample.classifying w
      (play (step Sample.classifying) (World.init fun _ => Sample.arpFrame) Sample.arpRun n) = true := by
    by_cases hn : 13 ≤ n
    · rw [hend n hn]
      exact filterReturns_of_idle (hidle w)
    · obtain ⟨⟨⟩, q⟩ := w
      by_cases hq : q < 2
      · exact (by decide +kernel : ∀ n < 13, ∀ q < 2, filterReturns Sample.classifying ((), q)
          (play (step Sample.classifying) (World.init fun _ => Sample.arpFrame) Sample.arpRun n) = true)
          n (Nat.not_le.mp hn) q hq
      · exact filterReturns_of_idle (idle_of_noQueue (inv_of_endless hrun n).1 hq)
  have hfair : Fair Sample.classifying (fun n => Sample.arpRun[n]?)
      (play (step Sample.classifying) (World.init fun _ => Sample.arpFrame) Sample.arpRun) :=
    fair_of_stopped hend fun w => .inl (hidle w)
  obtain ⟨hsafe, hiff⟩ := packets_are_handed_on_once_iff hrun
  exact ⟨_, _, hrun, hsafe, hfair, (hiff hfair).mpr hreturns, by decide +kernel⟩

end LazyBsd.Dispatch
