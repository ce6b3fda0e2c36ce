/-
# LazyBsd.Dispatch.Disposition — what `process_packets` does with each result of the dispatcher.

The result is an `int`. It is compared with the two codes, with the number of queues and with the own
queue, both promoted from 16 bits, and what is left is an index into the rings of the port. Here the
comparisons are those of the machine, one call of `process_packets` is run over its whole batch, and
every use of an index is an event. The comparisons leave out one case: a result below
`LAZYBSD_DISPATCH_RESPONSE` goes through all of them and is used as an index.
-/
import LazyBsd.Dispatch.Model
import LazyBsd.Lib.Trace

namespace LazyBsd.Dispatch

open Lib Traced

variable {Port Data : Type}

/-! ## The tests on the result -/

/-- The integer promotion of a `uint16_t`. -/
def promote (x : UInt16) : Int32 := Int32.ofNat x.toNat

/-- What the tests on the dispatcher's result decide. -/
inductive Verdict
  | response
  | free
  | enqueue (index : Int32)
  | classify
  deriving DecidableEq

def verdict (queueId nbQueues : UInt16) (ret : Int32) : Verdict :=
  if ret = Int32.ofInt dispatchResponse then .response
  else if ret = Int32.ofInt dispatchError ∨ promote nbQueues ≤ ret then .free
  else if ret ≠ promote queueId then .enqueue ret
  else .classify

/-! ## One call -/

/-- The arguments and the surroundings of a call of `process_packets`. -/
structure Call (Port Data : Type) where
  cfg : Config Port Data
  portId : Port
  queueId : UInt16
  nbQueues : UInt16
  pktsFromRing : Bool

/-- A packet, and what is answered while it is processed: by the dispatcher, which leaves `data` and
`len`, by the rings, and by the allocator. -/
structure Inputs (Data : Type) where
  packet : Packet Data
  ret : Int32
  data : Data
  len : UInt16
  ringRoom : Int → Bool
  cloneOk : Nat → Bool
  kniCloneOk : Bool
  kniRoom : Bool
  action : KnictlAction

/-- What is done with packet `i` of the batch. -/
inductive BatchEvent
  /-- `dispatch_ring[port_id][index]` is used. -/
  | ring (i : Nat) (index : Int)
  /-- The packet is given to `protocol_filter`. -/
  | classified (i : Nat)
  /-- A clone of the packet is handed on. -/
  | cloned (i : Nat) (d : Dest)
  /-- The packet itself is handed on. -/
  | disposed (i : Nat) (d : Dest)
  deriving DecidableEq

def Call.wid (c : Call Port Data) : Wid Port := (c.portId, c.queueId.toNat)

/-- Is the dispatcher asked? -/
def Call.asks (c : Call Port Data) : Bool := !c.pktsFromRing && c.cfg.packetDispatcher c.wid

/-- Enqueue on the ring at `index`; beyond the rings of the port nothing is defined. -/
def Call.enqueue (c : Call Port Data) (i : Nat) (index : Int) (room : Bool)
    (done : Dest → BatchEvent) : Traced BatchEvent Unit := do
  emit (.ring i index)
  if 0 ≤ index ∧ index < c.nbQueues.toNat then
    emit (done (if room then .dispatchRing index.toNat else .freed))
  else cut

/-- One turn of the loop over the other queues. -/
def Call.cloneFor (c : Call Port Data) (i : Nat) (inp : Inputs Data) (j : Nat) :
    Traced BatchEvent Unit :=
  if j = c.queueId.toNat ∨ !inp.cloneOk j then pure ()
  else c.enqueue i j (inp.ringRoom j) (.cloned i)

def Call.cloneForAll (c : Call Port Data) (i : Nat) (inp : Inputs Data) :
    List Nat → Traced BatchEvent Unit
  | [] => pure ()
  | j :: js => do
      c.cloneFor i inp j
      c.cloneForAll i inp js

def Call.cloneForKni (c : Call Port Data) (i : Nat) (inp : Inputs Data) : Traced BatchEvent Unit :=
  if c.cfg.enableKni c.wid && c.cfg.primary c.wid && inp.kniCloneOk then
    emit (.cloned i (kniEnqueue inp.kniRoom))
  else pure ()

/-- From `protocol_filter` on. -/
def Call.classify (c : Call Port Data) (i : Nat) (inp : Inputs Data) (p : Packet Data) :
    Traced BatchEvent Unit := do
  emit (.classified i)
  match c.cfg.protocolFilter c.wid p.data p.dataLen with
  | none => cut
  | some r =>
      if c.cfg.forAll r then do
        c.cloneForAll i inp (if c.pktsFromRing then [] else List.range c.nbQueues.toNat)
        c.cloneForKni i inp
        emit (.disposed i .vethInput)
      else emit (.disposed i (unicastDest c.cfg c.wid r inp.action inp.kniRoom))

/-- The body of the loop. -/
def Call.processPacket (c : Call Port Data) (i : Nat) (inp : Inputs Data) : Traced BatchEvent Unit :=
  if c.asks then
    match verdict c.queueId c.nbQueues inp.ret with
    | .response => emit (.disposed i .txTable)
    | .free => emit (.disposed i .freed)
    | .enqueue index => c.enqueue i index.toInt (inp.ringRoom index.toInt) (.disposed i)
    | .classify => c.classify i inp ⟨inp.data, inp.len⟩
  else c.classify i inp inp.packet

/-- `process_packets` from packet `i` on. -/
def Call.processPackets (c : Call Port Data) : Nat → List (Inputs Data) → Traced BatchEvent Unit
  | _, [] => pure ()
  | i, inp :: batch => do
      c.processPacket i inp
      c.processPackets (i + 1) batch

/-! ## What should be done -/

/-- The packet as `protocol_filter` gets it. -/
def Call.seen (c : Call Port Data) (inp : Inputs Data) : Packet Data :=
  if c.asks then ⟨inp.data, inp.len⟩ else inp.packet

/-- The packet is for this worker: the dispatcher is not asked, or names its queue. -/
def Call.Local (c : Call Port Data) (inp : Inputs Data) : Prop :=
  c.asks = true → inp.ret.toInt = c.queueId.toNat ∧ inp.ret.toInt < c.nbQueues.toNat

def disposes (i : Nat) : BatchEvent → Bool
  | .disposed j _ => j = i
  | _ => false

/-- The call returns; it uses rings of the port only; it goes on with exactly the packets for this worker;
and every packet of the batch is handed on once. -/
structure Disposed (c : Call Port Data) (k : Nat) (batch : List (Inputs Data))
    (x : Traced BatchEvent Unit) : Prop where
  returns : x.res = some ()
  inRange : ∀ (i : Nat) (index : Int), .ring i index ∈ x.log → 0 ≤ index ∧ index < c.nbQueues.toNat
  compared : ∀ j inp, batch[j]? = some inp → (.classified (k + j) ∈ x.log ↔ c.Local inp)
  once : ∀ j < batch.length, x.log.countP (disposes (k + j)) = 1

/-- The dispatcher's result is at least `LAZYBSD_DISPATCH_RESPONSE`, and `protocol_filter` returns if it
gets the packet. -/
structure Harmless (c : Call Port Data) (inp : Inputs Data) : Prop where
  result : c.asks = true → dispatchResponse ≤ inp.ret.toInt
  filter : c.Local inp →
    (c.cfg.protocolFilter c.wid (c.seen inp).data (c.seen inp).dataLen).isSome = true

/-! ## The comparisons -/

section Compare

variable {queueId nbQueues : UInt16} {ret : Int32}

theorem promote_toInt (x : UInt16) : (promote x).toInt = x.toNat :=
  Int32.toInt_ofNat_of_lt (by have := x.toNat_lt; omega)

/-- The promotions keep the order: the tests compare numbers. -/
theorem verdict_eq (queueId nbQueues : UInt16) (ret : Int32) :
    verdict queueId nbQueues ret =
      if ret.toInt = dispatchResponse then .response
      else if ret.toInt = dispatchError ∨ (nbQueues.toNat : Int) ≤ ret.toInt then .free
      else if ret.toInt ≠ queueId.toNat then .enqueue ret
      else .classify := by
  have hresponse : (Int32.ofInt dispatchResponse).toInt = dispatchResponse := by decide
  have herror : (Int32.ofInt dispatchError).toInt = dispatchError := by decide
  simp only [verdict, ← Int32.toInt_inj, Int32.le_iff_toInt_le, promote_toInt, hresponse, herror, ne_eq]

/-- All ways through the tests. -/
inductive Decided (queueId nbQueues : UInt16) (ret : Int32) : Verdict → Prop
  | response (h : ret.toInt = -2) : Decided queueId nbQueues ret .response
  | free (h : ret.toInt = -1 ∨ (nbQueues.toNat : Int) ≤ ret.toInt) : Decided queueId nbQueues ret .free
  | other (h : 0 ≤ ret.toInt ∧ ret.toInt < nbQueues.toNat) (hne : ret.toInt ≠ queueId.toNat) :
      Decided queueId nbQueues ret (.enqueue ret)
  | below (h : ret.toInt < -2) : Decided queueId nbQueues ret (.enqueue ret)
  | own (h : 0 ≤ ret.toInt ∧ ret.toInt < nbQueues.toNat) (heq : ret.toInt = queueId.toNat) :
      Decided queueId nbQueues ret .classify

theorem verdict_cases (queueId nbQueues : UInt16) (ret : Int32) :
    Decided queueId nbQueues ret (verdict queueId nbQueues ret) := by
  rw [verdict_eq, dispatchResponse, dispatchError]
  split
  · next h => exact .response h
  · split
    · next h => exact .free h
    · split
      · next hne =>
          by_cases h : ret.toInt < -2
          · exact .below h
          · exact .other (by omega) hne
      · next heq => exact .own (by omega) (by omega)

/-- `process_packets` of the workers decides in the same way, and stops where the index is negative. -/
theorem dispatchAnswer_verdict [DecidableEq Port] (cfg : Config Port Data) (p : Port) (m : Mbuf Port)
    (data : Data) (len : UInt16) (s : World Port Data) (hqueues : cfg.nbQueues p = nbQueues.toNat) :
    dispatchAnswer cfg (p, queueId.toNat) m ret.toInt data len s =
      match verdict queueId nbQueues ret with
      | .response =>
          some (handOn (p, queueId.toNat) m .txTable
            (setPacket m ⟨data, len⟩ (askDispatcher (p, queueId.toNat) m data s)))
      | .free => some (handOn (p, queueId.toNat) m .freed (askDispatcher (p, queueId.toNat) m data s))
      | .enqueue index =>
          if index.toInt < 0 then none
          else some (redirect (p, queueId.toNat) m index.toInt.toNat
            (askDispatcher (p, queueId.toNat) m data s))
      | .classify =>
          some (setPhase (p, queueId.toNat) (.filter len) (askDispatcher (p, queueId.toNat) m data s)) := by
  rw [verdict_eq, dispatchAnswer, hqueues]
  by_cases hresponse : ret.toInt = dispatchResponse
  · simp only [if_pos hresponse]
  · by_cases hfree : ret.toInt = dispatchError ∨ (nbQueues.toNat : Int) ≤ ret.toInt
    · simp only [if_neg hresponse, if_pos hfree]
    · by_cases hother : ret.toInt ≠ queueId.toNat
      · simp only [if_neg hresponse, if_neg hfree, if_pos hother]
      · have hpos : ¬ ret.toInt < 0 := by omega
        simp only [if_neg hresponse, if_neg hfree, if_neg hother, if_neg hpos]

end Compare

/-! ## One packet -/

section Packet

variable {c : Call Port Data} {i : Nat} {inp : Inputs Data} {index : Int} {room : Bool}
  {done : Dest → BatchEvent}

theorem enqueue_inside (i : Nat) (room : Bool) (done : Dest → BatchEvent) (h : 0 ≤ index ∧ index < c.nbQueues.toNat) :
    (c.enqueue i index room done).res = some () ∧
      ∃ d, (c.enqueue i index room done).log = [.ring i index, done d] := by
  rw [Call.enqueue, if_pos h]
  exact ⟨rfl, _, rfl⟩

theorem enqueue_outside (h : ¬ (0 ≤ index ∧ index < c.nbQueues.toNat)) :
    (c.enqueue i index room done).res = none := by
  rw [Call.enqueue, if_neg h]
  rfl

/-- An event of a clone: a ring of the port, or the clone handed on. -/
def CloneEvent (c : Call Port Data) (i : Nat) (e : BatchEvent) : Prop :=
  (∃ index : Int, e = .ring i index ∧ 0 ≤ index ∧ index < c.nbQueues.toNat) ∨ ∃ d, e = .cloned i d

theorem cloneForAll_spec (i : Nat) (inp : Inputs Data) {js : List Nat}
    (hjs : ∀ j ∈ js, j < c.nbQueues.toNat) :
    (c.cloneForAll i inp js).res = some () ∧ (c.cloneForAll i inp js).All (CloneEvent c i) := by
  induction js with
  | nil => exact ⟨rfl, all_pure.mpr trivial⟩
  | cons j js ih =>
      obtain ⟨hres, hall⟩ := ih fun j' hj' => hjs j' (List.mem_cons_of_mem _ hj')
      have hfirst : (c.cloneFor i inp j).res = some () ∧ (c.cloneFor i inp j).All (CloneEvent c i) := by
        rw [Call.cloneFor]
        split
        · exact ⟨rfl, all_pure.mpr trivial⟩
        · have hlt := hjs j List.mem_cons_self
          have hin : (0 : Int) ≤ j ∧ (j : Int) < c.nbQueues.toNat := by omega
          obtain ⟨hdone, d, hlog⟩ := enqueue_inside (c := c) i (inp.ringRoom j) (.cloned i) hin
          refine ⟨hdone, ?_⟩
          rw [All, hlog]
          rintro e he
          rcases List.mem_cons.mp he with rfl | he
          · exact .inl ⟨j, rfl, hin⟩
          · exact .inr ⟨d, List.mem_singleton.mp he⟩
      rw [Call.cloneForAll, all_bind_of_res hfirst.1, res_bind, hfirst.1]
      exact ⟨hres, hfirst.2, hall⟩

/-- How a packet is handled: rings of the port are used, clones are handed on, the classifier is called if
the packet is for this worker, and last of all the packet is handed on. -/
structure Handled (c : Call Port Data) (i : Nat) (inp : Inputs Data) (x : Traced BatchEvent Unit) :
    Prop where
  returns : x.res = some ()
  shape : ∃ pre d, x.log = pre ++ [.disposed i d] ∧
    (∀ e ∈ pre, CloneEvent c i e ∨ e = .classified i) ∧ (.classified i ∈ pre ↔ c.Local inp)

theorem classify_handled {p : Packet Data} (hlocal : c.Local inp)
    (h : (c.cfg.protocolFilter c.wid p.data p.dataLen).isSome = true) :
    Handled c i inp (c.classify i inp p) := by
  obtain ⟨r, hr⟩ := Option.isSome_iff_exists.mp h
  rw [Call.classify, hr]
  cases hall : c.cfg.forAll r with
  | false =>
      refine ⟨by simp [hall], [.classified i], unicastDest c.cfg c.wid r inp.action inp.kniRoom,
        by simp [hall], ?_, iff_of_true List.mem_cons_self hlocal⟩
      intro e he
      exact .inr (List.mem_singleton.mp he)
  | true =>
      have hqueues : ∀ j ∈ (if c.pktsFromRing then [] else List.range c.nbQueues.toNat),
          j < c.nbQueues.toNat := by
        intro j hj
        split at hj
        · exact absurd hj List.not_mem_nil
        · exact List.mem_range.mp hj
      obtain ⟨hres, hclones⟩ := cloneForAll_spec i inp hqueues
      have hkni : (c.cloneForKni i inp).res = some () ∧ (c.cloneForKni i inp).All (CloneEvent c i) := by
        rw [Call.cloneForKni]
        split
        · exact ⟨rfl, all_emit.mpr (.inr ⟨_, rfl⟩)⟩
        · exact ⟨rfl, all_pure.mpr trivial⟩
      refine ⟨by simp [hall, hres, hkni.1], .classified i :: ((c.cloneForAll i inp
        (if c.pktsFromRing then [] else List.range c.nbQueues.toNat)).log ++ (c.cloneForKni i inp).log),
        .vethInput, by simp [hall, hres, hkni.1], ?_, iff_of_true List.mem_cons_self hlocal⟩
      intro e he
      rcases List.mem_cons.mp he with rfl | he
      · exact .inr rfl
      · rcases List.mem_append.mp he with he | he
        · exact .inl (hclones e he)
        · exact .inl (hkni.2 e he)

theorem classify_stuck {p : Packet Data}
    (h : ¬ (c.cfg.protocolFilter c.wid p.data p.dataLen).isSome = true) :
    (c.classify i inp p).res = none := by
  rw [Call.classify, Option.not_isSome_iff_eq_none.mp h]
  rfl

theorem Call.not_local (hasks : c.asks = true)
    (h : inp.ret.toInt < 0 ∨ (c.nbQueues.toNat : Int) ≤ inp.ret.toInt ∨
      inp.ret.toInt ≠ c.queueId.toNat) : ¬ c.Local inp := by
  intro hlocal
  have hown := hlocal hasks
  omega

theorem handled_alone (d : Dest) (h : ¬ c.Local inp) : Handled c i inp (emit (.disposed i d)) :=
  ⟨rfl, [], d, rfl, fun _ he => absurd he List.not_mem_nil, iff_of_false List.not_mem_nil h⟩

/-- For each way through the tests. -/
theorem processPacket_handled (h : Harmless c inp) : Handled c i inp (c.processPacket i inp) := by
  have hfilter := h.filter
  rw [Call.processPacket]
  rw [Call.seen] at hfilter
  cases hasks : c.asks with
  | false =>
      have hlocal : c.Local inp := by
        intro htrue
        rw [hasks] at htrue
        cases htrue
      rw [hasks] at hfilter
      exact classify_handled hlocal (hfilter hlocal)
  | true =>
      have hresult := h.result hasks
      have hdecided := verdict_cases c.queueId c.nbQueues inp.ret
      rw [if_pos rfl]
      generalize verdict c.queueId c.nbQueues inp.ret = v at hdecided
      cases hdecided with
      | response hret => exact handled_alone _ (c.not_local hasks (by omega))
      | free hret => exact handled_alone _ (c.not_local hasks (by omega))
      | other hin hne =>
          obtain ⟨hres, d, hlog⟩ := enqueue_inside i (inp.ringRoom inp.ret.toInt) (.disposed i) hin
          refine ⟨hres, [.ring i inp.ret.toInt], d, hlog, ?_,
            iff_of_false (by simp) (c.not_local hasks (.inr (.inr hne)))⟩
          intro e he
          exact .inl (.inl ⟨_, List.mem_singleton.mp he, hin⟩)
      | below hret =>
          rw [dispatchResponse] at hresult
          omega
      | own hin heq =>
          have hlocal : c.Local inp := fun _ => ⟨heq, hin.2⟩
          rw [hasks] at hfilter
          exact classify_handled hlocal (hfilter hlocal)

/-- A negative index and a classifier that does not return are the end of the call. -/
theorem processPacket_stuck (h : ¬ Harmless c inp) : (c.processPacket i inp).res = none := by
  rw [Call.processPacket]
  cases hasks : c.asks with
  | false =>
      apply classify_stuck
      intro hsome
      apply h
      refine ⟨?_, ?_⟩
      · rw [hasks]
        rintro ⟨⟩
      · intro _
        rw [Call.seen, hasks]
        exact hsome
  | true =>
      have hdecided := verdict_cases c.queueId c.nbQueues inp.ret
      rw [if_pos rfl]
      generalize verdict c.queueId c.nbQueues inp.ret = v at hdecided
      -- wherever the packet goes on, its result is allowed
      have hnot (hret : -2 ≤ inp.ret.toInt) (hother : ¬ c.Local inp) : False :=
        h ⟨fun _ => hret, fun hlocal => absurd hlocal hother⟩
      cases hdecided with
      | response hret => exact (hnot (by omega) (c.not_local hasks (by omega))).elim
      | free hret => exact (hnot (by omega) (c.not_local hasks (by omega))).elim
      | other hin hne => exact (hnot (by omega) (c.not_local hasks (by omega))).elim
      | below hret => exact enqueue_outside (by omega)
      | own hin heq =>
          apply classify_stuck
          intro hsome
          apply h
          refine ⟨?_, ?_⟩
          · intro _
            rw [dispatchResponse]
            omega
          · intro _
            rw [Call.seen, hasks]
            exact hsome

end Packet

/-! ## The batch -/

/-- The packet an event is about. -/
def BatchEvent.packet : BatchEvent → Nat
  | .ring i _ => i
  | .classified i => i
  | .cloned i _ => i
  | .disposed i _ => i

section Batch

variable {c : Call Port Data} {i k : Nat} {inp : Inputs Data} {batch : List (Inputs Data)}
  {x y : Traced BatchEvent Unit} {e : BatchEvent}

theorem CloneEvent.packet (h : CloneEvent c i e) : e.packet = i := by
  rcases h with ⟨index, rfl, -⟩ | ⟨d, rfl⟩
  · rfl
  · rfl

/-- The events of a packet are about that packet, and use rings of the port. -/
theorem Handled.events (h : Handled c i inp x) (he : e ∈ x.log) :
    e.packet = i ∧ ∀ (j : Nat) (index : Int), e = .ring j index → 0 ≤ index ∧ index < c.nbQueues.toNat := by
  obtain ⟨pre, d, hlog, hpre, -⟩ := h.shape
  rw [hlog] at he
  rcases List.mem_append.mp he with he | he
  · rcases hpre e he with hclone | rfl
    · refine ⟨hclone.packet, ?_⟩
      rintro j index rfl
      rcases hclone with ⟨index', heq, hin⟩ | ⟨d, heq⟩
      · cases heq
        exact hin
      · cases heq
    · exact ⟨rfl, fun j index heq => by cases heq⟩
  · obtain rfl := List.mem_singleton.mp he
    exact ⟨rfl, fun j index heq => by cases heq⟩

theorem disposes_of_ne (h : e.packet ≠ i) : disposes i e = false := by
  cases e with
  | disposed j d => exact decide_eq_false h
  | _ => rfl

theorem countP_disposes_of_ne {l : List BatchEvent} (h : ∀ e ∈ l, e.packet ≠ i) :
    l.countP (disposes i) = 0 := by
  rw [List.countP_eq_zero]
  intro e he
  rw [disposes_of_ne (h e he)]
  exact Bool.false_ne_true

/-- The packet itself is handed on once. -/
theorem Handled.once (h : Handled c i inp x) : x.log.countP (disposes i) = 1 := by
  obtain ⟨pre, d, hlog, hpre, -⟩ := h.shape
  have hzero : pre.countP (disposes i) = 0 := by
    rw [List.countP_eq_zero]
    intro e he
    rcases hpre e he with (⟨index, rfl, -⟩ | ⟨d, rfl⟩) | rfl <;> exact Bool.false_ne_true
  rw [hlog, List.countP_append, hzero, List.countP_singleton]
  simp [disposes]

theorem Handled.compared (h : Handled c i inp x) : .classified i ∈ x.log ↔ c.Local inp := by
  obtain ⟨pre, d, hlog, -, hlocal⟩ := h.shape
  rw [hlog, List.mem_append, ← hlocal]
  simp

/-- A packet in front of a batch. -/
theorem Disposed.cons (hx : Handled c k inp x) (hy : Disposed c (k + 1) batch y)
    (hlater : ∀ e ∈ y.log, k < e.packet) : Disposed c k (inp :: batch) (x >>= fun _ => y) := by
  have hlog : (x >>= fun _ => y).log = x.log ++ y.log := by
    rw [log_bind, hx.returns]
    rfl
  have hother {j : Nat} (hj : k < j) : ∀ e ∈ x.log, e.packet ≠ j := by
    intro e he
    rw [(hx.events he).1]
    exact Nat.ne_of_lt hj
  have hfirst : ∀ e ∈ y.log, e.packet ≠ k := fun e he => Nat.ne_of_gt (hlater e he)
  refine ⟨?_, ?_, ?_, ?_⟩
  · rw [res_bind, hx.returns]
    exact hy.returns
  · intro j index hmem
    rw [hlog] at hmem
    rcases List.mem_append.mp hmem with hmem | hmem
    · exact (hx.events hmem).2 j index rfl
    · exact hy.inRange j index hmem
  · intro j inp' hinp
    rw [hlog, List.mem_append]
    cases j with
    | zero =>
        obtain rfl := Option.some.inj hinp
        rw [or_iff_left fun hmem => hfirst _ hmem rfl]
        exact hx.compared
    | succ j =>
        have hlt : k < k + (j + 1) := by omega
        rw [or_iff_right fun hmem => hother hlt _ hmem rfl, ← Nat.add_assoc, Nat.add_right_comm]
        exact hy.compared j inp' hinp
  · intro j hj
    rw [hlog, List.countP_append]
    cases j with
    | zero => rw [Nat.add_zero, hx.once, countP_disposes_of_ne hfirst]
    | succ j =>
        rw [countP_disposes_of_ne (hother (by omega)), Nat.zero_add, ← Nat.add_assoc,
          Nat.add_right_comm]
        exact hy.once j (Nat.lt_of_succ_lt_succ hj)

theorem processPackets_disposed (h : ∀ inp ∈ batch, Harmless c inp) :
    Disposed c k batch (c.processPackets k batch) ∧
      ∀ e ∈ (c.processPackets k batch).log, k ≤ e.packet := by
  induction batch generalizing k with
  | nil =>
      refine ⟨⟨rfl, ?_, ?_, ?_⟩, ?_⟩
      · intro i index he
        exact absurd he List.not_mem_nil
      · intro j inp hinp
        cases hinp
      · intro j hj
        exact absurd hj (Nat.not_lt_zero j)
      · intro e he
        exact absurd he List.not_mem_nil
  | cons inp batch ih =>
      have hx : Handled c k inp (c.processPacket k inp) :=
        processPacket_handled (h inp List.mem_cons_self)
      obtain ⟨hy, hlater⟩ := ih (k := k + 1) fun inp' hinp' => h inp' (List.mem_cons_of_mem _ hinp')
      refine ⟨Disposed.cons hx hy hlater, ?_⟩
      intro e he
      rw [Call.processPackets, log_bind, hx.returns] at he
      rcases List.mem_append.mp he with he | he
      · exact Nat.le_of_eq (hx.events he).1.symm
      · exact Nat.le_of_succ_le (hlater e he)

/-- A call that returns has come through every packet. -/
theorem harmless_of_returns (h : (c.processPackets k batch).res = some ()) :
    ∀ inp ∈ batch, Harmless c inp := by
  induction batch generalizing k with
  | nil =>
      intro inp hinp
      exact absurd hinp List.not_mem_nil
  | cons inp batch ih =>
      rw [Call.processPackets, res_bind] at h
      obtain ⟨u, hfirst, hrest⟩ := Option.bind_eq_some_iff.mp h
      intro inp' hinp'
      rcases List.mem_cons.mp hinp' with rfl | hmem
      · by_contra hnot
        rw [processPacket_stuck hnot] at hfirst
        cases hfirst
      · exact ih hrest inp' hmem

end Batch

/-- For every batch, every queue and every number of queues: the call returns, uses rings of the port only,
tells the own packets from the others and hands on every packet once, exactly if no result of the
dispatcher is below `LAZYBSD_DISPATCH_RESPONSE` and the classifier returns for the packets it gets. -/
theorem packets_are_disposed_iff (c : Call Port Data) (batch : List (Inputs Data)) :
    Disposed c 0 batch (c.processPackets 0 batch) ↔ ∀ inp ∈ batch, Harmless c inp :=
  ⟨fun h => harmless_of_returns h.returns, fun h => (processPackets_disposed h).1⟩

/-! ## A dispatcher -/

namespace Sample

/-- Worker 1 of a port with two queues takes packets from its NIC queue; every frame is for the stack. -/
def call : Call Unit Unit where
  cfg :=
    { nbQueues := fun _ => 2
      packetDispatcher := fun _ => true
      enableKni := fun _ => false
      primary := fun _ => true
      kniAccept := fun _ => false
      inet6 := false
      protocolFilter := fun _ _ _ => some .unknown }
  portId := ()
  queueId := 1
  nbQueues := 2
  pktsFromRing := false

/-- The dispatcher returns `ret`; there is room everywhere. -/
def answer (ret : Int32) : Inputs Unit :=
  ⟨⟨(), 64⟩, ret, (), 64, fun _ => true, fun _ => true, true, true, .default⟩

end Sample

/-- The dispatcher returns -3: the ring before the first of the port is used. -/
theorem result_below_response_leaves_the_rings :
    (Sample.call.processPackets 0 [Sample.answer (-3)]).log = [.ring 0 (-3)] ∧
      ¬ Disposed Sample.call 0 [Sample.answer (-3)]
        (Sample.call.processPackets 0 [Sample.answer (-3)]) := by
  have hlog : (Sample.call.processPackets 0 [Sample.answer (-3)]).log = [.ring 0 (-3)] := by decide
  refine ⟨hlog, ?_⟩
  intro h
  have hrange := (h.inRange 0 (-3) (by rw [hlog]; exact List.mem_cons_self)).1
  exact absurd hrange (by decide)

end LazyBsd.Dispatch
