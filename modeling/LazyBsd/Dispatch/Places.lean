/-
# LazyBsd.Dispatch.Places — what a step can do, and where an mbuf can be.

`step_cases` lists what a step can do. An mbuf is in the batch of its receiver, or on one ring of the
port, or in the batch of the worker that took it from its ring, or gone (`Places`).
-/
import Mathlib.Tactic.Common
import LazyBsd.Lib.Run
import LazyBsd.Dispatch.Model

namespace LazyBsd.Dispatch

open LazyBsd.Filter

variable {Port Data : Type*} [DecidableEq Port]

/-! ## Reading the log -/

/-- The mbufs an event is about. -/
def Event.mbufs : Event Port → List (Mbuf Port)
  | .received _ m => [m]
  | .dequeued _ m => [m]
  | .dispatched _ m => [m]
  | .passed _ m _ => [m]
  | .cloned _ m c _ => [m, c]

/-- The worker takes the mbuf, from its NIC queue or its ring. -/
def Event.takes (w : Wid Port) (m : Mbuf Port) : Event Port → Bool
  | .received w' m' => decide (w' = w ∧ m' = m)
  | .dequeued w' m' => decide (w' = w ∧ m' = m)
  | _ => false

/-- The worker hands on the mbuf. -/
def Event.hands (w : Wid Port) (m : Mbuf Port) : Event Port → Bool
  | .passed w' m' _ => decide (w' = w ∧ m' = m)
  | _ => false

/-- The worker hands on some mbuf that carries the frame. -/
def Event.handsFrame (w : Wid Port) (o : Wid Port × Nat) : Event Port → Bool
  | .passed w' m _ => decide (w' = w ∧ m.origin = o)
  | _ => false

/-- The worker calls `lazybsd_veth_input` on some mbuf that carries the frame. -/
def Event.inputs (w : Wid Port) (o : Wid Port × Nat) : Event Port → Bool
  | .passed w' m .vethInput => decide (w' = w ∧ m.origin = o)
  | _ => false

/-- The mbuf is put on a dispatch ring or given to the dispatcher. -/
def Event.redistributes (m : Mbuf Port) : Event Port → Prop
  | .dispatched _ m' => m' = m
  | .passed _ m' (.dispatchRing _) => m' = m
  | .cloned _ _ c (.dispatchRing _) => c = m
  | _ => False

/-! ## What a step can do -/

/-- Is the loop over the other queues past the queue? -/
def Phase.past (q : Nat) : Phase → Bool
  | .start => false
  | .filter _ => false
  | .clone j => decide (q < j)
  | .kni => true
  | .input => true

/-- At most so many steps are left for the first mbuf of a worker of `n` queues. -/
def Phase.work (n : Nat) : Phase → Nat
  | .start => n + 5
  | .filter _ => n + 4
  | .clone j => n - j + 3
  | .kni => 2
  | .input => 1

/-- The first mbuf goes on in another phase, without being asked about: no queue that was passed comes
again, only a frame from the NIC is cloned, and the length is the one in the mbuf. -/
structure MovesTo (cfg : Config Port Data) (s : World Port Data) (w : Wid Port) (m : Mbuf Port)
    (p : Phase) : Prop where
  work : p.work (cfg.nbQueues w.1) < (s.workers w).phase.work (cfg.nbQueues w.1)
  past : ∀ q, p.past q = false → (s.workers w).phase.past q = false
  clone : ∀ j, p = .clone j → (s.workers w).fromRing = false
  filter : ∀ len, p = .filter len → len = (s.packet m).dataLen

/-- The first mbuf is not for all workers, as the filter reads it. -/
def Unicast (cfg : Config Port Data) (s : World Port Data) (w : Wid Port) (m : Mbuf Port) : Prop :=
  ∃ len r, (s.workers w).phase = .filter len ∧ cfg.protocolFilter w (s.packet m).data len = some r ∧
    cfg.forAll r = false

/-- **What a step can do.** -/
inductive StepTo (cfg : Config Port Data) (s : World Port Data) (w : Wid Port) : World Port Data → Prop
  | receive (packets : List (Packet Data)) (h : (s.workers w).batch = []) :
      StepTo cfg s w (receive w packets s)
  | dequeue (h : (s.workers w).batch = []) : StepTo cfg s w (dequeueBurst w s)
  | move {m rest p} (h : (s.workers w).batch = m :: rest) (hp : MovesTo cfg s w m p) :
      StepTo cfg s w (setPhase w p s)
  | answered {m rest s'} (data : Data) (h : (s.workers w).batch = m :: rest)
      (hnic : (s.workers w).fromRing = false) (hd : cfg.packetDispatcher w = true)
      (hphase : (s.workers w).phase = .start)
      (hs : (∃ len, s' = handOn w m .txTable (setPacket m ⟨data, len⟩ (askDispatcher w m data s))) ∨
        s' = handOn w m .freed (askDispatcher w m data s) ∨
        (∃ q, q < cfg.nbQueues w.1 ∧ q ≠ w.2 ∧ s' = redirect w m q (askDispatcher w m data s)) ∨
        ∃ len, s' = setPhase w (.filter len) (askDispatcher w m data s)) : StepTo cfg s w s'
  | unicast {m rest d} (h : (s.workers w).batch = m :: rest) (hu : Unicast cfg s w m)
      (hd : ∀ q, d ≠ .dispatchRing q) : StepTo cfg s w (handOn w m d s)
  | clone {m rest j} (h : (s.workers w).batch = m :: rest) (hphase : (s.workers w).phase = .clone j)
      (hj : j < cfg.nbQueues w.1) (hne : j ≠ w.2) :
      StepTo cfg s w (setPhase w (.clone (j + 1)) (cloneFor w m j s))
  | kni {m rest} (room : Bool) (h : (s.workers w).batch = m :: rest)
      (hphase : (s.workers w).phase = .kni) : StepTo cfg s w (setPhase w .input (cloneForKni w m room s))
  | input {m rest} (h : (s.workers w).batch = m :: rest) : StepTo cfg s w (handOn w m .vethInput s)

variable {cfg : Config Port Data} {s s' : World Port Data} {w : Wid Port}

omit [DecidableEq Port] in
theorem unicastDest_ne (cfg : Config Port Data) (w : Wid Port) (r : FilterReturn) (a : KnictlAction)
    (room : Bool) (q : Nat) : unicastDest cfg w r a room ≠ .dispatchRing q := by
  unfold unicastDest kniEnqueue
  cases a <;> (repeat' split) <;> simp

/-- The cloning phase is reached with frames from the NIC only. -/
def ClonesOwn (s : World Port Data) : Prop :=
  ∀ w j, (s.workers w).phase = .clone j → (s.workers w).fromRing = false

theorem dispatchAnswer_cases {m : Mbuf Port} {rest : List (Mbuf Port)} {ret : Int} {data : Data}
    {len : UInt16} (hb : (s.workers w).batch = m :: rest) (hnic : (s.workers w).fromRing = false)
    (hd : cfg.packetDispatcher w = true) (hphase : (s.workers w).phase = .start)
    (h : dispatchAnswer cfg w m ret data len s = some s') : StepTo cfg s w s' := by
  unfold dispatchAnswer at h
  refine .answered data hb hnic hd hphase ?_
  by_cases hresp : ret = dispatchResponse
  · rw [if_pos hresp] at h
    exact .inl ⟨len, (Option.some.inj h).symm⟩
  · rw [if_neg hresp] at h
    by_cases herr : ret = dispatchError ∨ (cfg.nbQueues w.1 : Int) ≤ ret
    · rw [if_pos herr] at h
      exact .inr (.inl (Option.some.inj h).symm)
    · rw [if_neg herr] at h
      by_cases hneg : ret < 0
      · rw [if_pos hneg] at h
        cases h
      · rw [if_neg hneg] at h
        by_cases hne : ret ≠ w.2
        · rw [if_pos hne] at h
          exact .inr (.inr (.inl ⟨ret.toNat, by omega, by omega, (Option.some.inj h).symm⟩))
        · rw [if_neg hne] at h
          exact .inr (.inr (.inr ⟨len, (Option.some.inj h).symm⟩))

/-- The classifier's answer: a frame for all goes through the workers, any other is handed on. -/
theorem filterStep_cases {m : Mbuf Port} {rest : List (Mbuf Port)} {len : UInt16} {a : KnictlAction}
    {room : Bool} (hb : (s.workers w).batch = m :: rest) (hphase : (s.workers w).phase = .filter len)
    (h : processPacket cfg w m s (.filter len) (.filter a room) = some s') : StepTo cfg s w s' := by
  simp only [processPacket] at h
  cases hr : cfg.protocolFilter w (s.packet m).data len with
  | none => simp [hr] at h
  | some r =>
      simp only [hr] at h
      cases hall : cfg.forAll r with
      | true =>
          simp only [hall, if_true] at h
          obtain rfl := Option.some.inj h
          refine .move hb ⟨?_, fun q _ => by rw [hphase]; rfl, ?_, ?_⟩
          · rw [hphase]
            split <;> simp [Phase.work]
          · intro j
            cases hring : (s.workers w).fromRing <;> simp
          · intro len'
            split <;> simp
      | false =>
          simp only [hall, Bool.false_eq_true, if_false] at h
          obtain rfl := Option.some.inj h
          exact .unicast hb ⟨len, r, hphase, hr, hall⟩ (unicastDest_ne cfg w r a room)

/-- One turn of the loop over the workers: it ends, passes a worker over, or makes a copy for one. -/
theorem cloneStep_cases {m : Mbuf Port} {rest : List (Mbuf Port)} {j : Nat} {allocOk : Bool}
    (hc : ClonesOwn s) (hb : (s.workers w).batch = m :: rest) (hphase : (s.workers w).phase = .clone j)
    (h : processPacket cfg w m s (.clone j) (.clone allocOk) = some s') : StepTo cfg s w s' := by
  have hown := hc w j hphase
  simp only [processPacket] at h
  split at h
  · obtain rfl := Option.some.inj h
    exact .move hb ⟨by simp [hphase, Phase.work], by simp [Phase.past], by simp, by simp⟩
  · split at h
    · obtain rfl := Option.some.inj h
      refine .move hb ⟨?_, ?_, fun _ _ => hown, by simp⟩
      · rw [hphase]
        simp only [Phase.work]
        omega
      · intro q
        rw [hphase]
        simp only [Phase.past, decide_eq_false_iff_not]
        omega
    · -- the own worker is passed over, so the copy is for another one
      rename_i hlt hgo
      obtain rfl := Option.some.inj h
      exact .clone hb hphase (by omega) fun heq => hgo (.inl heq)

/-- A step with the first mbuf of the batch, by the phase it starts from. -/
theorem processPacket_cases {m : Mbuf Port} {rest : List (Mbuf Port)} {a : Action Data}
    (hc : ClonesOwn s) (hb : (s.workers w).batch = m :: rest)
    (h : processPacket cfg w m s (s.workers w).phase a = some s') : StepTo cfg s w s' := by
  cases hphase : (s.workers w).phase with
  | start =>
      rw [hphase] at h
      cases a with
      | dispatch ret data len =>
          simp only [processPacket] at h
          split at h
          · rename_i hasked
            simp only [Bool.and_eq_true, Bool.not_eq_true'] at hasked
            exact dispatchAnswer_cases hb hasked.1 hasked.2 hphase h
          · obtain rfl := Option.some.inj h
            refine .move hb ⟨by simp [hphase, Phase.work], fun q _ => by rw [hphase]; rfl, by simp, ?_⟩
            intro len' heq
            exact (Phase.filter.inj heq).symm
      | _ => simp [processPacket] at h
  | filter len =>
      rw [hphase] at h
      cases a with
      | filter a room => exact filterStep_cases hb hphase h
      | _ => simp [processPacket] at h
  | clone j =>
      rw [hphase] at h
      cases a with
      | clone allocOk => exact cloneStep_cases hc hb hphase h
      | _ => simp [processPacket] at h
  | kni =>
      rw [hphase] at h
      cases a with
      | kni allocOk room =>
          simp only [processPacket] at h
          split at h
          · obtain rfl := Option.some.inj h
            exact .kni room hb hphase
          · obtain rfl := Option.some.inj h
            exact .move hb ⟨by simp [hphase, Phase.work], by simp [Phase.past], by simp, by simp⟩
      | _ => simp [processPacket] at h
  | input =>
      rw [hphase] at h
      cases a with
      | input =>
          obtain rfl := Option.some.inj h
          exact .input hb
      | _ => simp [processPacket] at h

theorem step_cases {a : Wid Port × Action Data} (hc : ClonesOwn s) (h : step cfg s a = some s') :
    a.1.2 < cfg.nbQueues a.1.1 ∧ StepTo cfg s a.1 s' := by
  obtain ⟨w, act⟩ := a
  unfold step at h
  split at h
  · rename_i hq
    refine ⟨hq, ?_⟩
    cases hb : (s.workers w).batch with
    | nil =>
        cases act with
        | rxBurst packets =>
            simp only [hb] at h
            split at h
            · obtain rfl := Option.some.inj h
              exact .receive packets hb
            · cases h
        | ringBurst =>
            simp only [hb] at h
            obtain rfl := Option.some.inj h
            exact .dequeue hb
        | _ => simp [hb] at h
    | cons m rest =>
        simp only [hb] at h
        exact processPacket_cases hc hb h
  · cases h

/-! ## What the pieces do to the state -/

section
variable {m m' : Mbuf Port} {d : Dest} {v r : Wid Port} {p : Phase}

@[simp] theorem setPhase_batch : ((setPhase w p s).workers v).batch = (s.workers v).batch := by
  simp only [setPhase, Function.update_apply]
  split
  · rename_i h
    rw [h]
  · rfl

@[simp] theorem setPhase_fromRing :
    ((setPhase w p s).workers v).fromRing = (s.workers v).fromRing := by
  simp only [setPhase, Function.update_apply]
  split
  · rename_i h
    rw [h]
  · rfl

theorem setPhase_phase :
    ((setPhase w p s).workers v).phase = if v = w then p else (s.workers v).phase := by
  simp only [setPhase, Function.update_apply]
  split <;> rfl

theorem handOn_batch : ((handOn w m d s).workers v).batch =
    if v = w then (s.workers w).batch.tail else (s.workers v).batch := by
  simp only [handOn, Function.update_apply]
  split <;> rfl

@[simp] theorem handOn_fromRing :
    ((handOn w m d s).workers v).fromRing = (s.workers v).fromRing := by
  simp only [handOn, Function.update_apply]
  split
  · rename_i h
    rw [h]
  · rfl

theorem handOn_phase : ((handOn w m d s).workers v).phase =
    if v = w then .start else (s.workers v).phase := by
  simp only [handOn, Function.update_apply]
  split <;> rfl

theorem mem_of_handOn (h : m' ∈ ((handOn w m d s).workers v).batch) : m' ∈ (s.workers v).batch := by
  rw [handOn_batch] at h
  split at h
  · rename_i hv
    rw [hv]
    exact List.mem_of_mem_tail h
  · exact h

theorem mem_putOnRing_rings :
    m' ∈ (putOnRing r m s).rings v ↔ m' ∈ s.rings v ∨ v = r ∧ m' = m := by
  simp only [putOnRing, Function.update_apply]
  split
  · rename_i h
    simp [h]
  · rename_i h
    simp [h]

theorem putOnRing_home_of_ne (h : m' ≠ m) : (putOnRing r m s).home m' = s.home m' := by
  simp [putOnRing, h]

theorem mem_receive_batch {packets : List (Packet Data)}
    (h : m ∈ ((receive w packets s).workers v).batch) :
    v = w ∧ m ∈ nextFrames w packets.length s ∨ v ≠ w ∧ m ∈ (s.workers v).batch := by
  simp only [receive, Function.update_apply] at h
  split at h
  · rename_i hv
    exact .inl ⟨hv, h⟩
  · rename_i hv
    exact .inr ⟨hv, h⟩

theorem mem_dequeueBurst_batch (h : m ∈ ((dequeueBurst w s).workers v).batch) :
    v = w ∧ m ∈ (s.rings w).take maxPktBurst ∨ v ≠ w ∧ m ∈ (s.workers v).batch := by
  simp only [dequeueBurst, Function.update_apply] at h
  split at h
  · rename_i hv
    exact .inl ⟨hv, h⟩
  · rename_i hv
    exact .inr ⟨hv, h⟩

theorem mem_of_dequeueBurst_rings (h : m ∈ (dequeueBurst w s).rings v) : m ∈ s.rings v := by
  simp only [dequeueBurst, Function.update_apply] at h
  split at h
  · rename_i hv
    rw [hv]
    exact List.mem_of_mem_drop h
  · exact h

omit [DecidableEq Port] in
theorem mem_nextFrames {n : Nat} (h : m ∈ nextFrames w n s) :
    m.receiver = w ∧ m.copy = 0 ∧ s.frames ≤ m.frame ∧ m.frame < s.frames + n := by
  obtain ⟨i, hi, rfl⟩ := List.mem_map.mp h
  rw [List.mem_range'_1] at hi
  exact ⟨rfl, rfl, hi⟩

end

/-! ## Where the mbufs are -/

/-- The mbuf is somewhere, or something happened to it. -/
def Seen (s : World Port Data) (m : Mbuf Port) : Prop :=
  (∃ v, m ∈ (s.workers v).batch) ∨ (∃ r, m ∈ s.rings r) ∨ ∃ e ∈ s.log, m ∈ e.mbufs

/-- The name has been given out. -/
def Named (s : World Port Data) (m : Mbuf Port) : Prop := m.frame < s.frames ∧ m.copy ≤ s.copies

/-- **Where mbufs are.** An mbuf in a batch came from the worker's NIC queue, then the worker is its
receiver, or from the worker's ring; an mbuf that is or was on a ring has one home and is in no batch
from a NIC queue. -/
structure Places (cfg : Config Port Data) (s : World Port Data) : Prop where
  named : ∀ m, Seen s m → Named s m
  batchPort : ∀ v, ∀ m ∈ (s.workers v).batch, m.receiver.1 = v.1 ∧ v.2 < cfg.nbQueues v.1
  ringPort : ∀ r, ∀ m ∈ s.rings r, m.receiver.1 = r.1 ∧ r.2 < cfg.nbQueues r.1
  nic : ∀ v, ∀ m ∈ (s.workers v).batch, (s.workers v).fromRing = false → m.receiver = v ∧ m.copy = 0
  received : ∀ v m, Event.received v m ∈ s.log → m.receiver = v ∧ m.copy = 0
  source : ∀ v, ∀ m ∈ (s.workers v).batch, (s.workers v).fromRing = true → .dequeued v m ∈ s.log
  onRing : ∀ r, ∀ m ∈ s.rings r, s.home m = r ∧
    ∀ v, m ∈ (s.workers v).batch → (s.workers v).fromRing = true
  gone : ∀ r m, Event.dequeued r m ∈ s.log → s.home m = r ∧
    ∀ v, m ∈ (s.workers v).batch → (s.workers v).fromRing = true

/-- An event of a log, or one of those appended to it. -/
theorem mem_append_map {α β : Type*} {f : α → β} {l : List β} {ms : List α} {e : β}
    (he : e ∈ l ++ ms.map f) : e ∈ l ∨ ∃ m ∈ ms, e = f m := by
  rcases List.mem_append.mp he with hold | hnew
  · exact .inl hold
  · obtain ⟨m, hm, rfl⟩ := List.mem_map.mp hnew
    exact .inr ⟨m, hm, rfl⟩

namespace Places

/-- An event about an mbuf of a batch that takes none. -/
theorem event_named (h : Places cfg s) {m : Mbuf Port} (hm : m ∈ (s.workers w).batch) {e : Event Port}
    (hmbufs : e.mbufs = [m]) (htakes : ∀ v m', e.takes v m' = false) :
    ∀ e' ∈ [e], (∀ m' ∈ e'.mbufs, Named s m') ∧ ∀ v m', e'.takes v m' = false := by
  intro e' he'
  obtain rfl := List.mem_singleton.mp he'
  refine ⟨fun m' hm' => ?_, htakes⟩
  rw [hmbufs] at hm'
  obtain rfl := List.mem_singleton.mp hm'
  exact h.named m' (.inl ⟨w, hm⟩)

/-- Nothing new anywhere, apart from events that take no mbuf. -/
theorem mono (h : Places cfg s) (es : List (Event Port))
    (hbatch : ∀ v, ∀ m ∈ (s'.workers v).batch, m ∈ (s.workers v).batch)
    (hfrom : ∀ v, (s'.workers v).fromRing = (s.workers v).fromRing) (hrings : s'.rings = s.rings)
    (hhome : s'.home = s.home) (hframes : s.frames ≤ s'.frames) (hcopies : s.copies ≤ s'.copies)
    (hlog : s'.log = s.log ++ es)
    (hes : ∀ e ∈ es, (∀ m ∈ e.mbufs, Named s' m) ∧ ∀ v m, e.takes v m = false) : Places cfg s' := by
  have hold {e : Event Port} (he : e ∈ s'.log) {v m} (ht : e.takes v m = true) : e ∈ s.log := by
    rw [hlog] at he
    rcases List.mem_append.mp he with hin | hnew
    · exact hin
    · rw [(hes e hnew).2 v m] at ht
      cases ht
  have hmono {m : Mbuf Port} (hm : Seen s m) : Named s' m :=
    ⟨(h.named m hm).1.trans_le hframes, (h.named m hm).2.trans hcopies⟩
  constructor
  · rintro m (⟨v, hv⟩ | ⟨r, hr⟩ | ⟨e, he, hm⟩)
    · exact hmono (.inl ⟨v, hbatch v m hv⟩)
    · exact hmono (.inr (.inl ⟨r, hrings ▸ hr⟩))
    · rw [hlog] at he
      rcases List.mem_append.mp he with hin | hnew
      · exact hmono (.inr (.inr ⟨e, hin, hm⟩))
      · exact (hes e hnew).1 m hm
  · exact fun v m hm => h.batchPort v m (hbatch v m hm)
  · exact fun r m hm => h.ringPort r m (hrings ▸ hm)
  · intro v m hm hf
    rw [hfrom] at hf
    exact h.nic v m (hbatch v m hm) hf
  · exact fun v m hm => h.received v m (hold hm (v := v) (m := m) (by simp [Event.takes]))
  · intro v m hm hf
    rw [hfrom] at hf
    rw [hlog]
    exact List.mem_append_left _ (h.source v m (hbatch v m hm) hf)
  · intro r m hm
    obtain ⟨hr, hall⟩ := h.onRing r m (hrings ▸ hm)
    refine ⟨by rw [hhome, hr], fun v hv => ?_⟩
    rw [hfrom]
    exact hall v (hbatch v m hv)
  · intro r m hm
    obtain ⟨hr, hall⟩ := h.gone r m (hold hm (v := r) (m := m) (by simp [Event.takes]))
    refine ⟨by rw [hhome, hr], fun v hv => ?_⟩
    rw [hfrom]
    exact hall v (hbatch v m hv)

omit [DecidableEq Port] in
/-- The next frames have names that nothing has. -/
theorem not_seen_of_frame (h : Places cfg s) {m : Mbuf Port} (hm : s.frames ≤ m.frame) : ¬ Seen s m :=
  fun hs => absurd (h.named m hs).1 (by omega)

omit [DecidableEq Port] in
theorem not_seen_nextCopy (h : Places cfg s) (m : Mbuf Port) : ¬ Seen s (nextCopy m s) := by
  intro hs
  have hle := (h.named _ hs).2
  simp only [nextCopy] at hle
  omega

omit [DecidableEq Port] in
/-- **No two workers hold the same mbuf.** -/
theorem owner_unique (h : Places cfg s) {m : Mbuf Port} {v v' : Wid Port}
    (hv : m ∈ (s.workers v).batch) (hv' : m ∈ (s.workers v').batch) : v = v' := by
  cases hf : (s.workers v).fromRing with
  | true =>
      have hg := h.gone v m (h.source v m hv hf)
      have hg' := h.gone v' m (h.source v' m hv' (hg.2 v' hv'))
      exact hg.1.symm.trans hg'.1
  | false =>
      cases hf' : (s.workers v').fromRing with
      | true =>
          have hg' := (h.gone v' m (h.source v' m hv' hf')).2 v hv
          rw [hf] at hg'
          cases hg'
      | false => exact (h.nic v m hv hf).1.symm.trans (h.nic v' m hv' hf').1

omit [DecidableEq Port] in
theorem init (packet : Mbuf Port → Packet Data) : Places cfg (World.init packet) := by
  constructor <;> simp [World.init, Seen]

theorem receive (h : Places cfg s) (hq : w.2 < cfg.nbQueues w.1) (packets : List (Packet Data)) :
    Places cfg (receive w packets s) := by
  have hlog {e : Event Port} (he : e ∈ (Dispatch.receive w packets s).log) :
      e ∈ s.log ∨ ∃ m ∈ nextFrames w packets.length s, e = .received w m :=
    mem_append_map he
  have hfrom (v : Wid Port) (hv : v ≠ w) :
      ((Dispatch.receive w packets s).workers v).fromRing = (s.workers v).fromRing := by
    simp [Dispatch.receive, hv]
  have hself : ((Dispatch.receive w packets s).workers w).fromRing = false := by
    simp [Dispatch.receive]
  have hnew {m : Mbuf Port} (hm : m ∈ nextFrames w packets.length s) :
      Named (Dispatch.receive w packets s) m := by
    obtain ⟨-, hc, -, hlt⟩ := mem_nextFrames hm
    exact ⟨hlt, by omega⟩
  have hmono {m : Mbuf Port} (hm : Seen s m) : Named (Dispatch.receive w packets s) m :=
    ⟨Nat.lt_add_right _ (h.named m hm).1, (h.named m hm).2⟩
  have hstay {m : Mbuf Port} (hm : Seen s m) {v : Wid Port}
      (hv : m ∈ ((Dispatch.receive w packets s).workers v).batch) :
      v ≠ w ∧ m ∈ (s.workers v).batch := by
    rcases mem_receive_batch hv with ⟨-, hin⟩ | hold
    · exact absurd hm (h.not_seen_of_frame (mem_nextFrames hin).2.2.1)
    · exact hold
  constructor
  · rintro m (⟨v, hv⟩ | ⟨r, hr⟩ | ⟨e, he, hm⟩)
    · rcases mem_receive_batch hv with ⟨-, hin⟩ | ⟨-, hold⟩
      · exact hnew hin
      · exact hmono (.inl ⟨v, hold⟩)
    · exact hmono (.inr (.inl ⟨r, hr⟩))
    · rcases hlog he with hold | ⟨m', hm', rfl⟩
      · exact hmono (.inr (.inr ⟨e, hold, hm⟩))
      · obtain rfl := List.mem_singleton.mp hm
        exact hnew hm'
  · intro v m hm
    rcases mem_receive_batch hm with ⟨rfl, hin⟩ | ⟨-, hold⟩
    · exact ⟨by rw [(mem_nextFrames hin).1], hq⟩
    · exact h.batchPort v m hold
  · exact h.ringPort
  · intro v m hm hf
    rcases mem_receive_batch hm with ⟨rfl, hin⟩ | ⟨hv, hold⟩
    · exact ⟨(mem_nextFrames hin).1, (mem_nextFrames hin).2.1⟩
    · rw [hfrom v hv] at hf
      exact h.nic v m hold hf
  · intro v m hm
    rcases hlog hm with hold | ⟨m', hm', heq⟩
    · exact h.received v m hold
    · obtain ⟨rfl, rfl⟩ := Event.received.inj heq
      exact ⟨(mem_nextFrames hm').1, (mem_nextFrames hm').2.1⟩
  · intro v m hm hf
    rcases mem_receive_batch hm with ⟨rfl, -⟩ | ⟨hv, hold⟩
    · rw [hself] at hf
      cases hf
    · rw [hfrom v hv] at hf
      exact List.mem_append_left _ (h.source v m hold hf)
  · intro r m hm
    refine ⟨(h.onRing r m hm).1, fun v hv => ?_⟩
    obtain ⟨hne, hold⟩ := hstay (.inr (.inl ⟨r, hm⟩)) hv
    rw [hfrom v hne]
    exact (h.onRing r m hm).2 v hold
  · intro r m hm
    rcases hlog hm with hold | ⟨m', -, heq⟩
    · refine ⟨(h.gone r m hold).1, fun v hv => ?_⟩
      obtain ⟨hne, hin⟩ := hstay (.inr (.inr ⟨_, hold, by simp [Event.mbufs]⟩)) hv
      rw [hfrom v hne]
      exact (h.gone r m hold).2 v hin
    · cases heq

theorem dequeueBurst (h : Places cfg s) (hq : w.2 < cfg.nbQueues w.1) :
    Places cfg (dequeueBurst w s) := by
  have hlog {e : Event Port} (he : e ∈ (Dispatch.dequeueBurst w s).log) :
      e ∈ s.log ∨ ∃ m ∈ (s.rings w).take maxPktBurst, e = .dequeued w m :=
    mem_append_map he
  have hfrom (v : Wid Port) (hv : v ≠ w) :
      ((Dispatch.dequeueBurst w s).workers v).fromRing = (s.workers v).fromRing := by
    simp [Dispatch.dequeueBurst, hv]
  have hself : ((Dispatch.dequeueBurst w s).workers w).fromRing = true := by
    simp [Dispatch.dequeueBurst]
  -- an mbuf that is in no batch from a NIC queue still is in none
  have hkeep {m : Mbuf Port} (hm : ∀ v, m ∈ (s.workers v).batch → (s.workers v).fromRing = true)
      (v : Wid Port) (hv : m ∈ ((Dispatch.dequeueBurst w s).workers v).batch) :
      ((Dispatch.dequeueBurst w s).workers v).fromRing = true := by
    rcases mem_dequeueBurst_batch hv with ⟨rfl, -⟩ | ⟨hne, hold⟩
    · exact hself
    · rw [hfrom v hne]
      exact hm v hold
  constructor
  · rintro m (⟨v, hv⟩ | ⟨r, hr⟩ | ⟨e, he, hm⟩)
    · rcases mem_dequeueBurst_batch hv with ⟨-, hin⟩ | ⟨-, hold⟩
      · exact h.named m (.inr (.inl ⟨w, List.mem_of_mem_take hin⟩))
      · exact h.named m (.inl ⟨v, hold⟩)
    · exact h.named m (.inr (.inl ⟨r, mem_of_dequeueBurst_rings hr⟩))
    · rcases hlog he with hold | ⟨m', hm', rfl⟩
      · exact h.named m (.inr (.inr ⟨e, hold, hm⟩))
      · obtain rfl := List.mem_singleton.mp hm
        exact h.named m (.inr (.inl ⟨w, List.mem_of_mem_take hm'⟩))
  · intro v m hm
    rcases mem_dequeueBurst_batch hm with ⟨rfl, hin⟩ | ⟨-, hold⟩
    · exact h.ringPort v m (List.mem_of_mem_take hin)
    · exact h.batchPort v m hold
  · exact fun r m hm => h.ringPort r m (mem_of_dequeueBurst_rings hm)
  · intro v m hm hf
    rcases mem_dequeueBurst_batch hm with ⟨rfl, -⟩ | ⟨hv, hold⟩
    · rw [hself] at hf
      cases hf
    · rw [hfrom v hv] at hf
      exact h.nic v m hold hf
  · intro v m hm
    rcases hlog hm with hold | ⟨m', -, heq⟩
    · exact h.received v m hold
    · cases heq
  · intro v m hm hf
    rcases mem_dequeueBurst_batch hm with ⟨rfl, hin⟩ | ⟨hv, hold⟩
    · exact List.mem_append_right _ (List.mem_map_of_mem hin)
    · rw [hfrom v hv] at hf
      exact List.mem_append_left _ (h.source v m hold hf)
  · intro r m hm
    have hold := h.onRing r m (mem_of_dequeueBurst_rings hm)
    exact ⟨hold.1, hkeep hold.2⟩
  · intro r m hm
    rcases hlog hm with hold | ⟨m', hm', heq⟩
    · exact ⟨(h.gone r m hold).1, hkeep (h.gone r m hold).2⟩
    · obtain ⟨rfl, rfl⟩ := Event.dequeued.inj heq
      have hring := h.onRing r m (List.mem_of_mem_take hm')
      exact ⟨hring.1, hkeep hring.2⟩

/-- An mbuf that is in no batch and on no ring, and never was on one, goes on a ring of its port. -/
theorem putOnRing (h : Places cfg s) {r : Wid Port} {m : Mbuf Port} (hnamed : Named s m)
    (hport : m.receiver.1 = r.1 ∧ r.2 < cfg.nbQueues r.1) (hbatch : ∀ v, m ∉ (s.workers v).batch)
    (hring : ∀ r', m ∉ s.rings r') (hlog : ∀ r', Event.dequeued r' m ∉ s.log) :
    Places cfg (putOnRing r m s) := by
  constructor
  · rintro m' (hv | ⟨r', hr'⟩ | he)
    · exact h.named m' (.inl hv)
    · rcases mem_putOnRing_rings.mp hr' with hold | ⟨-, rfl⟩
      · exact h.named m' (.inr (.inl ⟨r', hold⟩))
      · exact hnamed
    · exact h.named m' (.inr (.inr he))
  · exact h.batchPort
  · intro r' m' hm'
    rcases mem_putOnRing_rings.mp hm' with hold | ⟨rfl, rfl⟩
    · exact h.ringPort r' m' hold
    · exact hport
  · exact h.nic
  · exact h.received
  · exact h.source
  · intro r' m' hm'
    rcases mem_putOnRing_rings.mp hm' with hold | ⟨rfl, rfl⟩
    · have hne : m' ≠ m := fun heq => hring r' (heq ▸ hold)
      rw [putOnRing_home_of_ne hne]
      exact h.onRing r' m' hold
    · exact ⟨by simp [Dispatch.putOnRing], fun v hv => absurd hv (hbatch v)⟩
  · intro r' m' hm'
    have hne : m' ≠ m := fun heq => hlog r' (heq ▸ hm')
    rw [putOnRing_home_of_ne hne]
    exact h.gone r' m' hm'

end Places

end LazyBsd.Dispatch
