/-
# LazyBsd.Dispatch.Delivery — no mbuf is handed on twice, and no frame reaches a stack twice.

The invariant puts the pieces together and each kind of step keeps it. A frame is input at most once by
a worker because it is at most once there, and what a worker took it has handed on or still has in its
batch, whatever the dispatcher answers and whatever fails.
-/
import Mathlib.Data.List.Count
import Mathlib.Tactic.Common
import LazyBsd.Lib.Run
import LazyBsd.Dispatch.Ledger

namespace LazyBsd.Dispatch

open LazyBsd.Filter Lib

variable {Port Data : Type*} [DecidableEq Port] {cfg : Config Port Data} {s s' : World Port Data}
  {w v r : Wid Port} {m : Mbuf Port} {d : Dest}

/-! ## What no step changes -/

/-- Events stay in the log. -/
theorem StepTo.log (hto : StepTo cfg s w s') : s.log <+: s'.log := by
  cases hto with
  | receive packets hb => exact List.prefix_append _ _
  | dequeue hb => exact List.prefix_append _ _
  | move hb hp => exact List.prefix_rfl
  | @answered m rest _ data hb hnic hd hphase hs =>
      have hask : s.log <+: (askDispatcher w m data s).log := List.prefix_append _ _
      rcases hs with ⟨len, rfl⟩ | rfl | ⟨q, -, -, rfl⟩ | ⟨len, rfl⟩
      · exact hask.trans (List.prefix_append _ _)
      · exact hask.trans (List.prefix_append _ _)
      · unfold redirect
        split <;> exact hask.trans (List.prefix_append _ _)
      · exact hask
  | unicast hb hu hd => exact List.prefix_append _ _
  | clone hb hphase hj hne =>
      unfold cloneFor
      split <;> exact List.prefix_append _ _
  | kni room hb hphase => exact List.prefix_append _ _
  | input hb => exact List.prefix_append _ _

/-- A step is one worker's. -/
theorem StepTo.workers_of_ne (hto : StepTo cfg s w s') (hv : v ≠ w) : s'.workers v = s.workers v := by
  cases hto with
  | receive packets hb => exact Function.update_of_ne hv _ _
  | dequeue hb => exact Function.update_of_ne hv _ _
  | move hb hp => exact Function.update_of_ne hv _ _
  | @answered m rest _ data hb hnic hd hphase hs =>
      rcases hs with ⟨len, rfl⟩ | rfl | ⟨q, -, -, rfl⟩ | ⟨len, rfl⟩
      · exact Function.update_of_ne hv _ _
      · exact Function.update_of_ne hv _ _
      · unfold redirect
        split <;> exact Function.update_of_ne hv _ _
      · exact Function.update_of_ne hv _ _
  | unicast hb hu hd => exact Function.update_of_ne hv _ _
  | clone hb hphase hj hne =>
      refine (Function.update_of_ne hv _ _).trans ?_
      unfold cloneFor
      split <;> rfl
  | kni room hb hphase => exact Function.update_of_ne hv _ _
  | input hb => exact Function.update_of_ne hv _ _

/-! ## The invariant -/

/-- **The invariant of the workers.** -/
structure Inv (cfg : Config Port Data) (s : World Port Data) : Prop where
  cloning : ClonesOwn s
  places : Places cfg s
  counts : Counts s
  ledger : Ledger cfg s
  reads : Reads cfg s

namespace Inv

theorem init (packet : Mbuf Port → Packet Data) : Inv cfg (World.init packet) where
  cloning := by simp [ClonesOwn, World.init]
  places := .init packet
  counts := .init packet
  ledger := .init packet
  reads := .init packet

/-- An mbuf from the NIC queue has never been on a ring. -/
theorem never_dequeued (h : Inv cfg s) (hm : m ∈ (s.workers w).batch)
    (hnic : (s.workers w).fromRing = false) (v : Wid Port) : Event.dequeued v m ∉ s.log := by
  intro hlog
  have hring := (h.places.gone v m hlog).2 w hm
  rw [hnic] at hring
  cases hring

theorem receive (h : Inv cfg s) (hq : w.2 < cfg.nbQueues w.1) (hb : (s.workers w).batch = [])
    (packets : List (Packet Data)) : Inv cfg (receive w packets s) where
  cloning v j hphase := by
    by_cases hv : v = w
    · subst hv
      simp [Dispatch.receive] at hphase
    · simp only [Dispatch.receive, Function.update_of_ne hv] at hphase ⊢
      exact h.cloning v j hphase
  places := h.places.receive hq packets
  counts := h.counts.receive h.places hb packets
  ledger := h.ledger.receive hb packets
  reads := h.reads.receive h.places hb packets

theorem dequeueBurst (h : Inv cfg s) (hq : w.2 < cfg.nbQueues w.1) (hb : (s.workers w).batch = []) :
    Inv cfg (dequeueBurst w s) where
  cloning v j hphase := by
    by_cases hv : v = w
    · subst hv
      simp [Dispatch.dequeueBurst] at hphase
    · simp only [Dispatch.dequeueBurst, Function.update_of_ne hv] at hphase ⊢
      exact h.cloning v j hphase
  places := h.places.dequeueBurst hq
  counts := h.counts.dequeueBurst hb
  ledger := h.ledger.dequeueBurst hb
  reads := h.reads.dequeueBurst hb

/-- The first mbuf goes on in another phase. -/
theorem setPhase (h : Inv cfg s) {rest : List (Mbuf Port)} {p : Phase}
    (hb : (s.workers w).batch = m :: rest)
    (hpast : ∀ q, p.past q = false → (s.workers w).phase.past q = false)
    (hclone : ∀ j, p = .clone j → (s.workers w).fromRing = false)
    (hfilter : cfg.packetDispatcher w = false → ∀ len, p = .filter len → len = (s.packet m).dataLen) :
    Inv cfg (setPhase w p s) where
  cloning v j hphase := by
    rw [setPhase_phase] at hphase
    rw [setPhase_fromRing]
    split at hphase
    · rename_i hv
      rw [hv]
      exact hclone j hphase
    · exact h.cloning v j hphase
  places := h.places.mono [] (fun v m hm => by simpa using hm) (fun v => setPhase_fromRing)
    rfl rfl le_rfl le_rfl (List.append_nil _).symm (by simp)
  counts := h.counts.setPhase hpast
  ledger := h.ledger.setPhase
  reads := h.reads.setPhase hb hfilter

theorem handOn (h : Inv cfg s) {rest : List (Mbuf Port)} (hb : (s.workers w).batch = m :: rest)
    (hfinal : ∀ q, d = .dispatchRing q → (s.workers w).fromRing = false)
    (hd : d = .vethInput ∨ (cfg.packetDispatcher w = false → ¬ ForAll cfg w (s.packet m))) :
    Inv cfg (handOn w m d s) := by
  have hm : m ∈ (s.workers w).batch := hb ▸ List.mem_cons_self
  constructor
  · intro v j hphase
    rw [handOn_phase] at hphase
    rw [handOn_fromRing]
    split at hphase
    · cases hphase
    · exact h.cloning v j hphase
  · exact h.places.mono [.passed w m d] (fun v m' => mem_of_handOn)
      (fun v => handOn_fromRing) rfl rfl le_rfl le_rfl rfl (h.places.event_named hm rfl fun _ _ => rfl)
  · exact h.counts.handOn hb
  · exact h.ledger.handOn hb (h.places.batchPort w m hm)
      fun q hq => h.never_dequeued hm (hfinal q hq)
  · exact h.reads.handOn hb hd

/-- A worker with a dispatcher writes to an mbuf from its NIC queue. -/
theorem setPacket (h : Inv cfg s) (hm : m ∈ (s.workers w).batch)
    (hnic : (s.workers w).fromRing = false) (hd : cfg.packetDispatcher w = true) (p : Packet Data) :
    Inv cfg (setPacket m p s) := by
  have hother (v : Wid Port) (hv : cfg.packetDispatcher v = false) : w ≠ v := by
    rintro rfl
    rw [hd] at hv
    cases hv
  constructor
  · exact h.cloning
  · exact h.places.mono [] (fun _ _ hm => hm) (fun _ => rfl) rfl rfl le_rfl le_rfl
      (List.append_nil _).symm (by simp)
  · exact h.counts.log [] rfl rfl (List.append_nil _).symm (by simp)
  · exact ⟨h.ledger.taken, h.ledger.once, h.ledger.place⟩
  · refine h.reads.store (Dispatch.setPacket m p s) rfl rfl rfl ?_ ?_
    · intro v hv hmv
      exact hother v hv (h.places.owner_unique hm hmv)
    · intro v hv hmv
      exact hother v hv ((h.places.nic w m hm hnic).1.symm.trans (h.places.received v m hmv).1)

theorem askDispatcher (h : Inv cfg s) (hm : m ∈ (s.workers w).batch)
    (hnic : (s.workers w).fromRing = false) (hd : cfg.packetDispatcher w = true) (data : Data) :
    Inv cfg (askDispatcher w m data s) := by
  have hset := h.setPacket hm hnic hd ⟨data, (s.packet m).dataLen⟩
  constructor
  · exact h.cloning
  · exact hset.places.mono [.dispatched w m] (fun _ _ hm => hm) (fun _ => rfl) rfl rfl
      le_rfl le_rfl rfl (h.places.event_named hm rfl fun _ _ => rfl)
  · exact hset.counts.log [.dispatched w m] rfl rfl rfl (by simp [Event.handsFrame])
  · refine hset.ledger.snoc (e := .dispatched w m) rfl rfl (fun _ _ => ⟨rfl, rfl⟩) ?_
    intro m' hred
    obtain rfl : m = m' := hred
    exact h.never_dequeued hm hnic
  · exact hset.reads.snoc (e := .dispatched w m) rfl rfl rfl (by simp)

theorem putOnRing (h : Inv cfg s) (hplaces : Places cfg (putOnRing r m s))
    (hcounts : Counts (putOnRing r m s)) : Inv cfg (putOnRing r m s) where
  cloning := h.cloning
  places := hplaces
  counts := hcounts
  ledger := ⟨h.ledger.taken, h.ledger.once, h.ledger.place⟩
  reads := ⟨h.reads.asRead, h.reads.arrives⟩

/-- Two mbufs from NIC queues with one frame are the same, at the same worker. -/
theorem eq_of_origin (h : Inv cfg s) {m' : Mbuf Port} (hm : m ∈ (s.workers w).batch)
    (hnic : (s.workers w).fromRing = false) (hm' : m' ∈ (s.workers v).batch)
    (hnic' : (s.workers v).fromRing = false) (ho : m'.origin = m.origin) : v = w ∧ m' = m := by
  obtain ⟨hr, hc⟩ := h.places.nic w m hm hnic
  obtain ⟨hr', hc'⟩ := h.places.nic v m' hm' hnic'
  obtain ⟨rcv, frame, copy⟩ := m
  obtain ⟨rcv', frame', copy'⟩ := m'
  obtain ⟨hrcv, hframe⟩ := Prod.mk.inj ho
  dsimp only at hr hc hr' hc' hrcv hframe
  exact ⟨hr'.symm.trans (hrcv.trans hr), by rw [hrcv, hframe, hc, hc']⟩

/-- The dispatcher sends the mbuf to another queue. -/
theorem redirect (h : Inv cfg s) {rest : List (Mbuf Port)} {q : Nat}
    (hb : (s.workers w).batch = m :: rest) (hnic : (s.workers w).fromRing = false)
    (hd : cfg.packetDispatcher w = true) (hphase : (s.workers w).phase = .start)
    (hq : q < cfg.nbQueues w.1) (hne : q ≠ w.2) : Inv cfg (redirect w m q s) := by
  have hm : m ∈ (s.workers w).batch := hb ▸ List.mem_cons_self
  have hdisp {p : Packet Data} : cfg.packetDispatcher w = false → ¬ ForAll cfg w p := by
    intro hno
    rw [hd] at hno
    cases hno
  unfold Dispatch.redirect
  split
  · have hpass : Inv cfg (Dispatch.handOn w m (.dispatchRing q) s) :=
      h.handOn hb (fun _ _ => hnic) (.inr hdisp)
    have hleft (v : Wid Port) :
        m ∉ ((Dispatch.handOn w m (.dispatchRing q) s).workers v).batch := by
      intro hv
      obtain rfl := h.places.owner_unique (mem_of_handOn hv) hm
      rw [handOn_batch, if_pos rfl, hb] at hv
      exact h.counts.not_mem_tail hb rfl hv
    apply hpass.putOnRing
    · refine hpass.places.putOnRing ?_ ?_ hleft ?_ ?_
      · exact h.places.named m (.inl ⟨w, hm⟩)
      · exact ⟨(h.places.batchPort w m hm).1, hq⟩
      · intro r' hr'
        have hring := (h.places.onRing r' m hr').2 w hm
        rw [hnic] at hring
        cases hring
      · intro r' hr'
        rcases List.mem_append.mp hr' with hold | hnew
        · exact h.never_dequeued hm hnic r' hold
        · cases List.mem_singleton.mp hnew
    · apply hpass.counts.putOnRing
      · rw [traces_handOn hb]
        refine h.counts.awaits w m (w.1, q) ⟨hm, hnic, fun _ => by rw [hphase]; rfl⟩ ?_
        exact fun heq => hne (congrArg Prod.snd heq)
      · rintro v m' ⟨hm', hf, -⟩ ho
        rw [handOn_fromRing] at hf
        obtain ⟨rfl, rfl⟩ := h.eq_of_origin hm hnic (mem_of_handOn hm') hf ho
        exact absurd hm' (hleft v)
  · exact h.handOn hb (by simp) (.inr hdisp)

/-- A copy is made and its fate is recorded. -/
theorem logClone (h : Inv cfg s) (hm : m ∈ (s.workers w).batch) (d : Dest) :
    Inv cfg (logClone w m (nextCopy m s) d (deepClone m s)) := by
  have hnew := h.places.not_seen_nextCopy m
  have hold := h.places.named m (.inl ⟨w, hm⟩)
  have hclone : Inv cfg (deepClone m s) := by
    constructor
    · exact h.cloning
    · exact h.places.mono [] (fun _ _ hm => hm) (fun _ => rfl) rfl rfl le_rfl (Nat.le_succ _)
        (List.append_nil _).symm (by simp)
    · exact h.counts.log [] rfl rfl (List.append_nil _).symm (by simp)
    · exact ⟨h.ledger.taken, h.ledger.once, h.ledger.place⟩
    · refine h.reads.store (deepClone m s) rfl rfl rfl ?_ ?_
      · exact fun v _ hv => hnew (.inl ⟨v, hv⟩)
      · exact fun v _ hv => hnew (.inr (.inr ⟨_, hv, by simp [Event.mbufs]⟩))
  constructor
  · exact h.cloning
  · refine hclone.places.mono [.cloned w m (nextCopy m s) d] (fun _ _ hm => hm)
      (fun _ => rfl) rfl rfl le_rfl le_rfl rfl ?_
    intro e he
    obtain rfl := List.mem_singleton.mp he
    refine ⟨fun m' hm' => ?_, fun _ _ => rfl⟩
    rcases List.mem_cons.mp hm' with rfl | hcopy
    · exact ⟨hold.1, Nat.le_succ_of_le hold.2⟩
    · obtain rfl := List.mem_singleton.mp hcopy
      exact ⟨hold.1, le_rfl⟩
  · exact hclone.counts.log [.cloned w m (nextCopy m s) d] rfl rfl rfl
      (by simp [Event.handsFrame])
  · refine hclone.ledger.snoc (e := .cloned w m (nextCopy m s) d) rfl rfl (fun _ _ => ⟨rfl, rfl⟩) ?_
    intro m' hred v hv
    cases d with
    | dispatchRing q =>
        obtain rfl : nextCopy m s = m' := hred
        exact hnew (.inr (.inr ⟨_, hv, by simp [Event.mbufs]⟩))
    | _ => exact hred
  · exact hclone.reads.snoc (e := .cloned w m (nextCopy m s) d) rfl rfl rfl (by simp)

/-- One turn of the loop over the other queues. -/
theorem cloneFor (h : Inv cfg s) {rest : List (Mbuf Port)} {j : Nat}
    (hb : (s.workers w).batch = m :: rest) (hphase : (s.workers w).phase = .clone j)
    (hj : j < cfg.nbQueues w.1) (hne : j ≠ w.2) :
    Inv cfg (Dispatch.setPhase w (.clone (j + 1)) (cloneFor w m j s)) := by
  have hm : m ∈ (s.workers w).batch := hb ▸ List.mem_cons_self
  have hnic := h.cloning w j hphase
  have hnew := h.places.not_seen_nextCopy m
  have hgo (d : Dest) : Inv cfg (Dispatch.setPhase w (.clone (j + 1))
      (Dispatch.logClone w m (nextCopy m s) d (deepClone m s))) := by
    apply (h.logClone hm d).setPhase hb
    · intro q hq
      change (s.workers w).phase.past q = false
      rw [hphase]
      simp only [Phase.past, decide_eq_false_iff_not] at hq ⊢
      omega
    · exact fun _ _ => hnic
    · exact fun _ len hlen => by cases hlen
  unfold Dispatch.cloneFor
  split
  · -- the copy goes on the ring last: the rest of the step does not touch it
    change Inv cfg (Dispatch.putOnRing (w.1, j) (nextCopy m s) (Dispatch.setPhase w (.clone (j + 1))
      (Dispatch.logClone w m (nextCopy m s) (.dispatchRing j) (deepClone m s))))
    have hput := hgo (.dispatchRing j)
    apply hput.putOnRing
    · apply hput.places.putOnRing
      · exact ⟨(h.places.named m (.inl ⟨w, hm⟩)).1, le_rfl⟩
      · exact ⟨(h.places.batchPort w m hm).1, hj⟩
      · intro v hv
        rw [setPhase_batch] at hv
        exact hnew (.inl ⟨v, hv⟩)
      · exact fun r' hr' => hnew (.inr (.inl ⟨r', hr'⟩))
      · intro r' hr'
        rcases List.mem_append.mp hr' with hold | hlast
        · exact hnew (.inr (.inr ⟨_, hold, by simp [Event.mbufs]⟩))
        · cases List.mem_singleton.mp hlast
    · apply hput.counts.putOnRing
      · have hsame : traces m.origin (Dispatch.logClone w m (nextCopy m s) (.dispatchRing j)
            (deepClone m s)) (w.1, j) = traces m.origin s (w.1, j) :=
          traces_log rfl rfl rfl (by simp [Event.handsFrame])
        refine traces_setPhase.trans (hsame.trans ?_)
        refine h.counts.awaits w m (w.1, j) ⟨hm, hnic, fun _ => ?_⟩ ?_
        · rw [hphase]
          simp [Phase.past]
        · exact fun heq => hne (congrArg Prod.snd heq)
      · rintro v m' ⟨hm', hf, hpast⟩ ho
        rw [setPhase_batch] at hm' hpast
        rw [setPhase_fromRing] at hf
        obtain ⟨rfl, rfl⟩ := h.eq_of_origin hm hnic hm' hf ho
        have hnow := hpast (by change (s.workers v).batch.head? = _; rw [hb]; rfl)
        rw [setPhase_phase, if_pos rfl] at hnow
        simp [Phase.past] at hnow
  · exact hgo .freed

/-- **Every step keeps the invariant.** -/
theorem step {a : Wid Port × Action Data} (h : Inv cfg s) (hs : step cfg s a = some s') :
    Inv cfg s' := by
  obtain ⟨w, act⟩ := a
  obtain ⟨hq, hto⟩ := step_cases h.cloning hs
  cases hto with
  | receive packets hb => exact h.receive hq hb packets
  | dequeue hb => exact h.dequeueBurst hq hb
  | move hb hp => exact h.setPhase hb hp.past hp.clone fun _ => hp.filter
  | @answered m rest _ data hb hnic hd hphase hto =>
      have hm : m ∈ (s.workers w).batch := hb ▸ List.mem_cons_self
      have hask := h.askDispatcher hm hnic hd data
      have hno {P : Prop} : cfg.packetDispatcher w = false → P := by
        intro hoff
        rw [hd] at hoff
        cases hoff
      rcases hto with ⟨len, rfl⟩ | rfl | ⟨q, hlt, hne, rfl⟩ | ⟨len, rfl⟩
      · exact (hask.setPacket hm hnic hd ⟨data, len⟩).handOn hb (by simp) (.inr hno)
      · exact hask.handOn hb (by simp) (.inr hno)
      · exact hask.redirect hb hnic hd hphase hlt hne
      · apply hask.setPhase hb
        · intro q _
          change (s.workers w).phase.past q = false
          rw [hphase]
          rfl
        · exact fun j hj => by cases hj
        · exact hno
  | unicast hb hu hd =>
      refine h.handOn hb (fun q hq => absurd hq (hd q)) (.inr ?_)
      rintro hoff ⟨r, hr, hall⟩
      obtain ⟨len, r', hphase, hr', hnot⟩ := hu
      rw [h.reads.asRead w _ len hoff hphase (by rw [hb]; rfl), hr] at hr'
      obtain rfl := Option.some.inj hr'
      rw [hall] at hnot
      cases hnot
  | clone hb hphase hj hne => exact h.cloneFor hb hphase hj hne
  | @kni m rest room hb hphase =>
      have hm : m ∈ (s.workers w).batch := hb ▸ List.mem_cons_self
      apply (h.logClone hm (kniEnqueue room)).setPhase hb
      · exact fun q hq => by cases hq
      · exact fun j hj => by cases hj
      · exact fun _ len hlen => by cases hlen
  | input hb => exact h.handOn hb (by simp) (.inl rfl)

/-- Nobody writes to an mbuf, except a worker that gives it to the dispatcher. -/
theorem packet_kept {a : Wid Port × Action Data} (h : Inv cfg s) (hseen : Seen s m)
    (hasked : (s.workers a.1).batch.head? = some m → (s.workers a.1).fromRing = false →
      (s.workers a.1).phase = .start → cfg.packetDispatcher a.1 = false)
    (hs : Dispatch.step cfg s a = some s') : s'.packet m = s.packet m := by
  obtain ⟨w, act⟩ := a
  have hcopy (m' : Mbuf Port) : m ≠ nextCopy m' s := by
    rintro rfl
    exact h.places.not_seen_nextCopy m' hseen
  cases (step_cases h.cloning hs).2 with
  | receive packets hb =>
      have hframe := (h.places.named m hseen).1
      exact if_neg (by omega)
  | dequeue hb => rfl
  | move hb hp => rfl
  | @answered m' rest _ data hb hnic hd hphase hto =>
      have hne : m ≠ m' := by
        rintro rfl
        have hoff := hasked (by rw [hb]; rfl) hnic hphase
        rw [hd] at hoff
        cases hoff
      have hask : (Dispatch.askDispatcher w m' data s).packet m = s.packet m :=
        Function.update_of_ne hne _ _
      rcases hto with ⟨len, rfl⟩ | rfl | ⟨q, -, -, rfl⟩ | ⟨len, rfl⟩
      · exact (Function.update_of_ne hne _ _).trans hask
      · exact hask
      · unfold Dispatch.redirect
        split <;> exact hask
      · exact hask
  | unicast hb hu hd => rfl
  | @clone m' rest j hb hphase hj hne =>
      unfold Dispatch.cloneFor
      split <;> exact Function.update_of_ne (hcopy m') _ _
  | @kni m' rest room hb hphase => exact Function.update_of_ne (hcopy m') _ _
  | input hb => rfl

/-- Events stay in the log, and nobody writes to an mbuf of a worker without a dispatcher. -/
theorem kept {a : Wid Port × Action Data} (h : Inv cfg s) (hm : Event.received v m ∈ s.log)
    (hoff : cfg.packetDispatcher v = false) (hs : Dispatch.step cfg s a = some s') :
    Event.received v m ∈ s'.log ∧ s'.packet m = s.packet m := by
  refine ⟨(step_cases h.cloning hs).2.log.subset hm, ?_⟩
  refine h.packet_kept (.inr (.inr ⟨_, hm, by simp [Event.mbufs]⟩)) (fun hhead hnic _ => ?_) hs
  -- the worker that has it in its hands is the one that received it
  have hw := (h.places.nic a.1 m (List.mem_of_mem_head? hhead) hnic).1
  rw [← hw, (h.places.received v m hm).1]
  exact hoff

/-- A frame is input at most once by a worker. -/
theorem inputs_le (h : Inv cfg s) (w : Wid Port) (o : Wid Port × Nat) :
    s.log.countP (Event.inputs w o) ≤ 1 := by
  have hone := h.counts.one o w
  have hle : s.log.countP (Event.inputs w o) ≤ s.log.countP (Event.handsFrame w o) := by
    refine List.countP_mono_left fun e _ he => ?_
    cases e with
    | passed w' m d =>
        cases d with
        | vethInput => exact he
        | _ => simp [Event.inputs] at he
    | _ => simp [Event.inputs] at he
  simp only [traces] at hone
  omega

/-- Only the workers of the port the frame came from input it. -/
theorem inputs_place (h : Inv cfg s) {w : Wid Port} {o : Wid Port × Nat}
    (hpos : 0 < s.log.countP (Event.inputs w o)) : w.1 = o.1.1 ∧ w.2 < cfg.nbQueues w.1 := by
  obtain ⟨e, he, hin⟩ := List.countP_pos_iff.mp hpos
  cases e with
  | passed w' m d =>
      cases d with
      | vethInput =>
          obtain ⟨rfl, rfl⟩ := of_decide_eq_true hin
          obtain ⟨hport, hq⟩ := h.ledger.place w' m .vethInput he
          exact ⟨hport.symm, hq⟩
      | _ => simp [Event.inputs] at hin
  | _ => simp [Event.inputs] at hin

end Inv

/-- What a burst from the NIC queue leaves in the log. -/
theorem step_rxBurst {packets : List (Packet Data)} {i : Nat} {p : Packet Data}
    (hs : step cfg s (w, .rxBurst packets) = some s') (hp : packets[i]? = some p) :
    Event.received w ⟨w, s.frames + i, 0⟩ ∈ s'.log ∧ s'.packet ⟨w, s.frames + i, 0⟩ = p := by
  have hto : s' = receive w packets s := by
    simp only [step] at hs
    split at hs
    · cases hb : (s.workers w).batch with
      | nil =>
          simp only [hb] at hs
          split at hs
          · exact (Option.some.inj hs).symm
          · cases hs
      | cons m rest => cases hphase : (s.workers w).phase <;> simp [hb, hphase, processPacket] at hs
    · cases hs
  subst hto
  obtain ⟨hi, -⟩ := List.getElem?_eq_some_iff.mp hp
  constructor
  · refine List.mem_append_right _ (List.mem_map_of_mem (List.mem_map.mpr ⟨s.frames + i, ?_, rfl⟩))
    rw [List.mem_range'_1]
    omega
  · simp [receive, hp]

end LazyBsd.Dispatch
