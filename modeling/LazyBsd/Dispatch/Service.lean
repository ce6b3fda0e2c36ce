/-
# LazyBsd.Dispatch.Service — how long an mbuf stays on a dispatch ring.

`main_loop` calls `process_dispatch_ring` for each of its queues in every iteration, and a call takes at
most `MAX_PKT_BURST` mbufs, in the order in which they were put on the ring. What the other workers put
on the ring meanwhile is behind them. So an mbuf waits for as many polls as there are bursts before it,
and the next poll finds it handed on, since a worker polls when it has nothing left to process.

A step of another kind leaves what is on the ring in its place and what the worker has in its hands
(`Keeps`); a poll takes the next burst (`Served.poll`).
-/
import LazyBsd.Dispatch.Order

namespace LazyBsd.Dispatch

open LazyBsd.Lib LazyBsd.Filter

variable {Port Data : Type*} [DecidableEq Port] {cfg : Config Port Data}
  {s s' t t' : World Port Data} {w v r : Wid Port} {m : Mbuf Port} {d : Dest} {n : Nat}

/-- A call of `rte_ring_dequeue_burst`. -/
def Action.isRingBurst : Action Data → Bool
  | .ringBurst => true
  | _ => false

/-- How often the worker polls its ring in a run. -/
def polls (w : Wid Port) (ts : List (Transition (World Port Data) (Wid Port × Action Data))) : Nat :=
  ts.countP fun tr => decide (tr.act.1 = w) && tr.act.2.isRingBurst

/-! ## What other steps leave -/

/-- What is on the ring stays in its place, what happened stays in the log, and what the worker has in
its batch is there or handed on. -/
structure Keeps (w : Wid Port) (s s' : World Port Data) : Prop where
  ring : s.rings w <+: s'.rings w
  log : s.log <+: s'.log
  batch : ∀ m ∈ (s.workers w).batch, m ∈ handed w s'.log ∨ m ∈ (s'.workers w).batch

theorem handed_mono {log log' : List (Event Port)} (h : log <+: log') :
    ∀ m ∈ handed w log, m ∈ handed w log' :=
  fun _ hm => (h.filterMap _).subset hm

namespace Keeps

theorem refl (w : Wid Port) (s : World Port Data) : Keeps w s s :=
  ⟨List.prefix_rfl, List.prefix_rfl, fun _ hm => .inr hm⟩

theorem trans (h : Keeps w s s') (h' : Keeps w s' t) : Keeps w s t := by
  refine ⟨h.ring.trans h'.ring, h.log.trans h'.log, fun m hm => ?_⟩
  rcases h.batch m hm with hhanded | hbatch
  · exact .inl (handed_mono h'.log m hhanded)
  · exact h'.batch m hbatch

/-- A step that only appends to the log. -/
theorem event (w : Wid Port) {e : Event Port} (hw : s'.workers = s.workers) (hr : s'.rings = s.rings)
    (hl : s'.log = s.log ++ [e]) : Keeps w s s' := by
  refine ⟨?_, ?_, fun m hm => .inr ?_⟩
  · exact hr ▸ List.prefix_rfl
  · rw [hl]
    exact List.prefix_append _ _
  · rw [hw]
    exact hm

theorem setPhase (w v : Wid Port) (p : Phase) (s : World Port Data) :
    Keeps w s (Dispatch.setPhase v p s) :=
  ⟨List.prefix_rfl, List.prefix_rfl, fun m hm => .inr (by rwa [setPhase_batch])⟩

theorem setPacket (w : Wid Port) (m : Mbuf Port) (p : Packet Data) (s : World Port Data) :
    Keeps w s (Dispatch.setPacket m p s) :=
  ⟨List.prefix_rfl, List.prefix_rfl, fun _ hm => .inr hm⟩

theorem putOnRing (w r : Wid Port) (m : Mbuf Port) (s : World Port Data) :
    Keeps w s (Dispatch.putOnRing r m s) := by
  refine ⟨?_, List.prefix_rfl, fun _ hm => .inr hm⟩
  show s.rings w <+: Function.update s.rings r (s.rings r ++ [m]) w
  by_cases hr : w = r
  · subst hr
    rw [Function.update_self]
    exact List.prefix_append _ _
  · have hkept : Function.update s.rings r (s.rings r ++ [m]) w = s.rings w := Function.update_of_ne hr _ _
    exact hkept ▸ List.prefix_rfl

/-- The mbuf that is handed on leaves the batch and enters the log. -/
theorem handOn (w : Wid Port) {rest : List (Mbuf Port)} (hb : (s.workers v).batch = m :: rest) :
    Keeps w s (Dispatch.handOn v m d s) := by
  refine ⟨List.prefix_rfl, List.prefix_append _ _, fun x hx => ?_⟩
  by_cases hw : w = v
  · subst hw
    rw [hb] at hx
    rcases List.mem_cons.mp hx with rfl | hrest
    · refine .inl (List.mem_filterMap.mpr ⟨.passed w x d, ?_, if_pos rfl⟩)
      exact List.mem_append_right _ (List.mem_singleton_self _)
    · refine .inr ?_
      rw [handOn_batch, if_pos rfl, hb]
      exact hrest
  · refine .inr ?_
    rw [handOn_batch, if_neg hw]
    exact hx

theorem redirect (w : Wid Port) {rest : List (Mbuf Port)} {q : Nat}
    (hb : (s.workers v).batch = m :: rest) : Keeps w s (Dispatch.redirect v m q s) := by
  unfold Dispatch.redirect
  split
  · exact (putOnRing w (v.1, q) m s).trans (handOn w hb)
  · exact handOn w hb

theorem cloneFor (w v : Wid Port) (m : Mbuf Port) (j : Nat) (s : World Port Data) :
    Keeps w s (Dispatch.cloneFor v m j s) := by
  have hclone : Keeps w s (deepClone m s) := ⟨List.prefix_rfl, List.prefix_rfl, fun _ hm => .inr hm⟩
  unfold Dispatch.cloneFor
  split
  · exact (hclone.trans (putOnRing w (v.1, j) (nextCopy m s) _)).trans (event w rfl rfl rfl)
  · exact hclone.trans (event w rfl rfl rfl)

/-- A burst from the NIC queue comes when the batch is empty. -/
theorem receive (w : Wid Port) (hb : (s.workers v).batch = []) (packets : List (Packet Data)) :
    Keeps w s (Dispatch.receive v packets s) := by
  refine ⟨List.prefix_rfl, List.prefix_append _ _, fun m hm => ?_⟩
  by_cases hw : w = v
  · subst hw
    rw [hb] at hm
    cases hm
  · refine .inr ?_
    simpa [Dispatch.receive, hw] using hm

/-- A poll of another ring. -/
theorem dequeueBurst (hw : w ≠ v) (s : World Port Data) : Keeps w s (Dispatch.dequeueBurst v s) := by
  refine ⟨?_, List.prefix_append _ _, fun m hm => .inr ?_⟩
  · have hkept : (Dispatch.dequeueBurst v s).rings w = s.rings w := Function.update_of_ne hw _ _
    exact hkept ▸ List.prefix_rfl
  · simpa [Dispatch.dequeueBurst, hw] using hm

/-- **Every step with an mbuf in hand keeps the ring and the batch.** -/
theorem stepTo (w : Wid Port) (hto : StepTo cfg s v s') (hbusy : (s.workers v).batch ≠ []) :
    Keeps w s s' := by
  cases hto with
  | receive packets hb => exact absurd hb hbusy
  | dequeue hb => exact absurd hb hbusy
  | move hb hp => exact setPhase w v _ s
  | @answered m rest _ data hb hnic hd hphase hs =>
      have hask : Keeps w s (askDispatcher v m data s) :=
        (setPacket w m ⟨data, (s.packet m).dataLen⟩ s).trans (event w rfl rfl rfl)
      have hb' : ((askDispatcher v m data s).workers v).batch = m :: rest := hb
      rcases hs with ⟨len, rfl⟩ | rfl | ⟨q, -, -, rfl⟩ | ⟨len, rfl⟩
      · exact (hask.trans (setPacket w m ⟨data, len⟩ _)).trans (handOn w hb')
      · exact hask.trans (handOn w hb')
      · exact hask.trans (redirect w hb')
      · exact hask.trans (setPhase w v _ _)
  | unicast hb hu hd => exact handOn w hb
  | clone hb hphase hj hne => exact (cloneFor w v _ _ s).trans (setPhase w v _ _)
  | @kni m rest room hb hphase =>
      have hclone : Keeps w s (cloneForKni v m room s) := event w rfl rfl rfl
      exact hclone.trans (setPhase w v _ _)
  | input hb => exact handOn w hb

end Keeps

/-- **A step is a poll, or it leaves the rings to the polls.** -/
theorem step_poll {a : Wid Port × Action Data} (hc : ClonesOwn s) (h : step cfg s a = some s') :
    (a.2.isRingBurst = true ∧ (s.workers a.1).batch = [] ∧ s' = dequeueBurst a.1 s) ∨
      (a.2.isRingBurst = false ∧ ∀ w, Keeps w s s') := by
  obtain ⟨v, act⟩ := a
  cases hb : (s.workers v).batch with
  | nil =>
      simp only [step, hb] at h
      split at h
      · cases act with
        | rxBurst packets =>
            dsimp only at h
            split at h
            · obtain rfl := Option.some.inj h
              exact .inr ⟨rfl, fun w => .receive w hb packets⟩
            · cases h
        | ringBurst => exact .inl ⟨rfl, rfl, (Option.some.inj h).symm⟩
        | _ => cases h
      · cases h
  | cons m rest =>
      have hbusy : (s.workers v).batch ≠ [] := by
        rw [hb]
        exact List.cons_ne_nil _ _
      have hto := (step_cases hc h).2
      refine .inr ⟨?_, fun w => .stepTo w hto hbusy⟩
      cases act with
      | ringBurst =>
          simp only [step, hb] at h
          split at h
          · cases hphase : (s.workers v).phase <;> simp [hphase, processPacket] at h
          · cases h
      | _ => rfl

/-! ## What polls do -/

/-- **After `n` polls** since the state `s`: what was behind `n` bursts is still in front, the bursts are
in the worker's hands, and those before the last one are handed on. -/
structure Served (w : Wid Port) (s : World Port Data) (n : Nat) (t : World Port Data) : Prop where
  ahead : (s.rings w).drop (n * maxPktBurst) <+: t.rings w
  taken : ∀ m ∈ (s.rings w).take (n * maxPktBurst), m ∈ handed w t.log ∨ m ∈ (t.workers w).batch
  past : ∀ m ∈ (s.rings w).take ((n - 1) * maxPktBurst), m ∈ handed w t.log

namespace Served

theorem start (w : Wid Port) (s : World Port Data) : Served w s 0 s := by
  constructor <;> simp

theorem keeps (h : Served w s n t) (hk : Keeps w t t') : Served w s n t' := by
  refine ⟨h.ahead.trans hk.ring, fun m hm => ?_, fun m hm => handed_mono hk.log m (h.past m hm)⟩
  rcases h.taken m hm with hhanded | hbatch
  · exact .inl (handed_mono hk.log m hhanded)
  · exact hk.batch m hbatch

/-- A poll takes the next burst; what was taken before is handed on. -/
theorem poll (h : Served w s n t) (hb : (t.workers w).batch = []) :
    Served w s (n + 1) (dequeueBurst w t) := by
  obtain ⟨more, hahead⟩ := h.ahead
  have hlog : t.log <+: (dequeueBurst w t).log := List.prefix_append _ _
  have hring : (dequeueBurst w t).rings w = (t.rings w).drop maxPktBurst := by simp [dequeueBurst]
  have hbatch : ((dequeueBurst w t).workers w).batch = (t.rings w).take maxPktBurst := by
    simp [dequeueBurst]
  have hpast : ∀ m ∈ (s.rings w).take (n * maxPktBurst), m ∈ handed w (dequeueBurst w t).log := by
    intro m hm
    rcases h.taken m hm with hhanded | hin
    · exact handed_mono hlog m hhanded
    · rw [hb] at hin
      cases hin
  refine ⟨?_, fun m hm => ?_, hpast⟩
  · rw [hring, Nat.succ_mul, ← List.drop_drop, ← hahead, List.drop_append]
    exact List.prefix_append _ _
  · rw [Nat.succ_mul, List.take_add] at hm
    rcases List.mem_append.mp hm with hold | hnew
    · exact .inl (hpast m hold)
    · rw [hbatch, ← hahead, List.take_append]
      exact .inr (List.mem_append_left _ hnew)

end Served

/-- What a run does to the ring. -/
theorem Inv.served {ts : List (Transition (World Port Data) (Wid Port × Action Data))} (hs : Inv cfg s)
    (h : Run (Dispatch.step cfg) s ts t) (w : Wid Port) : Inv cfg t ∧ Served w s (polls w ts) t := by
  induction h with
  | nil => exact ⟨hs, .start w s⟩
  | @snoc ts t t' a hrun ha ih =>
      obtain ⟨hinv, hserved⟩ := ih
      refine ⟨hinv.step ha, ?_⟩
      unfold polls
      rw [List.countP_append, List.countP_singleton]
      rcases step_poll hinv.cloning ha with ⟨hpoll, hb, rfl⟩ | ⟨hother, hkeeps⟩
      · by_cases hw : a.1 = w
        · subst hw
          rw [hpoll, decide_eq_true rfl]
          exact hserved.poll hb
        · rw [decide_eq_false hw, Bool.false_and, if_neg Bool.false_ne_true]
          exact hserved.keeps (.dequeueBurst (fun heq => hw heq.symm) t)
      · rw [hother, Bool.and_false, if_neg Bool.false_ne_true]
        exact hserved.keeps (hkeeps w)

/-! ## The size of a ring -/

/-- A ring of `DISPATCH_RING_SIZE` holds one mbuf less. -/
def Bounded (s : World Port Data) : Prop := ∀ r, (s.rings r).length ≤ dispatchRingSize - 1

theorem Bounded.putOnRing (h : Bounded s) (hroom : hasRoom r s = true) : Bounded (putOnRing r m s) := by
  intro r'
  show (Function.update s.rings r (s.rings r ++ [m]) r').length ≤ _
  have hless := of_decide_eq_true hroom
  by_cases hr : r' = r
  · subst hr
    rw [Function.update_self, List.length_append, List.length_singleton]
    exact hless
  · rw [Function.update_of_ne hr]
    exact h r'

theorem Bounded.stepTo (h : Bounded s) (hto : StepTo cfg s w s') : Bounded s' := by
  cases hto with
  | dequeue hb =>
      intro r
      show (Function.update s.rings w _ r).length ≤ _
      by_cases hr : r = w
      · subst hr
        rw [Function.update_self, List.length_drop]
        exact (Nat.sub_le _ _).trans (h r)
      · rw [Function.update_of_ne hr]
        exact h r
  | answered data hb hnic hd hphase hs =>
      rcases hs with ⟨len, rfl⟩ | rfl | ⟨q, -, -, rfl⟩ | ⟨len, rfl⟩
      · exact h
      · exact h
      · unfold redirect
        split
        · rename_i hroom
          exact h.putOnRing hroom
        · exact h
      · exact h
  | clone hb hphase hj hne =>
      show Bounded (cloneFor w _ _ s)
      unfold cloneFor
      split
      · rename_i hroom
        exact h.putOnRing hroom
      · exact h
  | _ => exact h

/-! ## Runs -/

/-- **No mbuf starves on a ring.** From any reachable state on, whatever the workers do: an mbuf with `i`
others before it on the ring of a worker has been handed on by that worker when it has polled its ring
`i / MAX_PKT_BURST + 2` times. A ring is so small that 65 polls are enough for all that is on it. -/
theorem rings_are_served {packet : Mbuf Port → Packet Data}
    {ts₀ ts : List (Transition (World Port Data) (Wid Port × Action Data))}
    (h₀ : Run (step cfg) (World.init packet) ts₀ s) (h : Run (step cfg) s ts t) (w : Wid Port) :
    (∀ i m, (s.rings w)[i]? = some m → i / maxPktBurst + 2 ≤ polls w ts → m ∈ handed w t.log) ∧
      (65 ≤ polls w ts → ∀ m ∈ s.rings w, m ∈ handed w t.log) := by
  obtain ⟨hinv, hbounded⟩ : Inv cfg s ∧ Bounded s :=
    h₀.invariant (I := fun s => Inv cfg s ∧ Bounded s)
      (fun ⟨hinv, hbounded⟩ hs =>
        ⟨hinv.step hs, hbounded.stepTo (step_cases hinv.cloning hs).2⟩)
      ⟨.init packet, fun _ => Nat.zero_le _⟩
  obtain ⟨-, hserved⟩ := hinv.served h w
  have hplace : ∀ i m, (s.rings w)[i]? = some m → i / maxPktBurst + 2 ≤ polls w ts →
      m ∈ handed w t.log := by
    intro i m hm hpolls
    refine hserved.past m (List.mem_of_getElem? (i := i) ?_)
    have hless : i < (polls w ts - 1) * maxPktBurst :=
      (Nat.div_lt_iff_lt_mul (by decide)).mp (by omega)
    rw [List.getElem?_take_of_lt hless]
    exact hm
  refine ⟨hplace, fun hpolls m hm => ?_⟩
  obtain ⟨i, hi, hget⟩ := List.getElem_of_mem hm
  refine hplace i m (hget ▸ List.getElem?_eq_getElem hi) ?_
  have hless : i / maxPktBurst < 64 := by
    refine (Nat.div_lt_iff_lt_mul (by decide)).mpr ?_
    have hring : (s.rings w).length ≤ 2047 := hbounded w
    unfold maxPktBurst
    omega
  omega

namespace Sample

/-- A frame for all workers, and then what the second worker does with its copy. -/
def copyRun : List (Wid Unit × Action Bool) :=
  [(((), 0), .rxBurst [arpPacket]), (((), 0), .dispatch 0 true 0), (((), 0), .filter .default false),
    (((), 0), .clone true), (((), 0), .clone true)]

def serveRun : List (Wid Unit × Action Bool) :=
  [(((), 1), .ringBurst), (((), 1), .dispatch 0 true 0), (((), 1), .filter .default false),
    (((), 1), .kni true true), (((), 1), .input), (((), 1), .ringBurst)]

end Sample

/-- The copy is on the ring of the second worker, and handed on with the second poll. -/
theorem rings_are_served_copy :
    ∃ r r', exec (step Sample.config) (World.init fun _ => Sample.arpPacket) Sample.copyRun = some r ∧
      exec (step Sample.config) r.2 Sample.serveRun = some r' ∧
      ∀ m, (r.2.rings ((), 1))[0]? = some m → m ∈ handed ((), 1) r'.2.log := by
  obtain ⟨r, hr⟩ := Option.isSome_iff_exists.mp (by decide :
    (exec (step Sample.config) (World.init fun _ => Sample.arpPacket) Sample.copyRun).isSome = true)
  have hboth : ((exec (step Sample.config) (World.init fun _ => Sample.arpPacket)
      Sample.copyRun).bind fun r => (exec (step Sample.config) r.2 Sample.serveRun).map fun r' =>
        polls ((), 1) r'.1) = some 2 := by
    decide
  rw [hr, Option.bind_some] at hboth
  obtain ⟨r', hr', hpolls⟩ := Option.map_eq_some_iff.mp hboth
  exact ⟨r, r', hr, hr', fun m hm =>
    (rings_are_served (Run.of_exec hr) (Run.of_exec hr') ((), 1)).1 0 m hm hpolls.ge⟩

end LazyBsd.Dispatch
