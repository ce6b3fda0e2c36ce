/-
# LazyBsd.Dispatch.Order — the rings and the workers keep the order of the frames.

The workers run in any order, and a frame can reach another worker directly, as a copy, or not at all.
What is kept is the order of the frames of one receiver at one worker: whatever a worker hands on of the
frames that another one received, it hands on in the order of their reception, so a dispatcher that sends
all packets of a connection to one queue does not reorder the connection.

The proof follows the `trail` of a worker: what it has handed on, then its batch, then its ring. A step
only appends to a trail, at the end, and what it appends is not older than anything of the same receiver
on it (`Ordered`).
-/
import Mathlib.Data.List.Basic
import Mathlib.Tactic.Common
import LazyBsd.Lib.Run
import LazyBsd.Dispatch.Delivery
import LazyBsd.Dispatch.Rings

namespace LazyBsd.Dispatch

open LazyBsd.Lib LazyBsd.Filter

variable {Port Data : Type*} [DecidableEq Port] {cfg : Config Port Data} {s s' : World Port Data}
  {w v r : Wid Port} {m c : Mbuf Port} {d : Dest}

/-! ## Reading the log in order -/

/-- The mbufs the worker has handed on. -/
def handed (v : Wid Port) (log : List (Event Port)) : List (Mbuf Port) :=
  log.filterMap fun
    | .passed w m _ => if w = v then some m else none
    | _ => none

/-- The mbufs the worker has received from its NIC queue. -/
def received (v : Wid Port) (log : List (Event Port)) : List (Mbuf Port) :=
  log.filterMap fun
    | .received w m => if w = v then some m else none
    | _ => none

/-- The mbufs of a list that the worker received, or that are copies of such. -/
def ofReceiver (w : Wid Port) (ms : List (Mbuf Port)) : List (Mbuf Port) :=
  ms.filter fun m => decide (m.receiver = w)

/-- In the order of reception, each frame at most once. -/
def InOrder (ms : List (Mbuf Port)) : Prop := ms.Pairwise fun a b => a.frame < b.frame

theorem mem_ofReceiver {ms : List (Mbuf Port)} : m ∈ ofReceiver w ms ↔ m ∈ ms ∧ m.receiver = w := by
  simp [ofReceiver]

theorem ofReceiver_append {ms ms' : List (Mbuf Port)} :
    ofReceiver w (ms ++ ms') = ofReceiver w ms ++ ofReceiver w ms' :=
  List.filter_append ..

theorem ofReceiver_eq_nil {ms : List (Mbuf Port)} (h : ∀ m ∈ ms, m.receiver ≠ w) :
    ofReceiver w ms = [] :=
  List.filter_eq_nil_iff.mpr fun m hm => by simpa using h m hm

/-- A received mbuf is in the log. -/
theorem event_of_mem_received {log : List (Event Port)} (h : m ∈ received v log) :
    .received v m ∈ log := by
  obtain ⟨e, he, hm⟩ := List.mem_filterMap.mp h
  cases e with
  | received w m' =>
      dsimp only at hm
      split at hm
      · rename_i hw
        rw [← Option.some.inj hm, ← hw]
        exact he
      · cases hm
  | _ => cases hm

/-- An mbuf that was handed on is in the log. -/
theorem event_of_mem_handed {log : List (Event Port)} (h : m ∈ handed v log) :
    ∃ d, .passed v m d ∈ log := by
  obtain ⟨e, he, hm⟩ := List.mem_filterMap.mp h
  cases e with
  | passed w m' d =>
      dsimp only at hm
      split at hm
      · rename_i hw
        rw [← Option.some.inj hm, ← hw]
        exact ⟨d, he⟩
      · cases hm
  | _ => cases hm

/-! ## The trail of a worker -/

/-- What has been, is and will be at the worker: handed on, in its batch, on its ring. -/
def trail (s : World Port Data) (v : Wid Port) : List (Mbuf Port) :=
  handed v s.log ++ (s.workers v).batch ++ s.rings v

theorem trail_setPhase {p : Phase} : trail (setPhase w p s) v = trail s v := by
  simp only [trail, setPhase_batch]
  rfl

/-- Handing on the first mbuf moves it inside the trail. -/
theorem trail_handOn {rest : List (Mbuf Port)} (hb : (s.workers w).batch = m :: rest) :
    trail (handOn w m d s) v = trail s v := by
  have hlog : handed v (handOn w m d s).log =
      handed v s.log ++ if w = v then [m] else [] := by
    simp only [handed, handOn, List.filterMap_append, List.filterMap_cons, List.filterMap_nil]
    split <;> simp_all
  simp only [trail, hlog, handOn_batch]
  by_cases hv : v = w
  · subst hv
    simp [hb, handOn]
  · simp [hv, Ne.symm hv, handOn]

theorem trail_putOnRing :
    trail (putOnRing r m s) v = trail s v ++ if v = r then [m] else [] := by
  simp only [trail, putOnRing, Function.update_apply]
  split
  · rename_i hv
    simp [hv]
  · simp

/-- Events that hand on nothing. -/
theorem trail_log {e : Event Port} (hw : s'.workers = s.workers) (hr : s'.rings = s.rings)
    (hl : s'.log = s.log ++ [e]) (he : handed v [e] = []) : trail s' v = trail s v := by
  have hhanded : handed v s'.log = handed v s.log ++ handed v [e] := by
    rw [hl]
    exact List.filterMap_append ..
  simp only [trail, hw, hr, hhanded, he, List.append_nil]

theorem trail_receive {packets : List (Packet Data)} :
    trail (receive w packets s) v =
      handed v s.log ++ (if v = w then nextFrames w packets.length s else (s.workers v).batch) ++
        s.rings v := by
  have hlog : handed v (receive w packets s).log = handed v s.log :=
    filterMap_events (fun _ => rfl) _ _
  have hbatch : ((receive w packets s).workers v).batch =
      if v = w then nextFrames w packets.length s else (s.workers v).batch := by
    simp only [receive, Function.update_apply]
    split <;> rfl
  unfold trail
  rw [hlog, hbatch]
  rfl

/-- A burst from the ring moves its mbufs inside the trail. -/
theorem trail_dequeueBurst (hb : (s.workers w).batch = []) :
    trail (dequeueBurst w s) v = trail s v := by
  have hlog : handed v (dequeueBurst w s).log = handed v s.log :=
    filterMap_events (fun _ => rfl) _ _
  unfold trail
  rw [hlog]
  by_cases hv : v = w
  · subst hv
    simp [dequeueBurst, hb]
  · simp [dequeueBurst, hv]

/-- Nothing on a trail is newer than the last frame. -/
theorem frame_of_mem_trail (h : Places cfg s) (hm : m ∈ trail s v) : m.frame < s.frames := by
  rcases List.mem_append.mp hm with hleft | hring
  · rcases List.mem_append.mp hleft with hhanded | hbatch
    · obtain ⟨d, hd⟩ := event_of_mem_handed hhanded
      exact (h.named m (.inr (.inr ⟨_, hd, by simp [Event.mbufs]⟩))).1
    · exact (h.named m (.inl ⟨v, hbatch⟩)).1
  · exact (h.named m (.inr (.inl ⟨v, hring⟩))).1

/-- An mbuf on the trail of a worker counts among its traces. -/
theorem traces_pos (hm : m ∈ trail s v) : 0 < traces m.origin s v := by
  unfold traces
  rcases List.mem_append.mp hm with hleft | hring
  · rcases List.mem_append.mp hleft with hhanded | hbatch
    · obtain ⟨d, hd⟩ := event_of_mem_handed hhanded
      have hpos : 0 < s.log.countP (Event.handsFrame v m.origin) :=
        List.countP_pos_iff.mpr ⟨_, hd, by simp [Event.handsFrame]⟩
      omega
    · have hpos : 0 < (s.workers v).batch.countP fun x => decide (x.origin = m.origin) :=
        List.countP_pos_iff.mpr ⟨m, hbatch, by simp⟩
      omega
  · have hpos : 0 < (s.rings v).countP fun x => decide (x.origin = m.origin) :=
      List.countP_pos_iff.mpr ⟨m, hring, by simp⟩
    omega

/-! ## Trails are in order -/

/-- **The order of the frames.** Each trail has the frames of each receiver in order; what a worker
received and still has to process is not older than anything of it at another worker; and no mbuf is on
the ring of its receiver. -/
structure Ordered (s : World Port Data) : Prop where
  received : ∀ w, InOrder (received w s.log)
  foreign : ∀ r, ∀ m ∈ s.rings r, m.receiver ≠ r
  sorted : ∀ v w, InOrder (ofReceiver w (trail s v))
  behind : ∀ v w, v ≠ w → (s.workers w).fromRing = false → ∀ m ∈ (s.workers w).batch,
    ∀ x ∈ trail s v, x.receiver = w → x.frame ≤ m.frame

namespace Ordered

theorem init (packet : Mbuf Port → Packet Data) : Ordered (World.init packet) := by
  constructor <;> simp [World.init, trail, handed, Dispatch.received, ofReceiver, InOrder]

/-- The trails stay and no NIC batch grows. -/
theorem mono (h : Ordered s) (hlog : ∀ w, Dispatch.received w s'.log = Dispatch.received w s.log)
    (hrings : ∀ r, ∀ m ∈ s'.rings r, m ∈ s.rings r) (htrail : ∀ v, trail s' v = trail s v)
    (hbatch : ∀ w, (s'.workers w).fromRing = false → (s.workers w).fromRing = false ∧
      ∀ m ∈ (s'.workers w).batch, m ∈ (s.workers w).batch) : Ordered s' where
  received w := by
    rw [hlog]
    exact h.received w
  foreign r m hm := h.foreign r m (hrings r m hm)
  sorted v w := by
    rw [htrail]
    exact h.sorted v w
  behind v w hne hf m hm x hx hxw := by
    rw [htrail] at hx
    exact h.behind v w hne (hbatch w hf).1 m ((hbatch w hf).2 m hm) x hx hxw

theorem setPhase (h : Ordered s) {p : Phase} : Ordered (setPhase w p s) :=
  h.mono (fun _ => rfl) (fun _ _ hm => hm) (fun _ => trail_setPhase) fun v hf => by
    rw [setPhase_fromRing] at hf
    exact ⟨hf, fun m hm => by rwa [setPhase_batch] at hm⟩

theorem handOn (h : Ordered s) {rest : List (Mbuf Port)} (hb : (s.workers w).batch = m :: rest) :
    Ordered (handOn w m d s) :=
  h.mono (fun w' => filterMap_events (g := fun m => .passed w m d) (fun _ => rfl) s.log [m])
    (fun _ _ hm => hm) (fun _ => trail_handOn hb) fun v hf => by
    rw [handOn_fromRing] at hf
    exact ⟨hf, fun m hm => mem_of_handOn hm⟩

/-- An event that neither receives nor hands on. -/
theorem snoc (h : Ordered s) {e : Event Port} (hw : s'.workers = s.workers)
    (hr : s'.rings = s.rings) (hl : s'.log = s.log ++ [e]) (he : ∀ v, handed v [e] = [])
    (he' : ∀ v, Dispatch.received v [e] = []) : Ordered s' := by
  refine h.mono (fun w => ?_) (fun r m hm => hr ▸ hm) (fun v => trail_log hw hr hl (he v)) ?_
  · have hsplit : Dispatch.received w s'.log = Dispatch.received w s.log ++ Dispatch.received w [e] := by
      rw [hl]
      exact List.filterMap_append ..
    rw [hsplit, he', List.append_nil]
  · intro v hf
    rw [hw] at hf ⊢
    exact ⟨hf, fun m hm => hm⟩

/-- The mbuf `m` of the receiver `w`, or a copy of it, goes on the ring of another worker. Nothing of
its frame is there, and what `w` still has to process is not older. -/
theorem putOnRing (h : Ordered s) (hreceiver : m.receiver = w) (hne : r ≠ w)
    (hnone : traces m.origin s r = 0) (hlast : ∀ x ∈ trail s r, x.receiver = w → x.frame ≤ m.frame)
    (hfirst : (s.workers w).fromRing = false → ∀ x ∈ (s.workers w).batch, m.frame ≤ x.frame) :
    Ordered (putOnRing r m s) where
  received := h.received
  foreign r' m' hm' := by
    rcases mem_putOnRing_rings.mp hm' with hold | ⟨rfl, rfl⟩
    · exact h.foreign r' m' hold
    · rw [hreceiver]
      exact hne.symm
  sorted v w' := by
    rw [trail_putOnRing]
    by_cases hv : v = r
    · subst hv
      rw [if_pos rfl, ofReceiver_append]
      refine List.pairwise_append.mpr ⟨h.sorted v w', List.Pairwise.filter _ (by simp), ?_⟩
      intro x hx y hy
      obtain ⟨hxt, hxw⟩ := mem_ofReceiver.mp hx
      obtain ⟨hyt, hyw⟩ := mem_ofReceiver.mp hy
      obtain rfl := List.mem_singleton.mp hyt
      obtain rfl : w = w' := hreceiver.symm.trans hyw
      refine lt_of_le_of_ne (hlast x hxt hxw) fun heq => ?_
      -- a second mbuf of the frame at the worker
      have hpos := traces_pos hxt
      have horigin : x.origin = y.origin := by rw [Mbuf.origin, Mbuf.origin, hxw, hyw, heq]
      rw [horigin, hnone] at hpos
      exact absurd hpos (lt_irrefl 0)
    · rw [if_neg hv, List.append_nil]
      exact h.sorted v w'
  behind v w' hvw hf x hx y hy hyw := by
    rw [trail_putOnRing] at hy
    rcases List.mem_append.mp hy with hold | hnew
    · exact h.behind v w' hvw hf x hx y hold hyw
    · split at hnew
      · obtain rfl := List.mem_singleton.mp hnew
        obtain rfl : w = w' := hreceiver.symm.trans hyw
        exact hfirst hf x hx
      · cases hnew

theorem receive (h : Ordered s) (hp : Places cfg s) (hb : (s.workers w).batch = [])
    (packets : List (Packet Data)) : Ordered (receive w packets s) := by
  have hfresh : InOrder (nextFrames w packets.length s) := by
    refine List.pairwise_map.mpr ?_
    exact List.pairwise_lt_range'
  constructor
  · intro w'
    by_cases hw : w' = w
    · subst hw
      have hlog : Dispatch.received w' (Dispatch.receive w' packets s).log =
          Dispatch.received w' s.log ++ nextFrames w' packets.length s :=
        filterMap_all (fun _ => if_pos rfl) _ _
      rw [hlog]
      refine List.pairwise_append.mpr ⟨h.received w', hfresh, fun a ha b hb => ?_⟩
      have hold := hp.named a (.inr (.inr ⟨_, event_of_mem_received ha, by simp [Event.mbufs]⟩))
      exact hold.1.trans_le (mem_nextFrames hb).2.2.1
    · have hlog : Dispatch.received w' (Dispatch.receive w packets s).log =
          Dispatch.received w' s.log :=
        filterMap_events (fun _ => if_neg fun heq => hw heq.symm) _ _
      rw [hlog]
      exact h.received w'
  · exact h.foreign
  · intro v w'
    rw [trail_receive]
    by_cases hv : v = w
    · subst hv
      have hold := h.sorted v w'
      simp only [trail, hb, List.append_nil] at hold
      rw [if_pos rfl]
      simp only [ofReceiver_append] at hold ⊢
      by_cases hw : w' = v
      · -- the ring has nothing of its own worker
        subst hw
        have hring : ofReceiver w' (s.rings w') = [] := ofReceiver_eq_nil (h.foreign w')
        rw [hring, List.append_nil] at hold ⊢
        refine List.pairwise_append.mpr ⟨hold, hfresh.filter _, fun a ha b hb' => ?_⟩
        have hat : a ∈ trail s w' := by
          simp only [trail, List.append_assoc]
          exact List.mem_append_left _ (mem_ofReceiver.mp ha).1
        exact (frame_of_mem_trail hp hat).trans_le (mem_nextFrames (mem_ofReceiver.mp hb').1).2.2.1
      · have hnew : ofReceiver w' (nextFrames v packets.length s) = [] :=
          ofReceiver_eq_nil fun m hm => by
            rw [(mem_nextFrames hm).1]
            exact fun heq => hw heq.symm
        rw [hnew, List.append_nil]
        exact hold
    · rw [if_neg hv]
      exact h.sorted v w'
  · intro v w' hne hf m hm x hx hxw
    have hxold : x ∈ trail s v := by
      rw [trail_receive] at hx
      by_cases hv : v = w
      · subst hv
        rw [if_pos rfl] at hx
        simp only [List.mem_append] at hx
        rcases hx with (hx | hx) | hx
        · simp [trail, hx]
        · exact absurd ((mem_nextFrames hx).1.symm.trans hxw) hne
        · simp [trail, hx]
      · rw [if_neg hv] at hx
        exact hx
    rcases mem_receive_batch hm with ⟨rfl, hin⟩ | ⟨hw, hold⟩
    · exact le_of_lt ((frame_of_mem_trail hp hxold).trans_le (mem_nextFrames hin).2.2.1)
    · simp only [Dispatch.receive, Function.update_of_ne hw] at hf
      exact h.behind v w' hne hf m hold x hxold hxw

theorem dequeueBurst (h : Ordered s) (hb : (s.workers w).batch = []) :
    Ordered (dequeueBurst w s) := by
  refine h.mono (fun w' => filterMap_events (fun _ => rfl) _ _)
    (fun r m hm => mem_of_dequeueBurst_rings hm) (fun v => trail_dequeueBurst hb) fun v hf => ?_
  by_cases hv : v = w
  · subst hv
    simp [Dispatch.dequeueBurst] at hf
  · simp only [Dispatch.dequeueBurst, Function.update_of_ne hv] at hf ⊢
    exact ⟨hf, fun m hm => hm⟩

/-- The first mbuf of a batch from the NIC queue is the oldest. -/
theorem head_le (h : Ordered s) (hp : Places cfg s) {rest : List (Mbuf Port)}
    (hb : (s.workers w).batch = m :: rest) (hnic : (s.workers w).fromRing = false) :
    ∀ x ∈ (s.workers w).batch, m.frame ≤ x.frame := by
  have hown : ∀ x ∈ (s.workers w).batch, x.receiver = w := fun x hx => (hp.nic w x hx hnic).1
  have hbatch : InOrder (s.workers w).batch := by
    have hsorted := h.sorted w w
    simp only [trail, ofReceiver_append] at hsorted
    have hmid := (List.pairwise_append.mp (List.pairwise_append.mp hsorted).1).2.1
    rwa [ofReceiver, List.filter_eq_self.mpr fun x hx => by simpa using hown x hx] at hmid
  intro x hx
  rw [hb] at hbatch hx
  rcases List.mem_cons.mp hx with rfl | hrest
  · exact le_rfl
  · exact le_of_lt ((List.pairwise_cons.mp hbatch).1 x hrest)

/-- The dispatcher sends the mbuf to another queue. -/
theorem redirect (h : Ordered s) (hinv : Inv cfg s) {rest : List (Mbuf Port)} {q : Nat}
    (hb : (s.workers w).batch = m :: rest) (hnic : (s.workers w).fromRing = false)
    (hphase : (s.workers w).phase = .start) (hne : q ≠ w.2) : Ordered (redirect w m q s) := by
  have hm : m ∈ (s.workers w).batch := hb ▸ List.mem_cons_self
  have hother : ((w.1, q) : Wid Port) ≠ w := fun heq => hne (congrArg Prod.snd heq)
  unfold Dispatch.redirect
  split
  · refine (h.handOn (d := .dispatchRing q) hb).putOnRing (hinv.places.nic w m hm hnic).1 hother ?_ ?_ ?_
    · rw [traces_handOn hb]
      exact hinv.counts.awaits w m (w.1, q) ⟨hm, hnic, fun _ => by rw [hphase]; rfl⟩ hother
    · intro x hx hxw
      rw [trail_handOn hb] at hx
      exact h.behind _ w hother hnic m hm x hx hxw
    · intro _ x hx
      exact h.head_le hinv.places hb hnic x (mem_of_handOn hx)
  · exact h.handOn hb

/-- One turn of the loop over the other queues. -/
theorem cloneFor (h : Ordered s) (hinv : Inv cfg s) {rest : List (Mbuf Port)} {j : Nat}
    (hb : (s.workers w).batch = m :: rest) (hphase : (s.workers w).phase = .clone j)
    (hne : j ≠ w.2) : Ordered (cloneFor w m j s) := by
  have hm : m ∈ (s.workers w).batch := hb ▸ List.mem_cons_self
  have hnic := hinv.cloning w j hphase
  have hother : ((w.1, j) : Wid Port) ≠ w := fun heq => hne (congrArg Prod.snd heq)
  have hclone (d : Dest) : Ordered (logClone w m (nextCopy m s) d (deepClone m s)) :=
    h.snoc (e := .cloned w m (nextCopy m s) d) rfl rfl rfl (fun _ => rfl) fun _ => rfl
  have htrail (v : Wid Port) :
      trail (logClone w m (nextCopy m s) (.dispatchRing j) (deepClone m s)) v = trail s v :=
    trail_log (e := .cloned w m (nextCopy m s) (.dispatchRing j)) rfl rfl rfl rfl
  unfold Dispatch.cloneFor
  split
  · -- the copy goes on the ring last: the rest of the step does not touch it
    change Ordered (Dispatch.putOnRing (w.1, j) (nextCopy m s)
      (logClone w m (nextCopy m s) (.dispatchRing j) (deepClone m s)))
    refine (hclone (.dispatchRing j)).putOnRing (hinv.places.nic w m hm hnic).1 hother ?_ ?_ ?_
    · have hsame : traces m.origin (logClone w m (nextCopy m s) (.dispatchRing j) (deepClone m s))
          (w.1, j) = traces m.origin s (w.1, j) :=
        traces_log rfl rfl rfl (by simp [Event.handsFrame])
      refine hsame.trans (hinv.counts.awaits w m (w.1, j) ⟨hm, hnic, fun _ => ?_⟩ hother)
      rw [hphase]
      simp [Phase.past]
    · intro x hx hxw
      rw [htrail] at hx
      exact h.behind _ w hother hnic m hm x hx hxw
    · exact fun _ x hx => h.head_le hinv.places hb hnic x hx
  · exact hclone .freed

theorem stepTo (h : Ordered s) (hinv : Inv cfg s) (hto : StepTo cfg s w s') : Ordered s' := by
  cases hto with
  | receive packets hb => exact h.receive hinv.places hb packets
  | dequeue hb => exact h.dequeueBurst hb
  | move hb hp => exact h.setPhase
  | @answered m rest _ data hb hnic hd hphase hs =>
      have hm : m ∈ (s.workers w).batch := hb ▸ List.mem_cons_self
      have hask : Ordered (askDispatcher w m data s) :=
        h.snoc (e := .dispatched w m) rfl rfl rfl (fun _ => rfl) fun _ => rfl
      rcases hs with ⟨len, rfl⟩ | rfl | ⟨q, -, hne, rfl⟩ | ⟨len, rfl⟩
      · have hset : Ordered (setPacket m ⟨data, len⟩ (askDispatcher w m data s)) :=
          hask.mono (fun _ => rfl) (fun _ _ hm => hm) (fun _ => rfl) fun v hf => ⟨hf, fun _ hm => hm⟩
        exact hset.handOn hb
      · exact hask.handOn hb
      · exact hask.redirect (hinv.askDispatcher hm hnic hd data) hb hnic hphase hne
      · exact hask.setPhase
  | unicast hb hu hd => exact h.handOn hb
  | clone hb hphase hj hne => exact (h.cloneFor hinv hb hphase hne).setPhase
  | @kni m rest room hb hphase =>
      have hclone : Ordered (cloneForKni w m room s) :=
        h.snoc (e := .cloned w m (nextCopy m s) (kniEnqueue room)) rfl rfl rfl (fun _ => rfl)
          fun _ => rfl
      exact hclone.setPhase
  | input hb => exact h.handOn hb

end Ordered

/-! ## Runs -/

/-- **Nothing overtakes.** In every run: a worker receives its frames in order; what a worker has handed
on, has in its batch and has on its ring of the frames of any one receiver is in the order of their
reception, each frame at most once; and every ring is a queue, which loses nothing. -/
theorem frames_keep_their_order {packet : Mbuf Port → Packet Data}
    {ts : List (Transition (World Port Data) (Wid Port × Action Data))}
    (h : Run (step cfg) (World.init packet) ts s) :
    (∀ w, InOrder (received w s.log)) ∧
    (∀ v w, InOrder (ofReceiver w (handed v s.log ++ (s.workers v).batch ++ s.rings v))) ∧
    ∀ r, entered r s.log = dequeued r s.log ++ s.rings r := by
  obtain ⟨-, hfifo, hordered⟩ : Inv cfg s ∧ Fifo s ∧ Ordered s :=
    h.invariant (I := fun s => Inv cfg s ∧ Fifo s ∧ Ordered s)
      (fun ⟨hinv, hfifo, hordered⟩ hs => by
        obtain ⟨-, hto⟩ := step_cases hinv.cloning hs
        exact ⟨hinv.step hs, hfifo.stepTo hto, hordered.stepTo hinv hto⟩)
      ⟨.init packet, .init packet, .init packet⟩
  exact ⟨hordered.received, hordered.sorted, hfifo⟩

namespace Sample

/-- Two queues, no dispatcher; the data says whether the frame is ARP. -/
def config : Config Unit Bool where
  nbQueues _ := 2
  packetDispatcher _ := false
  enableKni _ := false
  primary _ := true
  kniAccept _ := false
  inet6 := false
  protocolFilter _ data _ := some (if data then .arp else .unknown)

/-- An ARP frame. -/
def arpPacket : Packet Bool := ⟨true, 42⟩

/-- Two ARP frames in one burst: the second worker hands on the copy of the first frame while the first
worker still has to clone the second frame. -/
def overlappingRun : List (Wid Unit × Action Bool) :=
  [(((), 0), .rxBurst [arpPacket, arpPacket]), (((), 0), .dispatch 0 true 0),
    (((), 0), .filter .default false), (((), 0), .clone true), (((), 0), .clone true),
    (((), 1), .ringBurst), (((), 0), .clone true), (((), 1), .dispatch 0 true 0),
    (((), 1), .filter .default false), (((), 0), .kni true true), (((), 0), .input),
    (((), 1), .kni true true), (((), 1), .input), (((), 0), .dispatch 0 true 0),
    (((), 0), .filter .default false), (((), 0), .clone true), (((), 0), .clone true)]

end Sample

/-- The second worker has handed on the copy of frame 0, and that of frame 1 is on its ring. -/
theorem frames_keep_their_order_overlapping :
    ∃ r, exec (step Sample.config) (World.init fun _ => Sample.arpPacket) Sample.overlappingRun = some r ∧
      (handed ((), 1) r.2.log).length = 1 ∧ (r.2.rings ((), 1)).length = 1 ∧
      InOrder (ofReceiver ((), 0)
        (handed ((), 1) r.2.log ++ (r.2.workers ((), 1)).batch ++ r.2.rings ((), 1))) := by
  obtain ⟨r, hr⟩ := Option.isSome_iff_exists.mp (by decide :
    (exec (step Sample.config) (World.init fun _ => Sample.arpPacket) Sample.overlappingRun).isSome = true)
  have hend : (exec (step Sample.config) (World.init fun _ => Sample.arpPacket)
      Sample.overlappingRun).map (fun r => ((handed ((), 1) r.2.log).length,
        (r.2.rings ((), 1)).length)) = some (1, 1) := by
    decide
  rw [hr] at hend
  obtain ⟨hhanded, hring⟩ : (handed ((), 1) r.2.log).length = 1 ∧ (r.2.rings ((), 1)).length = 1 := by
    simpa using hend
  exact ⟨r, hr, hhanded, hring, (frames_keep_their_order (Run.of_exec hr)).2.1 ((), 1) ((), 0)⟩

end LazyBsd.Dispatch
