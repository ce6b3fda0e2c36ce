/-
# LazyBsd.Dispatch.Traces — how often a frame has been at a worker.

`traces` counts, for a frame and a worker, the mbufs with the frame that the worker has handed on or
will hand on. There is never more than one: a worker puts an mbuf with the frame on the ring of another
queue only while nothing of the frame has reached that queue (`Awaits`), and an mbuf from a ring goes to
no ring again.
-/
import Mathlib.Data.List.Count
import Mathlib.Data.List.Nodup
import Mathlib.Data.List.Pairwise
import Mathlib.Tactic.Common
import LazyBsd.Dispatch.Places

namespace LazyBsd.Dispatch

variable {Port Data : Type*} [DecidableEq Port] {cfg : Config Port Data} {s s' : World Port Data}
  {w v r : Wid Port} {m : Mbuf Port} {d : Dest} {o : Wid Port × Nat}

/-! ## Counting -/

/-- How often the frame has been at the worker: handed on, in the batch, or on the ring. -/
def traces (o : Wid Port × Nat) (s : World Port Data) (w : Wid Port) : Nat :=
  s.log.countP (Event.handsFrame w o) + (s.workers w).batch.countP (fun m => decide (m.origin = o)) +
    (s.rings w).countP fun m => decide (m.origin = o)

theorem traces_setPhase {p : Phase} : traces o (setPhase w p s) v = traces o s v := by
  simp only [traces, setPhase_batch]
  rfl

theorem traces_handOn {rest : List (Mbuf Port)} (hb : (s.workers w).batch = m :: rest) :
    traces o (handOn w m d s) v = traces o s v := by
  simp only [traces, handOn_batch]
  simp only [handOn, List.countP_append, List.countP_singleton, Event.handsFrame]
  by_cases hv : v = w
  · subst hv
    simp only [hb, List.tail_cons, List.countP_cons, if_true, true_and]
    omega
  · simp [hv, Ne.symm hv]

theorem traces_putOnRing : traces o (putOnRing r m s) v =
    traces o s v + if v = r ∧ m.origin = o then 1 else 0 := by
  simp only [traces, putOnRing, Function.update_apply]
  by_cases hv : v = r
  · subst hv
    simp only [if_true, List.countP_append, List.countP_singleton, true_and, decide_eq_true_eq]
    omega
  · simp [hv]

theorem traces_log {es : List (Event Port)} (hw : s'.workers = s.workers) (hr : s'.rings = s.rings)
    (hl : s'.log = s.log ++ es) (hes : ∀ e ∈ es, e.handsFrame v o = false) :
    traces o s' v = traces o s v := by
  have h0 : es.countP (Event.handsFrame v o) = 0 :=
    List.countP_eq_zero.mpr fun e he => by simp [hes e he]
  simp only [traces, hw, hr, hl, List.countP_append, h0]
  omega

theorem traces_receive {packets : List (Packet Data)} (hb : (s.workers w).batch = []) :
    traces o (receive w packets s) v = traces o s v +
      if v = w then (nextFrames w packets.length s).countP (fun m => decide (m.origin = o)) else 0 := by
  have h0 (ms : List (Mbuf Port)) :
      (ms.map (Event.received w)).countP (Event.handsFrame v o) = 0 :=
    List.countP_eq_zero.mpr fun e he => by
      obtain ⟨m, -, rfl⟩ := List.mem_map.mp he
      simp [Event.handsFrame]
  simp only [traces, receive, Function.update_apply, List.countP_append, h0]
  by_cases hv : v = w
  · subst hv
    simp only [hb, if_true, List.countP_nil]
    omega
  · simp [hv]

theorem traces_dequeueBurst (hb : (s.workers w).batch = []) :
    traces o (dequeueBurst w s) v = traces o s v := by
  have h0 (ms : List (Mbuf Port)) :
      (ms.map (Event.dequeued w)).countP (Event.handsFrame v o) = 0 :=
    List.countP_eq_zero.mpr fun e he => by
      obtain ⟨m, -, rfl⟩ := List.mem_map.mp he
      simp [Event.handsFrame]
  simp only [traces, dequeueBurst, Function.update_apply, List.countP_append, h0]
  by_cases hv : v = w
  · subst hv
    have hsplit : (s.rings v).countP (fun m => decide (m.origin = o)) =
        ((s.rings v).take maxPktBurst).countP (fun m => decide (m.origin = o)) +
          ((s.rings v).drop maxPktBurst).countP fun m => decide (m.origin = o) := by
      rw [← List.countP_append, List.take_append_drop]
    simp only [hb, if_true, List.countP_nil]
    omega
  · simp [hv]

/-- A frame that nothing has been seen of is nowhere. -/
theorem traces_eq_zero (h : ∀ m, m.origin = o → ¬ Seen s m) : traces o s v = 0 := by
  have hlog : s.log.countP (Event.handsFrame v o) = 0 := by
    refine List.countP_eq_zero.mpr fun e he hh => ?_
    cases e with
    | passed w m d =>
        simp only [Event.handsFrame, decide_eq_true_eq] at hh
        exact h m hh.2 (.inr (.inr ⟨_, he, by simp [Event.mbufs]⟩))
    | _ => simp [Event.handsFrame] at hh
  have hbatch : (s.workers v).batch.countP (fun m => decide (m.origin = o)) = 0 :=
    List.countP_eq_zero.mpr fun m hm ho => h m (of_decide_eq_true ho) (.inl ⟨v, hm⟩)
  have hring : (s.rings v).countP (fun m => decide (m.origin = o)) = 0 :=
    List.countP_eq_zero.mpr fun m hm ho => h m (of_decide_eq_true ho) (.inr (.inl ⟨v, hm⟩))
  simp only [traces, hlog, hbatch, hring]

omit [DecidableEq Port] in
theorem nodup_nextFrames {n : Nat} : (nextFrames w n s).Nodup := by
  refine List.Nodup.map (fun i j h => ?_) List.nodup_range'
  exact (Mbuf.mk.inj h).2.1

/-- New frames are numbered without repetition. -/
theorem countP_nextFrames_le {n : Nat} :
    (nextFrames w n s).countP (fun m => decide (m.origin = o)) ≤ 1 := by
  have hone := List.nodup_iff_count_le_one.mp (nodup_nextFrames (s := s) (w := w) (n := n))
    ⟨o.1, o.2, 0⟩
  refine le_trans ?_ hone
  refine List.countP_mono_left fun m hm ho => ?_
  obtain ⟨-, hcopy, -⟩ := mem_nextFrames hm
  obtain ⟨rcv, frame, copy⟩ := m
  obtain rfl : (rcv, frame) = o := of_decide_eq_true ho
  obtain rfl : copy = 0 := hcopy
  exact beq_self_eq_true _

/-! ## At most one -/

/-- The mbuf from the NIC queue is waiting, or the loop over the other queues is not past `q`. -/
def Awaits (s : World Port Data) (v : Wid Port) (m : Mbuf Port) (q : Nat) : Prop :=
  m ∈ (s.workers v).batch ∧ (s.workers v).fromRing = false ∧
    ((s.workers v).batch.head? = some m → (s.workers v).phase.past q = false)

/-- **A frame is at most once at a worker.** -/
structure Counts (s : World Port Data) : Prop where
  one : ∀ o v, traces o s v ≤ 1
  awaits : ∀ v m v', Awaits s v m v'.2 → v' ≠ v → traces m.origin s v' = 0

namespace Counts

theorem mono (h : Counts s) (htraces : ∀ o v, traces o s' v = traces o s v)
    (hawaits : ∀ v m q, Awaits s' v m q → Awaits s v m q) : Counts s' where
  one o v := by
    rw [htraces]
    exact h.one o v
  awaits v m v' hm hne := by
    rw [htraces]
    exact h.awaits v m v' (hawaits v m v'.2 hm) hne

/-- The batch holds a frame only once. -/
theorem not_mem_tail (h : Counts s) {m' : Mbuf Port} {rest : List (Mbuf Port)}
    (hb : (s.workers w).batch = m :: rest) (ho : m'.origin = m.origin) : m' ∉ rest := by
  intro hm'
  have hone := h.one m.origin w
  have hpos : 0 < rest.countP fun x => decide (x.origin = m.origin) :=
    List.countP_pos_iff.mpr ⟨m', hm', by simp [ho]⟩
  simp only [traces, hb, List.countP_cons, decide_true, if_true] at hone
  omega

theorem init (packet : Mbuf Port → Packet Data) : Counts (World.init packet) := by
  constructor
  · simp [traces, World.init]
  · simp [Awaits, World.init]

theorem setPhase (h : Counts s) {p : Phase}
    (hp : ∀ q, p.past q = false → (s.workers w).phase.past q = false) :
    Counts (setPhase w p s) := by
  refine h.mono (fun _ _ => traces_setPhase) ?_
  rintro v m' q ⟨hm', hf, hpast⟩
  rw [setPhase_batch] at hm' hpast
  rw [setPhase_fromRing] at hf
  rw [setPhase_phase] at hpast
  refine ⟨hm', hf, fun hhead => ?_⟩
  have hnow := hpast hhead
  split at hnow
  · rename_i hv
    rw [hv]
    exact hp q hnow
  · exact hnow

theorem handOn (h : Counts s) {rest : List (Mbuf Port)} (hb : (s.workers w).batch = m :: rest) :
    Counts (handOn w m d s) := by
  refine h.mono (fun _ _ => traces_handOn hb) ?_
  rintro v m' q ⟨hm', hf, hpast⟩
  rw [handOn_fromRing] at hf
  refine ⟨mem_of_handOn hm', hf, fun hhead => ?_⟩
  rw [handOn_batch] at hm' hpast
  rw [handOn_phase] at hpast
  by_cases hv : v = w
  · subst hv
    rw [if_pos rfl, hb] at hm'
    rw [hb] at hhead
    obtain rfl := Option.some.inj hhead
    exact absurd hm' (h.not_mem_tail hb rfl)
  · rw [if_neg hv, if_neg hv] at hpast
    exact hpast hhead

/-- Events that hand on nothing, and stores to an mbuf. -/
theorem log (h : Counts s) (es : List (Event Port)) (hw : s'.workers = s.workers)
    (hr : s'.rings = s.rings) (hl : s'.log = s.log ++ es)
    (hes : ∀ v o, ∀ e ∈ es, e.handsFrame v o = false) : Counts s' := by
  refine h.mono (fun o v => traces_log hw hr hl (hes v o)) ?_
  rintro v m q hm
  simpa only [Awaits, hw] using hm

/-- An mbuf goes on a ring that nothing of its frame has reached and that no mbuf of the frame still
has to reach. -/
theorem putOnRing (h : Counts s) (hnone : traces m.origin s r = 0)
    (hpast : ∀ v m', Awaits s v m' r.2 → m'.origin = m.origin → r = v) : Counts (putOnRing r m s) where
  one o v := by
    rw [traces_putOnRing]
    by_cases hv : v = r ∧ m.origin = o
    · obtain ⟨rfl, rfl⟩ := hv
      rw [hnone, if_pos ⟨rfl, rfl⟩]
    · rw [if_neg hv]
      exact h.one o v
  awaits v m' v' hm' hne := by
    rw [traces_putOnRing, h.awaits v m' v' hm' hne, if_neg]
    rintro ⟨rfl, ho⟩
    exact hne (hpast v m' hm' ho.symm)

theorem receive (h : Counts s) (hp : Places cfg s) (hb : (s.workers w).batch = [])
    (packets : List (Packet Data)) : Counts (receive w packets s) := by
  have hfresh {o : Wid Port × Nat} (ho : s.frames ≤ o.2) (v : Wid Port) : traces o s v = 0 :=
    traces_eq_zero fun m hm => hp.not_seen_of_frame (by rw [← hm] at ho; exact ho)
  have hnew {o : Wid Port × Nat} (ho : o.2 < s.frames) :
      (nextFrames w packets.length s).countP (fun m => decide (m.origin = o)) = 0 :=
    List.countP_eq_zero.mpr fun m hm hmo => by
      have hle := (mem_nextFrames hm).2.2.1
      rw [← of_decide_eq_true hmo] at ho
      simp only [Mbuf.origin] at ho
      omega
  constructor
  · intro o v
    rw [traces_receive hb]
    by_cases ho : s.frames ≤ o.2
    · rw [hfresh ho]
      have hle := countP_nextFrames_le (s := s) (w := w) (o := o) (n := packets.length)
      split <;> omega
    · rw [hnew (by omega)]
      have hone := h.one o v
      split <;> omega
  · rintro v m v' ⟨hm, hf, hpast⟩ hne
    rw [traces_receive hb]
    rcases mem_receive_batch hm with ⟨rfl, hin⟩ | ⟨hv, hold⟩
    · rw [hfresh (mem_nextFrames hin).2.2.1, if_neg hne]
    · have hframe : m.origin.2 < s.frames := (hp.named m (.inl ⟨v, hold⟩)).1
      have haw : Awaits s v m v'.2 := by
        simp only [Dispatch.receive, Function.update_of_ne hv] at hf hpast
        exact ⟨hold, hf, hpast⟩
      rw [hnew hframe, h.awaits v m v' haw hne]
      split <;> rfl

theorem dequeueBurst (h : Counts s) (hb : (s.workers w).batch = []) :
    Counts (dequeueBurst w s) := by
  refine h.mono (fun _ _ => traces_dequeueBurst hb) ?_
  rintro v m q ⟨hm, hf, hpast⟩
  by_cases hv : v = w
  · subst hv
    simp [Dispatch.dequeueBurst] at hf
  · simp only [Dispatch.dequeueBurst, Function.update_of_ne hv] at hm hf hpast
    exact ⟨hm, hf, hpast⟩

end Counts

end LazyBsd.Dispatch
