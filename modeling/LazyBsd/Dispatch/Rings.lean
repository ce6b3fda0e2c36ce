/-
# LazyBsd.Dispatch.Rings — what went on a ring comes off it in the same order, and nothing else.

The log says which mbufs were put on a ring, redirected or copied, and which were taken from it. `Fifo`
compares the two with the ring: each ring is a queue, and an mbuf that the log puts on it is on it until
the log takes it off.
-/
import Mathlib.Tactic.Common
import LazyBsd.Dispatch.Places

namespace LazyBsd.Dispatch

open LazyBsd.Filter

variable {Port Data : Type*} [DecidableEq Port] {cfg : Config Port Data} {s s' : World Port Data}
  {w v r : Wid Port} {m : Mbuf Port} {d : Dest}

/-! ## Reading the log -/

/-- The mbufs that have been put on the ring. -/
def entered (r : Wid Port) (log : List (Event Port)) : List (Mbuf Port) :=
  log.filterMap fun
    | .passed w m (.dispatchRing q) => if (w.1, q) = r then some m else none
    | .cloned w _ c (.dispatchRing q) => if (w.1, q) = r then some c else none
    | _ => none

/-- The mbufs that have been taken from the ring. -/
def dequeued (r : Wid Port) (log : List (Event Port)) : List (Mbuf Port) :=
  log.filterMap fun
    | .dequeued w m => if w = r then some m else none
    | _ => none

omit [DecidableEq Port] in
/-- A reading of the log that an event of one kind adds nothing to. -/
theorem filterMap_events {f : Event Port → Option (Mbuf Port)} {g : Mbuf Port → Event Port}
    (h : ∀ m, f (g m) = none) (log : List (Event Port)) (ms : List (Mbuf Port)) :
    (log ++ ms.map g).filterMap f = log.filterMap f := by
  rw [List.filterMap_append, List.filterMap_map]
  have hnil : ms.filterMap (f ∘ g) = [] := List.filterMap_eq_nil_iff.mpr fun m _ => h m
  rw [hnil, List.append_nil]

omit [DecidableEq Port] in
/-- A reading of the log that takes every event of one kind. -/
theorem filterMap_all {f : Event Port → Option (Mbuf Port)} {g : Mbuf Port → Event Port}
    (h : ∀ m, f (g m) = some m) (log : List (Event Port)) (ms : List (Mbuf Port)) :
    (log ++ ms.map g).filterMap f = log.filterMap f ++ ms := by
  rw [List.filterMap_append, List.filterMap_map]
  have hall : f ∘ g = some := funext h
  rw [hall, List.filterMap_some]

/-! ## The rings are queues -/

/-- **What was put on a ring was taken from it or is on it, in the same order.** -/
def Fifo (s : World Port Data) : Prop :=
  ∀ r, entered r s.log = dequeued r s.log ++ s.rings r

namespace Fifo

theorem init (packet : Mbuf Port → Packet Data) : Fifo (World.init packet) := fun _ => rfl

/-- An event about no ring. -/
theorem snoc (h : Fifo s) {e : Event Port} (hr : s'.rings = s.rings) (hl : s'.log = s.log ++ [e])
    (hin : ∀ r, entered r [e] = []) (hout : ∀ r, dequeued r [e] = []) : Fifo s' := by
  intro r
  have hentered : entered r s'.log = entered r s.log ++ entered r [e] := by
    rw [hl]
    exact List.filterMap_append ..
  have hdequeued : dequeued r s'.log = dequeued r s.log ++ dequeued r [e] := by
    rw [hl]
    exact List.filterMap_append ..
  rw [hentered, hdequeued, hin, hout, hr, List.append_nil, List.append_nil]
  exact h r

/-- An mbuf is put on a ring, and the log says so. -/
theorem store (h : Fifo s) {e : Event Port} (hr : s'.rings = (putOnRing r m s).rings)
    (hl : s'.log = s.log ++ [e]) (hin : ∀ r', entered r' [e] = if r = r' then [m] else [])
    (hout : ∀ r', dequeued r' [e] = []) : Fifo s' := by
  intro r'
  have hentered : entered r' s'.log = entered r' s.log ++ entered r' [e] := by
    rw [hl]
    exact List.filterMap_append ..
  have hdequeued : dequeued r' s'.log = dequeued r' s.log ++ dequeued r' [e] := by
    rw [hl]
    exact List.filterMap_append ..
  rw [hentered, hdequeued, hin, hout, hr, List.append_nil, h r']
  by_cases hrr : r = r'
  · subst hrr
    simp [putOnRing]
  · simp [putOnRing, hrr, Ne.symm hrr]

theorem dequeueBurst (h : Fifo s) : Fifo (dequeueBurst w s) := by
  intro r
  have hentered : entered r (Dispatch.dequeueBurst w s).log = entered r s.log :=
    filterMap_events (fun _ => rfl) _ _
  rw [hentered, h r]
  by_cases hr : r = w
  · subst hr
    have hout : dequeued r (Dispatch.dequeueBurst r s).log =
        dequeued r s.log ++ (s.rings r).take maxPktBurst :=
      filterMap_all (fun _ => if_pos rfl) _ _
    have hring : (Dispatch.dequeueBurst r s).rings r = (s.rings r).drop maxPktBurst := by
      simp [Dispatch.dequeueBurst]
    rw [hout, hring, List.append_assoc, List.take_append_drop]
  · have hout : dequeued r (Dispatch.dequeueBurst w s).log = dequeued r s.log :=
      filterMap_events (fun _ => if_neg fun heq => hr heq.symm) _ _
    have hring : (Dispatch.dequeueBurst w s).rings r = s.rings r := by
      simp [Dispatch.dequeueBurst, hr]
    rw [hout, hring]

theorem handOn (h : Fifo s) (hd : ∀ q, d ≠ .dispatchRing q) : Fifo (handOn w m d s) := by
  refine h.snoc (e := .passed w m d) rfl rfl (fun r => ?_) fun _ => rfl
  cases d with
  | dispatchRing q => exact absurd rfl (hd q)
  | _ => rfl

theorem redirect {q : Nat} (h : Fifo s) : Fifo (redirect w m q s) := by
  unfold Dispatch.redirect
  split
  · refine h.store (r := (w.1, q)) (m := m) (e := .passed w m (.dispatchRing q)) rfl rfl (fun r => ?_)
      fun _ => rfl
    simp only [entered, List.filterMap_cons, List.filterMap_nil]
    split <;> simp_all
  · exact h.handOn (by simp)

theorem cloneFor {j : Nat} (h : Fifo s) : Fifo (cloneFor w m j s) := by
  unfold Dispatch.cloneFor
  split
  · refine h.store (r := (w.1, j)) (m := nextCopy m s)
      (e := .cloned w m (nextCopy m s) (.dispatchRing j)) rfl rfl (fun r => ?_) fun _ => rfl
    simp only [entered, List.filterMap_cons, List.filterMap_nil]
    split <;> simp_all
  · exact h.snoc (e := .cloned w m (nextCopy m s) .freed) rfl rfl (fun _ => rfl) fun _ => rfl

theorem stepTo (h : Fifo s) (hto : StepTo cfg s w s') : Fifo s' := by
  cases hto with
  | receive packets hb =>
      intro r
      have hin : entered r (receive w packets s).log = entered r s.log :=
        filterMap_events (fun _ => rfl) _ _
      have hout : dequeued r (receive w packets s).log = dequeued r s.log :=
        filterMap_events (fun _ => rfl) _ _
      rw [hin, hout]
      exact h r
  | dequeue hb => exact h.dequeueBurst
  | move hb hp => exact h
  | @answered m rest _ data hb hnic hd hphase hs =>
      have hask : Fifo (askDispatcher w m data s) :=
        h.snoc (e := .dispatched w m) rfl rfl (fun _ => rfl) fun _ => rfl
      rcases hs with ⟨len, rfl⟩ | rfl | ⟨q, -, -, rfl⟩ | ⟨len, rfl⟩
      · exact Fifo.handOn (s := setPacket m ⟨data, len⟩ (askDispatcher w m data s)) hask (by simp)
      · exact hask.handOn (by simp)
      · exact hask.redirect
      · exact hask
  | unicast hb hu hd => exact h.handOn hd
  | clone hb hphase hj hne => exact h.cloneFor
  | @kni m rest room hb hphase =>
      refine h.snoc (e := .cloned w m (nextCopy m s) (kniEnqueue room)) rfl rfl (fun r => ?_) fun _ => rfl
      cases room <;> rfl
  | input hb => exact h.handOn (by simp)

end Fifo

end LazyBsd.Dispatch
