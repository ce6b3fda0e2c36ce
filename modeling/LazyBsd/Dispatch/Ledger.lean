/-
# LazyBsd.Dispatch.Ledger — what the workers took, what they handed on, and what they read.

The ledger compares what a worker took with what it handed on; the difference is its batch. An mbuf
from a ring goes to no ring and to no dispatcher (`Ledger.once`), and a frame for all workers is input
by its receiver, unless a dispatcher decided otherwise (`Reads`).
-/
import Mathlib.Data.List.Count
import Mathlib.Data.List.Pairwise
import Mathlib.Tactic.Common
import LazyBsd.Dispatch.Traces

namespace LazyBsd.Dispatch

open LazyBsd.Filter

variable {Port Data : Type*} [DecidableEq Port] {cfg : Config Port Data} {s s' : World Port Data}
  {w v r : Wid Port} {m : Mbuf Port} {d : Dest}

/-! ## What was taken and what was handed on -/

/-- After an mbuf has been taken from a ring, it is not put on a ring and not given to the dispatcher. -/
def Final (e e' : Event Port) : Prop := ∀ v m, e = .dequeued v m → ¬ e'.redistributes m

/-- **The ledger.** -/
structure Ledger (cfg : Config Port Data) (s : World Port Data) : Prop where
  taken : ∀ v m, s.log.countP (Event.takes v m) =
    s.log.countP (Event.hands v m) + (s.workers v).batch.count m
  once : s.log.Pairwise Final
  place : ∀ v m d, Event.passed v m d ∈ s.log → m.receiver.1 = v.1 ∧ v.2 < cfg.nbQueues v.1

namespace Ledger

theorem init (packet : Mbuf Port → Packet Data) : Ledger cfg (World.init packet) := by
  constructor <;> simp [World.init]

theorem setPhase (h : Ledger cfg s) {p : Phase} : Ledger cfg (setPhase w p s) where
  taken v m := by
    rw [setPhase_batch]
    exact h.taken v m
  once := h.once
  place := h.place

/-- An event that takes and hands on nothing. -/
theorem snoc (h : Ledger cfg s) {e : Event Port} (hw : s'.workers = s.workers)
    (hl : s'.log = s.log ++ [e]) (he : ∀ v m, e.takes v m = false ∧ e.hands v m = false)
    (hfinal : ∀ m, e.redistributes m → ∀ v, Event.dequeued v m ∉ s.log) : Ledger cfg s' where
  taken v m := by
    have hold := h.taken v m
    rw [hl, hw, List.countP_append, List.countP_append, List.countP_singleton,
      List.countP_singleton, (he v m).1, (he v m).2]
    simpa using hold
  once := by
    rw [hl, List.pairwise_append]
    refine ⟨h.once, List.pairwise_singleton _ _, ?_⟩
    rintro e₁ he₁ e₂ he₂ v m rfl hred
    rw [List.mem_singleton.mp he₂] at hred
    exact hfinal m hred v he₁
  place v m d hm := by
    rw [hl] at hm
    rcases List.mem_append.mp hm with hold | hnew
    · exact h.place v m d hold
    · rw [← List.mem_singleton.mp hnew] at he
      simpa [Event.hands] using (he v m).2

theorem handOn (h : Ledger cfg s) {rest : List (Mbuf Port)} (hb : (s.workers w).batch = m :: rest)
    (hport : m.receiver.1 = w.1 ∧ w.2 < cfg.nbQueues w.1)
    (hfinal : ∀ q, d = .dispatchRing q → ∀ v, Event.dequeued v m ∉ s.log) :
    Ledger cfg (handOn w m d s) where
  taken v m' := by
    have hold := h.taken v m'
    rw [handOn_batch]
    simp only [Dispatch.handOn, List.countP_append, List.countP_singleton, Event.takes, Event.hands]
    by_cases hv : v = w
    · subst hv
      rw [hb, List.count_cons] at hold
      by_cases hm : m = m' <;> simp [hb, hm] at hold ⊢ <;> omega
    · simpa [hv, Ne.symm hv] using hold
  once := by
    refine List.pairwise_append.mpr ⟨h.once, List.pairwise_singleton _ _, ?_⟩
    rintro e₁ he₁ e₂ he₂ v m' rfl hred
    rw [List.mem_singleton.mp he₂] at hred
    cases d with
    | dispatchRing q =>
        obtain rfl : m = m' := hred
        exact hfinal q rfl v he₁
    | _ => exact hred
  place v m' d' hm := by
    rcases List.mem_append.mp hm with hold | hnew
    · exact h.place v m' d' hold
    · obtain ⟨rfl, rfl, rfl⟩ := Event.passed.inj (List.mem_singleton.mp hnew)
      exact hport

/-- A burst `ms`, all taken by the worker. -/
theorem burst (h : Ledger cfg s) (ms : List (Mbuf Port)) {take : Mbuf Port → Event Port}
    (hb : (s.workers w).batch = []) (hself : (s'.workers w).batch = ms)
    (hother : ∀ v, v ≠ w → s'.workers v = s.workers v) (hl : s'.log = s.log ++ ms.map take)
    (htakes : ∀ m v m', (take m).takes v m' = decide (w = v ∧ m = m'))
    (hhands : ∀ m v m', (take m).hands v m' = false)
    (hred : ∀ m m', ¬ (take m).redistributes m') : Ledger cfg s' where
  taken v m := by
    have hold := h.taken v m
    have h0 : (ms.map take).countP (Event.hands v m) = 0 := by
      refine List.countP_eq_zero.mpr fun e he => ?_
      obtain ⟨m', -, rfl⟩ := List.mem_map.mp he
      simp [hhands]
    rw [hl, List.countP_append, List.countP_append, h0, List.countP_map]
    by_cases hv : v = w
    · subst hv
      have hcount : ms.countP (Event.takes v m ∘ take) = ms.count m := by
        refine List.countP_congr fun m' _ => ?_
        simp [htakes]
      rw [hb] at hold
      rw [hself, hcount, hold]
      simp
    · have hnone : ms.countP (Event.takes v m ∘ take) = 0 :=
        List.countP_eq_zero.mpr fun m' _ => by simp [htakes, Ne.symm hv]
      rw [hother v hv, hnone, hold]
      omega
  once := by
    have hno {e : Event Port} (he : e ∈ ms.map take) (m : Mbuf Port) : ¬ e.redistributes m := by
      obtain ⟨m', -, rfl⟩ := List.mem_map.mp he
      exact hred m' m
    rw [hl, List.pairwise_append]
    refine ⟨h.once, ?_, fun _ _ e' he' _ m _ => hno he' m⟩
    exact List.pairwise_of_forall_mem_list fun _ _ e' he' _ m _ => hno he' m
  place v m d hm := by
    rw [hl] at hm
    rcases List.mem_append.mp hm with hold | hnew
    · exact h.place v m d hold
    · obtain ⟨m', -, heq⟩ := List.mem_map.mp hnew
      have hno := hhands m' v m
      rw [heq] at hno
      simp [Event.hands] at hno

theorem receive (h : Ledger cfg s) (hb : (s.workers w).batch = []) (packets : List (Packet Data)) :
    Ledger cfg (receive w packets s) :=
  h.burst (nextFrames w packets.length s) hb (by simp [Dispatch.receive])
    (fun v hv => by simp [Dispatch.receive, hv]) rfl (fun _ _ _ => rfl) (fun _ _ _ => rfl)
    fun _ _ hred => hred

theorem dequeueBurst (h : Ledger cfg s) (hb : (s.workers w).batch = []) :
    Ledger cfg (dequeueBurst w s) :=
  h.burst ((s.rings w).take maxPktBurst) hb (by simp [Dispatch.dequeueBurst])
    (fun v hv => by simp [Dispatch.dequeueBurst, hv]) rfl (fun _ _ _ => rfl) (fun _ _ _ => rfl)
    fun _ _ hred => hred

/-- A worker takes an mbuf once. -/
theorem takes_le (h : Ledger cfg s) (hc : Counts s) (v : Wid Port) (m : Mbuf Port) :
    s.log.countP (Event.takes v m) ≤ 1 := by
  have hone := hc.one m.origin v
  have hhands : s.log.countP (Event.hands v m) ≤ s.log.countP (Event.handsFrame v m.origin) := by
    refine List.countP_mono_left fun e _ he => ?_
    cases e with
    | passed v' m' d =>
        obtain ⟨rfl, rfl⟩ := of_decide_eq_true he
        simp [Event.handsFrame]
    | _ => simp [Event.hands] at he
  have hbatch : (s.workers v).batch.count m ≤
      (s.workers v).batch.countP fun m' => decide (m'.origin = m.origin) := by
    refine List.countP_mono_left fun m' _ hm => ?_
    rw [eq_of_beq hm]
    simp
  have heq := h.taken v m
  simp only [traces] at hone
  omega

end Ledger

/-! ## What the receiver does with a frame for all workers -/

/-- The filter of the worker takes the packet for a frame that every worker gets a copy of. -/
def ForAll (cfg : Config Port Data) (w : Wid Port) (p : Packet Data) : Prop :=
  ∃ r, cfg.protocolFilter w p.data p.dataLen = some r ∧ cfg.forAll r = true

/-- **Without a dispatcher** the filter sees the packet as it is, and a frame for all workers is waiting
or has been input. -/
structure Reads (cfg : Config Port Data) (s : World Port Data) : Prop where
  asRead : ∀ v m len, cfg.packetDispatcher v = false → (s.workers v).phase = .filter len →
    (s.workers v).batch.head? = some m → len = (s.packet m).dataLen
  arrives : ∀ v m, Event.received v m ∈ s.log → cfg.packetDispatcher v = false →
    ForAll cfg v (s.packet m) → m ∈ (s.workers v).batch ∨ .passed v m .vethInput ∈ s.log

namespace Reads

omit [DecidableEq Port] in
theorem init (packet : Mbuf Port → Packet Data) : Reads cfg (World.init packet) := by
  constructor <;> simp [World.init]

theorem setPhase (h : Reads cfg s) {rest : List (Mbuf Port)} {p : Phase}
    (hb : (s.workers w).batch = m :: rest)
    (hp : cfg.packetDispatcher w = false → ∀ len, p = .filter len → len = (s.packet m).dataLen) :
    Reads cfg (setPhase w p s) where
  asRead v m' len hd hphase hhead := by
    rw [setPhase_phase] at hphase
    rw [setPhase_batch] at hhead
    split at hphase
    · rename_i hv
      subst hv
      rw [hb] at hhead
      obtain rfl := Option.some.inj hhead
      exact hp hd len hphase
    · exact h.asRead v m' len hd hphase hhead
  arrives v m' hm hd hall := by
    rw [setPhase_batch]
    exact h.arrives v m' hm hd hall

theorem handOn (h : Reads cfg s) {rest : List (Mbuf Port)} (hb : (s.workers w).batch = m :: rest)
    (hd : d = .vethInput ∨ (cfg.packetDispatcher w = false → ¬ ForAll cfg w (s.packet m))) :
    Reads cfg (handOn w m d s) where
  asRead v m' len hdisp hphase hhead := by
    rw [handOn_phase] at hphase
    rw [handOn_batch] at hhead
    split at hphase
    · cases hphase
    · rename_i hv
      rw [if_neg hv] at hhead
      exact h.asRead v m' len hdisp hphase hhead
  arrives v m' hm hdisp hall := by
    rcases List.mem_append.mp hm with hold | hnew
    · rcases h.arrives v m' hold hdisp hall with hin | hpassed
      · rw [handOn_batch]
        by_cases hv : v = w
        · subst hv
          rw [hb] at hin
          rcases List.mem_cons.mp hin with rfl | htail
          · rcases hd with rfl | hnot
            · exact .inr (List.mem_append_right _ (List.mem_singleton.mpr rfl))
            · exact absurd hall (hnot hdisp)
          · rw [if_pos rfl, hb]
            exact .inl htail
        · rw [if_neg hv]
          exact .inl hin
      · exact .inr (List.mem_append_left _ hpassed)
    · cases List.mem_singleton.mp hnew

omit [DecidableEq Port] in
/-- An event that receives nothing. -/
theorem snoc (h : Reads cfg s) {e : Event Port} (hw : s'.workers = s.workers)
    (hp : s'.packet = s.packet) (hl : s'.log = s.log ++ [e]) (he : ∀ v m, e ≠ .received v m) :
    Reads cfg s' where
  asRead := by
    rw [hw, hp]
    exact h.asRead
  arrives v m hm hd hall := by
    rw [hl] at hm ⊢
    rw [hp] at hall
    rw [hw]
    rcases List.mem_append.mp hm with hold | hnew
    · exact (h.arrives v m hold hd hall).imp_right (List.mem_append_left _)
    · exact absurd (List.mem_singleton.mp hnew).symm (he v m)

variable (s') in
/-- A store to an mbuf that no worker without a dispatcher reads. -/
theorem store (h : Reads cfg s) {p : Packet Data} (hw : s'.workers = s.workers)
    (hp : s'.packet = Function.update s.packet m p) (hl : s'.log = s.log)
    (hbatch : ∀ v, cfg.packetDispatcher v = false → m ∉ (s.workers v).batch)
    (hlog : ∀ v, cfg.packetDispatcher v = false → Event.received v m ∉ s.log) : Reads cfg s' where
  asRead v m' len hd hphase hhead := by
    rw [hw] at hphase hhead
    have hne : m' ≠ m := fun heq => hbatch v hd (heq ▸ List.mem_of_mem_head? hhead)
    rw [hp, Function.update_of_ne hne]
    exact h.asRead v m' len hd hphase hhead
  arrives v m' hm hd hall := by
    rw [hl] at hm ⊢
    have hne : m' ≠ m := fun heq => hlog v hd (heq ▸ hm)
    rw [hp, Function.update_of_ne hne] at hall
    rw [hw]
    exact h.arrives v m' hm hd hall

theorem receive (h : Reads cfg s) (hp : Places cfg s) (hb : (s.workers w).batch = [])
    (packets : List (Packet Data)) : Reads cfg (receive w packets s) where
  asRead v m len hd hphase hhead := by
    by_cases hv : v = w
    · subst hv
      simp [Dispatch.receive] at hphase
    · simp only [Dispatch.receive, Function.update_of_ne hv] at hphase hhead ⊢
      have hframe := (hp.named m (.inl ⟨v, List.mem_of_mem_head? hhead⟩)).1
      rw [if_neg (by omega)]
      exact h.asRead v m len hd hphase hhead
  arrives v m hm hd hall := by
    rcases List.mem_append.mp hm with hold | hnew
    · have hframe := (hp.named m (.inr (.inr ⟨_, hold, by simp [Event.mbufs]⟩))).1
      simp only [Dispatch.receive, if_neg (Nat.not_le.mpr hframe)] at hall
      rcases h.arrives v m hold hd hall with hin | hpassed
      · have hv : v ≠ w := by
          rintro rfl
          rw [hb] at hin
          cases hin
        left
        simpa [Dispatch.receive, hv] using hin
      · exact .inr (List.mem_append_left _ hpassed)
    · obtain ⟨m', hm', heq⟩ := List.mem_map.mp hnew
      obtain ⟨rfl, rfl⟩ := Event.received.inj heq
      left
      simpa [Dispatch.receive] using hm'

theorem dequeueBurst (h : Reads cfg s) (hb : (s.workers w).batch = []) :
    Reads cfg (dequeueBurst w s) where
  asRead v m len hd hphase hhead := by
    by_cases hv : v = w
    · subst hv
      simp [Dispatch.dequeueBurst] at hphase
    · simp only [Dispatch.dequeueBurst, Function.update_of_ne hv] at hphase hhead
      exact h.asRead v m len hd hphase hhead
  arrives v m hm hd hall := by
    rcases List.mem_append.mp hm with hold | hnew
    · rcases h.arrives v m hold hd hall with hin | hpassed
      · have hv : v ≠ w := by
          rintro rfl
          rw [hb] at hin
          cases hin
        left
        simpa [Dispatch.dequeueBurst, hv] using hin
      · exact .inr (List.mem_append_left _ hpassed)
    · obtain ⟨m', -, heq⟩ := List.mem_map.mp hnew
      cases heq

end Reads

end LazyBsd.Dispatch
