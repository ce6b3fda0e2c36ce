/-
# LazyBsd.Tx.Deadline — how long a frame waits in a transmit table.

`main_loop` reads the time stamp once at the top of each iteration. When `drain_tsc` cycles have passed
since the last drain, it empties the table of every port it transmits on; otherwise the tables wait for a
later iteration, or for the store that fills them. The transmit side is that of `Tx.Queue`, and whatever
the rest of an iteration does (timers before the drain, received packets, messages and the user's function
behind it) is a row of its actions.
-/
import LazyBsd.Tx.Conservation

namespace LazyBsd.Tx

open Lib

/-! ## The loop -/

/-- `BURST_TX_DRAIN_US` and `US_PER_S`. -/
def burstTxDrainUs : UInt32 := 100
def usPerS : UInt64 := 1000000

/-- What `lazybsd_dpdk_init` makes of the configured delay. -/
def pktTxDelay (configured : UInt32) : UInt32 :=
  if configured > burstTxDrainUs then burstTxDrainUs else configured

/-- `drain_tsc`, where `hz` is the rate of the time stamp. -/
def drainTsc (hz : UInt64) (delay : UInt32) : UInt64 :=
  if delay ≠ 0 then (hz + usPerS - 1) / usPerS * delay.toUInt64 else 0

/-- `drain_tsc`, and the first `nb_tx_port` ports of `tx_port_id`. -/
structure LoopCfg (Port : Type*) where
  drainTsc : UInt64
  txPortId : List Port

/-- Is the drain of the iteration still to come? -/
inductive LoopPhase
  | head
  | body
deriving DecidableEq, Repr

structure LoopState (Port : Type*) where
  tx : TxState Port
  prevTsc : UInt64
  curTsc : UInt64
  phase : LoopPhase

/-- In front of the loop; the first iteration starts with the first stamp. -/
def LoopState.init {Port : Type*} (tx : TxState Port) : LoopState Port := ⟨tx, 0, 0, .body⟩

/-- `cur_tsc = rte_rdtsc()`, the block under `TX burst queue drain` with what the bursts of the ports
accept, and anything else. -/
inductive LoopAction (Port : Type*)
  | read (tsc : UInt64)
  | drain (accepted : Port → Nat)
  | work (a : Action Port)

section Grows

variable {Port : Type*} {s s' : TxState Port}

/-- Frames are only added at the end, to those stored and to those handed over. -/
def Grows (s s' : TxState Port) : Prop := ∀ p, s.stored p <+: s'.stored p ∧ s.handed p <+: s'.handed p

theorem Grows.refl (s : TxState Port) : Grows s s := fun _ => ⟨List.prefix_rfl, List.prefix_rfl⟩

theorem Grows.trans {s'' : TxState Port} (h : Grows s s') (h' : Grows s' s'') : Grows s s'' := fun p =>
  ⟨(h p).1.trans (h' p).1, (h p).2.trans (h' p).2⟩

end Grows

variable {Port : Type*} [DecidableEq Port]

/-- The loop over `tx_port_id`. -/
def drainPorts (accepted : Port → Nat) (ports : List Port) (s : TxState Port) : TxState Port :=
  ports.foldl (fun s port => drain port (accepted port) s) s

/-- One step of the loop. The time stamp does not go back, and only the loop drains. -/
def loopStep (d : Dpdk) (pg : PageArray) (txCsumL4 : Port → Bool) (cfg : LoopCfg Port)
    (s : LoopState Port) : LoopAction Port → Option (LoopState Port)
  | .read tsc =>
      if s.phase = .body ∧ s.curTsc ≤ tsc then some { s with curTsc := tsc, phase := .head } else none
  | .drain accepted =>
      if s.phase = .head then
        if s.curTsc - s.prevTsc ≥ cfg.drainTsc then
          some { s with tx := drainPorts accepted cfg.txPortId s.tx, prevTsc := s.curTsc, phase := .body }
        else some { s with phase := .body }
      else none
  | .work a =>
      match a with
      | .drain _ _ => none
      | a => (step d pg txCsumL4 s.tx a).map fun tx => { s with tx := tx }

/-- The condition of `Tx.Conservation`: a send that fails finds its table empty. -/
def WorkKeepsTables (d : Dpdk) (pg : PageArray) (s : LoopState Port) : LoopAction Port → Prop
  | .work a => FailsOnEmptyTable d pg s.tx a
  | _ => True

def LoopAction.isDrain : LoopAction Port → Bool
  | .drain _ => true
  | _ => false

/-! ## What one step does to the frames of a port -/

section Steps

variable {d : Dpdk} {pg : PageArray} {txCsumL4 : Port → Bool} {s s' : TxState Port} {p q : Port}
  {a : Action Port}

theorem prefix_update {α : Type*} (f : Port → List α) (l : List α) (p q : Port) :
    f q <+: Function.update f p (f p ++ l) q := by
  by_cases hq : q = p
  · subst hq
    rw [Function.update_self]
    exact List.prefix_append _ _
  · rw [Function.update_of_ne hq]

theorem grows_sendBurst (port : Port) (n accepted : Nat) (s : TxState Port) :
    Grows s (sendBurst port n accepted s) := fun p => by
  rw [sendBurst_stored, sendBurst_handed]
  exact ⟨List.prefix_rfl, prefix_update _ _ _ _⟩

theorem grows_setLen (port : Port) (n : Nat) (s : TxState Port) : Grows s (setLen port n s) := fun _ =>
  ⟨List.prefix_rfl, List.prefix_rfl⟩

theorem grows_flushFull (port : Port) (n accepted : Nat) (s : TxState Port) :
    Grows s (flushFull port n accepted s) := by
  unfold flushFull
  split
  · exact (grows_sendBurst port maxPktBurst accepted s).trans (grows_setLen _ _ _)
  · exact grows_setLen _ _ _

theorem grows_drain (port : Port) (accepted : Nat) (s : TxState Port) :
    Grows s (drain port accepted s) := by
  unfold drain
  split
  · exact .refl s
  · exact (grows_sendBurst port _ accepted s).trans (grows_setLen _ _ _)

theorem grows_step (h : step d pg txCsumL4 s a = some s') : Grows s s' := by
  cases a with
  | send port m total accepted =>
      rcases lazybsdDpdkIfSend_cases h with
        ⟨_, ⟨_, rfl⟩ | ⟨heap, _, rfl⟩⟩ | ⟨_, head, heap, mem, rfl⟩
      · exact grows_setLen _ _ _
      · exact grows_setLen port 0 (freeGiven heap s)
      · have hstore : Grows s (storeGiven port head heap mem s) := fun _ =>
          ⟨prefix_update _ _ _ _, List.prefix_rfl⟩
        exact hstore.trans (grows_flushFull _ _ _ _)
  | respond m port accepted =>
      obtain rfl := Option.some.inj h
      have hstore : Grows s (storeResponse m port s) := fun _ =>
        ⟨prefix_update _ _ _ _, List.prefix_rfl⟩
      exact hstore.trans (grows_flushFull _ _ _ _)
  | drain port accepted =>
      obtain rfl := Option.some.inj h
      exact grows_drain _ _ _
  | elsewhere heap mem =>
      obtain rfl := Option.some.inj h
      exact fun _ => ⟨List.prefix_rfl, List.prefix_rfl⟩

theorem drain_stored (port : Port) (accepted : Nat) (s : TxState Port) :
    (drain port accepted s).stored = s.stored := by
  unfold drain
  split <;> rfl

/-- Everything stored for the port is handed over. -/
theorem drain_handed (accepted : Nat) (h : Conserved s) :
    (drain p accepted s).handed p = s.stored p := by
  have hcons : Conserved (drain p accepted s) := drain_conserved accepted h
  have hp := hcons p
  rw [ConservedAt, drain_len, List.range_zero, List.map_nil, List.append_nil, drain_stored] at hp
  exact hp.symm

/-- **A due drain hands over every frame that waits on a port of the loop.** -/
theorem drainPorts_handed (accepted : Port → Nat) (ports : List Port) (h : Conserved s) :
    Conserved (drainPorts accepted ports s) ∧ (drainPorts accepted ports s).stored = s.stored ∧
      Grows s (drainPorts accepted ports s) ∧
      ∀ p ∈ ports, (drainPorts accepted ports s).handed p = s.stored p := by
  induction ports generalizing s with
  | nil => exact ⟨h, rfl, .refl s, by simp⟩
  | cons port ports ih =>
      have hone : Conserved (drain port (accepted port) s) := drain_conserved (accepted port) h
      obtain ⟨hcons, hstored, hgrows, hhanded⟩ := ih hone
      rw [drain_stored] at hstored hhanded
      refine ⟨hcons, hstored, (grows_drain _ _ _).trans hgrows, fun p hp => ?_⟩
      by_cases hmem : p ∈ ports
      · exact hhanded p hmem
      · obtain rfl := (List.mem_cons.mp hp).resolve_right hmem
        -- the drains of the other ports leave what this one handed over
        have hgrown := (hgrows p).2
        rw [drain_handed (accepted p) h] at hgrown
        have hlaw := hcons p
        rw [ConservedAt] at hlaw
        have hle : (drainPorts accepted (p :: ports) s).handed p <+: s.stored p := by
          rw [← hstored, hlaw]
          exact List.prefix_append _ _
        exact hle.eq_of_length_le hgrown.length_le

end Steps

/-! ## The deadline -/

section Deadline

variable {d : Dpdk} {pg : PageArray} {txCsumL4 : Port → Bool} {cfg : LoopCfg Port}
  {s s' t : LoopState Port} {a : LoopAction Port} {p : Port}
  {ts : List (Transition (LoopState Port) (LoopAction Port))}

/-- The stamps are in order, and no frame is lost. -/
structure LoopInv (s : LoopState Port) : Prop where
  stamps : s.prevTsc ≤ s.curTsc
  conserved : Conserved s.tx

omit [DecidableEq Port] in
theorem LoopInv.init {tx : TxState Port} (h : Conserved tx) : LoopInv (LoopState.init tx) :=
  ⟨UInt64.le_refl 0, h⟩

/-- **What a step can be.** -/
theorem loopStep_cases (h : loopStep d pg txCsumL4 cfg s a = some s') :
    (∃ tsc, a = .read tsc ∧ s.curTsc ≤ tsc ∧ s' = { s with curTsc := tsc, phase := .head }) ∨
      (∃ accepted, a = .drain accepted ∧ s.phase = .head ∧ cfg.drainTsc ≤ s.curTsc - s.prevTsc ∧
        s' = { s with tx := drainPorts accepted cfg.txPortId s.tx, prevTsc := s.curTsc, phase := .body }) ∨
      (∃ accepted, a = .drain accepted ∧ s.phase = .head ∧ s.curTsc - s.prevTsc < cfg.drainTsc ∧
        s' = { s with phase := .body }) ∨
      ∃ b tx, a = .work b ∧ step d pg txCsumL4 s.tx b = some tx ∧ s' = { s with tx := tx } := by
  cases a with
  | read tsc =>
      obtain ⟨⟨-, hle⟩, hs⟩ := Option.ite_none_right_eq_some.mp h
      exact .inl ⟨tsc, rfl, hle, (Option.some.inj hs).symm⟩
  | drain accepted =>
      obtain ⟨hphase, hs⟩ := Option.ite_none_right_eq_some.mp h
      split at hs
      · rename_i hdue
        exact .inr (.inl ⟨accepted, rfl, hphase, hdue, (Option.some.inj hs).symm⟩)
      · rename_i hearly
        exact .inr (.inr (.inl ⟨accepted, rfl, hphase, UInt64.not_le.mp hearly, (Option.some.inj hs).symm⟩))
  | work b =>
      have hb : ∃ tx, step d pg txCsumL4 s.tx b = some tx ∧ s' = { s with tx := tx } := by
        cases b with
        | drain port accepted => exact absurd h.symm (Option.some_ne_none _)
        | _ =>
            simp only [loopStep] at h
            obtain ⟨tx, htx, hs⟩ := Option.map_eq_some_iff.mp h
            exact ⟨tx, htx, hs.symm⟩
      obtain ⟨tx, htx, hs⟩ := hb
      exact .inr (.inr (.inr ⟨b, tx, rfl, htx, hs⟩))

theorem LoopInv.step (h : LoopInv s) (hkeeps : WorkKeepsTables d pg s a)
    (hstep : loopStep d pg txCsumL4 cfg s a = some s') : LoopInv s' ∧ Grows s.tx s'.tx := by
  rcases loopStep_cases hstep with ⟨tsc, rfl, hle, rfl⟩ | ⟨accepted, rfl, -, -, rfl⟩ |
    ⟨accepted, rfl, -, -, rfl⟩ | ⟨b, tx, rfl, htx, rfl⟩
  · exact ⟨⟨UInt64.le_trans h.stamps hle, h.conserved⟩, .refl _⟩
  · obtain ⟨hcons, -, hgrows, -⟩ := drainPorts_handed accepted cfg.txPortId h.conserved
    exact ⟨⟨UInt64.le_refl _, hcons⟩, hgrows⟩
  · exact ⟨⟨h.stamps, h.conserved⟩, .refl _⟩
  · exact ⟨⟨h.stamps, (step_conserved_iff h.conserved htx).mpr hkeeps⟩, grows_step htx⟩

/-- What a later state `t` of a run owes to the frames that were stored in `s`: they are handed over, or no
drain was due since. -/
structure Due (cfg : LoopCfg Port) (p : Port) (s : LoopState Port)
    (ts : List (Transition (LoopState Port) (LoopAction Port))) (t : LoopState Port) : Prop where
  inv : LoopInv t
  grows : Grows s.tx t.tx
  stamps : s.curTsc ≤ t.curTsc
  due : s.tx.stored p <+: t.tx.handed p ∨
    t.prevTsc ≤ s.curTsc ∧
      (t.phase = .body → (∃ tr ∈ ts, tr.act.isDrain = true) → t.curTsc - s.curTsc < cfg.drainTsc)

theorem sub_le_sub {a b c : UInt64} (hab : a ≤ b) (hbc : b ≤ c) : c - b ≤ c - a := by
  have hac := UInt64.le_trans hab hbc
  rw [UInt64.le_iff_toNat_le] at *
  rw [UInt64.toNat_sub_of_le _ _ hbc, UInt64.toNat_sub_of_le _ _ hac]
  omega

/-- **One step keeps the account.** -/
theorem Due.step (hp : p ∈ cfg.txPortId) (h : Due cfg p s ts t) (hkeeps : WorkKeepsTables d pg t a)
    (hstep : loopStep d pg txCsumL4 cfg t a = some s') : Due cfg p s (ts ++ [⟨t, a, s'⟩]) s' := by
  obtain ⟨hinv, hgrows⟩ := h.inv.step hkeeps hstep
  rcases loopStep_cases hstep with ⟨tsc, rfl, hle, rfl⟩ | ⟨accepted, rfl, -, hdue, rfl⟩ |
    ⟨accepted, rfl, -, hearly, rfl⟩ | ⟨b, tx, rfl, htx, rfl⟩
  · refine ⟨hinv, h.grows, UInt64.le_trans h.stamps hle, h.due.imp_right fun hwait => ?_⟩
    exact ⟨hwait.1, fun hphase => LoopPhase.noConfusion hphase⟩
  · -- a due drain
    refine ⟨hinv, h.grows.trans hgrows, h.stamps, .inl ?_⟩
    obtain ⟨-, -, -, hhanded⟩ := drainPorts_handed accepted cfg.txPortId h.inv.conserved
    show s.tx.stored p <+: (drainPorts accepted cfg.txPortId t.tx).handed p
    rw [hhanded p hp]
    exact (h.grows p).1
  · -- too early for a drain, the more so for the frames
    refine ⟨hinv, h.grows, h.stamps, h.due.imp_right fun hwait => ⟨hwait.1, fun _ _ => ?_⟩⟩
    exact UInt64.lt_of_le_of_lt (sub_le_sub hwait.1 h.stamps) hearly
  · refine ⟨hinv, h.grows.trans hgrows, h.stamps, ?_⟩
    rcases h.due with hhanded | ⟨hprev, hwait⟩
    · exact .inl (hhanded.trans (hgrows p).2)
    · refine .inr ⟨hprev, fun hphase hdrain => hwait hphase ?_⟩
      obtain ⟨tr, htr, hisdrain⟩ := hdrain
      rcases List.mem_append.mp htr with hold | hnew
      · exact ⟨tr, hold, hisdrain⟩
      · rw [List.mem_singleton.mp hnew] at hisdrain
        exact absurd hisdrain Bool.false_ne_true

theorem due_run (hp : p ∈ cfg.txPortId) (hrun : Run (loopStep d pg txCsumL4 cfg) s ts t)
    (hs : LoopInv s) (hkeeps : ∀ tr ∈ ts, WorkKeepsTables d pg tr.before tr.act) : Due cfg p s ts t := by
  induction hrun with
  | nil => exact ⟨hs, .refl _, UInt64.le_refl _, .inr ⟨hs.stamps, by simp⟩⟩
  | snoc hrun hstep ih =>
      obtain ⟨hpre, hlast⟩ := List.forall_mem_append.mp hkeeps
      exact (ih hpre).step hp (hlast _ (List.mem_singleton_self _)) hstep

/-- The drain interval is at most a hundred microseconds, with the cycles of a microsecond rounded up. -/
theorem drainTsc_le (hz : UInt64) (configured : UInt32) (hhz : hz.toNat + 1000000 < 2 ^ 64) :
    (drainTsc hz (pktTxDelay configured)).toNat ≤ (hz.toNat + 999999) / 1000000 * 100 := by
  have hdelay : (pktTxDelay configured).toNat ≤ 100 := by
    unfold pktTxDelay
    split
    · exact Nat.le_refl _
    · rename_i hle
      exact UInt32.le_iff_toNat_le.mp (UInt32.not_lt.mp hle)
  unfold drainTsc
  split
  · have hsum : (hz + usPerS - 1).toNat = hz.toNat + 999999 := by
      have hadd : (hz + usPerS).toNat = hz.toNat + 1000000 := by
        rw [UInt64.toNat_add, Nat.mod_eq_of_lt (show hz.toNat + usPerS.toNat < 2 ^ 64 from hhz)]
        rfl
      have htoNat : (1 : UInt64).toNat = 1 := rfl
      have hone : (1 : UInt64) ≤ hz + usPerS := by
        rw [UInt64.le_iff_toNat_le, hadd, htoNat]
        omega
      rw [UInt64.toNat_sub_of_le _ _ hone, hadd, htoNat]
      omega
    rw [UInt64.toNat_mul, UInt64.toNat_div, hsum, UInt32.toNat_toUInt64]
    exact (Nat.mod_le _ _).trans (Nat.mul_le_mul_left _ hdelay)
  · exact Nat.zero_le _

/-- **A frame waits less than `drain_tsc` and the iteration that follows.** Take any state that the loop
comes to and any later one whose iteration has passed its drain, where the stamps of the two iterations are
`drain_tsc` or more apart: every frame that was stored for a port of the loop by then has been handed to
`rte_eth_tx_burst`, in the order of the stores. (A send that fails must find its table empty, else it drops
the frames that wait.) -/
theorem frames_meet_deadline {tx : TxState Port}
    {ts₀ : List (Transition (LoopState Port) (LoopAction Port))}
    (htx : Conserved tx) (hrun₀ : Run (loopStep d pg txCsumL4 cfg) (LoopState.init tx) ts₀ s)
    (hrun : Run (loopStep d pg txCsumL4 cfg) s ts t)
    (hkeeps : ∀ tr ∈ ts₀ ++ ts, WorkKeepsTables d pg tr.before tr.act)
    (hdrain : ∃ tr ∈ ts, tr.act.isDrain = true) (hbody : t.phase = .body)
    (hlate : cfg.drainTsc ≤ t.curTsc - s.curTsc) (hp : p ∈ cfg.txPortId) :
    s.tx.stored p <+: t.tx.handed p := by
  obtain ⟨hkeeps₀, hkeeps⟩ := List.forall_mem_append.mp hkeeps
  have hs : LoopInv s := (due_run hp hrun₀ (.init htx) hkeeps₀).inv
  rcases (due_run hp hrun hs hkeeps).due with hhanded | ⟨-, hwait⟩
  · exact hhanded
  · exact absurd (hwait hbody hdrain) (UInt64.not_lt.mpr hlate)

end Deadline

namespace Sample

/-- A drain every thousand cycles. -/
def loopCfg : LoopCfg Unit := ⟨1000, [()]⟩

/-- A response is queued in the iteration of stamp 5000, just after its drain. -/
def queued : List (LoopAction Unit) := [.read 5000, .drain fun _ => 0, .work (.respond 7 () 0)]

/-- The next iteration comes too early, the one after it is due. -/
def waited : List (LoopAction Unit) := [.read 5500, .drain fun _ => 1, .read 6600, .drain fun _ => 1]

end Sample

theorem frames_meet_deadline_waited :
    ∃ r₀ r, exec (loopStep Sample.scarce Sample.pages (fun _ => false) Sample.loopCfg)
        (.init (.init Sample.heap Sample.mem)) Sample.queued = some r₀ ∧
      exec (loopStep Sample.scarce Sample.pages (fun _ => false) Sample.loopCfg) r₀.2 Sample.waited =
        some r ∧ r₀.2.tx.stored () = [7] ∧ [7] <+: r.2.tx.handed () := by
  have hends : ((exec (loopStep Sample.scarce Sample.pages (fun _ => false) Sample.loopCfg)
      (.init (.init Sample.heap Sample.mem)) Sample.queued).bind fun r₀ =>
        (exec (loopStep Sample.scarce Sample.pages (fun _ => false) Sample.loopCfg) r₀.2
          Sample.waited).map fun r =>
            (r₀.2.tx.stored (), r₀.2.curTsc, r.2.curTsc, r.2.phase)) =
      some ([7], 5000, 6600, .body) := by
    decide
  obtain ⟨r₀, h₀, hmap⟩ := Option.bind_eq_some_iff.mp hends
  obtain ⟨r, h, hvalues⟩ := Option.map_eq_some_iff.mp hmap
  simp only [Prod.mk.injEq] at hvalues
  obtain ⟨hstored, hcur₀, hcur, hphase⟩ := hvalues
  refine ⟨r₀, r, h₀, h, hstored, ?_⟩
  have hacts : (r₀.1 ++ r.1).map Transition.act = Sample.queued ++ Sample.waited := by
    rw [List.map_append, exec_acts h₀, exec_acts h]
  have hkeeps : ∀ tr ∈ r₀.1 ++ r.1, WorkKeepsTables Sample.scarce Sample.pages tr.before tr.act := by
    intro tr htr
    have hmem : tr.act ∈ Sample.queued ++ Sample.waited := hacts ▸ List.mem_map_of_mem htr
    simp only [Sample.queued, Sample.waited, List.cons_append, List.nil_append, List.mem_cons,
      List.not_mem_nil, or_false] at hmem
    rcases hmem with hact | hact | hact | hact | hact | hact | hact <;> rw [hact] <;> trivial
  have hdrain : ∃ tr ∈ r.1, tr.act.isDrain = true := by
    have hmem : LoopAction.drain (fun _ => 1) ∈ r.1.map Transition.act := by
      rw [exec_acts h]
      exact List.mem_cons_of_mem _ List.mem_cons_self
    obtain ⟨tr, htr, hact⟩ := List.mem_map.mp hmem
    exact ⟨tr, htr, by rw [hact]; rfl⟩
  have hlate : Sample.loopCfg.drainTsc ≤ r.2.curTsc - r₀.2.curTsc := by
    rw [hcur, hcur₀]
    decide
  have hall := frames_meet_deadline (p := ()) (Sample.init_conserved _ _) (Run.of_exec h₀) (Run.of_exec h)
    hkeeps hdrain hphase hlate List.mem_cons_self
  rwa [hstored] at hall

end LazyBsd.Tx
