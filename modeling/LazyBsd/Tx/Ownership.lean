/-
# LazyBsd.Tx.Ownership — each BSD chain has exactly one owner on the transmit side, and when not.

A chain given by the stack waits in one slot of `bsd_m_table`, or is kept by one slot of a txring, or
was freed. `held s x` counts the places where chain `x` is. Bursts of any size and ring evictions move
chains between places and keep the count. Two steps break it. A dispatcher response reuses a slot of
`m_table` and leaves the old pointer in `bsd_m_table`, so a chain that the ring owns is counted as
waiting again. A failing send sets the length of its table to 0 and forgets the chains that wait there.
The run theorem says that nothing else does.
-/
import LazyBsd.Tx.Queue

namespace LazyBsd.Tx

open Lib

variable {Port : Type*} [DecidableEq Port] [Fintype Port]

/-! ## Counting owners -/

/-- The places of chain `x` on port `p` when the first `n` slots of the table count as waiting. -/
def heldAt (s : TxState Port) (p : Port) (n x : Nat) : Nat :=
  (slots (s.txMbufs p).bsdMTable n).count x + (s.nicTxRing p).kept.count x

/-- The places where chain `x` is: waiting, in a ring, or freed. -/
def held (s : TxState Port) (x : Nat) : Nat :=
  (∑ p, heldAt s p (s.txMbufs p).len x) + s.freed.count x

/-- Every chain given is in exactly one place, and no other chain is anywhere. -/
def Owned (s : TxState Port) : Prop := ∀ x, held s x = if x < s.given then 1 else 0

/-- What the driver keeps true in any case: room in each table, ring heads in range, and no slot, used
or stale, holds a chain that was not given yet. -/
structure TableInv (s : TxState Port) : Prop where
  room : RoomLeft s
  head : ∀ p, (s.nicTxRing p).head < txQueueSize
  old : ∀ p i x, (s.txMbufs p).bsdMTable i = some x → x < s.given

section Pieces

variable {s : TxState Port} {port : Port} {n : Nat}

omit [Fintype Port] in
/-- Only the changed port counts differently. -/
theorem setLen_heldAt_of_ne {q : Port} (hq : q ≠ port) (k x : Nat) :
    heldAt (setLen port n s) q k x = heldAt s q k x := by
  simp [heldAt, setLen, hq]

/-- Storing a length counts that many slots of the table. -/
theorem held_setLen (s : TxState Port) (port : Port) (n x : Nat) :
    held (setLen port n s) x + heldAt s port (s.txMbufs port).len x =
      held s x + heldAt s port n x := by
  have hsum := sum_add_of_eq_off (p := port)
    (a := fun q => heldAt (setLen port n s) q ((setLen port n s).txMbufs q).len x)
    (b := fun q => heldAt s q (s.txMbufs q).len x) (by
      intro q hq
      simp only [setLen_heldAt_of_ne hq]
      simp [setLen, hq])
  have hport : heldAt (setLen port n s) port ((setLen port n s).txMbufs port).len x =
      heldAt s port n x := by
    simp [heldAt, setLen]
  have hfreed : (setLen port n s).freed = s.freed := rfl
  simp only [hport] at hsum
  simp only [held, hfreed]
  omega

/-- A burst of the first `n` slots moves them to the ring and the freed list. -/
theorem held_sendBurst (accepted : Nat) (hhead : (s.nicTxRing port).head < txQueueSize) (x : Nat) :
    held (sendBurst port n accepted s) x =
      held s x + (slots (s.txMbufs port).bsdMTable n).count x := by
  have hburst := (sendBurst_count port n accepted s hhead x).1
  have hsum := sum_add_of_eq_off (p := port)
    (a := fun q => heldAt (sendBurst port n accepted s) q (s.txMbufs q).len x)
    (b := fun q => heldAt s q (s.txMbufs q).len x) (by
      intro q hq
      simp only [heldAt, sendBurst_txMbufs, sendBurst_nicTxRing_of_ne port n accepted s hq])
  simp only [held, heldAt, sendBurst_txMbufs] at hburst hsum ⊢
  omega

/-- A producer that filled slot `n` counts `n + 1` slots from now on, flushed or not. -/
theorem held_flushFull (s : TxState Port) (port : Port) (n accepted : Nat)
    (hhead : (s.nicTxRing port).head < txQueueSize) (x : Nat) :
    held (flushFull port n accepted s) x + heldAt s port (s.txMbufs port).len x =
      held s x + heldAt s port n x := by
  unfold flushFull
  by_cases hfull : n = maxPktBurst
  · subst hfull
    rw [if_pos rfl]
    have hlen := held_setLen (sendBurst port maxPktBurst accepted s) port 0 x
    have hburst := held_sendBurst (n := maxPktBurst) accepted hhead x
    simp only [heldAt, sendBurst_txMbufs, slots_zero, List.count_nil] at hlen ⊢
    omega
  · rw [if_neg hfull]
    exact held_setLen s port n x

omit [Fintype Port] [DecidableEq Port] in
theorem heldAt_succ (p : Port) (x : Nat) :
    heldAt s p (n + 1) x = heldAt s p n x + ((s.txMbufs p).bsdMTable n).toList.count x := by
  simp only [heldAt, slots_succ, List.count_append]
  omega

omit [Fintype Port] in
/-- Storing behind the counted slots does not change what is counted. -/
theorem storeGiven_heldAt (head : Nat) (heap : RteHeap) (mem : Mem) (q : Port) (x : Nat) :
    heldAt (storeGiven port head heap mem s) q ((storeGiven port head heap mem s).txMbufs q).len x =
      heldAt s q (s.txMbufs q).len x := by
  by_cases hq : q = port
  · subst hq
    simp only [heldAt, storeGiven, Function.update_self]
    rw [slots_update_of_le (Nat.le_refl _)]
  · simp [heldAt, storeGiven, hq]

/-- A successful send gives its chain one place. -/
theorem held_storeGiven (accepted head : Nat) (heap : RteHeap) (mem : Mem)
    (hhead : (s.nicTxRing port).head < txQueueSize) (x : Nat) :
    held (flushFull port ((s.txMbufs port).len + 1) accepted (storeGiven port head heap mem s)) x =
      held s x + [s.given].count x := by
  have hflush := held_flushFull (storeGiven port head heap mem s) port ((s.txMbufs port).len + 1)
    accepted hhead x
  have hslot : ((storeGiven port head heap mem s).txMbufs port).bsdMTable (s.txMbufs port).len =
      some s.given := by
    simp [storeGiven]
  have hlen : ((storeGiven port head heap mem s).txMbufs port).len = (s.txMbufs port).len := by
    simp [storeGiven]
  have hstored : held (storeGiven port head heap mem s) x = held s x := by
    simp only [held, storeGiven_heldAt]
    rfl
  rw [heldAt_succ, hslot, hlen, hstored, Option.toList_some] at hflush
  omega

/-- A response counts whatever chain the reused slot still names. -/
theorem held_sendSinglePacket (m accepted : Nat) (hhead : (s.nicTxRing port).head < txQueueSize)
    (x : Nat) :
    held (sendSinglePacket m port accepted s) x =
      held s x + ((s.txMbufs port).bsdMTable (s.txMbufs port).len).toList.count x := by
  have hflush := held_flushFull (storeResponse m port s) port ((s.txMbufs port).len + 1) accepted
    hhead x
  have hbsd : ∀ q, ((storeResponse m port s).txMbufs q).bsdMTable = (s.txMbufs q).bsdMTable ∧
      ((storeResponse m port s).txMbufs q).len = (s.txMbufs q).len := by
    intro q
    by_cases hq : q = port
    · subst hq
      simp [storeResponse]
    · simp [storeResponse, hq]
  have hstored : held (storeResponse m port s) x = held s x := by
    simp only [held, heldAt, hbsd]
    rfl
  rw [heldAt_succ, (hbsd port).1, (hbsd port).2, hstored] at hflush
  unfold sendSinglePacket
  omega

theorem held_drain (accepted : Nat) (hhead : (s.nicTxRing port).head < txQueueSize) (x : Nat) :
    held (drain port accepted s) x = held s x := by
  unfold drain
  by_cases hlen : (s.txMbufs port).len = 0
  · rw [if_pos hlen]
  · rw [if_neg hlen]
    have hset := held_setLen (sendBurst port (s.txMbufs port).len accepted s) port 0 x
    have hburst := held_sendBurst (n := (s.txMbufs port).len) accepted hhead x
    simp only [heldAt, sendBurst_txMbufs, slots_zero, List.count_nil] at hset ⊢
    omega

variable (s port) in
/-- A failing send frees its own chain and forgets those that wait in its table. -/
theorem held_freeGiven (heap : RteHeap) (x : Nat) :
    held (setLen port 0 (freeGiven heap s)) x + (s.txMbufs port).pending.count x =
      held s x + [s.given].count x := by
  have hset := held_setLen (freeGiven heap s) port 0 x
  have hfree : held (freeGiven heap s) x = held s x + [s.given].count x := by
    simp only [held, heldAt, freeGiven, List.count_append]
    omega
  have htab : (freeGiven heap s).txMbufs = s.txMbufs := rfl
  have hring : (freeGiven heap s).nicTxRing = s.nicTxRing := rfl
  simp only [heldAt, htab, hring, hfree, slots_zero, List.count_nil] at hset
  simp only [MbufTable.pending]
  omega

theorem held_setLen_zero (s : TxState Port) (port : Port) (x : Nat) :
    held (setLen port 0 s) x + (s.txMbufs port).pending.count x = held s x := by
  have hset := held_setLen s port 0 x
  simp only [heldAt, slots_zero, List.count_nil] at hset
  simp only [MbufTable.pending]
  omega

end Pieces

/-! ## The invariant of the driver -/

section Invariant

variable {d : Dpdk} {pg : PageArray} {txCsumL4 : Port → Bool} {s s' : TxState Port}
  {a : Action Port}

omit [Fintype Port]

/-- Bursts and new lengths keep ring heads in range and the slots' contents. -/
theorem TableInv.setLen (h : TableInv s) (port : Port) {n : Nat} (hn : n < maxPktBurst) :
    TableInv (setLen port n s) := by
  refine ⟨h.room.setLen port hn, h.head, ?_⟩
  intro p i x hx
  rw [setLen_bsdMTable] at hx
  exact h.old p i x hx

theorem TableInv.sendBurst (h : TableInv s) (port : Port) (n accepted : Nat) :
    TableInv (sendBurst port n accepted s) := by
  refine ⟨h.room, ?_, h.old⟩
  intro p
  by_cases hp : p = port
  · subst hp
    exact (sendBurst_count p n accepted s (h.head p) 0).2
  · rw [sendBurst_nicTxRing_of_ne port n accepted s hp]
    exact h.head p

theorem TableInv.flushFull (h : TableInv s) (port : Port) {n : Nat} (hn : n < maxPktBurst)
    (accepted : Nat) : TableInv (flushFull port (n + 1) accepted s) := by
  unfold Tx.flushFull
  by_cases hfull : n + 1 = maxPktBurst
  · rw [if_pos hfull]
    exact (h.sendBurst port maxPktBurst accepted).setLen port (by decide)
  · rw [if_neg hfull]
    exact h.setLen port (by omega)

/-- A store at the end of a table keeps the invariant if the chain stored was given. -/
theorem TableInv.storeGiven (h : TableInv s) (port : Port) (head : Nat) (heap : RteHeap) (mem : Mem) :
    TableInv (storeGiven port head heap mem s) := by
  refine ⟨h.room.store port rfl, h.head, ?_⟩
  intro p i x hx
  have hgiven : (Tx.storeGiven port head heap mem s).given = s.given + 1 := rfl
  rw [hgiven]
  by_cases hp : p = port
  · subst hp
    simp only [Tx.storeGiven, Function.update_self] at hx
    by_cases hi : i = (s.txMbufs p).len
    · rw [hi, Function.update_self] at hx
      obtain rfl := Option.some.inj hx
      omega
    · rw [Function.update_of_ne hi] at hx
      have := h.old p i x hx
      omega
  · simp only [Tx.storeGiven, Function.update_of_ne hp] at hx
    have := h.old p i x hx
    omega

theorem TableInv.storeResponse (h : TableInv s) (port : Port) (m : Nat) :
    TableInv (storeResponse m port s) := by
  refine ⟨h.room.store port rfl, h.head, ?_⟩
  intro p i x hx
  refine h.old p i x ?_
  by_cases hp : p = port
  · subst hp
    simpa [Tx.storeResponse] using hx
  · simpa [Tx.storeResponse, hp] using hx

omit [DecidableEq Port] in
theorem TableInv.freeGiven (h : TableInv s) (heap : RteHeap) : TableInv (freeGiven heap s) :=
  ⟨h.room, h.head, fun p i x hx => Nat.lt_succ_of_lt (h.old p i x hx)⟩

/-- Every step keeps the invariant. -/
theorem TableInv.step (h : TableInv s) (hstep : step d pg txCsumL4 s a = some s') : TableInv s' := by
  cases a with
  | send port m total accepted =>
      rcases lazybsdDpdkIfSend_cases hstep with
        ⟨_, ⟨_, rfl⟩ | ⟨heap, _, rfl⟩⟩ | ⟨_, head, heap, mem, rfl⟩
      · exact h.setLen port (by decide)
      · exact (h.freeGiven heap).setLen port (by decide)
      · exact (h.storeGiven port head heap mem).flushFull port (h.room port) accepted
  | respond m port accepted =>
      obtain rfl := Option.some.inj hstep
      exact (h.storeResponse port m).flushFull port (h.room port) accepted
  | drain port accepted =>
      obtain rfl := Option.some.inj hstep
      unfold Tx.drain
      split
      · exact h
      · exact (h.sendBurst port (s.txMbufs port).len accepted).setLen port (by decide)
  | elsewhere heap mem =>
      obtain rfl := Option.some.inj hstep
      exact ⟨h.room, h.head, h.old⟩

end Invariant

/-! ## Runs -/

section Runs

variable {d : Dpdk} {pg : PageArray} {txCsumL4 : Port → Bool} {s s' : TxState Port}
  {a : Action Port}

/-- The condition on a step: a send that fails finds no chain waiting in its table, and a response
reuses a slot of `bsd_m_table` that is NULL. -/
def KeepsOwners (d : Dpdk) (pg : PageArray) (s : TxState Port) : Action Port → Prop
  | .send port m _ _ => SendFails d pg s.heap m → (s.txMbufs port).pending = []
  | .respond _ port _ => (s.txMbufs port).bsdMTable (s.txMbufs port).len = none
  | _ => True

/-- A given chain is in the list of chains once. -/
theorem count_given (n x : Nat) :
    (if x < n + 1 then 1 else 0) = (if x < n then 1 else 0) + [n].count x := by
  rw [List.count_singleton]
  by_cases hx : x = n
  · subst hx
    simp
  · have hne : ¬ n = x := fun h => hx h.symm
    simp only [beq_iff_eq, if_neg hne, Nat.add_zero]
    by_cases hlt : x < n
    · rw [if_pos hlt, if_pos (by omega)]
    · rw [if_neg hlt, if_neg (by omega)]

/-- Nothing is lost from a table exactly when nothing waited there. -/
theorem pending_eq_nil_iff {l : List Nat} {a b : Nat → Nat} (h : ∀ x, a x + l.count x = b x) :
    (∀ x, a x = b x) ↔ l = [] := by
  constructor
  · intro heq
    refine List.eq_nil_iff_forall_not_mem.mpr fun x hx => ?_
    have hpos : 0 < l.count x := List.count_pos_iff.mpr hx
    have hx' := h x
    rw [heq x] at hx'
    omega
  · rintro rfl x
    simpa using h x

/-- **The step lemma.** From a state where each chain has one owner, a step leads to such a state
exactly when it meets the condition. -/
theorem step_owned_iff (hinv : TableInv s) (h : Owned s) (hstep : step d pg txCsumL4 s a = some s') :
    Owned s' ↔ KeepsOwners d pg s a := by
  cases a with
  | send port m total accepted =>
      rcases lazybsdDpdkIfSend_cases hstep with
        ⟨hfail, ⟨_, rfl⟩ | ⟨heap, _, rfl⟩⟩ | ⟨hno, head, heap, mem, rfl⟩
      · -- a NULL mbuf: nothing is given, the waiting chains are forgotten
        have hlost := pending_eq_nil_iff
          (fun x => (held_setLen_zero s port x).trans (h x))
        exact ⟨fun hown _ => hlost.mp hown, fun hcond => hlost.mpr (hcond hfail)⟩
      · -- a chain given and freed; the waiting chains are forgotten
        have hlost := pending_eq_nil_iff (l := (s.txMbufs port).pending)
          (a := held (setLen port 0 (freeGiven heap s)))
          (b := fun x => if x < s.given + 1 then 1 else 0) fun x => by
            rw [held_freeGiven, h x, count_given]
        exact ⟨fun hown _ => hlost.mp hown, fun hcond => hlost.mpr (hcond hfail)⟩
      · refine iff_of_true ?_ fun hfail => absurd hfail hno
        intro x
        have hgiven : (flushFull port ((s.txMbufs port).len + 1) accepted
            (storeGiven port head heap mem s)).given = s.given + 1 := by
          unfold flushFull
          split <;> rfl
        rw [held_storeGiven accepted head heap mem (hinv.head port), hgiven, h x, count_given]
  | respond m port accepted =>
      obtain rfl := Option.some.inj hstep
      have hgiven : (sendSinglePacket m port accepted s).given = s.given := by
        unfold sendSinglePacket flushFull
        split <;> rfl
      cases hslot : (s.txMbufs port).bsdMTable (s.txMbufs port).len with
      | none =>
          refine iff_of_true (fun x => ?_) hslot
          rw [held_sendSinglePacket m accepted (hinv.head port), hgiven, h x, hslot]
          rfl
      | some y =>
          -- the slot still names chain `y`, which has an owner already
          refine iff_of_false (fun hown => ?_) (by simp [KeepsOwners, hslot])
          have hy : y < s.given := hinv.old port _ y hslot
          have htwo := hown y
          rw [held_sendSinglePacket m accepted (hinv.head port), hgiven, h y, hslot] at htwo
          simp [hy] at htwo
  | drain port accepted =>
      obtain rfl := Option.some.inj hstep
      refine iff_of_true (fun x => ?_) trivial
      have hgiven : (drain port accepted s).given = s.given := by
        unfold drain
        split <;> rfl
      rw [held_drain accepted (hinv.head port), hgiven]
      exact h x
  | elsewhere heap mem =>
      obtain rfl := Option.some.inj hstep
      exact iff_of_true h trivial

omit [DecidableEq Port] in
/-- One owner each: no chain is freed twice. -/
theorem Owned.freed_nodup (h : Owned s) : s.freed.Nodup := by
  refine List.nodup_iff_count_le_one.mpr fun x => ?_
  have hx := h x
  unfold held at hx
  split at hx <;> omega

variable {t : TxState Port} {ts : List (Transition (TxState Port) (Action Port))}

/-- **One owner for every chain, exactly when no response meets a stale slot and no failing send meets
a waiting chain.** Over any run, from any tables in order: in every state each chain given is in one
place, no chain was freed twice, and every store goes to an index below `MAX_PKT_BURST`, if and only if
each step meets the condition. -/
theorem chains_have_one_owner_iff (hrun : Run (step d pg txCsumL4) s ts t) (hinv : TableInv s)
    (h : Owned s) :
    (∀ tr ∈ ts, Owned tr.after ∧ tr.after.freed.Nodup ∧ RoomLeft tr.before) ↔
      ∀ tr ∈ ts, KeepsOwners d pg tr.before tr.act := by
  have hsteps := hrun.of_mem (fun hI => hI.step) hinv
  have hiff := (hrun.forall_iff (P := Owned) (C := KeepsOwners d pg) (fun hI => hI.step)
    (fun hI hP => step_owned_iff hI hP) hinv h).1
  constructor
  · intro hall
    exact hiff.mp fun tr htr => (hall tr htr).1
  · intro hC tr htr
    have hown := hiff.mpr hC tr htr
    exact ⟨hown, hown.freed_nodup, (hsteps tr htr).1.room⟩

end Runs

/-! ### A chain that is freed twice -/

namespace Sample

omit [DecidableEq Port] in
theorem init_owned (heap : RteHeap) (mem : Mem) : Owned (TxState.init heap mem : TxState Port) := by
  intro x
  simp [held, heldAt, TxState.init, MbufTxring.kept, slots]

omit [DecidableEq Port] [Fintype Port] in
theorem init_tableInv (heap : RteHeap) (mem : Mem) :
    TableInv (TxState.init heap mem : TxState Port) :=
  ⟨fun _ => Nat.zero_lt_succ _, fun _ => Nat.zero_lt_succ _, fun p i x hx => absurd hx (by simp [TxState.init])⟩

/-- The stack sends a packet, the table is drained, the dispatcher answers with frame 7 and the table is
drained again. The NIC accepts no frame of either drain. -/
def sendThenRespond : List (Action Unit) :=
  [.send () (some (packet pageMbuf)) 60 0, .drain () 0, .respond 7 () 0, .drain () 0]

end Sample

theorem chains_have_one_owner_sendThenRespond :
    ∃ r, exec (step (Sample.dpdk fun _ => true) Sample.pages fun _ => false)
        (.init Sample.heap Sample.mem : TxState Unit) Sample.sendThenRespond = some r ∧
      ((∀ tr ∈ r.1, Owned tr.after ∧ tr.after.freed.Nodup ∧ RoomLeft tr.before) ↔
        ∀ tr ∈ r.1, KeepsOwners (Sample.dpdk fun _ => true) Sample.pages tr.before tr.act) := by
  obtain ⟨r, hr⟩ := Option.isSome_iff_exists.mp (by decide :
    (exec (step (Sample.dpdk fun _ => true) Sample.pages fun _ => false)
      (.init Sample.heap Sample.mem : TxState Unit) Sample.sendThenRespond).isSome = true)
  exact ⟨r, hr, chains_have_one_owner_iff (Run.of_exec hr) (Sample.init_tableInv _ _)
    (Sample.init_owned _ _)⟩

/-- The NIC rejects the stack's packet, so its chain is freed; the response in the same slot is
rejected too and the chain is freed again. -/
theorem response_frees_chain_twice :
    ¬ ∀ (ts : List (Transition (TxState Unit) (Action Unit))) (t : TxState Unit),
      Run (step (Sample.dpdk fun _ => true) Sample.pages fun _ => false)
        (.init Sample.heap Sample.mem) ts t →
        ∀ tr ∈ ts, Owned tr.after ∧ tr.after.freed.Nodup ∧ RoomLeft tr.before := by
  intro hclaim
  obtain ⟨r, hr⟩ := Option.isSome_iff_exists.mp (by decide :
    (exec (step (Sample.dpdk fun _ => true) Sample.pages fun _ => false)
      (.init Sample.heap Sample.mem : TxState Unit) Sample.sendThenRespond).isSome = true)
  have hend : (exec (step (Sample.dpdk fun _ => true) Sample.pages fun _ => false)
      (.init Sample.heap Sample.mem : TxState Unit) Sample.sendThenRespond).map
        (fun r => r.2.freed) = some [0, 0] := by
    decide
  rw [hr] at hend
  have hfreed : r.2.freed = [0, 0] := by simpa using hend
  have hrun := Run.of_exec hr
  have hlast : Owned r.2 :=
    (hrun.forall_iff (P := Owned) (fun hI => hI.step) (fun hI hP => step_owned_iff hI hP)
      (Sample.init_tableInv _ _) (Sample.init_owned _ _)).2 fun tr htr => (hclaim _ _ hrun tr htr).1
  have hnodup := hlast.freed_nodup
  rw [hfreed] at hnodup
  exact absurd hnodup (by decide)

end LazyBsd.Tx
