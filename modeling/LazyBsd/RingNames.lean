/-
# LazyBsd.RingNames — the rings that several processes share, and the names they find them by.

The primary process creates the dispatch rings and the message rings; every other process looks them up.
All that joins the two sides is a name that both format from their configuration. The ring library is a
parameter: `rte_ring_create` and `rte_ring_lookup`, with the rules of `Lib.Rendezvous`. So is
`rte_zmalloc`, which gives `NULL` for a request of no bytes.
-/
import LazyBsd.Lcore
import LazyBsd.Lib.Numeral
import LazyBsd.Lib.Rendezvous
import LazyBsd.Lib.Strings

namespace LazyBsd.RingNames

open LazyBsd.Lib
open LazyBsd.Lib.Rendezvous
open LazyBsd.Lcore (DpdkCfg dpdkMaxLcore)

/-! ## The two tables and their names -/

/-- `rte_eal_process_type`. -/
inductive ProcType
  | primary
  | secondary
deriving DecidableEq, Repr

/-- A pointer to a ring: `dispatch_ring[portid][queueid]` or `msg_ring[i].ring[j]`. -/
inductive Slot
  | dispatchRing (portid : UInt16) (queueid : Nat)
  | msgRing (i j : Nat)
deriving DecidableEq, Repr

def lazybsdSysctl : Nat := 1
def lazybsdMsgNum : Nat := 10

/-- `%d` and `%u` of a number that is not negative. -/
def decimal (n : Nat) : List Char := numeral Nat.digitChar 10 n

/-- `snprintf(buf, size, …)`: the last place is for the terminator. -/
def snprintf (size : Nat) (text : List Char) : List Char := text.take (size - 1)

def dispatchRingP : List Char := "dispatch_ring_p".toList
def dispatchRingQ : List Char := "_q".toList
def lazybsdMsgRingIn : List Char := "lazybsd_msg_ring_in_".toList
def lazybsdMsgRingOut : List Char := "lazybsd_msg_ring_out_".toList

/-- `"dispatch_ring_p%d_q%d"`. -/
def dispatchRingText (portid : UInt16) (queueid : Nat) : List Char :=
  dispatchRingP ++ decimal portid.toNat ++ dispatchRingQ ++ decimal queueid

/-- `"%s%u"`. -/
def msgRingInText (i : Nat) : List Char := lazybsdMsgRingIn ++ decimal i

/-- `"%s%u_%u"`. -/
def msgRingOutText (i j : Nat) : List Char := lazybsdMsgRingOut ++ decimal i ++ ['_'] ++ decimal j

/-! ## `create_ring` and the two loops

A process that cannot have a ring ends itself; this is `none`. -/

section Rings

variable {ρ σ : Type*} (g : Registry (List Char) ρ σ) (size : Nat)

def createRing (p : ProcType) (name : List Char) (s : σ) : Option (ρ × σ) :=
  match p with
  | .primary => g.create name s
  | .secondary => (g.lookup name s).map fun ring => (ring, s)

/-- The name goes into a buffer of `RTE_RING_NAMESIZE`, and the ring of that name into the table. -/
def openRing (p : ProcType) (slot : Slot) (text : List Char) (w : (Slot → Option ρ) × σ) :
    Option ((Slot → Option ρ) × σ) :=
  (createRing g p (snprintf size text) w.2).map fun r => (Function.update w.1 slot (some r.1), r.2)

/-- `zmalloc` says for each port whether `rte_zmalloc` has that many bytes for its pointers; `arrays` are
the ports whose `dispatch_ring[portid]` is set. -/
def openArray (zmalloc : UInt16 → Nat → Bool) (arrays : UInt16 → Bool) (portid : UInt16)
    (nbQueues : Nat) : Option (UInt16 → Bool) :=
  if arrays portid then some arrays
  else if zmalloc portid (8 * nbQueues) then some (Function.update arrays portid true)
  else none

def initDispatchRing (zmalloc : UInt16 → Nat → Bool) (p : ProcType) (cfg : DpdkCfg)
    (w : (Slot → Option ρ) × σ) : Option ((Slot → Option ρ) × σ) :=
  (cfg.portidList.foldlM (fun (st : (UInt16 → Bool) × ((Slot → Option ρ) × σ)) portid =>
    (openArray zmalloc st.1 portid (cfg.portCfgs portid).nbLcores).bind fun arrays =>
      ((List.range (cfg.portCfgs portid).nbLcores).foldlM (fun w queueid =>
        openRing g size p (.dispatchRing portid queueid) (dispatchRingText portid queueid) w) st.2).map
          fun w => (arrays, w)) (fun _ => false, w)).map Prod.snd

/-- `nb_procs` is read into a `uint16_t`. -/
def nbProcs (cfg : DpdkCfg) : Nat := (UInt16.ofNat cfg.procLcore.length).toNat

def initMsgRing (p : ProcType) (cfg : DpdkCfg) (w : (Slot → Option ρ) × σ) :
    Option ((Slot → Option ρ) × σ) :=
  (List.range (nbProcs cfg)).foldlM (fun w i =>
    (openRing g size p (.msgRing i 0) (msgRingInText i) w).bind fun w =>
      (List.range' lazybsdSysctl (lazybsdMsgNum - lazybsdSysctl)).foldlM (fun w j =>
        openRing g size p (.msgRing i j) (msgRingOutText i j) w) w) w

/-- What `lazybsd_dpdk_init` does of it. -/
def initRings (zmalloc : UInt16 → Nat → Bool) (p : ProcType) (cfg : DpdkCfg)
    (w : (Slot → Option ρ) × σ) : Option ((Slot → Option ρ) × σ) :=
  (initDispatchRing g size zmalloc p cfg w).bind (initMsgRing g size p cfg)

end Rings

/-! ## The slots of a configuration -/

def Slot.text : Slot → List Char
  | .dispatchRing portid queueid => dispatchRingText portid queueid
  | .msgRing i j => if j = 0 then msgRingInText i else msgRingOutText i j

def dispatchSlots (cfg : DpdkCfg) : List Slot :=
  cfg.portidList.flatMap fun portid =>
    (List.range (cfg.portCfgs portid).nbLcores).map (.dispatchRing portid)

def msgSlots (cfg : DpdkCfg) : List Slot :=
  (List.range (nbProcs cfg)).flatMap fun i => (List.range lazybsdMsgNum).map (.msgRing i)

/-- In the order of the loops. -/
def slots (cfg : DpdkCfg) : List Slot := dispatchSlots cfg ++ msgSlots cfg

/-- The numbers that a configuration can lead to. -/
def Slot.Fits : Slot → Prop
  | .dispatchRing _ queueid => queueid < dpdkMaxLcore
  | .msgRing i j => i < 2 ^ 16 ∧ j < lazybsdMsgNum

theorem fits_of_mem {cfg : DpdkCfg} {k : Slot} (h : k ∈ slots cfg) : k.Fits := by
  rcases List.mem_append.mp h with hd | hm
  · obtain ⟨portid, -, hq⟩ := List.mem_flatMap.mp hd
    obtain ⟨queueid, hlt, rfl⟩ := List.mem_map.mp hq
    exact (List.mem_range.mp hlt).trans_le (cfg.portCfgs portid).fits
  · obtain ⟨i, hi, hj⟩ := List.mem_flatMap.mp hm
    obtain ⟨j, hlt, rfl⟩ := List.mem_map.mp hj
    exact ⟨(List.mem_range.mp hi).trans (UInt16.toNat_lt _), List.mem_range.mp hlt⟩

/-! ## Names -/

def digitValue (c : Char) : Nat := c.toNat - 48

theorem digitValue_digitChar : ∀ d < 10, digitValue (Nat.digitChar d) = d := by decide

theorem decimal_injective : Function.Injective decimal :=
  numeral_injective (by omega) digitValue_digitChar

theorem underscore_notMem_decimal (n : Nat) : '_' ∉ decimal n := fun h => by
  obtain ⟨d, hd, heq⟩ := mem_numeral (by omega) h
  have hno : ∀ d < 10, '_' ≠ Nat.digitChar d := by decide
  exact hno d hd heq

/-- Two numbers with an underscore between them can be told apart. -/
theorem decimal_pair {a b a' b' : Nat} {s : List Char}
    (h : decimal a ++ '_' :: (s ++ decimal b) = decimal a' ++ '_' :: (s ++ decimal b')) :
    a = a' ∧ b = b' := by
  have hfirst := congrArg (List.takeWhile (· ≠ '_')) h
  rw [takeWhile_terminated (underscore_notMem_decimal a),
    takeWhile_terminated (underscore_notMem_decimal a')] at hfirst
  have ha : a = a' := decimal_injective hfirst
  subst ha
  have hrest := List.append_cancel_left h
  exact ⟨rfl, decimal_injective (List.append_cancel_left (List.cons.inj hrest).2)⟩

theorem length_decimal_le {n k : Nat} (hk : 0 < k) (h : n < 10 ^ k) : (decimal n).length ≤ k :=
  length_numeral_le (by omega) hk h

/-- What the names of the message rings have in common. -/
def msgRingHead : List Char :=
  ['l', 'a', 'z', 'y', 'b', 's', 'd', '_', 'm', 's', 'g', '_', 'r', 'i', 'n', 'g', '_']

theorem lazybsdMsgRingIn_eq : lazybsdMsgRingIn = msgRingHead ++ ['i', 'n', '_'] := by decide

theorem lazybsdMsgRingOut_eq : lazybsdMsgRingOut = msgRingHead ++ ['o', 'u', 't', '_'] := by decide

theorem dispatchRingQ_eq : dispatchRingQ = ['_', 'q'] := by decide

theorem length_heads : dispatchRingP.length = 15 ∧ lazybsdMsgRingIn.length = 20 ∧
    lazybsdMsgRingOut.length = 21 := by decide

/-- **No name is cut**: the longest has twenty-eight characters. -/
theorem length_text_le {k : Slot} (hk : k.Fits) : k.text.length ≤ 28 := by
  obtain ⟨hdispatch, hin, hout⟩ := length_heads
  cases k with
  | dispatchRing portid queueid =>
      have hportid : portid.toNat < 10 ^ 5 := portid.toNat_lt.trans (by norm_num)
      have hqueueid : queueid < 10 ^ 3 := lt_trans (show queueid < 128 from hk) (by norm_num)
      have hp := length_decimal_le (by norm_num) hportid
      have hq := length_decimal_le (by norm_num) hqueueid
      simp only [Slot.text, dispatchRingText, dispatchRingQ_eq, List.length_append, hdispatch,
        List.length_cons, List.length_nil]
      linarith only [hp, hq]
  | msgRing i j =>
      obtain ⟨hproc, hlast⟩ : i < 2 ^ 16 ∧ j < 10 := hk
      have hi := length_decimal_le (k := 5) (by norm_num) (hproc.trans (by norm_num))
      have hj := length_decimal_le (k := 1) (by norm_num) (hlast.trans_le (by norm_num))
      simp only [Slot.text]
      split
      · simp only [msgRingInText, List.length_append, hin]
        linarith only [hi]
      · simp only [msgRingOutText, List.length_append, hout, List.length_singleton]
        linarith only [hi, hj]

/-- The first characters tell the two tables apart. -/
theorem tables_differ (portid : UInt16) (queueid i j : Nat) :
    dispatchRingText portid queueid ≠ (Slot.msgRing i j).text := fun h => by
  have hhead := congrArg (fun t => t.take 1) h
  have hdispatch : dispatchRingP.take 1 = ['d'] := by decide
  have hd : (dispatchRingText portid queueid).take 1 = ['d'] := by
    rw [dispatchRingText, List.append_assoc, List.append_assoc,
      List.take_append_of_le_length (by decide), hdispatch]
  have hl : (Slot.msgRing i j).text.take 1 = ['l'] := by
    simp only [Slot.text]
    split
    · rw [msgRingInText, lazybsdMsgRingIn_eq]
      rfl
    · rw [msgRingOutText, lazybsdMsgRingOut_eq]
      rfl
  simp only [hd, hl] at hhead
  exact absurd hhead (by decide)

/-- Behind the common head one kind goes on with `i`, the other with `o`. -/
theorem kinds_differ (i i' j : Nat) : msgRingInText i ≠ msgRingOutText i' j := fun h => by
  rw [msgRingInText, msgRingOutText, lazybsdMsgRingIn_eq, lazybsdMsgRingOut_eq] at h
  simp only [List.append_assoc] at h
  exact absurd (List.cons.inj (List.append_cancel_left h)).1 (by decide)

/-- **Different slots have different names.** -/
theorem text_injective : Function.Injective Slot.text := by
  intro k k' h
  cases k with
  | dispatchRing portid queueid =>
      cases k' with
      | dispatchRing portid' queueid' =>
          simp only [Slot.text, dispatchRingText, dispatchRingQ_eq, List.append_assoc] at h
          obtain ⟨hp, hq⟩ := decimal_pair (s := ['q']) (List.append_cancel_left h)
          rw [UInt16.toNat_inj.mp hp, hq]
      | msgRing i j => exact absurd h (tables_differ portid queueid i j)
  | msgRing i j =>
      cases k' with
      | dispatchRing portid queueid => exact absurd h.symm (tables_differ portid queueid i j)
      | msgRing i' j' =>
          simp only [Slot.text] at h
          split at h <;> split at h
          · rename_i hj hj'
            rw [hj, hj', decimal_injective (List.append_cancel_left h)]
          · exact absurd h (kinds_differ i i' j')
          · exact absurd h.symm (kinds_differ i' i j)
          · simp only [msgRingOutText, List.append_assoc] at h
            obtain ⟨hi, hj⟩ := decimal_pair (s := []) (List.append_cancel_left h)
            rw [hi, hj]

/-! ## The loops are runs over the slots -/

section Runs

variable {ρ σ : Type*} {g : Registry (List Char) ρ σ} {size : Nat} {zmalloc : UInt16 → Nat → Bool}
  {p : ProcType} {cfg : DpdkCfg} {w : (Slot → Option ρ) × σ}

/-- The name under which a slot is known. -/
def Slot.name (size : Nat) (k : Slot) : List Char := snprintf size k.text

/-- **Names in the buffer are different** where the buffer is DPDK's. -/
theorem name_inj (hsize : 29 ≤ size) {k k' : Slot} (hk : k.Fits) (hk' : k'.Fits)
    (h : k.name size = k'.name size) : k = k' := by
  have hwhole : ∀ {k : Slot}, k.Fits → k.name size = k.text := fun hk =>
    List.take_of_length_le ((length_text_le hk).trans (by omega))
  rw [hwhole hk, hwhole hk'] at h
  exact text_injective h

theorem foldlM_flatMap {α β γ : Type*} (f : γ → β → Option γ) (l : α → List β) (as : List α) (c : γ) :
    (as.flatMap l).foldlM f c = as.foldlM (fun c a => (l a).foldlM f c) c := by
  induction as generalizing c with
  | nil => rfl
  | cons a as ih =>
      rw [List.flatMap_cons, List.foldlM_append, List.foldlM_cons]
      exact congrArg _ (funext fun c => ih c)

/-- Each port of the list gets its array. -/
def ArraysFit (zmalloc : UInt16 → Nat → Bool) (cfg : DpdkCfg) (ports : List UInt16) : Prop :=
  ∀ portid ∈ ports, zmalloc portid (8 * (cfg.portCfgs portid).nbLcores) = true

/-- A port that has its array already asks for it no more. -/
theorem openArray_eq {arrays : UInt16 → Bool}
    (h : ∀ a, arrays a = true → zmalloc a (8 * (cfg.portCfgs a).nbLcores) = true) (portid : UInt16) :
    (¬ zmalloc portid (8 * (cfg.portCfgs portid).nbLcores) = true ∧
        openArray zmalloc arrays portid (cfg.portCfgs portid).nbLcores = none) ∨
      ∃ arrays', openArray zmalloc arrays portid (cfg.portCfgs portid).nbLcores = some arrays' ∧
        ∀ a, (a = portid ∨ arrays' a = true) → zmalloc a (8 * (cfg.portCfgs a).nbLcores) = true := by
  unfold openArray
  by_cases hset : arrays portid = true
  · rw [if_pos hset]
    exact .inr ⟨arrays, rfl, fun a ha => h a (ha.elim (fun heq => heq ▸ hset) id)⟩
  · rw [if_neg hset]
    by_cases hz : zmalloc portid (8 * (cfg.portCfgs portid).nbLcores) = true
    · rw [if_pos hz]
      refine .inr ⟨_, rfl, fun a ha => ?_⟩
      by_cases heq : a = portid
      · rwa [heq]
      · rw [Function.update_of_ne heq] at ha
        exact h a (ha.resolve_left heq)
    · rw [if_neg hz]
      exact .inl ⟨hz, rfl⟩

theorem initDispatchRing_eq_some {r : (Slot → Option ρ) × σ} :
    initDispatchRing g size zmalloc p cfg w = some r ↔ ArraysFit zmalloc cfg cfg.portidList ∧
      (dispatchSlots cfg).foldlM (fun w k => openRing g size p k k.text w) w = some r := by
  have hports : ∀ (ports : List UInt16) (arrays : UInt16 → Bool) (w : (Slot → Option ρ) × σ),
      (∀ a, arrays a = true → zmalloc a (8 * (cfg.portCfgs a).nbLcores) = true) →
      ((ports.foldlM (fun (st : (UInt16 → Bool) × ((Slot → Option ρ) × σ)) portid =>
        (openArray zmalloc st.1 portid (cfg.portCfgs portid).nbLcores).bind fun arrays =>
          ((List.range (cfg.portCfgs portid).nbLcores).foldlM (fun w queueid =>
            openRing g size p (.dispatchRing portid queueid) (dispatchRingText portid queueid) w)
              st.2).map fun w => (arrays, w)) (arrays, w)).map Prod.snd = some r ↔
        ArraysFit zmalloc cfg ports ∧
          ports.foldlM (fun w portid => (List.range (cfg.portCfgs portid).nbLcores).foldlM
            (fun w queueid => openRing g size p (.dispatchRing portid queueid)
              (dispatchRingText portid queueid) w) w) w = some r) := by
    intro ports
    induction ports with
    | nil => exact fun arrays w _ => (and_iff_right (by simp [ArraysFit])).symm
    | cons portid ports ih =>
        intro arrays w harrays
        rw [ArraysFit, List.forall_mem_cons, List.foldlM_cons, List.foldlM_cons]
        rcases openArray_eq harrays portid with ⟨hz, hnone⟩ | ⟨arrays', hsome, harrays'⟩
        · rw [hnone]
          exact iff_of_false (Option.some_ne_none r).symm fun h => hz h.1.1
        · rw [hsome, and_iff_right (harrays' portid (.inl rfl)), Option.bind_some]
          dsimp only
          cases (List.range (cfg.portCfgs portid).nbLcores).foldlM (fun w queueid =>
            openRing g size p (.dispatchRing portid queueid) (dispatchRingText portid queueid) w) w with
          | none => exact iff_of_false (Option.some_ne_none r).symm fun h => (Option.some_ne_none r).symm h.2
          | some w' => exact ih arrays' w' fun a ha => harrays' a (.inr ha)
  rw [dispatchSlots, foldlM_flatMap, initDispatchRing, hports _ _ _ fun a ha => absurd ha (by simp)]
  simp only [List.foldlM_map]
  rfl

theorem initMsgRing_eq :
    initMsgRing g size p cfg w = (msgSlots cfg).foldlM (fun w k => openRing g size p k k.text w) w := by
  have hone : ∀ w i, ((List.range lazybsdMsgNum).map (Slot.msgRing i)).foldlM
      (fun w k => openRing g size p k k.text w) w =
      (openRing g size p (.msgRing i 0) (msgRingInText i) w).bind fun w =>
        (List.range' lazybsdSysctl (lazybsdMsgNum - lazybsdSysctl)).foldlM (fun w j =>
          openRing g size p (.msgRing i j) (msgRingOutText i j) w) w := by
    intro w i
    rfl
  rw [msgSlots, foldlM_flatMap]
  simp only [hone]
  rfl

/-- All rings are opened, if the ports get their arrays. -/
theorem initRings_eq_some {r : (Slot → Option ρ) × σ} :
    initRings g size zmalloc p cfg w = some r ↔ ArraysFit zmalloc cfg cfg.portidList ∧
      (slots cfg).foldlM (fun w k => openRing g size p k k.text w) w = some r := by
  rw [initRings, slots, List.foldlM_append, Option.bind_eq_some_iff]
  simp only [initDispatchRing_eq_some, initMsgRing_eq, and_assoc, exists_and_left]
  exact and_congr_right fun _ => Option.bind_eq_some_iff.symm

/-- A request of no bytes gets nothing, so every port of the list has a queue. -/
theorem arraysFit_iff (hzero : ∀ portid, zmalloc portid 0 = false) {ports : List UInt16} :
    ArraysFit zmalloc cfg ports ↔ ∀ portid ∈ ports, 0 < (cfg.portCfgs portid).nbLcores ∧
      zmalloc portid (8 * (cfg.portCfgs portid).nbLcores) = true := by
  refine forall₂_congr fun portid _ => (and_iff_right_of_imp fun h => ?_).symm
  rcases Nat.eq_zero_or_pos (cfg.portCfgs portid).nbLcores with hnone | hpos
  · rw [hnone, Nat.mul_zero, hzero] at h
    exact absurd h Bool.false_ne_true
  · exact hpos

/-- The primary process is the party that creates. -/
theorem primary_eq (ks : List Slot) :
    ks.foldlM (fun w k => openRing g size .primary k k.text w) w = createAll g (Slot.name size) ks w := by
  induction ks generalizing w with
  | nil => rfl
  | cons k ks ih =>
      obtain ⟨tbl, s⟩ := w
      rw [List.foldlM_cons]
      simp only [createAll, openRing, createRing, Slot.name]
      cases g.create (snprintf size k.text) s with
      | none => rfl
      | some r => exact ih

/-- Another process only looks up: it leaves the registry. -/
theorem secondary_eq (ks : List Slot) :
    ks.foldlM (fun w k => openRing g size .secondary k k.text w) w =
      (lookupAll g (Slot.name size) w.2 ks w.1).map fun tbl => (tbl, w.2) := by
  induction ks generalizing w with
  | nil => rfl
  | cons k ks ih =>
      obtain ⟨tbl, s⟩ := w
      rw [List.foldlM_cons]
      simp only [lookupAll, openRing, createRing, Slot.name]
      cases g.lookup (snprintf size k.text) s with
      | none => rfl
      | some o => exact ih

end Runs

/-! ## Agreement -/

/-- A registry in memory: rings are numbered as they are created. -/
structure Memory where
  next : Nat
  rings : List Char → Option Nat
  numbered : ∀ name ring, rings name = some ring → ring < next

namespace Memory

def empty : Memory := ⟨0, fun _ => none, fun _ _ h => absurd h.symm (Option.some_ne_none _)⟩

def add (m : Memory) (name : List Char) : Memory where
  next := m.next + 1
  rings := Function.update m.rings name (some m.next)
  numbered := fun name' ring h => by
    by_cases hn : name' = name
    · rw [hn, Function.update_self] at h
      have hring : m.next = ring := Option.some.inj h
      omega
    · rw [Function.update_of_ne hn] at h
      exact (m.numbered name' ring h).trans (Nat.lt_succ_self _)

def registry : Registry (List Char) Nat Memory where
  create name m := if m.rings name = none then some (m.next, m.add name) else none
  lookup name m := m.rings name

theorem lawful : registry.Lawful := by
  have hcreate : ∀ {n m o m'}, registry.create n m = some (o, m') →
      o = m.next ∧ m' = m.add n := fun {n m o m'} h => by
    have hsome := (Option.ite_none_right_eq_some.mp h).2
    obtain ⟨ho, hm⟩ := Prod.mk.inj (Option.some.inj hsome)
    exact ⟨ho.symm, hm.symm⟩
  constructor
  · intro n m o m' h
    obtain ⟨rfl, rfl⟩ := hcreate h
    exact Function.update_self ..
  · intro n m o m' h n' hne
    obtain ⟨rfl, rfl⟩ := hcreate h
    exact Function.update_of_ne hne ..
  · intro n m h
    exact if_neg h
  · intro n m o m' h n' hn'
    obtain ⟨rfl, rfl⟩ := hcreate h
    exact absurd (m.numbered n' _ hn') (lt_irrefl _)

end Memory

section Agreement

variable {ρ σ : Type*} {g : Registry (List Char) ρ σ} {size : Nat} {zmalloc : UInt16 → Nat → Bool}
  {cfg : DpdkCfg} {s s' : σ} {tbl rings : Slot → Option ρ}

/-- **Processes agree on their rings.** Where the primary process came through, each of its slots has a
ring of its own. A process with any configuration then comes through exactly if each of its ports has a
queue, gets the memory for its pointers, and it asks for no slot that the primary has not got. It finds
the same ring in every slot and leaves the registry as it is, so the next process finds the same. -/
theorem processes_share_rings (hg : g.Lawful) (hsize : 29 ≤ size) (hnone : ∀ n, g.lookup n s = none)
    (h : initRings g size zmalloc .primary cfg (tbl, s) = some (rings, s')) :
    (∀ k ∈ slots cfg, (rings k).isSome ∧ ∀ k' ∈ slots cfg, rings k = rings k' → k = k') ∧
      ∀ (cfg' : DpdkCfg) (tbl' : Slot → Option ρ) (zmalloc' : UInt16 → Nat → Bool),
        (∀ portid, zmalloc' portid 0 = false) →
        ((initRings g size zmalloc' .secondary cfg' (tbl', s')).isSome ↔
          (∀ portid ∈ cfg'.portidList, 0 < (cfg'.portCfgs portid).nbLcores ∧
            zmalloc' portid (8 * (cfg'.portCfgs portid).nbLcores) = true) ∧
          ∀ k ∈ slots cfg', k ∈ slots cfg) ∧
          ∀ found s'', initRings g size zmalloc' .secondary cfg' (tbl', s') = some (found, s'') →
            s'' = s' ∧ ∀ k ∈ slots cfg', found k = rings k := by
  rw [initRings_eq_some, primary_eq] at h
  obtain ⟨-, h⟩ := h
  have hfilled := filled_of_createAll hg h
  have hseparate : g.Separate s' := by
    refine separate_createAll hg ?_ h
    intro m n o hm
    rw [hnone m] at hm
    exact absurd hm.symm (Option.some_ne_none o)
  constructor
  · intro k hk
    obtain ⟨heq, hsome⟩ := hfilled.slot k hk
    refine ⟨hsome, fun k' hk' hsame => ?_⟩
    obtain ⟨o, ho⟩ := Option.isSome_iff_exists.mp hsome
    have hk₁ : g.lookup (k.name size) s' = some o := heq.symm.trans ho
    have hk₂ : g.lookup (k'.name size) s' = some o :=
      (hfilled.slot k' hk').1.symm.trans (hsame.symm.trans ho)
    exact name_inj hsize (fits_of_mem hk) (fits_of_mem hk') (hseparate hk₁ hk₂)
  · intro cfg' tbl' zmalloc' hzero
    rw [Option.isSome_iff_exists]
    simp only [initRings_eq_some, secondary_eq, exists_and_left, ← Option.isSome_iff_exists,
      arraysFit_iff hzero]
    -- a name stands for something exactly if it is the name of one of the primary's slots
    have hknown : ∀ k ∈ slots cfg', g.lookup (k.name size) s' ≠ none ↔ k ∈ slots cfg := by
      intro k hk
      constructor
      · intro hne
        by_contra hnot
        refine hne ((hfilled.kept _ fun k' hk' heq => hnot ?_).trans (hnone _))
        rw [name_inj hsize (fits_of_mem hk) (fits_of_mem hk') heq]
        exact hk'
      · intro hmem
        obtain ⟨heq, hsome⟩ := hfilled.slot k hmem
        rw [← heq]
        exact Option.isSome_iff_ne_none.mp hsome
    refine ⟨and_congr_right fun _ => ?_, ?_⟩
    · rw [Option.isSome_map]
      cases hl : lookupAll g (Slot.name size) s' (slots cfg') tbl' with
      | none =>
          obtain ⟨k, hk, hmissing⟩ := lookupAll_eq_none hl
          refine ⟨fun hfalse => absurd hfalse (by simp), fun hall => ?_⟩
          exact absurd hmissing ((hknown k hk).mpr (hall k hk))
      | some found =>
          refine ⟨fun _ k hk => (hknown k hk).mp ?_, fun _ => rfl⟩
          obtain ⟨heq, hsome⟩ := (lookupAll_eq_some hl).1 k hk
          rw [← heq]
          exact Option.isSome_iff_ne_none.mp hsome
    · rintro found s'' ⟨-, hrun⟩
      obtain ⟨found', hl, hpair⟩ := Option.map_eq_some_iff.mp hrun
      obtain ⟨rfl, rfl⟩ := Prod.mk.inj hpair
      refine ⟨rfl, fun k hk => ?_⟩
      obtain ⟨heq, hsome⟩ := (lookupAll_eq_some hl).1 k hk
      have hmem : k ∈ slots cfg := by
        refine (hknown k hk).mp ?_
        rw [← heq]
        exact Option.isSome_iff_ne_none.mp hsome
      rw [heq, (hfilled.slot k hmem).1]

/-- Two processes; port 0 has two queues, port 3 one. -/
def sampleCfg : DpdkCfg where
  procLcore := [0, 1]
  portidList := [0, 3]
  maxPortid := 3
  portCfgs portid := if portid = 0 then ⟨[0, 1], by decide⟩ else ⟨[1], by decide⟩
  numaOn := false

/-- Memory for every request but that of no bytes. -/
def sampleZmalloc (_ : UInt16) (bytes : Nat) : Bool := bytes ≠ 0

/-- Both ports have queues, and get the memory for their pointers. -/
theorem sample_ports : ∀ portid ∈ sampleCfg.portidList, 0 < (sampleCfg.portCfgs portid).nbLcores ∧
    sampleZmalloc portid (8 * (sampleCfg.portCfgs portid).nbLcores) = true := by
  intro portid hp
  rcases List.mem_pair.mp hp with rfl | rfl
  · exact ⟨by decide, by decide⟩
  · exact ⟨by decide, by decide⟩

theorem processes_share_rings_sample :
    ∃ rings m, initRings Memory.registry 29 sampleZmalloc .primary sampleCfg
        (fun _ => none, Memory.empty) = some (rings, m) ∧
      ∃ found, initRings Memory.registry 29 sampleZmalloc .secondary sampleCfg (fun _ => none, m) =
          some (found, m) ∧
        found (.dispatchRing 3 0) = rings (.dispatchRing 3 0) ∧
        found (.msgRing 1 9) = rings (.msgRing 1 9) := by
  have hsome : (initRings Memory.registry 29 sampleZmalloc .primary sampleCfg
      (fun _ => none, Memory.empty)).isSome := by
    decide +kernel
  obtain ⟨⟨rings, m⟩, hrun⟩ := Option.isSome_iff_exists.mp hsome
  have hall := processes_share_rings Memory.lawful le_rfl (fun _ => rfl) hrun
  obtain ⟨hcomes, hfinds⟩ := hall.2 sampleCfg (fun _ => none) sampleZmalloc fun _ => rfl
  obtain ⟨⟨found, m'⟩, hfound⟩ := Option.isSome_iff_exists.mp
    (hcomes.mpr ⟨sample_ports, fun k hk => hk⟩)
  obtain ⟨rfl, hsame⟩ := hfinds found m' hfound
  exact ⟨rings, m', hrun, found, hfound, hsame _ (by decide), hsame _ (by decide)⟩

/-- Two ports have a slot in common only if they are one port with a queue. -/
theorem disjoint_ports (cfg : DpdkCfg) (a b : UInt16) :
    List.Disjoint ((List.range (cfg.portCfgs a).nbLcores).map (Slot.dispatchRing a))
        ((List.range (cfg.portCfgs b).nbLcores).map (Slot.dispatchRing b)) ↔
      (0 < (cfg.portCfgs a).nbLcores → 0 < (cfg.portCfgs b).nbLcores → a ≠ b) := by
  constructor
  · rintro hdisjoint ha - rfl
    have hmem : Slot.dispatchRing a 0 ∈ (List.range (cfg.portCfgs a).nbLcores).map (Slot.dispatchRing a) :=
      List.mem_map_of_mem (List.mem_range.mpr ha)
    exact hdisjoint hmem hmem
  · intro hne k hka hkb
    obtain ⟨qa, hqa, rfl⟩ := List.mem_map.mp hka
    obtain ⟨qb, hqb, heq⟩ := List.mem_map.mp hkb
    obtain ⟨hports, -⟩ := Slot.dispatchRing.inj heq
    exact hne (Nat.zero_lt_of_lt (List.mem_range.mp hqa)) (Nat.zero_lt_of_lt (List.mem_range.mp hqb))
      hports.symm

theorem nodup_dispatchSlots :
    (dispatchSlots cfg).Nodup ↔
      (cfg.portidList.filter fun portid => 0 < (cfg.portCfgs portid).nbLcores).Nodup := by
  have hqueues : ∀ portid ∈ cfg.portidList,
      ((List.range (cfg.portCfgs portid).nbLcores).map (Slot.dispatchRing portid)).Nodup :=
    fun portid _ => List.nodup_range.map fun _ _ h => (Slot.dispatchRing.inj h).2
  rw [dispatchSlots, List.nodup_flatMap, and_iff_right hqueues, List.Nodup, List.pairwise_filter]
  simp only [decide_eq_true_eq]
  exact ⟨fun h => h.imp fun hd => (disjoint_ports cfg _ _).mp hd,
    fun h => h.imp fun hne => (disjoint_ports cfg _ _).mpr hne⟩

theorem nodup_slots :
    (slots cfg).Nodup ↔
      (cfg.portidList.filter fun portid => 0 < (cfg.portCfgs portid).nbLcores).Nodup := by
  have hmsg : (msgSlots cfg).Nodup := by
    refine List.nodup_flatMap.mpr ⟨fun i _ => List.nodup_range.map fun _ _ h => (Slot.msgRing.inj h).2, ?_⟩
    refine List.nodup_range.imp fun hne k hk hk' => ?_
    obtain ⟨j, -, rfl⟩ := List.mem_map.mp hk
    obtain ⟨j', -, heq⟩ := List.mem_map.mp hk'
    exact hne (Slot.msgRing.inj heq).1.symm
  have hdisjoint : List.Disjoint (dispatchSlots cfg) (msgSlots cfg) := fun k hd hm => by
    obtain ⟨portid, -, hq⟩ := List.mem_flatMap.mp hd
    obtain ⟨queueid, -, rfl⟩ := List.mem_map.mp hq
    obtain ⟨i, -, hj⟩ := List.mem_flatMap.mp hm
    obtain ⟨j, -, heq⟩ := List.mem_map.mp hj
    exact Slot.noConfusion heq
  rw [slots, List.nodup_append', and_iff_right hmsg, and_iff_left hdisjoint, nodup_dispatchSlots]

/-- **When the primary process comes through**: where the library takes every free name of at most
twenty-eight characters, exactly if every port of `portid_list` has a queue, gets the memory for its
pointers, and stands there once. -/
theorem primary_comes_through (hg : g.Lawful) (hsize : 29 ≤ size) (hnone : ∀ n, g.lookup n s = none)
    (hroom : ∀ n s, n.length ≤ 28 → g.lookup n s = none → (g.create n s).isSome)
    (hzero : ∀ portid, zmalloc portid 0 = false) :
    (initRings g size zmalloc .primary cfg (tbl, s)).isSome ↔
      (∀ portid ∈ cfg.portidList, 0 < (cfg.portCfgs portid).nbLcores ∧
        zmalloc portid (8 * (cfg.portCfgs portid).nbLcores) = true) ∧ cfg.portidList.Nodup := by
  rw [Option.isSome_iff_exists]
  simp only [initRings_eq_some, primary_eq, exists_and_left, ← Option.isSome_iff_exists,
    arraysFit_iff hzero]
  refine and_congr_right fun hports => ?_
  have hall : (cfg.portidList.filter fun portid => 0 < (cfg.portCfgs portid).nbLcores) =
      cfg.portidList :=
    List.filter_eq_self.mpr fun portid hp => decide_eq_true (hports portid hp).1
  rw [← hall, ← nodup_slots]
  constructor
  · intro h
    obtain ⟨⟨rings, s'⟩, hrun⟩ := Option.isSome_iff_exists.mp h
    exact List.Nodup.of_map _ (filled_of_createAll hg hrun).nodup
  · intro hnodup
    have hnames : ((slots cfg).map (Slot.name size)).Nodup :=
      (List.nodup_map_iff_inj_on hnodup).mpr fun k hk k' hk' heq =>
        name_inj hsize (fits_of_mem hk) (fits_of_mem hk') heq
    refine createAll_isSome hg (fun k hk s hfree => hroom _ s ?_ hfree) hnames fun k _ => hnone _
    have hlen : (k.name size).length ≤ k.text.length := List.length_take_le' _ _
    exact hlen.trans (length_text_le (fits_of_mem hk))

/-- The same port twice, and a port without queues. -/
def twiceCfg : DpdkCfg := { sampleCfg with portidList := [0, 3, 0] }

def emptyCfg : DpdkCfg :=
  { sampleCfg with portCfgs := fun portid => if portid = 0 then ⟨[0, 1], by decide⟩ else ⟨[], by decide⟩ }

theorem primary_comes_through_twice :
    (initRings Memory.registry 29 sampleZmalloc .primary sampleCfg (fun _ => none, Memory.empty)).isSome ∧
      ¬ (initRings Memory.registry 29 sampleZmalloc .primary twiceCfg
        (fun _ => none, Memory.empty)).isSome ∧
      ¬ (initRings Memory.registry 29 sampleZmalloc .primary emptyCfg
        (fun _ => none, Memory.empty)).isSome := by
  have hroom : ∀ n m, n.length ≤ 28 → Memory.registry.lookup n m = none →
      (Memory.registry.create n m).isSome := fun n m _ hfree => by
    have hnone : m.rings n = none := hfree
    show (if m.rings n = none then some (m.next, m.add n) else none).isSome
    rw [if_pos hnone]
    rfl
  have hmain {cfg : DpdkCfg} :=
    @primary_comes_through _ _ Memory.registry 29 sampleZmalloc cfg Memory.empty (fun _ => none)
      Memory.lawful le_rfl (fun _ => rfl) hroom fun _ => rfl
  rw [hmain, hmain, hmain]
  refine ⟨⟨sample_ports, by decide⟩, fun htwice => ?_, fun hempty => ?_⟩
  · exact absurd htwice.2 (by decide)
  · exact absurd (hempty.1 3 (by decide)).1 (by decide)

end Agreement

end LazyBsd.RingNames
