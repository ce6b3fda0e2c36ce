/-
# LazyBsd.Control.Rings — the request ring, the reply rings and the message pool.

Clients put messages on ring 0 of a worker and take answers from the other rings. The worker takes a
burst from ring 0 and handles its messages one after the other; the answer goes on the ring whose index
is the type of the message. The type is what the client wrote: with `LAZYBSD_UNKNOWN` the answer becomes
a request again, and with a number from `LAZYBSD_MSG_NUM` on the index is outside the array.

A message is known by its address. `log` records what the worker does with messages.
-/
import Mathlib.Data.List.Count
import Mathlib.Logic.Function.Basic
import Mathlib.Tactic.Common
import LazyBsd.Lib.Run
import LazyBsd.Control.Handlers

namespace LazyBsd.Control

open Lib

/-! ## Model -/

/-- `MSG_RING_SIZE`; a ring of this size holds one message less. -/
def msgRingSize : Nat := 32

/-- `MAX_PKT_BURST`. -/
def maxPktBurst : Nat := 32

/-- `LAZYBSD_MSG_NUM`, the length of the array of rings. -/
def lazybsdMsgNum : Nat := 10

/-- `MAX_MSG_BUF_SIZE`, the size of the pool's elements, and `sizeof(struct lazybsd_msg)`. -/
def maxMsgBufSize : Nat := 10240
def sizeofMsg : Nat := 128

/-- `lazybsd_msg_init` on the element at the address. -/
def lazybsdMsgInit (addr : Nat) (msg : Msg) : Msg :=
  { msg with
    msgType := 0
    bufAddr := addr + sizeofMsg
    bufLen := maxMsgBufSize - sizeofMsg
    originalBuf := 0
    originalBufLen := 0 }

/-- What the worker does with a message, with its contents at that time. -/
inductive Event
  | dequeued (m : Nat)
  | enqueued (m : Nat) (msg : Msg) (ring : Nat)
  | outside (m : Nat) (msg : Msg)
  | freed (buf : Nat)
  | pooled (m : Nat) (msg : Msg)

/-- The messages, the rings, the burst the worker is handling, and the process. -/
structure World where
  msgs : Nat → Msg
  ring : Nat → List Nat
  burst : List Nat
  proc : Proc
  log : List Event

/-- After `init_msg_ring`. -/
def World.init (msgs : Nat → Msg) (proc : Proc) : World where
  msgs m := lazybsdMsgInit m (msgs m)
  ring _ := []
  burst := []
  proc := proc
  log := []

/-- Does `rte_ring_enqueue` find room? -/
def hasRoom (j : Nat) (s : World) : Bool := decide ((s.ring j).length < msgRingSize - 1)

/-- A successful `rte_ring_enqueue`. -/
def putOnRing (j m : Nat) (s : World) : World :=
  { s with ring := Function.update s.ring j (s.ring j ++ [m]) }

def emit (e : Event) (s : World) : World := { s with log := s.log ++ [e] }

/-- Store a message. -/
def setMsg (m : Nat) (msg : Msg) (s : World) : World :=
  { s with msgs := Function.update s.msgs m msg }

/-- The buffer a client substituted is freed and the old one is put back. -/
def restoreBuf (m : Nat) (s : World) : World :=
  if (s.msgs m).originalBuf ≠ 0 then
    setMsg m
      { s.msgs m with
        bufAddr := (s.msgs m).originalBuf
        bufLen := (s.msgs m).originalBufLen
        originalBuf := 0 }
      (emit (.freed (s.msgs m).bufAddr) s)
  else s

/-- `rte_mempool_put`. -/
def putInPool (m : Nat) (s : World) : World := emit (.pooled m (s.msgs m)) s

/-- The end of `handle_msg`: the message goes on the ring of its type, or into the pool. An index outside
the array is only recorded: what is read there as a ring is not known. -/
def reply (m : Nat) (s : World) : World :=
  let j := (s.msgs m).msgType.toNat
  if j < lazybsdMsgNum then
    if hasRoom j s then emit (.enqueued m (s.msgs m) j) (putOnRing j m s)
    else putInPool m (restoreBuf m s)
  else emit (.outside m (s.msgs m)) s

/-- The switch of `handle_msg`. -/
def runHandler (b : Build) (o : Calls) (m : Nat) (s : World) : World :=
  let (msg, p) := dispatchMsg b o (s.msgs m) s.proc
  { setMsg m msg s with proc := p }

/-- `handle_msg`. -/
def handleMsg (b : Build) (o : Calls) (m : Nat) (s : World) : World := reply m (runHandler b o m s)

/-- What clients promise about buffers: a message has its own buffer, or another one and its own in
`original_buf`. -/
def KeepsBuf (m : Nat) (msg : Msg) : Prop :=
  msg.originalBuf = 0 ∧ msg.bufAddr = m + sizeofMsg ∧ msg.bufLen = maxMsgBufSize - sizeofMsg ∨
    msg.originalBuf = m + sizeofMsg ∧ msg.originalBufLen = maxMsgBufSize - sizeofMsg

instance (m : Nat) (msg : Msg) : Decidable (KeepsBuf m msg) :=
  inferInstanceAs (Decidable (_ ∨ _))

/-- The steps. -/
inductive Action
  /-- A client writes a message and puts it on the request ring. -/
  | request (m : Nat) (msg : Msg)
  /-- A client takes an answer. -/
  | collect (ring : Nat)
  /-- Other code of the process changes `errno`. -/
  | host (errno : Int)
  /-- `rte_ring_dequeue_burst` in `process_msg_ring`. -/
  | dequeueBurst
  /-- One turn of the loop in `process_msg_ring`. -/
  | handle (o : Calls)

/-- At most `MAX_PKT_BURST` messages leave the request ring. -/
def dequeueBurst (s : World) : World :=
  { s with
    burst := (s.ring 0).take maxPktBurst
    ring := Function.update s.ring 0 ((s.ring 0).drop maxPktBurst)
    log := s.log ++ ((s.ring 0).take maxPktBurst).map .dequeued }

/-- One step of a client or the worker. -/
def step (b : Build) (s : World) : Action → Option World
  | .request m msg => if KeepsBuf m msg ∧ hasRoom 0 s then some (putOnRing 0 m (setMsg m msg s)) else none
  | .collect j =>
      if j = 0 then none else some { s with ring := Function.update s.ring j (s.ring j).tail }
  | .host errno => some { s with proc := { s.proc with errno := errno } }
  | .dequeueBurst => if s.burst = [] then some (dequeueBurst s) else none
  | .handle o =>
      match s.burst with
      | [] => none
      | m :: rest => some { handleMsg b o m s with burst := rest }

/-! ## The protocol -/

/-- The worker took the message from the request ring. -/
def Event.takes (m : Nat) : Event → Bool
  | .dequeued m' => m' == m
  | _ => false

/-- The worker disposed of the message. -/
def Event.disposes (m : Nat) : Event → Bool
  | .enqueued m' _ _ => m' == m
  | .pooled m' _ => m' == m
  | _ => false

/-- An answer goes on the reply ring of its type, and a message in the pool has its own buffer. -/
def Event.Proper : Event → Prop
  | .dequeued _ => True
  | .enqueued _ msg j => 1 ≤ j ∧ j < lazybsdMsgNum ∧ msg.msgType.toNat = j
  | .outside _ _ => False
  | .freed _ => True
  | .pooled m msg =>
      msg.originalBuf = 0 ∧ msg.bufAddr = m + sizeofMsg ∧ msg.bufLen = maxMsgBufSize - sizeofMsg

/-- **The protocol.** What was taken and not yet disposed of is the rest of the burst, and everything
was disposed of properly. -/
structure Protocol (s : World) : Prop where
  once : ∀ m, s.log.countP (Event.takes m) = s.log.countP (Event.disposes m) + s.burst.count m
  proper : ∀ e ∈ s.log, e.Proper

/-- The type of the message that is handled next is the index of a reply ring, or the message is pushed
out of a full request ring. -/
def TypeFits (s : World) (m : Nat) : Prop :=
  1 ≤ (s.msgs m).msgType.toNat ∧ (s.msgs m).msgType.toNat < lazybsdMsgNum ∨
    (s.msgs m).msgType.toNat = 0 ∧ hasRoom 0 s = false

/-- The condition on a step. -/
def StepFits (s : World) : Action → Prop
  | .handle _ => ∀ m rest, s.burst = m :: rest → TypeFits s m
  | _ => True

/-! ## Proof -/

variable {b : Build} {o : Calls} {s s' : World} {m : Nat}

/-- The messages clients handed in keep their buffers. -/
def Inv (s : World) : Prop := ∀ m, KeepsBuf m (s.msgs m)

theorem init_inv (msgs : Nat → Msg) (proc : Proc) : Inv (World.init msgs proc) :=
  fun _ => .inl ⟨rfl, rfl, rfl⟩

theorem runHandler_msgType (m : Nat) : ((runHandler b o m s).msgs m).msgType = (s.msgs m).msgType := by
  simp [runHandler, setMsg, (dispatchMsg_keeps b o (s.msgs m) s.proc).1]

theorem runHandler_inv (h : Inv s) : Inv (runHandler b o m s) := by
  intro k
  by_cases hk : k = m
  · subst hk
    obtain ⟨-, haddr, hlen, horig, horigLen⟩ := dispatchMsg_keeps b o (s.msgs k) s.proc
    have hold := h k
    simpa only [KeepsBuf, runHandler, setMsg, Function.update_self, haddr, hlen, horig, horigLen]
      using hold
  · simpa only [runHandler, setMsg, Function.update_of_ne hk] using h k

/-- After the exchange a message has its own buffer. -/
theorem restoreBuf_own (h : Inv s) (m : Nat) : (Event.pooled m ((restoreBuf m s).msgs m)).Proper := by
  unfold restoreBuf
  rcases h m with ⟨horig, haddr, hlen⟩ | ⟨horig, hlen⟩
  · rw [if_neg (by simp [horig])]
    exact ⟨horig, haddr, hlen⟩
  · rw [if_pos (by simp [horig, sizeofMsg])]
    simp [setMsg, Event.Proper, horig, hlen]

theorem restoreBuf_inv (h : Inv s) : Inv (restoreBuf m s) := by
  intro k
  by_cases hk : k = m
  · subst hk
    exact .inl (restoreBuf_own h k)
  · unfold restoreBuf
    split
    · simpa only [setMsg, emit, Function.update_of_ne hk] using h k
    · exact h k

theorem reply_inv (h : Inv s) : Inv (reply m s) := by
  unfold reply
  dsimp only
  split
  · split
    · exact h
    · exact restoreBuf_inv h
  · exact h

theorem step_inv {a : Action} (h : Inv s) (hs : step b s a = some s') : Inv s' := by
  cases a with
  | request m msg =>
      simp only [step] at hs
      split at hs
      · rename_i hok
        obtain rfl := Option.some.inj hs
        intro k
        by_cases hk : k = m
        · subst hk
          simpa [putOnRing, setMsg] using hok.1
        · simpa only [putOnRing, setMsg, Function.update_of_ne hk] using h k
      · cases hs
  | collect j =>
      simp only [step] at hs
      split at hs
      · cases hs
      · obtain rfl := Option.some.inj hs
        exact h
  | host errno =>
      obtain rfl := Option.some.inj hs
      exact h
  | dequeueBurst =>
      simp only [step] at hs
      split at hs
      · obtain rfl := Option.some.inj hs
        exact h
      · cases hs
  | handle o =>
      simp only [step] at hs
      split at hs
      · cases hs
      · obtain rfl := Option.some.inj hs
        exact reply_inv (runHandler_inv h)

/-- What the end of `handle_msg` adds to the log, by the type of the message. -/
theorem reply_log (m : Nat) (s : World) :
    (reply m s).burst = s.burst ∧
      if (s.msgs m).msgType.toNat < lazybsdMsgNum then
        if hasRoom (s.msgs m).msgType.toNat s then
          (reply m s).log = s.log ++ [.enqueued m (s.msgs m) (s.msgs m).msgType.toNat]
        else
          ∃ es, (reply m s).log = s.log ++ es ++ [.pooled m ((restoreBuf m s).msgs m)] ∧
            ∀ e ∈ es, ∃ buf, e = .freed buf
      else (reply m s).log = s.log ++ [.outside m (s.msgs m)] := by
  unfold reply
  dsimp only
  split
  · split
    · exact ⟨rfl, rfl⟩
    · unfold putInPool restoreBuf
      split
      · exact ⟨rfl, [.freed (s.msgs m).bufAddr], rfl, by simp⟩
      · exact ⟨rfl, [], by simp [emit], by simp⟩
  · exact ⟨rfl, rfl⟩

theorem Protocol.init (msgs : Nat → Msg) (proc : Proc) : Protocol (World.init msgs proc) where
  once m := by simp [World.init]
  proper := by simp [World.init]

/-- A step that takes nothing from the burst and leaves the log alone. -/
theorem Protocol.congr (h : Protocol s) (hb : s'.burst = s.burst) (hl : s'.log = s.log) :
    Protocol s' where
  once m := by
    rw [hl, hb]
    exact h.once m
  proper := by
    rw [hl]
    exact h.proper

theorem Protocol.dequeueBurst (h : Protocol s) (hb : s.burst = []) :
    Protocol (Control.dequeueBurst s) where
  once m := by
    have hold := h.once m
    have htakes (ms : List Nat) : (ms.map Event.dequeued).countP (Event.takes m) = ms.count m := by
      rw [List.countP_map]
      rfl
    have hdisposes (ms : List Nat) : (ms.map Event.dequeued).countP (Event.disposes m) = 0 :=
      List.countP_eq_zero.mpr fun e he => by
        obtain ⟨k, -, rfl⟩ := List.mem_map.mp he
        simp [Event.disposes]
    simp only [Control.dequeueBurst, List.countP_append, htakes, hdisposes]
    rw [hb, List.count_nil] at hold
    omega
  proper e he := by
    rcases List.mem_append.mp he with hold | hnew
    · exact h.proper e hold
    · obtain ⟨k, -, rfl⟩ := List.mem_map.mp hnew
      trivial

/-- The first message of the burst is disposed of: what is left to see is whether properly. -/
theorem Protocol.disposed_iff (h : Protocol s) (s' : World) {rest : List Nat} {es : List Event} {e : Event}
    (hb : s.burst = m :: rest) (hb' : s'.burst = rest) (hl : s'.log = s.log ++ es ++ [e])
    (hes : ∀ e ∈ es, ∃ buf, e = .freed buf)
    (he : ∀ k, e.takes k = false ∧ e.disposes k = (m == k)) : Protocol s' ↔ e.Proper := by
  refine ⟨fun h' => h'.proper e (by rw [hl]; simp), fun hproper => ⟨fun k => ?_, fun e' he' => ?_⟩⟩
  · have hold := h.once k
    have htakes : es.countP (Event.takes k) = 0 := List.countP_eq_zero.mpr fun e' he' => by
      obtain ⟨buf, rfl⟩ := hes e' he'
      simp [Event.takes]
    have hdisposes : es.countP (Event.disposes k) = 0 := List.countP_eq_zero.mpr fun e' he' => by
      obtain ⟨buf, rfl⟩ := hes e' he'
      simp [Event.disposes]
    rw [hb, List.count_cons] at hold
    simp only [hl, hb', List.countP_append, htakes, hdisposes, List.countP_singleton, (he k).1,
      (he k).2]
    simp only [Bool.false_eq_true, if_false]
    omega
  · rw [hl] at he'
    rcases List.mem_append.mp he' with hfirst | hlast
    · rcases List.mem_append.mp hfirst with hold | hfreed
      · exact h.proper e' hold
      · obtain ⟨buf, rfl⟩ := hes e' hfreed
        trivial
    · rw [List.mem_singleton.mp hlast]
      exact hproper

/-- **Handling a message** keeps the protocol exactly when its type fits. -/
theorem handleMsg_protocol_iff {rest : List Nat} (hinv : Inv s) (h : Protocol s)
    (hb : s.burst = m :: rest) :
    Protocol { handleMsg b o m s with burst := rest } ↔ TypeFits s m := by
  have htype : ((runHandler b o m s).msgs m).msgType = (s.msgs m).msgType := runHandler_msgType m
  have hroom (j : Nat) : hasRoom j (runHandler b o m s) = hasRoom j s := rfl
  obtain ⟨-, hlog⟩ := reply_log m (runHandler b o m s)
  rw [htype] at hlog
  unfold TypeFits
  by_cases hin : (s.msgs m).msgType.toNat < lazybsdMsgNum
  · rw [if_pos hin, hroom] at hlog
    by_cases hfull : hasRoom (s.msgs m).msgType.toNat s = true
    · rw [if_pos hfull] at hlog
      have hlog' : (handleMsg b o m s).log =
          s.log ++ [] ++ [.enqueued m ((runHandler b o m s).msgs m) (s.msgs m).msgType.toNat] := by
        rw [List.append_nil]
        exact hlog
      refine (h.disposed_iff { handleMsg b o m s with burst := rest } hb rfl hlog' (by simp)
        fun k => ⟨rfl, rfl⟩).trans ?_
      simp only [Event.Proper, htype]
      constructor
      · exact fun hp => .inl ⟨hp.1, hin⟩
      · rintro (⟨hpos, -⟩ | ⟨hzero, hnone⟩)
        · exact ⟨hpos, hin, trivial⟩
        · rw [hzero, hnone] at hfull
          cases hfull
    · rw [if_neg hfull] at hlog
      obtain ⟨es, hlog, hes⟩ := hlog
      refine (h.disposed_iff { handleMsg b o m s with burst := rest } hb rfl hlog hes
        fun k => ⟨rfl, rfl⟩).trans ?_
      refine iff_of_true (restoreBuf_own (runHandler_inv hinv) m) ?_
      by_cases hzero : (s.msgs m).msgType.toNat = 0
      · rw [hzero] at hfull
        exact .inr ⟨hzero, by simpa using hfull⟩
      · exact .inl ⟨by omega, hin⟩
  · rw [if_neg hin] at hlog
    refine iff_of_false ?_ ?_
    · intro hp
      exact hp.proper _ (List.mem_of_mem_getLast? (by
        change (reply m (runHandler b o m s)).log.getLast? = some _
        rw [hlog, List.getLast?_concat]))
    · rintro (⟨-, hlt⟩ | ⟨hzero, -⟩)
      · exact hin hlt
      · exact hin (by rw [hzero]; decide)

theorem step_protocol_iff {a : Action} (hinv : Inv s) (h : Protocol s)
    (hs : step b s a = some s') : Protocol s' ↔ StepFits s a := by
  cases a with
  | request m msg =>
      simp only [step] at hs
      split at hs
      · obtain rfl := Option.some.inj hs
        exact iff_of_true (h.congr rfl rfl) trivial
      · cases hs
  | collect j =>
      simp only [step] at hs
      split at hs
      · cases hs
      · obtain rfl := Option.some.inj hs
        exact iff_of_true (h.congr rfl rfl) trivial
  | host errno =>
      obtain rfl := Option.some.inj hs
      exact iff_of_true (h.congr rfl rfl) trivial
  | dequeueBurst =>
      simp only [step] at hs
      split at hs
      · rename_i hb
        obtain rfl := Option.some.inj hs
        exact iff_of_true (h.dequeueBurst hb) trivial
      · cases hs
  | handle o =>
      cases hb : s.burst with
      | nil => simp [step, hb] at hs
      | cons m rest =>
          simp only [step, hb] at hs
          obtain rfl := Option.some.inj hs
          rw [handleMsg_protocol_iff hinv h hb]
          constructor
          · intro hfits k rest' hk
            rw [hb] at hk
            rw [← (List.cons.inj hk).1]
            exact hfits
          · exact fun hfits => hfits m rest hb

/-- **The control-message protocol.** The states of a run keep it exactly when every message the worker
handles has the index of a reply ring as its type, or finds the request ring full. -/
theorem messages_are_answered_iff {msgs : Nat → Msg} {proc : Proc}
    {ts : List (Transition World Action)} {s : World}
    (h : Run (step b) (World.init msgs proc) ts s) :
    (∀ tr ∈ ts, Protocol tr.after) ↔ ∀ tr ∈ ts, StepFits tr.before tr.act :=
  (h.forall_iff step_inv step_protocol_iff (init_inv msgs proc) (.init msgs proc)).1

/-! ### A request of no type -/

namespace Sample

/-- A request of the type, with the buffer of the pool's element. -/
def request (m : Nat) (code : UInt32) : Msg where
  msgType := code
  result := 0
  bufLen := maxMsgBufSize - sizeofMsg
  bufAddr := m + sizeofMsg
  originalBuf := 0
  originalBufLen := 0
  args _ := 0

def idleProc : Proc where
  errno := 0
  lazybsdErrno := 0
  knictlAction := 0
  topStatus _ := 0
  traffic _ := 0

/-- Every FreeBSD function succeeds. -/
def quiet : Calls where
  sysctl _ := ⟨0, id⟩
  socket _ _ _ := ⟨0, id⟩
  ioctl _ := ⟨0, id⟩
  route _ := ⟨⟨0, id⟩, 0⟩
  ngctl _ := ⟨⟨0, id⟩, 0⟩
  getsockopt _ := ⟨0, id⟩
  setsockopt _ := ⟨0, id⟩
  close := ⟨0, id⟩

def plain : Build := ⟨false, false, false, false⟩

/-- One request, taken and handled. -/
def oneRequest (code : UInt32) : List Action :=
  [.request 4096 (request 4096 code), .dequeueBurst, .handle quiet]

def start : World := World.init (fun m => request m 0) idleProc

end Sample

/-- A `LAZYBSD_UNKNOWN` message goes back on the request ring. -/
theorem unknown_message_is_requested_again :
    ¬ ∀ (b : Build) (msgs : Nat → Msg) (proc : Proc) (ts : List (Transition World Action)) (s : World),
      Run (step b) (World.init msgs proc) ts s → ∀ tr ∈ ts, Protocol tr.after := by
  intro hclaim
  obtain ⟨r, hr⟩ := Option.isSome_iff_exists.mp (by decide :
    (exec (step Sample.plain) Sample.start (Sample.oneRequest 0)).isSome = true)
  have hrun : Run (step Sample.plain) Sample.start r.1 r.2 := Run.of_exec hr
  have hlast : Protocol r.2 :=
    (hrun.forall_iff step_inv step_protocol_iff (init_inv _ _) (.init _ _)).2
      (hclaim _ _ _ _ _ hrun)
  have hring : (exec (step Sample.plain) Sample.start (Sample.oneRequest 0)).map
      (fun r => r.2.log.any fun | .enqueued _ _ j => j == 0 | _ => false) = some true := by
    decide
  rw [hr] at hring
  obtain ⟨e, he, hzero⟩ := List.any_eq_true.mp (Option.some.inj hring)
  cases e with
  | enqueued m msg j =>
      have hproper := (hlast.proper _ he).1
      simp only [beq_iff_eq] at hzero
      omega
  | _ => simp at hzero

/-- A sysctl request is answered on its ring. -/
theorem messages_are_answered_sysctl :
    ∃ r, exec (step Sample.plain) Sample.start (Sample.oneRequest 1) = some r ∧
      ((∀ tr ∈ r.1, Protocol tr.after) ↔ ∀ tr ∈ r.1, StepFits tr.before tr.act) ∧
      r.2.ring 1 = [4096] := by
  obtain ⟨r, hr⟩ := Option.isSome_iff_exists.mp (by decide :
    (exec (step Sample.plain) Sample.start (Sample.oneRequest 1)).isSome = true)
  have hring : (exec (step Sample.plain) Sample.start (Sample.oneRequest 1)).map
      (fun r => r.2.ring 1) = some [4096] := by
    decide
  rw [hr] at hring
  exact ⟨r, hr, messages_are_answered_iff (Run.of_exec hr), Option.some.inj hring⟩

end LazyBsd.Control
