/-
# LazyBsd.Control.Results — the result of a control message and the operation behind it.

A failed FreeBSD function leaves its translated code in `lazybsd_errno`, and the handler reports the
`errno` of the C library. So the result of a failed operation is whatever that variable held, unless
something below FreeBSD set it to the very same value.
-/
import Mathlib.Tactic.Common
import LazyBsd.Control.Handlers

namespace LazyBsd.Control

/-! ## What should be reported -/

/-- What became of the operation: done, failed with a FreeBSD error code, or refused by the handler
without one. -/
inductive Outcome
  | success
  | failure (code : Int)
  | refused
  deriving DecidableEq, Repr

/-- The result tells the outcome: 0 exactly for success, else the host's value for the error code. -/
structure Reports (out : Outcome) (result : Int) : Prop where
  zero : result = 0 ↔ out = .success
  code : ∀ c, out = .failure c → result = osErrno c
  known : out = .refused → ∃ c, 1 ≤ c ∧ c ≤ 96 ∧ result = osErrno c

/-- The outcome of a single function. -/
def Kern.outcome (k : Kern) : Outcome := if k.rc = 0 then .success else .failure k.rc

/-- The outcome of an operation that needs a socket: the socket may be what fails. -/
def onSocket (socket : Kern) (out : Outcome) : Outcome :=
  if socket.rc = 0 then out else .failure socket.rc

/-- The operation behind a message. -/
def operation (b : Build) (o : Calls) (msg : Msg) : Outcome :=
  match handlerOf b msg.msgType with
  | .sysctl => (o.sysctl msg.args).outcome
  | .ioctl => onSocket (o.socket (ioctlDomain b msg) sockDgram 0) (o.ioctl msg.args).outcome
  | .ioctl6 => onSocket (o.socket (ioctlDomain b msg) sockDgram 0) (o.ioctl msg.args).outcome
  | .route => (o.route msg.args).outcome
  | .top => .success
  | .ngctl => (o.ngctl msg.args).outcome
  | .ipfwCtl =>
      onSocket (o.socket afInet sockRaw ipprotoRaw)
        (if msg.ipfwCmd = ipfwGet then (o.getsockopt msg.args).outcome
        else if msg.ipfwCmd = ipfwSet then (o.setsockopt msg.args).outcome
        else .failure lazybsdEnotsup)
  | .traffic => .success
  | .knictl =>
      if msg.kniCmd = knictlCmdGet ∨ msg.kniCmd = knictlCmdSet ∧ msg.kniAction ∈ knictlActions then
        .success
      else .refused
  | .unknown => .failure lazybsdEnotsup

/-! ## When it is reported -/

/-- A failure with this code is reported when `errno` happens to hold the translation. -/
def Told (out : Outcome) (errno : Int) : Prop := ∀ c, out = .failure c → errno = osErrno c

/-- `errno` is right after a call that needs a socket, `host` being what the calls after the socket do
to it. -/
def ToldOnSocket (o : Calls) (socket : Kern) (out : Outcome) (host : Int → Int) (errno : Int) : Prop :=
  if socket.rc = 0 then Told out (o.close.host (host (socket.host errno)))
  else Told socket.outcome (socket.host errno)

/-- When a handler reports the operation, by the `errno` it reads. -/
def ReportedWhen (b : Build) (o : Calls) (msg : Msg) (p : Proc) : Prop :=
  match handlerOf b msg.msgType with
  | .sysctl => Told (o.sysctl msg.args).outcome ((o.sysctl msg.args).host p.errno)
  | .ioctl =>
      ToldOnSocket o (o.socket (ioctlDomain b msg) sockDgram 0) (o.ioctl msg.args).outcome
        (o.ioctl msg.args).host p.errno
  | .ioctl6 =>
      ToldOnSocket o (o.socket (ioctlDomain b msg) sockDgram 0) (o.ioctl msg.args).outcome
        (o.ioctl msg.args).host p.errno
  | .route => Told (o.route msg.args).outcome ((o.route msg.args).host p.errno)
  | .top => True
  | .ngctl => Told (o.ngctl msg.args).outcome ((o.ngctl msg.args).host p.errno)
  | .ipfwCtl =>
      if msg.ipfwCmd = ipfwGet then
        ToldOnSocket o (o.socket afInet sockRaw ipprotoRaw) (o.getsockopt msg.args).outcome
          (o.getsockopt msg.args).host p.errno
      else if msg.ipfwCmd = ipfwSet then
        ToldOnSocket o (o.socket afInet sockRaw ipprotoRaw) (o.setsockopt msg.args).outcome
          (o.setsockopt msg.args).host p.errno
      else
        ToldOnSocket o (o.socket afInet sockRaw ipprotoRaw) (.failure lazybsdEnotsup)
          (fun _ => enotsup) p.errno
  | .traffic => True
  | .knictl =>
      msg.kniCmd = knictlCmdSet ∧ msg.kniAction ∈ knictlActions ∨
        msg.kniCmd = knictlCmdGet ∧ msg.result = 0
  | .unknown => True

/-! ## The translation of error codes -/

/-- No error becomes a success. -/
theorem osErrno_ne_zero {c : Int} (hc : c ≠ 0) : osErrno c ≠ 0 := by
  unfold osErrno
  cases hl : errnoTable.lookup c with
  | none => simpa using hc
  | some v =>
      have hpos : ∀ row ∈ errnoTable, row.2 ≠ 0 := by decide
      obtain ⟨row, hrow, rfl⟩ : ∃ row ∈ errnoTable, row.2 = v := by
        obtain ⟨l₁, l₂, heq, -⟩ := List.lookup_eq_some_iff.mp hl
        exact ⟨(c, v), by rw [heq]; simp, rfl⟩
      simpa using hpos row hrow

theorem reports_success {result : Int} : Reports .success result ↔ result = 0 :=
  ⟨fun h => h.zero.mpr rfl, fun h => ⟨by simp [h], by simp, by simp⟩⟩

theorem reports_failure {c result : Int} (hc : c ≠ 0) :
    Reports (.failure c) result ↔ result = osErrno c := by
  refine ⟨fun h => h.code c rfl, ?_⟩
  rintro rfl
  refine ⟨by simp [osErrno_ne_zero hc], ?_, by simp⟩
  intro c' h
  rw [Outcome.failure.inj h]

/-- The values for FreeBSD's codes are positive. -/
theorem osErrno_pos {c : Int} (hc : 1 ≤ c) : 1 ≤ osErrno c := by
  unfold osErrno
  cases hl : errnoTable.lookup c with
  | none => simpa using hc
  | some v =>
      have hpos : ∀ row ∈ errnoTable, 1 ≤ row.2 := by decide
      obtain ⟨l₁, l₂, heq, -⟩ := List.lookup_eq_some_iff.mp hl
      exact hpos (c, v) (by rw [heq]; simp)

theorem not_reports_refused {result : Int} (h : result ≤ 0) : ¬ Reports .refused result := by
  intro hr
  obtain ⟨c, hc, -, rfl⟩ := hr.known rfl
  have hpos := osErrno_pos hc
  omega

/-! ## The handlers -/

variable {o : Calls} {msg : Msg} {p : Proc}

/-- A return value that is negative for a failure, with the `errno` read after it. -/
theorem reports_ret {out : Outcome} {ret errno : Int} (hret : ret < 0 ↔ out ≠ .success)
    (hcode : ∀ c, out = .failure c → c ≠ 0) (hout : out ≠ .refused) :
    Reports out (if ret < 0 then errno else 0) ↔ Told out errno := by
  cases out with
  | success =>
      rw [if_neg (by simp [hret]), reports_success]
      simp [Told]
  | failure c =>
      rw [if_pos (by simp [hret]), reports_failure (hcode c rfl)]
      simp [Told]
  | refused => exact absurd rfl hout

theorem outcome_code {k : Kern} : ∀ c, k.outcome = .failure c → c ≠ 0 := by
  intro c h
  unfold Kern.outcome at h
  split at h
  · cases h
  · rename_i hrc
    rwa [← Outcome.failure.inj h]

theorem outcome_ne_refused {k : Kern} : k.outcome ≠ .refused := by
  unfold Kern.outcome
  split <;> simp

theorem kernCall_lt {k : Kern} : (kernCall k p).1 < 0 ↔ k.outcome ≠ .success := by
  unfold kernCall Kern.outcome
  by_cases h : k.rc = 0 <;> simp [h]

@[simp] theorem kernCall_errno {k : Kern} : (kernCall k p).2.errno = k.host p.errno := by
  unfold kernCall
  split <;> rfl

/-- A handler of one call. -/
theorem reports_call {k : Kern} :
    Reports k.outcome (if (kernCall k p).1 < 0 then (kernCall k p).2.errno else 0) ↔
      Told k.outcome (k.host p.errno) := by
  rw [reports_ret kernCall_lt outcome_code outcome_ne_refused, kernCall_errno]

/-- A handler that opens a socket: `call` is what it does with it. -/
theorem reports_onSocket (msg : Msg) {socket : Kern} (call : Proc → Int × Proc) {out : Outcome}
    {host : Int → Int} (hret : ∀ p, (call p).1 < 0 ↔ out ≠ .success)
    (hcode : ∀ c, out = .failure c → c ≠ 0) (hout : out ≠ .refused)
    (herrno : ∀ p, (call p).2.errno = host p.errno) :
    Reports (onSocket socket out)
        (if (kernCall socket p).1 < 0 then setResult (-1) (kernCall socket p).2 msg
        else setResult (call (kernCall socket p).2).1 (lazybsdClose o (call (kernCall socket p).2).2).2
          msg).result ↔
      ToldOnSocket o socket out host p.errno := by
  unfold onSocket ToldOnSocket
  by_cases hrc : socket.rc = 0
  · have hopen : ¬ (kernCall socket p).1 < 0 := by simp [kernCall_lt, Kern.outcome, hrc]
    rw [if_neg hopen, if_pos hrc, if_pos hrc, setResult, reports_ret (hret _) hcode hout]
    simp only [lazybsdClose, kernCall_errno, herrno]
  · have hfail : (kernCall socket p).1 < 0 := by simp [kernCall_lt, Kern.outcome, hrc]
    have hsocket : socket.outcome = .failure socket.rc := if_neg hrc
    rw [if_pos hfail, if_neg hrc, if_neg hrc, ← hsocket, setResult,
      reports_ret (by simp [hsocket]) outcome_code outcome_ne_refused, kernCall_errno]

theorem reports_ioctl {b : Build} :
    Reports (onSocket (o.socket (ioctlDomain b msg) sockDgram 0) (o.ioctl msg.args).outcome)
        (handleIoctlMsg b o msg p).1.result ↔
      ToldOnSocket o (o.socket (ioctlDomain b msg) sockDgram 0) (o.ioctl msg.args).outcome
        (o.ioctl msg.args).host p.errno := by
  rw [← reports_onSocket msg (kernCall (o.ioctl msg.args)) (fun _ => kernCall_lt)
    outcome_code outcome_ne_refused fun _ => kernCall_errno]
  unfold handleIoctlMsg lazybsdSocket lazybsdIoctlFreebsd
  dsimp only
  split <;> rfl

theorem reports_ipfw_call (call : Proc → Int × Proc) {out : Outcome} {host : Int → Int}
    (hcall : ∀ p, ipfwCall o msg p = call p) (hret : ∀ p, (call p).1 < 0 ↔ out ≠ .success)
    (hcode : ∀ c, out = .failure c → c ≠ 0) (hout : out ≠ .refused)
    (herrno : ∀ p, (call p).2.errno = host p.errno) :
    Reports (onSocket (o.socket afInet sockRaw ipprotoRaw) out) (handleIpfwMsg o msg p).1.result ↔
      ToldOnSocket o (o.socket afInet sockRaw ipprotoRaw) out host p.errno := by
  rw [← reports_onSocket msg call hret hcode hout herrno]
  unfold handleIpfwMsg lazybsdSocket
  simp only [hcall]
  split <;> rfl

theorem reports_knictl :
    Reports (if msg.kniCmd = knictlCmdGet ∨ msg.kniCmd = knictlCmdSet ∧ msg.kniAction ∈ knictlActions
        then .success else .refused) (handleKnictlMsg msg p).1.result ↔
      msg.kniCmd = knictlCmdSet ∧ msg.kniAction ∈ knictlActions ∨
        msg.kniCmd = knictlCmdGet ∧ msg.result = 0 := by
  have hne : knictlCmdSet ≠ knictlCmdGet := by decide
  unfold handleKnictlMsg
  by_cases hset : msg.kniCmd = knictlCmdSet
  · by_cases haction : msg.kniAction ∈ knictlActions
    · simp [hset, haction, reports_success]
    · simp [hset, haction, hne, not_reports_refused]
  · by_cases hget : msg.kniCmd = knictlCmdGet
    · simp [hget, Ne.symm hne, reports_success, Msg.setArg]
    · simp [hset, hget, not_reports_refused]

/-- **The results of control messages.** A handler reports its operation exactly when it succeeded or
`errno` holds the translation of its error code; getting the KNI action reports what the message already
said. -/
theorem result_reports_operation_iff (b : Build) (o : Calls) (msg : Msg) (p : Proc) :
    Reports (operation b o msg) (dispatchMsg b o msg p).1.result ↔ ReportedWhen b o msg p := by
  unfold operation dispatchMsg ReportedWhen
  cases handlerOf b msg.msgType with
  | sysctl => exact reports_call
  | ioctl => exact reports_ioctl
  | ioctl6 => exact reports_ioctl
  | route => exact reports_call
  | top => simp [handleTopMsg, reports_success]
  | ngctl =>
      dsimp only
      rw [← reports_call]
      unfold handleNgctlMsg lazybsdNgctl
      dsimp only
      split <;> simp
  | ipfwCtl =>
      dsimp only
      by_cases hget : msg.ipfwCmd = ipfwGet
      · rw [if_pos hget, if_pos hget]
        exact reports_ipfw_call (kernCall (o.getsockopt msg.args))
          (fun p => by rw [ipfwCall, if_pos hget]; rfl) (fun _ => kernCall_lt)
          outcome_code outcome_ne_refused fun _ => kernCall_errno
      · rw [if_neg hget, if_neg hget]
        by_cases hset : msg.ipfwCmd = ipfwSet
        · rw [if_pos hset, if_pos hset]
          exact reports_ipfw_call (kernCall (o.setsockopt msg.args))
            (fun p => by rw [ipfwCall, if_neg hget, if_pos hset]; rfl)
            (fun _ => kernCall_lt) outcome_code outcome_ne_refused fun _ => kernCall_errno
        · rw [if_neg hset, if_neg hset]
          exact reports_ipfw_call (fun p => (-1, { p with errno := enotsup }))
            (fun p => by rw [ipfwCall, if_neg hget, if_neg hset]) (fun _ => by simp)
            (fun c h => by rw [← Outcome.failure.inj h]; decide) (by simp) fun _ => rfl
  | traffic => simp [handleTrafficMsg, reports_success]
  | knictl => exact reports_knictl
  | unknown =>
      simp only [handleDefaultMsg, reports_failure (c := lazybsdEnotsup) (by decide), iff_true]
      decide

/-! ### A failed request that is reported as done -/

namespace Sample

/-- Every FreeBSD function fails with `EINVAL` and leaves `errno` alone. -/
def calls : Calls where
  sysctl _ := ⟨22, id⟩
  socket _ _ _ := ⟨22, id⟩
  ioctl _ := ⟨22, id⟩
  route _ := ⟨⟨22, id⟩, 0⟩
  ngctl _ := ⟨⟨22, id⟩, 0⟩
  getsockopt _ := ⟨22, id⟩
  setsockopt _ := ⟨22, id⟩
  close := ⟨22, id⟩

/-- A process in which nothing has failed yet. -/
def proc : Proc where
  errno := 0
  lazybsdErrno := 0
  knictlAction := 0
  topStatus _ := 0
  traffic _ := 0

/-- A sysctl request. -/
def sysctlMsg : Msg where
  msgType := 1
  result := 0
  bufLen := 10112
  bufAddr := 128
  originalBuf := 0
  originalBufLen := 0
  args _ := 0

end Sample

theorem failed_sysctl_reports_success :
    ¬ ∀ (b : Build) (o : Calls) (msg : Msg) (p : Proc),
      Reports (operation b o msg) (dispatchMsg b o msg p).1.result := by
  intro hclaim
  have hr := hclaim ⟨false, false, false, false⟩ Sample.calls Sample.sysctlMsg Sample.proc
  have hzero := hr.zero.mp (by decide)
  revert hzero
  decide

end LazyBsd.Control
