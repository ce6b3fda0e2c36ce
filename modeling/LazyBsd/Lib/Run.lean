/-
# LazyBsd.Lib.Run — runs of a partial step function.

A step function `step : σ → α → Option σ` takes a state and an action; `none` means that the action
cannot be completed (the process aborts, or the caller broke the contract). A run is recorded as the
list of its transitions `(before, action, after)`, so that a property of every step of a run is a
quantifier over that list. The two rules are the usual ones: an invariant of the steps is an
invariant of the runs, and a property that every step has from invariant states holds of every
transition of a run.
-/
import Mathlib.Data.List.Basic
import Mathlib.Data.List.Chain
import Mathlib.Order.WellFounded
import Mathlib.Tactic.Common

namespace LazyBsd.Lib

variable {σ α : Type*}

/-- One transition of a run. -/
structure Transition (σ α : Type*) where
  before : σ
  act : α
  after : σ

/-- `Run step s ts t`: the transitions `ts` lead from `s` to `t`, each one allowed by `step`. -/
inductive Run (step : σ → α → Option σ) (s : σ) : List (Transition σ α) → σ → Prop
  | nil : Run step s [] s
  | snoc {ts : List (Transition σ α)} {t t' : σ} {a : α} :
      Run step s ts t → step t a = some t' → Run step s (ts ++ [⟨t, a, t'⟩]) t'

namespace Run

variable {step : σ → α → Option σ} {s t : σ} {ts : List (Transition σ α)}

/-- An invariant preserved by every step holds in every state a run reaches. -/
theorem invariant {I : σ → Prop} (hstep : ∀ {t a t'}, I t → step t a = some t' → I t')
    (h : Run step s ts t) (hs : I s) : I t := by
  induction h with
  | nil => exact hs
  | snoc _ ha ih => exact hstep ih ha

/-- Every transition of a run is a step of the function, taken between invariant states. -/
theorem of_mem {I : σ → Prop} (hstep : ∀ {t a t'}, I t → step t a = some t' → I t')
    (h : Run step s ts t) (hs : I s) :
    ∀ tr ∈ ts, I tr.before ∧ step tr.before tr.act = some tr.after ∧ I tr.after := by
  induction h with
  | nil => intro tr htr; exact absurd htr List.not_mem_nil
  | @snoc ts t t' a hrun ha ih =>
      have ht : I t := hrun.invariant hstep hs
      intro tr htr
      rcases List.mem_append.mp htr with hold | hnew
      · exact ih tr hold
      · rw [List.mem_singleton.mp hnew]
        exact ⟨ht, ha, hstep ht ha⟩

/-- **The guarded run rule.** Steps that meet `C` preserve `P` between `I`-states, and a step that
lands in a `P`-state from a `P`-state meets `C`: then the states of a run all satisfy `P` exactly when
all its steps meet `C`. -/
theorem forall_iff {I P : σ → Prop} {C : σ → α → Prop}
    (hstep : ∀ {t a t'}, I t → step t a = some t' → I t')
    (hiff : ∀ {t a t'}, I t → P t → step t a = some t' → (P t' ↔ C t a))
    (h : Run step s ts t) (hs : I s) (hP : P s) :
    ((∀ tr ∈ ts, P tr.after) ↔ ∀ tr ∈ ts, C tr.before tr.act) ∧ ((∀ tr ∈ ts, P tr.after) → P t) := by
  induction h with
  | nil => exact ⟨by simp, fun _ => hP⟩
  | @snoc ts t t' a hrun ha ih =>
      have ht : I t := hrun.invariant hstep hs
      obtain ⟨ihiff, ihlast⟩ := ih
      simp only [List.forall_mem_append, List.forall_mem_singleton]
      refine ⟨⟨?_, ?_⟩, fun hall => hall.2⟩
      · rintro ⟨hall, hlast⟩
        exact ⟨ihiff.mp hall, (hiff ht (ihlast hall) ha).mp hlast⟩
      · rintro ⟨hall, hlast⟩
        have hpre := ihiff.mpr hall
        exact ⟨hpre, (hiff ht (ihlast hpre) ha).mpr hlast⟩

/-- **The run rule under a condition.** Steps that meet `C` lead from `I`-states to `I`-states and have the
property `Q`: then every transition of a run whose steps all meet `C` has it. -/
theorem guarded {I : σ → Prop} {C : σ → α → Prop} {Q : Transition σ α → Prop}
    (hstep : ∀ {t a t'}, I t → C t a → step t a = some t' → I t' ∧ Q ⟨t, a, t'⟩)
    (h : Run step s ts t) (hs : I s) (hC : ∀ tr ∈ ts, C tr.before tr.act) :
    I t ∧ ∀ tr ∈ ts, Q tr := by
  induction h with
  | nil => exact ⟨hs, by simp⟩
  | @snoc ts t t' a hrun ha ih =>
      obtain ⟨hpre, hlast⟩ := List.forall_mem_append.mp hC
      obtain ⟨ht, hall⟩ := ih hpre
      obtain ⟨ht', hq⟩ := hstep ht (hlast _ (List.mem_singleton_self _)) ha
      refine ⟨ht', fun tr htr => ?_⟩
      rcases List.mem_append.mp htr with hold | hnew
      · exact hall tr hold
      · rw [List.mem_singleton.mp hnew]
        exact hq

/-- A run after a run. -/
theorem append {ts' : List (Transition σ α)} {t' : σ} (h : Run step s ts t)
    (h' : Run step t ts' t') : Run step s (ts ++ ts') t' := by
  induction h' with
  | nil =>
      rw [List.append_nil]
      exact h
  | snoc _ hlast ih =>
      rw [← List.append_assoc]
      exact snoc ih hlast

/-- A step in front of a run. -/
theorem cons {s₁ : σ} {a : α} (ha : step s a = some s₁) (h : Run step s₁ ts t) :
    Run step s (⟨s, a, s₁⟩ :: ts) t := by
  induction h with
  | nil => exact snoc nil ha
  | snoc _ hlast ih => exact snoc ih hlast

end Run

/-! ## Running a list of actions -/

/-- The transitions of the actions `as` from `s`, and the last state; `none` if one of them cannot be
completed. -/
def exec (step : σ → α → Option σ) : σ → List α → Option (List (Transition σ α) × σ)
  | s, [] => some ([], s)
  | s, a :: as =>
      match step s a with
      | none => none
      | some s' => (exec step s' as).map fun r => (⟨s, a, s'⟩ :: r.1, r.2)

/-- The first action of a list that can be completed. -/
theorem exec_cons {step : σ → α → Option σ} {s : σ} {a : α} {as : List α}
    {r : List (Transition σ α) × σ} (h : exec step s (a :: as) = some r) :
    ∃ s' r', step s a = some s' ∧ exec step s' as = some r' ∧ r = (⟨s, a, s'⟩ :: r'.1, r'.2) := by
  unfold exec at h
  cases hs : step s a with
  | none => simp [hs] at h
  | some s' =>
      simp only [hs, Option.map_eq_some_iff] at h
      obtain ⟨r', hr', rfl⟩ := h
      exact ⟨s', r', rfl, hr', rfl⟩

theorem Run.of_exec {step : σ → α → Option σ} {s : σ} {as : List α}
    {r : List (Transition σ α) × σ} (h : exec step s as = some r) : Run step s r.1 r.2 := by
  induction as generalizing s r with
  | nil =>
      obtain rfl := Option.some.inj h
      exact .nil
  | cons a as ih =>
      obtain ⟨s', r', hs, hr', rfl⟩ := exec_cons h
      exact (ih hr').cons hs

theorem exec_acts {step : σ → α → Option σ} {s : σ} {as : List α}
    {r : List (Transition σ α) × σ} (h : exec step s as = some r) : r.1.map Transition.act = as := by
  induction as generalizing s r with
  | nil =>
      obtain rfl := Option.some.inj h
      rfl
  | cons a as ih =>
      obtain ⟨s', r', hs, hr', rfl⟩ := exec_cons h
      rw [List.map_cons, ih hr']

/-! ## A variable carried along -/

/-- **The carry rule.** Each step updates a variable in place by its action. Then every step leaves
what its action makes of the initial value exactly if no action's update depends on the one before. -/
theorem Run.carried_iff {γ : Type*} {step : σ → α → Option σ} {v : σ → γ} {f : α → γ → γ} {s t : σ}
    {ts : List (Transition σ α)}
    (hstep : ∀ {t a t'}, step t a = some t' → v t' = f a (v t)) (h : Run step s ts t) :
    (∀ tr ∈ ts, v tr.after = f tr.act (v s)) ↔
      (ts.map Transition.act).IsChain fun a b => f b (f a (v s)) = f b (v s) := by
  -- the last action is what the next one builds on
  suffices hlast : ((∀ tr ∈ ts, v tr.after = f tr.act (v s)) ↔
      (ts.map Transition.act).IsChain fun a b => f b (f a (v s)) = f b (v s)) ∧
      (ts = [] → t = s) ∧ ∀ tr ∈ ts.getLast?, tr.after = t from hlast.1
  induction h with
  | nil => simp
  | @snoc ts t t' a hrun ha ih =>
      obtain ⟨ihiff, ihnil, ihlast⟩ := ih
      refine ⟨?_, by simp, by simp⟩
      rw [List.forall_mem_append, List.forall_mem_singleton, ihiff, List.map_append,
        List.isChain_append]
      have hval := hstep ha
      rcases List.eq_nil_or_concat' ts with rfl | ⟨ts, tr, rfl⟩
      · obtain rfl := ihnil rfl
        simp [hval]
      · obtain rfl : tr.after = t := ihlast tr (by simp)
        have hbefore (hchain : ((ts ++ [tr]).map Transition.act).IsChain
            fun a b => f b (f a (v s)) = f b (v s)) : v tr.after = f tr.act (v s) :=
          ihiff.mpr hchain tr (by simp)
        constructor
        · rintro ⟨hchain, hown⟩
          refine ⟨hchain, .singleton _, ?_⟩
          rw [hval, hbefore hchain] at hown
          simpa using hown
        · rintro ⟨hchain, -, hjoin⟩
          refine ⟨hchain, ?_⟩
          rw [hval, hbefore hchain]
          simpa using hjoin

/-! ## Infinite runs -/

/-- A run without end: in each turn an action of the schedule, or none, when the turn is passed over. -/
structure Endless (step : σ → α → Option σ) (s : σ) (sched : Nat → Option α) (run : Nat → σ) : Prop where
  start : run 0 = s
  turn : ∀ n a, sched n = some a → step (run n) a = some (run (n + 1))
  pause : ∀ n, sched n = none → run (n + 1) = run n

namespace Endless

variable {step : σ → α → Option σ} {s : σ} {sched : Nat → Option α} {run : Nat → σ} {n m : Nat}

/-- A turn is a step or changes nothing. -/
theorem succ (h : Endless step s sched run) (n : Nat) :
    run (n + 1) = run n ∨ ∃ a, sched n = some a ∧ step (run n) a = some (run (n + 1)) := by
  cases hn : sched n with
  | none => exact .inl (h.pause n hn)
  | some a => exact .inr ⟨a, rfl, h.turn n a hn⟩

/-- Up to each of its states it is a run. -/
theorem reaches (h : Endless step s sched run) (n : Nat) : ∃ ts, Run step s ts (run n) := by
  induction n with
  | zero =>
      rw [h.start]
      exact ⟨[], .nil⟩
  | succ n ih =>
      obtain ⟨ts, hrun⟩ := ih
      rcases h.succ n with hsame | ⟨a, -, ha⟩
      · rw [hsame]
        exact ⟨ts, hrun⟩
      · exact ⟨_, hrun.snoc ha⟩

/-- What no step undoes holds from a state on in which it holds. -/
theorem stays {I P : σ → Prop} (hstep : ∀ {t a t'}, I t → step t a = some t' → I t')
    (hP : ∀ {t a t'}, I t → P t → step t a = some t' → P t') (h : Endless step s sched run) (hs : I s)
    (hnm : n ≤ m) (hp : P (run n)) : P (run m) := by
  induction m, hnm using Nat.le_induction with
  | base => exact hp
  | succ m _ ih =>
      rcases h.succ m with hsame | ⟨a, -, ha⟩
      · rw [hsame]
        exact ih
      · obtain ⟨ts, hrun⟩ := h.reaches m
        exact hP (hrun.invariant hstep hs) ih ha

end Endless

/-- The states of a run of the actions `as`, which stops after them. -/
def play (step : σ → α → Option σ) : σ → List α → Nat → σ
  | s, [], _ => s
  | s, _ :: _, 0 => s
  | s, a :: as, n + 1 => play step ((step s a).getD s) as n

section Play

variable {step : σ → α → Option σ} {s : σ} {as : List α} {r : List (Transition σ α) × σ}

theorem play_zero (step : σ → α → Option σ) (s : σ) (as : List α) : play step s as 0 = s := by
  cases as <;> rfl

/-- It is without end, in that nothing more happens. -/
theorem Endless.of_exec (h : exec step s as = some r) :
    Endless step s (fun n => as[n]?) (play step s as) := by
  induction as generalizing s r with
  | nil => exact ⟨rfl, fun n a hn => by simp at hn, fun _ _ => rfl⟩
  | cons a as ih =>
      obtain ⟨s', r', hs, hr', -⟩ := exec_cons h
      have hrest := ih hr'
      have hnext (n : Nat) : play step s (a :: as) (n + 1) = play step s' as n := by
        show play step ((step s a).getD s) as n = _
        rw [hs, Option.getD_some]
      refine ⟨rfl, fun n b hn => ?_, fun n hn => ?_⟩
      · cases n with
        | zero =>
            obtain rfl : a = b := Option.some.inj hn
            show step s a = some (play step s (a :: as) 1)
            rw [hnext, play_zero, hs]
        | succ n =>
            rw [hnext, hnext]
            exact hrest.turn n b hn
      · cases n with
        | zero => exact absurd hn (by simp)
        | succ n =>
            rw [hnext, hnext]
            exact hrest.pause n hn

theorem play_of_length_le (h : exec step s as = some r) {n : Nat} (hn : as.length ≤ n) :
    play step s as n = r.2 := by
  induction as generalizing s r n with
  | nil =>
      obtain rfl := Option.some.inj h
      rfl
  | cons a as ih =>
      obtain ⟨s', r', hs, hr', rfl⟩ := exec_cons h
      obtain ⟨n, rfl⟩ : ∃ k, n = k + 1 := ⟨n - 1, by simp only [List.length_cons] at hn; omega⟩
      show play step ((step s a).getD s) as n = _
      rw [hs, Option.getD_some]
      exact ih hr' (by simpa using hn)

end Play

/-- **The measure rule.** A sequence of states that never increases a well-founded measure and, again
and again, decreases it gets done. -/
theorem exists_done_of_measure {μ : Type*} [Preorder μ] [WellFoundedLT μ] {run : Nat → σ}
    (done : σ → Prop) (M : σ → μ)
    (hle : ∀ n, ¬ done (run n) → M (run (n + 1)) ≤ M (run n))
    (hlt : ∀ n, ∃ m, n ≤ m ∧ (¬ done (run m) → M (run (m + 1)) < M (run m))) :
    ∃ n, done (run n) := by
  by_contra hnever
  have hnot (n : Nat) : ¬ done (run n) := fun hdone => hnever ⟨n, hdone⟩
  have hanti (n m : Nat) (hnm : n ≤ m) : M (run m) ≤ M (run n) := by
    induction m, hnm using Nat.le_induction with
    | base => exact le_rfl
    | succ m _ ih => exact (hle m (hnot m)).trans ih
  have hno (x : μ) : ∀ n, M (run n) = x → False := by
    induction x using WellFoundedLT.induction with
    | ind x ih =>
        intro n hx
        obtain ⟨m, hnm, hm⟩ := hlt n
        exact ih _ (((hm (hnot m)).trans_le (hanti n m hnm)).trans_eq hx) (m + 1) rfl
  exact hno _ 0 rfl

end LazyBsd.Lib
