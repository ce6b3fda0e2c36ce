/-
# LazyBsd.Timeout.Service — what the timer service promises, as a property of its event log.

The service is seen from outside: callouts are initialised, reset and stopped, the clock ticks, and
handlers are called. `inForce` folds a log into the request that a callout waits for, with the number of
ticks since it was made, and `Legal` says which events may come next: a handler is called only in the
hardclock call of the tick that its request asked for, and that call does not return, nor the next tick
come, before it was. The theorems of this module draw the consequences for a whole log: what becomes of
each request, and where each call comes from.
-/
import Mathlib.Data.List.Induction

namespace LazyBsd.Timeout

variable {ι φ α : Type*}

/-! ## Events -/

/-- What happens at the interface. `tick` and `tock` are the increment of `ticks` by
`lazybsd_hardclock` and its return; `call` is a call of a callout's handler and `drainCall` one of a
drain function given to `_callout_stop_safe`. -/
inductive Event (ι φ α : Type*)
  | init (c : ι)
  | reset (c : ι) (toTicks : BitVec 32) (ftn : φ) (arg : Option α)
  | stop (c : ι)
  | tick
  | tock
  | call (c : ι) (func : φ) (arg : Option α)
  | drainCall (drain : φ) (arg : Option α)

/-- The ticks that a request waits for: at least one. -/
def delay (toTicks : BitVec 32) : Nat := (max toTicks.toInt 1).toNat

/-- The number of ticks in a log. -/
def ticksIn : List (Event ι φ α) → Nat
  | [] => 0
  | .tick :: es => ticksIn es + 1
  | _ :: es => ticksIn es

/-- The event is a call of the interface for the callout. -/
def Event.OfCaller (c : ι) : Event ι φ α → Prop
  | .init d => d = c
  | .reset d _ _ _ => d = c
  | .stop d => d = c
  | _ => False

theorem ticksIn_append (es es' : List (Event ι φ α)) :
    ticksIn (es ++ es') = ticksIn es + ticksIn es' := by
  induction es with
  | nil => simp [ticksIn]
  | cons e es ih =>
      cases e with
      | tick => simp only [List.cons_append, ticksIn, ih, Nat.add_right_comm]
      | _ => exact ih

/-- The event ends the request that the callout waits for. -/
def Event.Touches (c : ι) : Event ι φ α → Prop
  | .init d => d = c
  | .reset d _ _ _ => d = c
  | .stop d => d = c
  | .call d _ _ => d = c
  | _ => False

/-- No event of the log concerns the callout. -/
def Untouched (c : ι) (es : List (Event ι φ α)) : Prop := ∀ e ∈ es, ¬ e.Touches c

/-- Whether the log ends inside a hardclock call. -/
def ticking (log : List (Event ι φ α)) : Bool :=
  log.foldl (fun running e =>
    match e with
    | .tick => true
    | .tock => false
    | _ => running) false

/-- A call of the interface does not end a hardclock call. -/
theorem Event.OfCaller.ticking_append {c : ι} {e : Event ι φ α} (he : e.OfCaller c)
    (log : List (Event ι φ α)) : ticking (log ++ [e]) = ticking log := by
  cases e with
  | tick => exact he.elim
  | tock => exact he.elim
  | _ => simp [ticking]

/-! ## The request in force -/

/-- A request that a callout waits for, with the ticks since it was made. -/
structure Request (φ α : Type*) where
  toTicks : BitVec 32
  func : φ
  arg : Option α
  age : Nat

variable [DecidableEq ι]

/-- What an event does to the request that `c` waits for. -/
def track (c : ι) (req : Option (Request φ α)) : Event ι φ α → Option (Request φ α)
  | .init d => if d = c then none else req
  | .reset d t f a => if d = c then some ⟨t, f, a, 0⟩ else req
  | .stop d => if d = c then none else req
  | .call d _ _ => if d = c then none else req
  | .tick => req.map fun r => { r with age := r.age + 1 }
  | .tock => req
  | .drainCall _ _ => req

/-- The request that `c` waits for after the log. -/
def inForce (c : ι) (log : List (Event ι φ α)) : Option (Request φ α) := log.foldl (track c) none

@[simp] theorem inForce_append (c : ι) (log : List (Event ι φ α)) (e : Event ι φ α) :
    inForce c (log ++ [e]) = track c (inForce c log) e := by
  simp [inForce]

theorem track_of_not_touches {c : ι} {e : Event ι φ α} (he : ¬ e.Touches c)
    (req : Option (Request φ α)) :
    track c req e = req.map fun r => { r with age := r.age + ticksIn [e] } := by
  cases e with
  | tick => rfl
  | tock => simp [track, ticksIn]
  | drainCall d a => simp [track, ticksIn]
  | init d => simp [track, ticksIn, show d ≠ c from he]
  | reset d t f a => simp [track, ticksIn, show d ≠ c from he]
  | stop d => simp [track, ticksIn, show d ≠ c from he]
  | call d f a => simp [track, ticksIn, show d ≠ c from he]

/-- A call for one callout is nothing to the others. -/
theorem Event.OfCaller.track_of_ne {c x : ι} {e : Event ι φ α} (he : e.OfCaller c) (hx : x ≠ c)
    (req : Option (Request φ α)) : track x req e = req := by
  cases e with
  | init d => exact if_neg fun hd => hx (hd.symm.trans he)
  | reset d t f a => exact if_neg fun hd => hx (hd.symm.trans he)
  | stop d => exact if_neg fun hd => hx (hd.symm.trans he)
  | call d f a => exact he.elim
  | tick => exact he.elim
  | tock => exact he.elim
  | drainCall d a => exact he.elim

/-- An untouched request only ages. -/
theorem inForce_of_untouched {c : ι} {t : BitVec 32} {f : φ} {a : Option α}
    {pre post : List (Event ι φ α)} (h : Untouched c post) :
    inForce c (pre ++ .reset c t f a :: post) = some ⟨t, f, a, ticksIn post⟩ := by
  induction post using List.reverseRecOn with
  | nil => simp [track, ticksIn]
  | append_singleton es e ih =>
      have hes : Untouched c es := fun e' he' => h e' (List.mem_append_left _ he')
      have he : ¬ e.Touches c := h e (List.mem_append_right es (List.mem_singleton_self e))
      rw [← List.cons_append, ← List.append_assoc, inForce_append, ih hes, track_of_not_touches he,
        ticksIn_append]
      rfl

/-- A request in force was made by a reset, and the callout is untouched since. -/
theorem reset_of_inForce {c : ι} {log : List (Event ι φ α)} {r : Request φ α}
    (h : inForce c log = some r) :
    ∃ pre post, log = pre ++ .reset c r.toTicks r.func r.arg :: post ∧ Untouched c post ∧
      ticksIn post = r.age := by
  induction log using List.reverseRecOn generalizing r with
  | nil => simp [inForce] at h
  | append_singleton es e ih =>
      rw [inForce_append] at h
      by_cases he : e.Touches c
      · cases e with
        | reset d t f a =>
            obtain rfl : d = c := he
            obtain rfl : ⟨t, f, a, 0⟩ = r := by simpa [track] using h
            exact ⟨es, [], rfl, by simp [Untouched], rfl⟩
        | init d => simp [track, show d = c from he] at h
        | stop d => simp [track, show d = c from he] at h
        | call d f a => simp [track, show d = c from he] at h
        | tick => exact he.elim
        | tock => exact he.elim
        | drainCall d a => exact he.elim
      · rw [track_of_not_touches he, Option.map_eq_some_iff] at h
        obtain ⟨r₀, hr₀, rfl⟩ := h
        obtain ⟨pre, post, rfl, hpost, hage⟩ := ih hr₀
        refine ⟨pre, post ++ [e], by simp, ?_, ?_⟩
        · intro e' he'
          rcases List.mem_append.mp he' with hold | hnew
          · exact hpost e' hold
          · rwa [List.mem_singleton.mp hnew]
        · rw [ticksIn_append, hage]

/-! ## Legal logs -/

/-- No request in force has waited longer than it asked for. -/
def NoneDue (log : List (Event ι φ α)) : Prop :=
  ∀ c r, inForce c log = some r → r.age ≤ delay r.toTicks

/-- What may happen after a log. -/
def Admits (log : List (Event ι φ α)) : Event ι φ α → Prop
  | .init c => inForce c log = none
  | .tick => NoneDue log
  | .tock => NoneDue log
  | .call c f a => ticking log = true ∧ ∃ t, inForce c log = some ⟨t, f, a, delay t + 1⟩
  | _ => True

/-- Every event of the log was admitted when it came. -/
def Legal (log : List (Event ι φ α)) : Prop :=
  ∀ pre e post, log = pre ++ e :: post → Admits pre e

/-- A call of the interface makes nothing due. -/
theorem NoneDue.append_call {log : List (Event ι φ α)} {c : ι} {e : Event ι φ α}
    (h : NoneDue log) (he : e.OfCaller c) : NoneDue (log ++ [e]) := by
  intro x r hr
  rw [inForce_append] at hr
  by_cases hx : x = c
  · subst hx
    cases e with
    | reset d t f a =>
        obtain rfl : ⟨t, f, a, 0⟩ = r := by simpa [track, show d = x from he] using hr
        exact Nat.zero_le _
    | init d => simp [track, show d = x from he] at hr
    | stop d => simp [track, show d = x from he] at hr
    | call d f a => exact he.elim
    | tick => exact he.elim
    | tock => exact he.elim
    | drainCall d a => exact he.elim
  · rw [he.track_of_ne hx] at hr
    exact h x r hr

theorem Legal.nil : Legal ([] : List (Event ι φ α)) := by
  intro pre e post h
  simp at h

theorem Legal.append {log : List (Event ι φ α)} {e : Event ι φ α} (h : Legal log)
    (he : Admits log e) : Legal (log ++ [e]) := by
  intro pre e' post hsplit
  rcases List.eq_nil_or_concat post with rfl | ⟨post', e'', rfl⟩
  · obtain ⟨rfl, hlast⟩ := List.append_inj' hsplit rfl
    rwa [← List.singleton_inj.mp hlast]
  · rw [List.concat_eq_append, ← List.cons_append, ← List.append_assoc] at hsplit
    obtain ⟨rfl, -⟩ := List.append_inj' hsplit rfl
    exact h pre e' post' rfl

theorem Legal.left {log post : List (Event ι φ α)} (h : Legal (log ++ post)) : Legal log := by
  intro pre e rest hsplit
  exact h pre e (rest ++ post) (by rw [hsplit, List.append_assoc, List.cons_append])

/-- In a legal log no request is ever more than one tick over. -/
theorem Legal.age_le {log : List (Event ι φ α)} (h : Legal log) {c : ι} {r : Request φ α}
    (hr : inForce c log = some r) : r.age ≤ delay r.toTicks + 1 := by
  induction log using List.reverseRecOn generalizing r with
  | nil => simp [inForce] at hr
  | append_singleton es e ih =>
      rw [inForce_append] at hr
      by_cases he : e.Touches c
      · cases e with
        | reset d t f a =>
            obtain rfl : ⟨t, f, a, 0⟩ = r := by simpa [track, show d = c from he] using hr
            exact Nat.zero_le _
        | init d => simp [track, show d = c from he] at hr
        | stop d => simp [track, show d = c from he] at hr
        | call d f a => simp [track, show d = c from he] at hr
        | tick => exact he.elim
        | tock => exact he.elim
        | drainCall d a => exact he.elim
      · rw [track_of_not_touches he, Option.map_eq_some_iff] at hr
        obtain ⟨r₀, hr₀, rfl⟩ := hr
        have hold := ih h.left hr₀
        cases e with
        | tick => exact Nat.add_le_add_right (h es .tick [] rfl c r₀ hr₀) 1
        | _ => exact hold

/-! ## What becomes of a request -/

/-- What a legal log may hold after a request: nothing about the callout so far, for `limit` ticks at
most; or, first of all events about it, the call of its handler at exactly the tick after the delay, a
stop, or another reset. -/
def Outcome (c : ι) (t : BitVec 32) (f : φ) (a : Option α) (limit : Nat)
    (post : List (Event ι φ α)) : Prop :=
  (Untouched c post ∧ ticksIn post ≤ limit) ∨
    ∃ p e q, post = p ++ e :: q ∧ Untouched c p ∧
      (e = .call c f a ∧ ticksIn p = delay t + 1 ∨
        (e = .stop c ∨ ∃ t' f' a', e = .reset c t' f' a') ∧ ticksIn p ≤ delay t + 1)

omit [DecidableEq ι] in
/-- A log is untouched, or has a first event about the callout. -/
theorem untouched_or_first (c : ι) (es : List (Event ι φ α)) :
    Untouched c es ∨ ∃ p e q, es = p ++ e :: q ∧ Untouched c p ∧ e.Touches c := by
  induction es with
  | nil => exact .inl (by simp [Untouched])
  | cons e es ih =>
      by_cases he : e.Touches c
      · exact .inr ⟨[], e, es, rfl, by simp [Untouched], he⟩
      · rcases ih with hes | ⟨p, e', q, rfl, hp, he'⟩
        · exact .inl (by simpa [Untouched, he] using hes)
        · exact .inr ⟨e :: p, e', q, rfl, by simpa [Untouched, he] using hp, he'⟩

/-- **The fate of every request.** -/
theorem Legal.outcome {pre post : List (Event ι φ α)} {c : ι} {t : BitVec 32} {f : φ}
    {a : Option α} {limit : Nat} (h : Legal (pre ++ .reset c t f a :: post))
    (hlimit : ∀ r, inForce c (pre ++ .reset c t f a :: post) = some r →
      r.toTicks = t → r.age ≤ limit) :
    Outcome c t f a limit post := by
  rcases untouched_or_first c post with hpost | ⟨p, e, q, rfl, hp, he⟩
  · exact .inl ⟨hpost, hlimit _ (inForce_of_untouched hpost) rfl⟩
  · refine .inr ⟨p, e, q, rfl, hp, ?_⟩
    have hforce : inForce c (pre ++ .reset c t f a :: p) = some _ := inForce_of_untouched hp
    have hassoc : pre ++ .reset c t f a :: (p ++ e :: q) = (pre ++ .reset c t f a :: p) ++ e :: q := by
      simp
    have hallowed : Admits (pre ++ .reset c t f a :: p) e := h _ e q hassoc
    have hage : ticksIn p ≤ delay t + 1 := by
      rw [hassoc] at h
      exact h.left.age_le hforce
    cases e with
    | init d =>
        obtain rfl : d = c := he
        rw [Admits, hforce] at hallowed
        cases hallowed
    | reset d t' f' a' =>
        obtain rfl : d = c := he
        exact .inr ⟨.inr ⟨t', f', a', rfl⟩, hage⟩
    | stop d =>
        obtain rfl : d = c := he
        exact .inr ⟨.inl rfl, hage⟩
    | call d f' a' =>
        obtain rfl : d = c := he
        obtain ⟨-, t', ht'⟩ := hallowed
        rw [hforce] at ht'
        obtain ⟨rfl, rfl, rfl, hticks⟩ := by simpa using ht'
        exact .inl ⟨rfl, hticks⟩
    | tick => exact he.elim
    | tock => exact he.elim
    | drainCall d a => exact he.elim

/-- **The origin of every call.** -/
theorem Legal.origin {pre post : List (Event ι φ α)} {c : ι} {f : φ} {a : Option α}
    (h : Legal (pre ++ .call c f a :: post)) :
    ticking pre = true ∧ ∃ t p q, pre = p ++ .reset c t f a :: q ∧ Untouched c q ∧
      ticksIn q = delay t + 1 := by
  obtain ⟨hticking, t, ht⟩ := h pre _ post rfl
  obtain ⟨p, q, hpre, hq, hticks⟩ := reset_of_inForce ht
  exact ⟨hticking, t, p, q, hpre, hq, hticks⟩

end LazyBsd.Timeout
