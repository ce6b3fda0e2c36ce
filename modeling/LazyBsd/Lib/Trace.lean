/-
# LazyBsd.Lib.Trace — computations that log what they do and may be cut off.

`Traced ε α` is a list of events with a result, or without one when the computation was cut off before
its end. It is a monad, so code is written with `do`, and `All P` (every event satisfies `P`) is computed
along the code by `all_bind`. `loop` runs a body that either returns or goes on in a new state, at most
`n` times. Its two rules speak about the states that the body reaches: which events can occur in any
number of turns, and when some number of turns is enough. More turns than enough change nothing.
-/
import Mathlib.Logic.Relation

namespace LazyBsd.Lib

/-- The events of a computation, and its result unless it was cut off. -/
structure Traced (ε : Type*) (α : Type) where
  log : List ε
  res : Option α

namespace Traced

variable {ε : Type*} {α β σ : Type}

instance : Monad (Traced ε) where
  pure a := ⟨[], some a⟩
  bind x f :=
    match x.res with
    | some a => ⟨x.log ++ (f a).log, (f a).res⟩
    | none => ⟨x.log, none⟩

/-- Log one event. -/
def emit (e : ε) : Traced ε Unit := ⟨[e], some ()⟩

/-- Cut off: no more events and no result. -/
def cut : Traced ε α := ⟨[], none⟩

/-- Every event satisfies `P`. -/
def All (P : ε → Prop) (x : Traced ε α) : Prop := ∀ e ∈ x.log, P e

section Laws

variable {P : ε → Prop} {x : Traced ε α} {f : α → Traced ε β} {a : α} {e : ε}

@[simp] theorem log_pure : (pure a : Traced ε α).log = [] := rfl

@[simp] theorem log_emit : (emit e).log = [e] := rfl

@[simp] theorem res_pure : (pure a : Traced ε α).res = some a := rfl

@[simp] theorem res_emit : (emit e).res = some () := rfl

@[simp] theorem res_bind : (x >>= f).res = x.res.bind fun a => (f a).res := by
  show (match x.res with
    | some a => (⟨x.log ++ (f a).log, (f a).res⟩ : Traced ε β)
    | none => ⟨x.log, none⟩).res = _
  cases x.res <;> rfl

/-- The events of `x`, then those of what follows. -/
@[simp] theorem log_bind : (x >>= f).log = x.log ++ x.res.elim [] fun a => (f a).log := by
  show (match x.res with
    | some a => (⟨x.log ++ (f a).log, (f a).res⟩ : Traced ε β)
    | none => ⟨x.log, none⟩).log = _
  cases x.res <;> simp

@[simp] theorem all_pure : (pure a : Traced ε α).All P ↔ True :=
  iff_of_true (fun _ he => absurd he List.not_mem_nil) trivial

@[simp] theorem all_cut : (cut : Traced ε α).All P ↔ True :=
  iff_of_true (fun _ he => absurd he List.not_mem_nil) trivial

@[simp] theorem all_emit : (emit e).All P ↔ P e := by
  simp [All, emit]

@[simp] theorem all_bind :
    (x >>= f).All P ↔ x.All P ∧ ∀ a, x.res = some a → (f a).All P := by
  simp only [All, log_bind, List.forall_mem_append]
  cases x.res <;> simp

theorem all_bind_of_res (h : x.res = some a) : (x >>= f).All P ↔ x.All P ∧ (f a).All P := by
  rw [all_bind, h]
  simp

end Laws

/-! ## Computations that return -/

/-- Every event satisfies `P`, and the computation comes to an end with a result that satisfies `Q`. -/
def Meets (P : ε → Prop) (Q : α → Prop) (x : Traced ε α) : Prop := x.All P ∧ ∃ a, x.res = some a ∧ Q a

section Meets

variable {P : ε → Prop} {Q : α → Prop} {R : β → Prop} {x : Traced ε α} {f : α → Traced ε β} {a : α} {e : ε}

theorem Meets.pure (h : Q a) : (Pure.pure a : Traced ε α).Meets P Q :=
  ⟨all_pure.mpr trivial, a, rfl, h⟩

theorem Meets.emit {Q : Unit → Prop} (he : P e) (h : Q ()) : (Traced.emit e).Meets P Q :=
  ⟨all_emit.mpr he, (), rfl, h⟩

/-- The rule of sequence. -/
theorem Meets.bind (hx : x.Meets P Q) (hf : ∀ a, Q a → (f a).Meets P R) : (x >>= f).Meets P R := by
  obtain ⟨hall, a, hres, hq⟩ := hx
  obtain ⟨hall', b, hres', hr⟩ := hf a hq
  refine ⟨(all_bind_of_res hres).mpr ⟨hall, hall'⟩, b, ?_, hr⟩
  rw [res_bind, hres]
  exact hres'

/-- The rule of consequence. -/
theorem Meets.imp {Q' : α → Prop} (hx : x.Meets P Q) (h : ∀ a, Q a → Q' a) : x.Meets P Q' := by
  obtain ⟨hall, a, hres, hq⟩ := hx
  exact ⟨hall, a, hres, h a hq⟩

end Meets

/-! ## Loops -/

/-- Run the body until it returns, at most `n` times. -/
def loop (body : σ → Traced ε (α ⊕ σ)) : Nat → σ → Traced ε α
  | 0, _ => cut
  | n + 1, s => do
      match ← body s with
      | .inl a => pure a
      | .inr s' => loop body n s'

/-- The body goes on from `s` in `s'`. -/
def Next (body : σ → Traced ε (α ⊕ σ)) (s s' : σ) : Prop := (body s).res = some (.inr s')

/-- The states that the loop comes to. -/
def Reaches (body : σ → Traced ε (α ⊕ σ)) : σ → σ → Prop := Relation.ReflTransGen (Next body)

section Loop

variable {P : ε → Prop} {body : σ → Traced ε (α ⊕ σ)} {s : σ} {n : Nat}

theorem loop_succ_all :
    (loop body (n + 1) s).All P ↔ (body s).All P ∧ ∀ s', Next body s s' → (loop body n s').All P := by
  simp only [loop, all_bind]
  refine and_congr_right fun _ => ⟨fun h s' hs' => h (.inr s') hs', ?_⟩
  rintro h (a | s') hr
  · simp
  · exact h s' hr

/-- The events of the loop, whatever the number of turns, are the events of the bodies it comes to. -/
theorem loop_all_iff : (∀ n, (loop body n s).All P) ↔ ∀ s', Reaches body s s' → (body s').All P := by
  constructor
  · intro h s' hreach
    have hrest : ∀ n, (loop body n s').All P := by
      induction hreach with
      | refl => exact h
      | tail _ hnext ih => exact fun n => (loop_succ_all.mp (ih (n + 1))).2 _ hnext
    exact (loop_succ_all.mp (hrest 1)).1
  · intro h n
    induction n generalizing s with
    | zero => exact all_cut.mpr trivial
    | succ n ih =>
        refine loop_succ_all.mpr ⟨h s .refl, fun s' hnext => ih fun t hreach => ?_⟩
        exact h t (hreach.head hnext)

/-- The first turn goes on. -/
theorem loop_res_of_next {s' : σ} (h : Next body s s') :
    (loop body (n + 1) s).res = (loop body n s').res := by
  have hres : (body s).res = some (.inr s') := h
  simp [loop, hres]

/-- A loop whose bodies all come to an end and shrink a measure when they go on returns, after as many turns
as the measure says and one. -/
theorem loop_returns_within (μ : σ → Nat)
    (h : ∀ s', Reaches body s s' →
      ∃ r, (body s').res = some r ∧ ∀ s'', r = .inr s'' → μ s'' < μ s') (hn : μ s < n) :
    (loop body n s).res.isSome = true := by
  induction n generalizing s with
  | zero => exact absurd hn (Nat.not_lt_zero _)
  | succ n ih =>
      obtain ⟨r, hr, hlt⟩ := h s .refl
      cases r with
      | inl a => simp [loop, hr]
      | inr s' =>
          rw [loop_res_of_next hr]
          exact ih (fun t hreach => h t (hreach.head hr)) (Nat.lt_of_lt_of_le (hlt s' rfl) (Nat.le_of_lt_succ hn))

theorem loop_returns (μ : σ → Nat)
    (h : ∀ s', Reaches body s s' →
      ∃ r, (body s').res = some r ∧ ∀ s'', r = .inr s'' → μ s'' < μ s') :
    ∃ n, (loop body n s).res.isSome = true :=
  ⟨μ s + 1, loop_returns_within μ h (Nat.lt_succ_self _)⟩

/-- What the loop returns it returns with more turns, too. -/
theorem loop_res_le {a : α} {m : Nat} (h : (loop body n s).res = some a) (hle : n ≤ m) :
    (loop body m s).res = some a := by
  induction n generalizing s m with
  | zero => exact absurd h.symm (Option.some_ne_none a)
  | succ n ih =>
      obtain ⟨m, rfl⟩ : ∃ k, m = k + 1 := ⟨m - 1, by omega⟩
      cases hr : (body s).res with
      | none => simp [loop, hr] at h
      | some r =>
          cases r with
          | inl b => simpa [loop, hr] using h
          | inr s' =>
              rw [loop_res_of_next hr] at h ⊢
              exact ih h (by omega)

/-- A loop that comes to a state which goes on in itself never returns. -/
theorem loop_endless {s' : σ} (h : Reaches body s s') (hself : Next body s' s') :
    (loop body n s).res = none := by
  induction n generalizing s with
  | zero => rfl
  | succ n ih =>
      rcases Relation.ReflTransGen.cases_head h with rfl | ⟨t, hnext, hreach⟩
      · rw [loop_res_of_next hself]
        exact ih .refl
      · rw [loop_res_of_next hnext]
        exact ih hreach

end Loop

end Traced

end LazyBsd.Lib
