/-
# LazyBsd.Lib.Stores — rows of writes to a block.

What is left after a row of writes is, at each place, what the last write that covers the place put
there. Hence the same row again changes nothing (`writes_again`), and where no two writes cover a place in
common their order does not matter (`writes_perm`) and each piece is what was written (`read_writes`).
-/
import LazyBsd.Lib.Block
import Mathlib.Data.List.Perm.Basic
import Mathlib.Tactic.Common

namespace LazyBsd.Lib.Block

variable {α : Type*} {b : Nat → α} {w w' : Nat × List α} {ws ws' : List (Nat × List α)} {k : Nat}

/-- The writes one after the other: where, and what. -/
def writes (b : Nat → α) (ws : List (Nat × List α)) : Nat → α := ws.foldl (fun b w => write b w.1 w.2) b

/-- The place `k` is one of those a write changes. -/
def Covers (w : Nat × List α) (k : Nat) : Prop := w.1 ≤ k ∧ k < w.1 + w.2.length

/-- No place is covered by both. -/
def Apart (w w' : Nat × List α) : Prop := w.1 + w.2.length ≤ w'.1 ∨ w'.1 + w'.2.length ≤ w.1

instance : DecidableRel (@Apart α) := fun _ _ => inferInstanceAs (Decidable (_ ∨ _))

theorem Apart.symm (h : Apart w w') : Apart w' w := Or.symm h

theorem write_of_not_covers (h : ¬ Covers w k) : write b w.1 w.2 k = b k := by
  rcases Nat.lt_or_ge k w.1 with hbefore | hge
  · exact write_before hbefore
  · exact write_after (Nat.le_of_not_lt fun hlt => h ⟨hge, hlt⟩)

/-- What a write puts at a place does not depend on what was there. -/
theorem write_of_covers (h : Covers w k) (b b' : Nat → α) : write b w.1 w.2 k = write b' w.1 w.2 k := by
  obtain ⟨i, rfl⟩ := Nat.exists_eq_add_of_le h.1
  have hi : i < w.2.length := by
    have hlt := h.2
    omega
  rw [write_at b w.1 w.2 hi, write_at b' w.1 w.2 hi]

theorem write_comm (h : Apart w w') :
    write (write b w.1 w.2) w'.1 w'.2 = write (write b w'.1 w'.2) w.1 w.2 := by
  funext k
  by_cases hk : Covers w k
  · have hk' : ¬ Covers w' k := fun hk' => by
      have h₁ := hk.1
      have h₂ := hk.2
      have h₃ := hk'.1
      have h₄ := hk'.2
      rcases h with h | h <;> omega
    rw [write_of_not_covers hk', write_of_covers hk]
  · rw [write_of_not_covers hk]
    by_cases hk' : Covers w' k
    · exact write_of_covers hk' _ _
    · rw [write_of_not_covers hk', write_of_not_covers hk', write_of_not_covers hk]

theorem writes_cons : writes b (w :: ws) = writes (write b w.1 w.2) ws := rfl

/-- At each place a row of writes leaves something of its own, or what was there. -/
theorem writes_fixed_or_kept (ws : List (Nat × List α)) (k : Nat) :
    (∀ b b' : Nat → α, writes b ws k = writes b' ws k) ∨ ∀ b : Nat → α, writes b ws k = b k := by
  induction ws with
  | nil => exact .inr fun b => rfl
  | cons w ws ih =>
      rcases ih with hfixed | hkept
      · exact .inl fun b b' => hfixed _ _
      · by_cases hk : Covers w k
        · refine .inl fun b b' => ?_
          rw [writes_cons, writes_cons, hkept, hkept]
          exact write_of_covers hk b b'
        · refine .inr fun b => ?_
          rw [writes_cons, hkept]
          exact write_of_not_covers hk

/-- **The same writes again change nothing.** -/
theorem writes_again : writes (writes b ws) ws = writes b ws := by
  funext k
  rcases writes_fixed_or_kept ws k with hfixed | hkept
  · exact hfixed _ _
  · exact hkept _

theorem writes_of_not_covers (h : ∀ w ∈ ws, ¬ Covers w k) : writes b ws k = b k := by
  induction ws generalizing b with
  | nil => rfl
  | cons w ws ih =>
      obtain ⟨hw, hrest⟩ := List.forall_mem_cons.mp h
      rw [writes_cons, ih hrest, write_of_not_covers hw]

/-- **The order does not matter** where no two writes cover a place in common. -/
theorem writes_perm (hperm : ws.Perm ws') (h : ws.Pairwise Apart) : writes b ws = writes b ws' := by
  induction hperm generalizing b with
  | nil => rfl
  | cons w _ ih => exact ih (List.pairwise_cons.mp h).2
  | swap w w' ws =>
      have hapart := (List.pairwise_cons.mp h).1 w List.mem_cons_self
      rw [writes_cons, writes_cons, writes_cons, writes_cons, write_comm hapart]
  | trans h₁ _ ih₁ ih₂ => exact (ih₁ h).trans (ih₂ (h.perm h₁ Apart.symm))

/-- **Each piece is what was written.** -/
theorem read_writes (h : ws.Pairwise Apart) (hw : w ∈ ws) : read (writes b ws) w.1 w.2.length = w.2 := by
  induction ws generalizing b with
  | nil => exact absurd hw List.not_mem_nil
  | cons w₀ ws ih =>
      obtain ⟨hfirst, hrest⟩ := List.pairwise_cons.mp h
      rcases List.mem_cons.mp hw with rfl | hmem
      · have hlater : read (writes (write b w.1 w.2) ws) w.1 w.2.length =
            read (write b w.1 w.2) w.1 w.2.length := by
          refine read_congr fun i hi => writes_of_not_covers fun w' hw' hcovers => ?_
          have h₁ := hcovers.1
          have h₂ := hcovers.2
          rcases hfirst w' hw' with hapart | hapart <;> omega
        rw [writes_cons, hlater, read_write]
      · exact ih hrest hmem

end LazyBsd.Lib.Block
