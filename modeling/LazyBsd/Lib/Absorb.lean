/-
# LazyBsd.Lib.Absorb — input that is compressed block by block.

Bytes are collected until a block of `n` is full, which `f` then works into the state. `one` takes a
single byte, `all` a row of them. How the input is cut into calls does not matter (`all_append`), and the
state is that of the full blocks (`all_blocks`).
-/
import Mathlib.Tactic.Common

namespace LazyBsd.Lib.Absorb

variable {σ β : Type*} {n : Nat} {f : σ → List β → σ} {s : σ} {pending bs : List β}

/-- One byte: the state and the bytes of the block that is not full. -/
def one (n : Nat) (f : σ → List β → σ) (p : σ × List β) (b : β) : σ × List β :=
  if (p.2 ++ [b]).length = n then (f p.1 (p.2 ++ [b]), []) else (p.1, p.2 ++ [b])

/-- A row of bytes. -/
def all (n : Nat) (f : σ → List β → σ) (p : σ × List β) (bs : List β) : σ × List β :=
  bs.foldl (one n f) p

/-- **Chunks do not matter.** -/
theorem all_append (p : σ × List β) (bs cs : List β) :
    all n f p (bs ++ cs) = all n f (all n f p bs) cs :=
  List.foldl_append ..

/-- Bytes that do not fill the block are kept. -/
theorem all_of_lt (h : pending.length + bs.length < n) :
    all n f (s, pending) bs = (s, pending ++ bs) := by
  induction bs generalizing pending with
  | nil => simp [all]
  | cons b bs ih =>
      rw [List.length_cons] at h
      have hstep : one n f (s, pending) b = (s, pending ++ [b]) := by
        have hmore : (pending ++ [b]).length ≠ n := by
          rw [List.length_append, List.length_singleton]
          omega
        exact if_neg hmore
      show all n f (one n f (s, pending) b) bs = _
      rw [hstep, ih (by rw [List.length_append, List.length_singleton]; omega), List.append_assoc,
        List.singleton_append]

/-- The byte that fills the block has it compressed. -/
theorem all_of_eq (hbs : bs ≠ []) (h : pending.length + bs.length = n) :
    all n f (s, pending) bs = (f s (pending ++ bs), []) := by
  obtain ⟨init, b, rfl⟩ := List.eq_nil_or_concat bs |>.resolve_left hbs
  rw [List.concat_eq_append] at h ⊢
  rw [List.length_append, List.length_singleton] at h
  have hfull : ((pending ++ init) ++ [b]).length = n := by
    rw [List.length_append, List.length_append, List.length_singleton]
    omega
  have hinit : all n f (s, pending) init = (s, pending ++ init) := all_of_lt (by omega)
  rw [all_append, hinit, ← List.append_assoc]
  exact if_pos hfull

/-- **The state is that of the full blocks**, and what is left of the input is pending. -/
theorem all_blocks {blocks : List (List β)} {rest : List β} (hn : 0 < n)
    (hblocks : ∀ b ∈ blocks, b.length = n) (hrest : rest.length < n) :
    all n f (s, []) (blocks.flatten ++ rest) = (blocks.foldl f s, rest) := by
  induction blocks generalizing s with
  | nil =>
      rw [List.flatten_nil, List.nil_append, all_of_lt (by simpa using hrest), List.nil_append]
      rfl
  | cons b blocks ih =>
      obtain ⟨hb, hmore⟩ := List.forall_mem_cons.mp hblocks
      have hne : b ≠ [] := List.ne_nil_of_length_pos (by omega)
      rw [List.flatten_cons, List.append_assoc, all_append, all_of_eq hne (by simpa using hb), ih hmore]
      rfl

end LazyBsd.Lib.Absorb
