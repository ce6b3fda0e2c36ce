/-
# LazyBsd.Lib.Strings — blocks of terminated strings.

A block is a sequence of strings, each closed by a terminator `z`, with one more terminator behind the
last: the format of an `environ` block, of a list of file names, of a table of options. The first string
may be empty, the others may not, since an empty string behind a terminator is the end of the block.
`Strings` carries these conditions, and every sequence that holds two terminators in a row starts with
exactly such a block (`exists_strings`).
-/
import Mathlib.Data.List.Basic

namespace LazyBsd.Lib

variable {α : Type*}

section Terminated

variable [DecidableEq α] {z : α} {e : List α}

/-- What stands before the first terminator. -/
theorem takeWhile_terminated (hz : z ∉ e) (t : List α) : (e ++ z :: t).takeWhile (· ≠ z) = e := by
  have hpos : ∀ c ∈ e, decide (c ≠ z) = true := fun c hc => decide_eq_true (ne_of_mem_of_not_mem hc hz)
  rw [List.takeWhile_append_of_pos hpos, List.takeWhile_cons_of_neg (by simp), List.append_nil]

theorem dropWhile_terminated (hz : z ∉ e) (t : List α) : (e ++ z :: t).dropWhile (· ≠ z) = z :: t := by
  have hpos : ∀ c ∈ e, decide (c ≠ z) = true := fun c hc => decide_eq_true (ne_of_mem_of_not_mem hc hz)
  rw [List.dropWhile_append_of_pos hpos, List.dropWhile_cons_of_neg (by simp)]

end Terminated

/-- The strings of a block that is closed by two terminators. -/
structure Strings (z : α) where
  first : List α
  others : List (List α)
  unterminated : ∀ e ∈ first :: others, z ∉ e
  nonempty : ∀ e ∈ others, e ≠ []

namespace Strings

variable {z : α}

/-- The strings in order. -/
def entries (b : Strings z) : List (List α) := b.first :: b.others

/-- The strings `es`, each with its terminator, then the last terminator, then what follows the block in
memory. -/
def layout (z : α) (es : List (List α)) (tail : List α) : List α :=
  es.flatMap (fun e => e ++ [z]) ++ z :: tail

/-- The block in memory. -/
def chars (b : Strings z) (tail : List α) : List α := layout z b.entries tail

@[simp] theorem layout_nil (tail : List α) : layout z [] tail = z :: tail := rfl

@[simp] theorem layout_cons (e : List α) (es : List (List α)) (tail : List α) :
    layout z (e :: es) tail = e ++ z :: layout z es tail := by
  simp [layout, List.append_assoc]

/-- The block that starts with one more string. -/
def cons (e : List α) (he : z ∉ e) (b : Strings z) (hb : b.first ≠ []) : Strings z where
  first := e
  others := b.entries
  unterminated := List.forall_mem_cons.mpr ⟨he, b.unterminated⟩
  nonempty := List.forall_mem_cons.mpr ⟨hb, b.nonempty⟩

/-- **Two terminators in a row close a block.** Whatever stands before the first such pair is a sequence
of strings. -/
theorem exists_strings [DecidableEq α] (before after : List α) :
    ∃ (b : Strings z) (tail : List α), before ++ z :: z :: after = b.chars tail := by
  induction before with
  | nil =>
      let empty : Strings z := ⟨[], [], by simp, by simp⟩
      exact ⟨empty, after, rfl⟩
  | cons c before ih =>
      obtain ⟨b, tail, hb⟩ := ih
      by_cases hc : c = z
      · subst hc
        by_cases hne : b.first = []
        · -- the terminator and the empty string behind it are the end of a block
          let empty : Strings c := ⟨[], [], by simp, by simp⟩
          refine ⟨empty, layout c b.others tail, ?_⟩
          rw [List.cons_append, hb]
          simp [chars, entries, hne, empty]
        · refine ⟨cons [] (by simp) b hne, tail, ?_⟩
          rw [List.cons_append, hb]
          rfl
      · have hmem : z ∉ c :: b.first := by
          simp only [List.mem_cons, not_or]
          exact ⟨Ne.symm hc, b.unterminated _ List.mem_cons_self⟩
        refine ⟨⟨c :: b.first, b.others,
          List.forall_mem_cons.mpr ⟨hmem, (List.forall_mem_cons.mp b.unterminated).2⟩, b.nonempty⟩,
          tail, ?_⟩
        rw [List.cons_append, hb]
        simp [chars, entries]

end Strings

end LazyBsd.Lib
