/-
# LazyBsd.Lib.Gather — bytes copied one after another, between places that need not lie side by side.

A list of moves is carried out in order, each reading what the ones before it have left. Scattering a
buffer over places and gathering it from them are such lists, and a copy of one stretch to another is
one, as long as it overwrites nothing that it still has to read.
-/
import Mathlib.Data.List.Nodup
import Mathlib.Logic.Function.Basic
import LazyBsd.Lib.Object

namespace LazyBsd.Lib.Object

section Stretch

variable {ι : Type} {p q : Ptr ι} {m n : Nat}

/-- The `n` cells at `p`. -/
def stretch (p : Ptr ι) (n : Nat) : List (Ptr ι) := (List.range n).map fun i => p + i

@[simp] theorem length_stretch : (stretch p n).length = n := by simp [stretch]

theorem stretch_add (p : Ptr ι) (m n : Nat) : stretch p (m + n) = stretch p m ++ stretch (p + m) n := by
  rw [stretch, List.range_add, List.map_append, List.map_map]
  congr 1
  apply List.map_congr_left
  intro i _
  show p + (m + i) = p + m + i
  rw [Ptr.add_add]

theorem stretch_succ (p : Ptr ι) (n : Nat) : stretch p (n + 1) = stretch p n ++ [p + n] := by
  rw [stretch_add]
  rfl

theorem nodup_stretch : (stretch p n).Nodup := by
  refine List.nodup_range.map_on fun i _ j _ h => ?_
  have hoff : p.off + i = p.off + j := congrArg Ptr.off h
  omega

theorem mem_stretch : q ∈ stretch p n ↔ p.Covers n q := by
  constructor
  · intro h
    obtain ⟨i, hi, rfl⟩ := List.mem_map.mp h
    exact ⟨rfl, Nat.le_add_right _ _, Nat.add_lt_add_left (List.mem_range.mp hi) _⟩
  · rintro ⟨hobj, hlo, hhi⟩
    refine List.mem_map.mpr ⟨q.off - p.off, List.mem_range.mpr (by omega), ?_⟩
    show (⟨p.obj, p.off + (q.off - p.off)⟩ : Ptr ι) = q
    rw [← hobj, Nat.add_sub_cancel' hlo]

end Stretch

section Moves

variable {ι : Type} [DecidableEq ι] {b : Contents ι} {src dst q : Ptr ι} {n : Nat}
  {moves moves' : List (Ptr ι × Ptr ι)}

/-- The moves carried out in order, each from its first place to its second. -/
def copyEach (b : Contents ι) (moves : List (Ptr ι × Ptr ι)) : Contents ι :=
  moves.foldl (fun b mv => Function.update b mv.2 (b mv.1)) b

@[simp] theorem copyEach_nil : copyEach b [] = b := rfl

theorem copyEach_append : copyEach b (moves ++ moves') = copyEach (copyEach b moves) moves' :=
  List.foldl_append

/-- A place that no move goes to keeps its byte. -/
theorem copyEach_other (h : q ∉ moves.map Prod.snd) : copyEach b moves q = b q := by
  induction moves generalizing b with
  | nil => rfl
  | cons mv moves ih =>
      obtain ⟨hmv, hrest⟩ := not_or.mp (List.mem_cons.not.mp h)
      exact (ih hrest).trans (Function.update_of_ne hmv _ _)

/-- A place that one move goes to has the byte of its source, if no move goes there. -/
theorem copyEach_at (hmem : (src, dst) ∈ moves) (hdst : (moves.map Prod.snd).Nodup)
    (hsrc : src ∉ moves.map Prod.snd) : copyEach b moves dst = b src := by
  induction moves generalizing b with
  | nil => cases hmem
  | cons mv moves ih =>
      obtain ⟨hmv, hrest⟩ := not_or.mp (List.mem_cons.not.mp hsrc)
      obtain ⟨hfirst, hdst⟩ := List.nodup_cons.mp hdst
      rcases List.mem_cons.mp hmem with rfl | hmem
      · -- the byte is there after the first move, and no later one goes there
        exact (copyEach_other hfirst).trans (Function.update_self _ _ _)
      · exact (ih hmem hdst hrest).trans (Function.update_of_ne hmv _ _)

/-- A copy that overwrites nothing it has still to read goes byte by byte. -/
theorem copied_eq_copyEach (h : ∀ q ∈ stretch src n, q ∉ stretch dst n) :
    copied b src dst n = copyEach b ((stretch src n).zip (stretch dst n)) := by
  induction n with
  | zero =>
      funext q
      exact copied_other fun hcovers => absurd hcovers.2.2 (Nat.not_lt.mpr hcovers.2.1)
  | succ n ih =>
      have hshort : ∀ q ∈ stretch src n, q ∉ stretch dst n := fun q hq hd =>
        h q (by rw [stretch_succ]; exact List.mem_append_left _ hq)
          (by rw [stretch_succ]; exact List.mem_append_left _ hd)
      -- the last byte is read where none of the others was written
      have hlast : ¬ dst.Covers n (src + n) := fun hcovers =>
        h (src + n) (by rw [stretch_succ]; simp)
          (by rw [stretch_succ]; exact List.mem_append_left _ (mem_stretch.mpr hcovers))
      rw [stretch_succ, stretch_succ, List.zip_append (by simp), copyEach_append, ← ih hshort]
      funext q
      show copied b src dst (n + 1) q =
        Function.update (copied b src dst n) (dst + n) (copied b src dst n (src + n)) q
      rw [copied_other hlast]
      by_cases hq : q = dst + n
      · subst hq
        rw [Function.update_self, copied_at (Nat.lt_succ_self n)]
      · rw [Function.update_of_ne hq]
        have hcovers : dst.Covers (n + 1) q ↔ dst.Covers n q := by
          rw [← mem_stretch, ← mem_stretch, stretch_succ, List.mem_append, List.mem_singleton]
          exact or_iff_left hq
        rw [copied, copied]
        exact if_congr hcovers rfl rfl

end Moves

end LazyBsd.Lib.Object
