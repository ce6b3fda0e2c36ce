/-
# LazyBsd.Lib.Block — blocks of memory, read and written in pieces.

A block is a function from offsets to its units. `read` takes a piece out and `write` stores one; a
write that continues where another one ended is one write of both pieces.
-/
import Mathlib.Data.List.Basic

namespace LazyBsd.Lib.Block

variable {α : Type*}

/-- The `n` units at `off`. -/
def read (b : Nat → α) (off n : Nat) : List α := (List.range n).map fun i => b (off + i)

/-- The units `xs` stored at `off`. -/
def write (b : Nat → α) (off : Nat) (xs : List α) : Nat → α :=
  fun k => if off ≤ k then xs.getD (k - off) (b k) else b k

section Read

variable {b b' : Nat → α} {off n : Nat}

@[simp] theorem length_read : (read b off n).length = n := by simp [read]

theorem getElem_read {i : Nat} (hi : i < (read b off n).length) : (read b off n)[i] = b (off + i) := by
  simp [read]

theorem getElem?_read {i : Nat} (hi : i < n) : (read b off n)[i]? = some (b (off + i)) := by
  simp [read, hi]

theorem read_congr (h : ∀ i < n, b' (off + i) = b (off + i)) : read b' off n = read b off n := by
  apply List.map_congr_left
  intro i hi
  exact h i (List.mem_range.mp hi)

theorem read_take {k : Nat} (hk : k ≤ n) : (read b off n).take k = read b off k := by
  rw [read, read, ← List.map_take, List.take_range, Nat.min_eq_left hk]

theorem read_append (b : Nat → α) (off n k : Nat) :
    read b off (n + k) = read b off n ++ read b (off + n) k := by
  simp only [read, List.range_add, List.map_append, List.map_map]
  congr 1
  apply List.map_congr_left
  intro i _
  simp only [Function.comp_apply, Nat.add_assoc]

end Read

section Write

variable {b : Nat → α} {off k : Nat} {xs ys : List α}

theorem write_before (hk : k < off) : write b off xs k = b k := by
  rw [write, if_neg (by omega)]

theorem write_after (hk : off + xs.length ≤ k) : write b off xs k = b k := by
  rw [write, if_pos (by omega), List.getD_eq_getElem?_getD, List.getElem?_eq_none (by omega)]
  rfl

theorem write_at (b : Nat → α) (off : Nat) (xs : List α) {i : Nat} (hi : i < xs.length) :
    write b off xs (off + i) = xs[i] := by
  rw [write, if_pos (by omega), Nat.add_sub_cancel_left, List.getD_eq_getElem?_getD,
    List.getElem?_eq_getElem hi]
  rfl

/-- What lies at `p` and behind it is a block of its own. -/
theorem write_shift (b : Nat → α) (p off : Nat) (xs : List α) (k : Nat) :
    write b (p + off) xs (p + k) = write (fun j => b (p + j)) off xs k := by
  simp only [write, Nat.add_le_add_iff_left, Nat.add_sub_add_left]

@[simp] theorem write_nil : write b off [] = b := by
  funext k
  simp [write]

/-- Two writes that meet are one. -/
theorem write_append : write (write b off xs) (off + xs.length) ys = write b off (xs ++ ys) := by
  funext k
  rcases Nat.lt_or_ge k (off + xs.length) with hlt | hge
  · rw [write_before hlt]
    rcases Nat.lt_or_ge k off with hbefore | hin
    · rw [write_before hbefore, write_before hbefore]
    · have hi : k - off < xs.length := by omega
      have hat := write_at b off xs hi
      have hat' := write_at b off (xs ++ ys) (i := k - off)
        (by rw [List.length_append]; omega)
      rw [Nat.add_sub_cancel' hin] at hat hat'
      rw [hat, hat', List.getElem_append_left hi]
  · rcases Nat.lt_or_ge k (off + (xs ++ ys).length) with hin | hafter
    · have hlen : (xs ++ ys).length = xs.length + ys.length := List.length_append
      have hi : k - (off + xs.length) < ys.length := by omega
      have hat := write_at (write b off xs) (off + xs.length) ys hi
      have hat' := write_at b off (xs ++ ys) (i := k - off) (by omega)
      rw [Nat.add_sub_cancel' hge] at hat
      rw [Nat.add_sub_cancel' (by omega : off ≤ k)] at hat'
      rw [hat, hat', List.getElem_append_right (by omega)]
      congr 1
      omega
    · rw [List.length_append] at hafter
      rw [write_after (by omega), write_after (by omega),
        write_after (by rw [List.length_append]; omega)]

theorem read_write (b : Nat → α) (off : Nat) (xs : List α) : read (write b off xs) off xs.length = xs := by
  refine List.ext_getElem (by simp) ?_
  intro i hi hi'
  rw [getElem_read, write_at b off xs hi']

/-- What is stored where it was read changes nothing. -/
@[simp] theorem write_read (b : Nat → α) (off n : Nat) : write b off (read b off n) = b := by
  funext k
  rcases Nat.lt_or_ge k off with hbefore | hge
  · exact write_before hbefore
  · rcases Nat.lt_or_ge k (off + n) with hin | hafter
    · obtain ⟨i, rfl⟩ := Nat.exists_eq_add_of_le hge
      have hi : i < (read b off n).length := by
        rw [length_read]
        omega
      rw [write_at b off _ hi, getElem_read]
    · exact write_after (by rw [length_read]; exact hafter)

/-- A piece beside the written one. -/
theorem read_write_of_disjoint {o n : Nat} (h : o + n ≤ off ∨ off + xs.length ≤ o) :
    read (write b off xs) o n = read b o n := by
  apply read_congr
  intro i hi
  rcases h with hbefore | hafter
  · exact write_before (by omega)
  · exact write_after (by omega)

end Write

end LazyBsd.Lib.Block
