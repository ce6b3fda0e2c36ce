/-
# LazyBsd.Lib.Delay — a ring of slots as a delay line.

A ring of `N` slots is written at its head, which then moves on by one and wraps around. `hist` is the
list of everything written, from the start. Slot `k % N` holds entry `k` of the history for the last
`N` entries, so what a write overwrites is the entry from `N` writes before: the entries leave the ring
in the order in which they came, each one exactly `N` writes later.
-/
import Mathlib.Data.List.Basic
import Mathlib.Data.List.ReduceOption
import Mathlib.Logic.Function.Basic
import Mathlib.Tactic.Common

namespace LazyBsd.Lib

variable {ι : Type*}

/-- The table is the end of the history, and the head is where it goes on. -/
structure Delay (N : Nat) (hist : List (Option ι)) (tab : Nat → Option ι) (head : Nat) : Prop where
  head : head = hist.length % N
  recent : ∀ k e, hist[k]? = some e → hist.length ≤ k + N → tab (k % N) = e
  fresh : ∀ j, hist.length ≤ j → j < N → tab j = none

/-- The tokens that have left the ring. -/
def evicted (N : Nat) (hist : List (Option ι)) : List ι :=
  (hist.take (hist.length - N)).reduceOption

namespace Delay

variable {N : Nat} {hist : List (Option ι)} {tab : Nat → Option ι} {head : Nat}

theorem empty : Delay N ([] : List (Option ι)) (fun _ => none) 0 where
  head := by simp
  recent k e h := by simp at h
  fresh j _ _ := rfl

/-- A write. -/
theorem write (h : Delay N hist tab head) (e : Option ι) :
    Delay N (hist ++ [e]) (Function.update tab head e) ((head + 1) % N) where
  head := by
    rw [h.head, List.length_append, List.length_singleton, Nat.mod_add_mod]
  recent k e' hk hrecent := by
    rw [List.length_append, List.length_singleton] at hrecent
    rw [h.head]
    by_cases hlast : k = hist.length
    · subst hlast
      rw [List.getElem?_concat_length] at hk
      rw [Function.update_self]
      exact Option.some.inj hk
    · have hlt : k < hist.length := by
        have hle := (List.getElem?_eq_some_iff.mp hk).1
        rw [List.length_append, List.length_singleton] at hle
        omega
      have hold : hist[k]? = some e' := by rwa [List.getElem?_append_left hlt] at hk
      -- the last `N` entries have different slots
      have hne : k % N ≠ hist.length % N := by
        intro heq
        have hdvd : N ∣ hist.length - k := Nat.dvd_of_mod_eq_zero (Nat.sub_mod_eq_zero_of_mod_eq heq.symm)
        have hle := Nat.le_of_dvd (by omega) hdvd
        omega
      rw [Function.update_of_ne hne]
      exact h.recent k e' hold (by omega)
  fresh j hj hjN := by
    rw [List.length_append, List.length_singleton] at hj
    have hne : j ≠ head := by
      rw [h.head, Nat.mod_eq_of_lt (by omega)]
      omega
    rw [Function.update_of_ne hne]
    exact h.fresh j (by omega) hjN

/-- What a write overwrites. -/
theorem overwritten (h : Delay N hist tab head) (hN : 0 < N) (e : Option ι) :
    evicted N (hist ++ [e]) = evicted N hist ++ (tab head).toList := by
  unfold evicted
  rw [List.length_append, List.length_singleton]
  by_cases hfull : N ≤ hist.length
  · have hlt : hist.length - N < hist.length := by omega
    have hslot : tab head = hist[hist.length - N] := by
      rw [h.head]
      have hrecent := h.recent (hist.length - N) _ (List.getElem?_eq_getElem hlt) (by omega)
      rwa [← Nat.mod_eq_sub_mod hfull] at hrecent
    rw [show hist.length + 1 - N = hist.length - N + 1 by omega,
      List.take_append_of_le_length (by omega), List.take_succ_eq_append_getElem hlt,
      List.reduceOption_append, hslot]
    cases hist[hist.length - N] <;> rfl
  · have hnone : tab head = none := by
      rw [h.head, Nat.mod_eq_of_lt (by omega)]
      exact h.fresh _ (Nat.le_refl _) (by omega)
    rw [show hist.length + 1 - N = 0 by omega, show hist.length - N = 0 by omega, hnone]
    rfl

/-- A token leaves the ring `N` writes after it came. -/
theorem mem_evicted {k : Nat} {x : ι} (hk : hist[k]? = some (some x)) (hlt : k + N < hist.length) :
    x ∈ evicted N hist := by
  rw [evicted, List.reduceOption_mem_iff]
  refine List.mem_of_getElem? (i := k) ?_
  rw [List.getElem?_take_of_lt (by omega)]
  exact hk

/-- Until then it is in the ring. -/
theorem mem_slot (h : Delay N hist tab head) {k : Nat} {x : ι} (hk : hist[k]? = some (some x))
    (hle : hist.length ≤ k + N) : tab (k % N) = some x :=
  h.recent k _ hk hle

end Delay

end LazyBsd.Lib
