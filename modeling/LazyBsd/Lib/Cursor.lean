/-
# LazyBsd.Lib.Cursor — walking a list that changes under the walk.

A walk keeps a cursor into a list: the next element to visit, or `none` at the end. While the walk
stands still, other code may remove any element and insert new ones at the head. `Cursor p l cur` says
that the cursor still covers the work: every element with the property `p` lies at the cursor or behind
it. It survives when a removal moves the cursor off the removed element and an insertion moves the
cursor to the head. `distance` is what is left to walk; it is the measure that a step of the walk
decreases.
-/
import Mathlib.Data.List.Nodup
import Mathlib.Data.List.Count

namespace LazyBsd.Lib

variable {ι : Type*}

/-! ## The cursor -/

/-- Every element of `l` with the property `p` lies at the cursor or behind it. -/
def Cursor (p : ι → Prop) (l : List ι) (cur : Option ι) : Prop :=
  ∃ l₁ l₂, l = l₁ ++ l₂ ∧ l₂.head? = cur ∧ ∀ x ∈ l₁, ¬ p x

namespace Cursor

variable {p q : ι → Prop} {l : List ι} {cur : Option ι} {x : ι}

/-- A walk begins at the head. -/
theorem start : Cursor p l l.head? := ⟨[], l, rfl, rfl, by simp⟩

/-- At the end of the walk no element has the property. -/
theorem finished (h : Cursor p l none) : ∀ x ∈ l, ¬ p x := by
  obtain ⟨l₁, l₂, rfl, hhead, hl₁⟩ := h
  rw [List.head?_eq_none_iff.mp hhead, List.append_nil]
  exact hl₁

theorem imp (h : Cursor p l cur) (hpq : ∀ x ∈ l, q x → p x) : Cursor q l cur := by
  obtain ⟨l₁, l₂, rfl, hhead, hl₁⟩ := h
  refine ⟨l₁, l₂, rfl, hhead, fun x hx hq => hl₁ x hx ?_⟩
  exact hpq x (List.mem_append_left l₂ hx) hq

theorem mem (h : Cursor p l (some x)) : x ∈ l := by
  obtain ⟨l₁, l₂, rfl, hhead, -⟩ := h
  exact List.mem_append_right l₁ (List.mem_of_head? hhead)

/-- The list around a cursor that stands on an element. -/
theorem split (hl : l.Nodup) (h : Cursor p l (some x)) :
    ∃ l₁ l₂, l = l₁ ++ x :: l₂ ∧ x ∉ l₁ ∧ ∀ y ∈ l₁, ¬ p y := by
  obtain ⟨l₁, l₂, rfl, hhead, hl₁⟩ := h
  obtain ⟨l₂', rfl⟩ := List.head?_eq_some_iff.mp hhead
  have hx : x ∉ l₁ := fun hin => List.disjoint_of_nodup_append hl hin (List.mem_cons_self ..)
  exact ⟨l₁, l₂', rfl, hx, hl₁⟩

/-- An element is inserted at the head, and the cursor with it. -/
theorem insert : Cursor p (x :: l) (some x) := start

end Cursor

/-! ## The element after an element -/

variable [DecidableEq ι]

/-- The part of a list from the element `x` on. -/
def listFrom (x : ι) : List ι → List ι
  | [] => []
  | y :: ys => if y = x then y :: ys else listFrom x ys

/-- The element that follows `x` in a list. -/
def listNext (x : ι) (l : List ι) : Option ι := (listFrom x l).tail.head?

theorem listFrom_append {x : ι} {l₁ l₂ : List ι} (hx : x ∉ l₁) :
    listFrom x (l₁ ++ x :: l₂) = x :: l₂ := by
  induction l₁ with
  | nil => simp [listFrom]
  | cons y ys ih =>
      simp only [List.mem_cons, not_or] at hx
      rw [List.cons_append, listFrom, if_neg (Ne.symm hx.1), ih hx.2]

theorem listNext_append {x : ι} {l₁ l₂ : List ι} (hx : x ∉ l₁) :
    listNext x (l₁ ++ x :: l₂) = l₂.head? := by
  rw [listNext, listFrom_append hx, List.tail_cons]

/-- How many elements a walk from the cursor still visits. -/
def distance (l : List ι) : Option ι → Nat
  | none => 0
  | some x => (listFrom x l).length

/-! ## The steps of a walk -/

namespace Cursor

variable {p : ι → Prop} {l : List ι} {cur : Option ι} {x : ι}

/-- The walk passes an element without the property. -/
theorem skip (hl : l.Nodup) (h : Cursor p l (some x)) (hx : ¬ p x) :
    Cursor p l (listNext x l) := by
  obtain ⟨l₁, l₂, rfl, hmem, hl₁⟩ := h.split hl
  refine ⟨l₁ ++ [x], l₂, by simp, (listNext_append hmem).symm, fun y hy => ?_⟩
  rcases List.mem_append.mp hy with hold | hnew
  · exact hl₁ y hold
  · rwa [List.mem_singleton.mp hnew]

/-- An element is removed; a cursor that stands on it moves to the next one. -/
theorem erase (hl : l.Nodup) (h : Cursor p l cur) :
    Cursor p (l.erase x) (if cur = some x then listNext x l else cur) := by
  split_ifs with hcur
  · obtain ⟨l₁, l₂, rfl, hmem, hl₁⟩ := Cursor.split hl (hcur ▸ h)
    refine ⟨l₁, l₂, ?_, (listNext_append hmem).symm, hl₁⟩
    rw [List.erase_append_right _ hmem, List.erase_cons_head]
  · obtain ⟨l₁, l₂, rfl, hhead, hl₁⟩ := h
    by_cases hmem : x ∈ l₁
    · refine ⟨l₁.erase x, l₂, List.erase_append_left l₂ hmem, hhead, fun y hy => ?_⟩
      exact hl₁ y (List.mem_of_mem_erase hy)
    · refine ⟨l₁, l₂.erase x, List.erase_append_right l₂ hmem, ?_, hl₁⟩
      cases l₂ with
      | nil => exact hhead
      | cons y ys =>
          have hne : ¬ (y == x) = true := by
            intro hyx
            exact hcur (by rw [← hhead, List.head?_cons, beq_iff_eq.mp hyx])
          rw [List.erase_cons_tail hne]
          exact hhead

/-- Every step of the walk shortens the way to go. -/
theorem distance_listNext (hl : l.Nodup) (h : Cursor p l (some x)) :
    distance l (listNext x l) < distance l (some x) := by
  obtain ⟨l₁, l₂, rfl, hmem, -⟩ := h.split hl
  rw [listNext_append hmem]
  simp only [distance, listFrom_append hmem, List.length_cons]
  cases l₂ with
  | nil => exact Nat.succ_pos _
  | cons y ys =>
      have hy : y ∉ l₁ ++ [x] := by
        rw [List.append_cons] at hl
        exact fun hin => List.disjoint_of_nodup_append hl hin (List.mem_cons_self ..)
      have hfrom : listFrom y (l₁ ++ x :: y :: ys) = y :: ys := by
        rw [List.append_cons, listFrom_append hy]
      simp [hfrom]

end Cursor

end LazyBsd.Lib
