/-
# LazyBsd.Lib.Linked — NULL-terminated singly linked chains in a memory of links.

A memory of links is a function `next : ι → Option ι` (`none` is the NULL pointer). The relation
`Linked next p l` says that following `next` from the pointer `p` visits exactly the nodes `l`, in
order, and then meets NULL. Everything here is generic in the node type: determinism, absence of
repeated nodes, framing (writes outside the chain), the append step of a builder loop that keeps a
tail pointer, and `walk`, the fuelled executable reader that agrees with the relation.
-/
import Mathlib.Data.List.Nodup
import Mathlib.Logic.Function.Basic

namespace LazyBsd.Lib

variable {ι : Type*}

/-- Following `next` from `p` visits exactly `l`, then NULL. -/
inductive Linked (next : ι → Option ι) : Option ι → List ι → Prop
  | nil : Linked next none []
  | cons {i : ι} {l : List ι} : Linked next (next i) l → Linked next (some i) (i :: l)

namespace Linked

variable {next next' : ι → Option ι} {p : Option ι} {l l' : List ι} {i j : ι}

theorem cons_inv (h : Linked next p (i :: l)) : p = some i ∧ Linked next (next i) l := by
  cases h with
  | cons htail => exact ⟨rfl, htail⟩

/-- A pointer determines its chain. -/
theorem unique (h : Linked next p l) (h' : Linked next p l') : l = l' := by
  induction h generalizing l' with
  | nil => cases h'; rfl
  | cons _ ih =>
      cases h' with
      | cons htail => rw [ih htail]

/-- Every node of a chain starts a chain of its own, no longer than the whole one. -/
theorem suffix (h : Linked next p l) (hi : i ∈ l) :
    ∃ l', Linked next (some i) l' ∧ l'.length ≤ l.length := by
  induction h with
  | nil => exact absurd hi List.not_mem_nil
  | @cons j l htail ih =>
      rcases List.mem_cons.mp hi with rfl | hmem
      · exact ⟨i :: l, .cons htail, Nat.le_refl _⟩
      · obtain ⟨l', hl', hle⟩ := ih hmem
        exact ⟨l', hl', Nat.le_succ_of_le hle⟩

/-- A finite chain visits no node twice. -/
theorem nodup (h : Linked next p l) : l.Nodup := by
  induction h with
  | nil => exact List.nodup_nil
  | @cons i l htail ih =>
      refine List.nodup_cons.mpr ⟨?_, ih⟩
      intro hmem
      obtain ⟨l', hl', hle⟩ := htail.suffix hmem
      have heq : l' = i :: l := hl'.unique (.cons htail)
      rw [heq, List.length_cons] at hle
      omega

/-- Two memories that agree on the nodes of a chain have the same chain. -/
theorem congr (h : Linked next p l) (hsame : ∀ k ∈ l, next' k = next k) : Linked next' p l := by
  induction h with
  | nil => exact .nil
  | @cons i l _ ih =>
      refine .cons ?_
      rw [hsame i List.mem_cons_self]
      exact ih fun k hk => hsame k (List.mem_cons_of_mem _ hk)

/-- The append step of a builder that keeps a tail pointer: `prev->next = cur`. -/
theorem append_tail [DecidableEq ι] (h : Linked next p (l ++ [i])) (hj : next j = none)
    (hne : j ∉ l ++ [i]) : Linked (Function.update next i (some j)) p (l ++ [i, j]) := by
  induction l generalizing p with
  | nil =>
      obtain ⟨rfl, _⟩ := cons_inv h
      have hij : j ≠ i := by simpa using hne
      refine .cons ?_
      rw [Function.update_self]
      refine .cons ?_
      rw [Function.update_of_ne hij, hj]
      exact .nil
  | cons k l ih =>
      have hnd : (k :: (l ++ [i])).Nodup := h.nodup
      obtain ⟨rfl, htail⟩ := cons_inv h
      have hki : k ≠ i := by
        rintro rfl
        exact (List.nodup_cons.mp hnd).1 (by simp)
      refine .cons ?_
      rw [Function.update_of_ne hki]
      exact ih htail fun hmem => hne (List.mem_cons_of_mem _ hmem)

/-- The same step when the link of the last node is not set before the end. -/
theorem append_cut [DecidableEq ι] (h : Linked (Function.update next i none) p (l ++ [i]))
    (hne : j ∉ l ++ [i]) :
    Linked (Function.update (Function.update next i (some j)) j none) p (l ++ [i, j]) := by
  have hij : j ≠ i := by
    rintro rfl
    exact hne (by simp)
  have hcut : Linked (Function.update (Function.update next i none) j none) p (l ++ [i]) := by
    apply h.congr
    intro k hk
    have hkj : k ≠ j := by
      rintro rfl
      exact hne hk
    rw [Function.update_of_ne hkj]
  have hmem := hcut.append_tail (Function.update_self _ _ _) hne
  rwa [Function.update_comm hij, Function.update_idem] at hmem

theorem head_eq_getElem? (h : Linked next p l) : p = l[0]? := by
  cases h with
  | nil => rfl
  | cons _ => rfl

/-- Each link leads to the next node, and the last one to NULL. -/
theorem next_eq_getElem? (h : Linked next p l) {k : Nat} (hk : l[k]? = some i) : next i = l[k + 1]? := by
  induction h generalizing k with
  | nil => cases hk
  | cons htail ih =>
      cases k with
      | zero =>
          obtain rfl := Option.some.inj hk
          exact htail.head_eq_getElem?
      | succ k => exact ih hk

end Linked

/-! ## The executable reader. -/

/-- Read a chain by following at most `fuel` links. -/
def walk (next : ι → Option ι) : Nat → Option ι → List ι
  | 0, _ => []
  | _ + 1, none => []
  | fuel + 1, some i => i :: walk next fuel (next i)

/-- With enough fuel the reader returns exactly the chain. -/
theorem Linked.walk_eq {next : ι → Option ι} {p : Option ι} {l : List ι} (h : Linked next p l) :
    ∀ {fuel : Nat}, l.length ≤ fuel → walk next fuel p = l := by
  induction h with
  | nil =>
      intro fuel _
      cases fuel <;> rfl
  | @cons i l _ ih =>
      intro fuel hfuel
      obtain ⟨fuel, rfl⟩ : ∃ k, fuel = k + 1 := ⟨fuel - 1, by simp at hfuel; omega⟩
      have hle : l.length ≤ fuel := by simpa using hfuel
      simp only [walk, ih hle]

end LazyBsd.Lib
