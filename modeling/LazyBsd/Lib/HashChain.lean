/-
# LazyBsd.Lib.HashChain — a table of chains as a map.

An entry has a key, and the key's hash says which chain it is in. An insertion replaces the entry with
the same key, where it stands, or puts a new one at the head. Chains are shared by all keys of one hash;
the laws of a map hold all the same, and each chain has at most one entry for a key.
-/
import Mathlib.Data.List.Induction
import Mathlib.Data.List.Nodup
import Mathlib.Logic.Function.Basic

namespace LazyBsd.Lib.HashChain

variable {ε κ β : Type*} [DecidableEq κ] (key : ε → κ)

/-! ## One chain -/

/-- The entry of `k`. -/
def find (k : κ) (chain : List ε) : Option ε := chain.find? fun e => decide (key e = k)

/-- `e` in the place of the first entry with its key. -/
def replace (e : ε) : List ε → List ε
  | [] => []
  | x :: chain => if key x = key e then e :: chain else x :: replace e chain

/-- `e` in the place of the entry with its key, or at the head. -/
def put (e : ε) (chain : List ε) : List ε :=
  if (find key (key e) chain).isSome then replace key e chain else e :: chain

variable {key} {e x : ε} {k : κ} {chain : List ε}

theorem find_cons_self (hx : key x = k) : find key k (x :: chain) = some x :=
  List.find?_cons_of_pos (p := fun e => decide (key e = k)) (decide_eq_true hx)

theorem find_cons_of_ne (hx : key x ≠ k) : find key k (x :: chain) = find key k chain :=
  List.find?_cons_of_neg (p := fun e => decide (key e = k)) (by rwa [decide_eq_true_eq])

theorem find_eq_none : find key k chain = none ↔ k ∉ chain.map key := by
  rw [find, List.find?_eq_none]
  constructor
  · intro h hk
    obtain ⟨x, hx, rfl⟩ := List.mem_map.mp hk
    exact h x hx (decide_eq_true rfl)
  · intro h x hx hkey
    exact h (of_decide_eq_true hkey ▸ List.mem_map_of_mem hx)

/-- A replacement keeps the keys. -/
@[simp] theorem map_replace : (replace key e chain).map key = chain.map key := by
  induction chain with
  | nil => rfl
  | cons x chain ih =>
      rw [replace]
      split
      · next hx => rw [List.map_cons, List.map_cons, hx]
      · rw [List.map_cons, List.map_cons, ih]

theorem find_replace_self (h : (find key (key e) chain).isSome) :
    find key (key e) (replace key e chain) = some e := by
  induction chain with
  | nil => cases h
  | cons x chain ih =>
      rw [replace]
      by_cases hx : key x = key e
      · rw [if_pos hx, find_cons_self rfl]
      · rw [find_cons_of_ne hx] at h
        rw [if_neg hx, find_cons_of_ne hx, ih h]

theorem find_replace_of_ne (hne : key e ≠ k) : find key k (replace key e chain) = find key k chain := by
  induction chain with
  | nil => rfl
  | cons x chain ih =>
      rw [replace]
      by_cases hx : key x = key e
      · rw [if_pos hx, find_cons_of_ne hne, find_cons_of_ne (hx ▸ hne)]
      · rw [if_neg hx]
        -- the entry of `k` may stand before the one that is replaced
        by_cases hk : key x = k
        · rw [find_cons_self hk, find_cons_self hk]
        · rw [find_cons_of_ne hk, find_cons_of_ne hk, ih]

theorem find_put_self : find key (key e) (put key e chain) = some e := by
  rw [put]
  split
  · next h => exact find_replace_self h
  · exact find_cons_self rfl

theorem find_put_of_ne (hne : key e ≠ k) : find key k (put key e chain) = find key k chain := by
  rw [put]
  split
  · exact find_replace_of_ne hne
  · exact find_cons_of_ne hne

/-- One entry for a key stays one. -/
theorem nodup_put (h : (chain.map key).Nodup) : ((put key e chain).map key).Nodup := by
  rw [put]
  split
  · rwa [map_replace]
  · next hnone =>
      rw [Option.not_isSome_iff_eq_none, find_eq_none] at hnone
      exact List.nodup_cons.mpr ⟨hnone, h⟩

theorem length_filter_le_one (h : (chain.map key).Nodup) (k : κ) :
    (chain.filter fun e => decide (key e = k)).length ≤ 1 := by
  rw [← List.countP_eq_length_filter]
  calc chain.countP (fun e => decide (key e = k)) = (chain.map key).count k := by
        rw [List.count_eq_countP, List.countP_map]
        rfl
    _ ≤ 1 := List.nodup_iff_count_le_one.mp h k

/-! ## The table -/

variable (key) (hash : κ → β)

/-- The entry of `k` in the table `t`. -/
def lookup (t : β → List ε) (k : κ) : Option ε := find key k (t (hash k))

variable [DecidableEq β]

def insert (t : β → List ε) (e : ε) : β → List ε :=
  Function.update t (hash (key e)) (put key e (t (hash (key e))))

variable {key} {hash} {t : β → List ε}

theorem lookup_insert_self : lookup key hash (insert key hash t e) (key e) = some e := by
  rw [lookup, insert, Function.update_self, find_put_self]

theorem lookup_insert_of_ne (hne : key e ≠ k) :
    lookup key hash (insert key hash t e) k = lookup key hash t k := by
  rw [lookup, insert]
  -- two keys of one hash share the chain
  by_cases hchain : hash k = hash (key e)
  · rw [hchain, Function.update_self, find_put_of_ne hne, lookup, hchain]
  · rw [Function.update_of_ne hchain, lookup]

theorem nodup_insert (h : ∀ i, ((t i).map key).Nodup) (i : β) :
    ((insert key hash t e i).map key).Nodup := by
  rw [insert]
  by_cases hchain : i = hash (key e)
  · rw [hchain, Function.update_self]
    exact nodup_put (h _)
  · rw [Function.update_of_ne hchain]
    exact h i

/-- After any insertions a key has the entry that was inserted last. -/
theorem lookup_insertAll (es : List ε) :
    lookup key hash (es.foldl (insert key hash) t) k =
      (find key k es.reverse).or (lookup key hash t k) := by
  induction es using List.reverseRecOn with
  | nil => rfl
  | append_singleton es e ih =>
      rw [List.foldl_append, List.reverse_append, List.reverse_singleton, List.singleton_append,
        List.foldl_cons, List.foldl_nil]
      by_cases hk : key e = k
      · subst hk
        rw [lookup_insert_self, find_cons_self rfl, Option.some_or]
      · rw [lookup_insert_of_ne hk, ih, find_cons_of_ne hk]

theorem nodup_insertAll (h : ∀ i, ((t i).map key).Nodup) (es : List ε) (i : β) :
    ((es.foldl (insert key hash) t i).map key).Nodup := by
  induction es generalizing t with
  | nil => exact h i
  | cons e es ih => exact ih (nodup_insert h)

end LazyBsd.Lib.HashChain
