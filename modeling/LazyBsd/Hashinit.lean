/-
# LazyBsd.Hashinit — the hash tables of `lazybsd_kern_subr.c`.

`hashinit_flags` makes a table whose size is a power of two, for hashes that are cut with a mask, and
`phashinit_flags` one whose size is a prime of a list, for hashes that are divided. The memory of the
table comes from `malloc` with anything in it; `none` is a bucket that is not initialised. What panics and
what leaves the table is `none` as well. `hashdestroy` checks that all buckets are empty.
-/
import Mathlib.Data.Nat.Log
import Mathlib.Data.Nat.Prime.Defs
import Mathlib.Tactic.NormNum.Prime
import Mathlib.Tactic.Common

namespace LazyBsd.Hashinit

/-! ## The code -/

/-- A table: its buckets, each a list if it is initialised. -/
abbrev Table := List (Option (List Nat))

/-- `for (hashsize = 1; hashsize <= elements; hashsize <<= 1)`, from a value of `hashsize`. -/
def doubled (elements hashsize : Nat) : Nat :=
  if 0 < hashsize ∧ hashsize ≤ elements then doubled elements (2 * hashsize) else hashsize
termination_by elements + 1 - hashsize

/-- `LIST_INIT(&hashtbl[i])` for the `n` buckets from `i` on. -/
def initLists : Nat → Nat → Table → Option Table
  | 0, _, hashtbl => some hashtbl
  | n + 1, i, hashtbl =>
      if i < hashtbl.length then initLists n (i + 1) (hashtbl.set i (some [])) else none

/-- `hashinit_flags`, for which `malloc` returns `memory hashsize` or fails: the table and `*hashmask`. -/
def hashinitFlags (memory : Nat → Option Table) (elements : Nat) : Option (Option (Table × Nat)) :=
  if elements = 0 then none
  else
    let hashsize := doubled elements 1 / 2
    match memory hashsize with
    | none => some none
    | some hashtbl => (initLists hashsize 0 hashtbl).map fun t => some (t, hashsize - 1)

/-- `hashdestroy`: the loop over the `n` buckets from `i` on. -/
def destroyLoop (hashtbl : Table) : Nat → Nat → Option Unit
  | 0, _ => some ()
  | n + 1, i =>
      match hashtbl[i]? with
      | some (some []) => destroyLoop hashtbl n (i + 1)
      | _ => none

/-- `hashdestroy`. -/
def hashdestroy (hashtbl : Table) (hashmask : Nat) : Option Unit := destroyLoop hashtbl (hashmask + 1) 0

/-- `primes`. -/
def primes : List Nat :=
  [1, 13, 31, 61, 127, 251, 509, 761, 1021, 1531, 2039, 2557, 3067, 3583, 4093, 4603, 5119, 5623, 6143,
    6653, 7159, 7673, 8191, 12281, 16381, 24571, 32749]

/-- The loop of `phashinit_flags`: `primes[i - 1]` when it ends; `rest` are the primes from `i` on. -/
def primeFor (elements : Nat) : Nat → List Nat → Nat
  | before, [] => before
  | before, p :: rest => if p ≤ elements then primeFor elements p rest else before

/-- `phashinit_flags`: the table and `*nentries`. -/
def phashinitFlags (memory : Nat → Option Table) (elements : Nat) : Option (Option (Table × Nat)) :=
  if elements = 0 then none
  else
    let hashsize := primeFor elements 1 primes.tail
    match memory hashsize with
    | none => some none
    | some hashtbl => (initLists hashsize 0 hashtbl).map fun t => some (t, hashsize)

/-! ## The sizes -/

variable {elements k n i : Nat} {hashtbl : Table} {memory : Nat → Option Table}

theorem doubled_pow (h : k ≤ Nat.log 2 elements + 1) (helements : elements ≠ 0) :
    doubled elements (2 ^ k) = 2 ^ (Nat.log 2 elements + 1) := by
  obtain ⟨d, hd⟩ := Nat.exists_eq_add_of_le h
  induction d generalizing k with
  | zero =>
      have hmore : elements < 2 ^ (Nat.log 2 elements + 1) := Nat.lt_pow_succ_log_self (by omega) _
      have hk : Nat.log 2 elements + 1 = k := hd
      rw [hk] at hmore ⊢
      unfold doubled
      rw [if_neg (by omega)]
  | succ d ih =>
      have hless : 2 ^ k ≤ elements :=
        (Nat.pow_le_pow_right (by omega) (by omega)).trans (Nat.pow_log_le_self 2 helements)
      unfold doubled
      rw [if_pos ⟨Nat.two_pow_pos k, hless⟩, ← Nat.pow_succ']
      exact ih (by omega) (by omega)

theorem hashsize_eq (helements : elements ≠ 0) : doubled elements 1 / 2 = 2 ^ Nat.log 2 elements := by
  have h := doubled_pow (k := 0) (Nat.zero_le _) helements
  rw [Nat.pow_zero] at h
  rw [h, Nat.pow_succ, Nat.mul_div_cancel _ (by omega)]

/-- The size is the last prime of the list that is not above `elements`. -/
theorem primeFor_spec {before : Nat} {rest : List Nat} (hsorted : (before :: rest).Pairwise (· < ·))
    (hbefore : before = 1 ∨ before ≤ elements) :
    primeFor elements before rest ∈ before :: rest ∧
      (primeFor elements before rest = 1 ∨ primeFor elements before rest ≤ elements) ∧
      ∀ p ∈ rest, p ≤ elements → p ≤ primeFor elements before rest := by
  induction rest generalizing before with
  | nil => exact ⟨List.mem_cons_self, hbefore, by simp⟩
  | cons p rest ih =>
      obtain ⟨hless, hrest⟩ := List.pairwise_cons.mp hsorted
      unfold primeFor
      split
      · rename_i hp
        obtain ⟨hmem, hle, hall⟩ := ih hrest (.inr hp)
        refine ⟨List.mem_cons_of_mem _ hmem, hle, fun q hq hqe => ?_⟩
        rcases List.mem_cons.mp hq with rfl | hmore
        · rcases List.mem_cons.mp hmem with heq | hlater
          · exact heq.ge
          · exact ((List.pairwise_cons.mp hrest).1 _ hlater).le
        · exact hall q hmore hqe
      · rename_i hp
        refine ⟨List.mem_cons_self, hbefore, fun q hq hqe => ?_⟩
        -- no later prime is smaller
        rcases List.mem_cons.mp hq with rfl | hmore
        · exact absurd hqe hp
        · have hlater := (List.pairwise_cons.mp hrest).1 q hmore
          omega

theorem primes_sorted : primes.Pairwise (· < ·) := by decide

theorem primes_prime : ∀ p ∈ primes.tail, p.Prime := by
  simp only [primes, List.tail_cons, List.forall_mem_cons, List.not_mem_nil, false_implies, implies_true,
    and_true]
  norm_num

/-! ## The buckets -/

/-- The buckets are initialised from the front. -/
theorem initLists_eq (front : Table) {back : Table} (hn : back.length = n) :
    initLists n front.length (front ++ back) = some (front ++ List.replicate n (some [])) := by
  induction n generalizing front back with
  | zero =>
      rw [List.eq_nil_of_length_eq_zero hn]
      rfl
  | succ n ih =>
      obtain ⟨b, back, rfl⟩ := List.exists_cons_of_length_eq_add_one hn
      have hin : front.length < (front ++ b :: back).length := by
        rw [List.length_append, List.length_cons]
        omega
      have hset : (front ++ b :: back).set front.length (some []) = (front ++ [some []]) ++ back := by
        rw [List.set_append_right _ _ (Nat.le_refl _), Nat.sub_self, List.set_cons_zero, List.append_assoc]
        rfl
      have hlength : front.length + 1 = (front ++ [some ([] : List Nat)]).length := by simp
      rw [initLists, if_pos hin, hset, hlength, ih (front ++ [some []]) (by simpa using hn),
        List.append_assoc]
      rfl

theorem initLists_all (hlength : hashtbl.length = n) :
    initLists n 0 hashtbl = some (List.replicate n (some [])) :=
  initLists_eq [] hlength

/-- The loop passes when the buckets it visits are empty. -/
theorem destroyLoop_iff : destroyLoop hashtbl n i = some () ↔
    ∀ j, i ≤ j → j < i + n → hashtbl[j]? = some (some []) := by
  induction n generalizing i with
  | zero => exact iff_of_true rfl fun j hi hj => by omega
  | succ n ih =>
      unfold destroyLoop
      by_cases hempty : hashtbl[i]? = some (some [])
      · simp only [hempty, ih]
        constructor
        · intro h j hi hj
          rcases Nat.eq_or_lt_of_le hi with rfl | hlt
          · exact hempty
          · exact h j hlt (by omega)
        · intro h j hi hj
          exact h j (by omega) (by omega)
      · have hfail : (match hashtbl[i]? with
            | some (some []) => destroyLoop hashtbl n (i + 1)
            | _ => none) = none := by
          split
          · rename_i heq
            exact absurd heq hempty
          · rfl
        rw [hfail]
        exact iff_of_false (by simp) fun h => hempty (h i (Nat.le_refl i) (by omega))

/-! ## The tables -/

/-- **`hashinit_flags`.** Of `malloc` it asks for the largest power of two that is not above `elements`;
all buckets of the table are initialised and empty; a hash that is cut with the mask is a bucket of the
table; and `hashdestroy` with the mask visits all buckets and no more. -/
theorem hashinit_spec (helements : elements ≠ 0) (hmalloc : memory (2 ^ Nat.log 2 elements) = some hashtbl)
    (hsize : hashtbl.length = 2 ^ Nat.log 2 elements) :
    ∃ tbl mask, hashinitFlags memory elements = some (some (tbl, mask)) ∧
      tbl = List.replicate (2 ^ Nat.log 2 elements) (some []) ∧
      tbl.length ≤ elements ∧ elements < 2 * tbl.length ∧
      (∀ hash : Nat, hash &&& mask < tbl.length) ∧
      ∀ used : Table, used.length = tbl.length →
        (hashdestroy used mask = some () ↔ ∀ b ∈ used, b = some []) := by
  have hpos := Nat.two_pow_pos (Nat.log 2 elements)
  refine ⟨_, 2 ^ Nat.log 2 elements - 1, ?_, rfl, ?_, ?_, fun hash => ?_, fun used hused => ?_⟩
  · rw [hashinitFlags, if_neg helements]
    dsimp only
    rw [hashsize_eq helements, hmalloc]
    dsimp only
    rw [initLists_all hsize]
    rfl
  · rw [List.length_replicate]
    exact Nat.pow_log_le_self 2 helements
  · rw [List.length_replicate, ← Nat.pow_succ']
    exact Nat.lt_pow_succ_log_self (by omega) _
  · rw [List.length_replicate, Nat.and_two_pow_sub_one_eq_mod]
    exact Nat.mod_lt _ hpos
  · rw [List.length_replicate] at hused
    rw [hashdestroy, Nat.sub_add_cancel hpos, destroyLoop_iff]
    constructor
    · intro h b hb
      obtain ⟨j, hj, rfl⟩ := List.getElem_of_mem hb
      have hget := h j (Nat.zero_le j) (by omega)
      rw [List.getElem?_eq_getElem hj] at hget
      exact Option.some.inj hget
    · intro h j _ hj
      rw [List.getElem?_eq_getElem (by omega)]
      exact congrArg some (h _ (List.getElem_mem _))

/-- A table for 100 elements has 64 buckets. -/
theorem hashinit_spec_hundred :
    ∃ tbl mask, hashinitFlags (fun n => some (List.replicate n none)) 100 = some (some (tbl, mask)) ∧
      tbl.length = 64 ∧ ∀ hash : Nat, hash &&& mask < 64 := by
  have hlog : Nat.log 2 100 = 6 := Nat.log_eq_of_pow_le_of_lt_pow (by decide) (by decide)
  obtain ⟨tbl, mask, hinit, htbl, -, -, hmask, -⟩ := @hashinit_spec 100 _
    (fun n => some (List.replicate n none)) (by decide) rfl (List.length_replicate ..)
  rw [hlog] at htbl
  have hlength : tbl.length = 64 := by
    rw [htbl]
    rfl
  exact ⟨tbl, mask, hinit, hlength, fun hash => hlength ▸ hmask hash⟩

/-- **`phashinit_flags`.** The size is the largest number of `primes` that is not above `elements`, a
prime from 13 elements on, and 1 below; all buckets are initialised and empty; and a hash modulo
`*nentries` is a bucket of the table. -/
theorem phashinit_spec (helements : elements ≠ 0)
    (hmalloc : ∀ n, ∃ tbl, memory n = some tbl ∧ tbl.length = n) :
    ∃ tbl nentries, phashinitFlags memory elements = some (some (tbl, nentries)) ∧
      tbl = List.replicate nentries (some []) ∧
      (if elements < 13 then nentries = 1 else nentries.Prime) ∧
      nentries ∈ primes ∧ nentries ≤ elements ∧ (∀ p ∈ primes, p ≤ elements → p ≤ nentries) ∧
      ∀ hash : Nat, hash % nentries < tbl.length := by
  obtain ⟨hmem, hle, hall⟩ := @primeFor_spec elements 1 primes.tail primes_sorted
    (.inl rfl)
  generalize hn : primeFor elements 1 primes.tail = nentries at hmem hle hall
  obtain ⟨tbl, htbl, hlength⟩ := hmalloc nentries
  have hrange : nentries ≤ elements := by omega
  have hlargest : ∀ p ∈ primes, p ≤ elements → p ≤ nentries := by
    intro p hp hpe
    rcases List.mem_cons.mp hp with rfl | hlater
    · rcases List.mem_cons.mp hmem with heq | htail
      · exact heq.ge
      · exact (primes_prime _ htail).one_lt.le
    · exact hall p hlater hpe
  have hprime : if elements < 13 then nentries = 1 else nentries.Prime := by
    rcases List.mem_cons.mp hmem with heq | htail
    · split
      · exact heq
      · rename_i hmany
        have hthirteen := hlargest 13 (by decide) (by omega)
        omega
    · split
      · rename_i hfew
        have hthirteen : ∀ p ∈ primes.tail, 13 ≤ p := by decide
        have := hthirteen _ htail
        omega
      · exact primes_prime _ htail
  have hpos : 0 < nentries := by
    split at hprime
    · omega
    · exact hprime.pos
  refine ⟨List.replicate nentries (some []), nentries, ?_, rfl, hprime, hmem, hrange, hlargest, ?_⟩
  · rw [phashinitFlags, if_neg helements]
    dsimp only
    rw [hn, htbl]
    dsimp only
    rw [initLists_all hlength]
    rfl
  · intro hash
    rw [List.length_replicate]
    exact Nat.mod_lt hash hpos

/-- A table for 100 elements has 61 buckets. -/
theorem phashinit_spec_hundred :
    ∃ tbl nentries, phashinitFlags (fun n => some (List.replicate n none)) 100 =
        some (some (tbl, nentries)) ∧ nentries.Prime ∧ 61 ≤ nentries := by
  obtain ⟨tbl, nentries, hinit, -, hprime, -, -, hlargest, -⟩ := @phashinit_spec 100
    (fun n => some (List.replicate n none)) (by decide)
    fun n => ⟨_, rfl, List.length_replicate ..⟩
  exact ⟨tbl, nentries, hinit, hprime, hlargest 61 (by decide) (by decide)⟩

end LazyBsd.Hashinit
