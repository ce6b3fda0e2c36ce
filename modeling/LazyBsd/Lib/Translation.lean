/-
# LazyBsd.Lib.Translation — tables that translate one numbering into another.

A `Translation` is a list of rows whose keys are distinct and whose values are distinct, so the table
itself is one to one. What becomes of a key that has no row decides whether the whole function is: with
one value for all of them that no row has, two different keys of the same value both fall outside the
table; a key that is passed through as it is meets the key of the row that has it as value, and nothing
else.
-/
import Mathlib.Data.List.Nodup

namespace LazyBsd.Lib

/-- Rows of a key and its value. -/
structure Translation (α β : Type*) where
  rows : List (α × β)
  distinctKeys : (rows.map Prod.fst).Nodup
  distinctValues : (rows.map Prod.snd).Nodup

namespace Translation

section Lookup

variable {α β : Type*} {t : Translation α β} {a b : α} {v : β}

/-- A value has one key. -/
theorem key_unique (ha : (a, v) ∈ t.rows) (hb : (b, v) ∈ t.rows) : a = b :=
  (Prod.mk.inj (List.inj_on_of_nodup_map t.distinctValues ha hb rfl)).1

variable [DecidableEq α]

/-- The value of a key. -/
def lookup (t : Translation α β) (k : α) : Option β := t.rows.lookup k

/-- The value of a key, with one value for all that have no row. -/
def orElse (t : Translation α β) (d : β) (k : α) : β := (t.lookup k).getD d

/-- The value of a key, or the key itself. -/
def through {α : Type*} [DecidableEq α] (t : Translation α α) (k : α) : α := (t.lookup k).getD k

theorem lookup_eq_some_iff : t.lookup a = some v ↔ (a, v) ∈ t.rows := by
  obtain ⟨rows, hkeys, hvalues⟩ := t
  show rows.lookup a = some v ↔ (a, v) ∈ rows
  clear hvalues
  induction rows with
  | nil => simp
  | cons row rows ih =>
      obtain ⟨k, w⟩ := row
      obtain ⟨hk, hrest⟩ := List.nodup_cons.mp hkeys
      rw [List.lookup_cons]
      by_cases hak : a = k
      · subst hak
        have hnot : (a, v) ∉ rows := fun hmem => hk (List.mem_map.mpr ⟨_, hmem, rfl⟩)
        simp [hnot, eq_comm]
      · have hbeq : (a == k) = false := by simpa using hak
        rw [hbeq, List.mem_cons, or_iff_right fun h => hak (Prod.mk.inj h).1]
        exact ih hrest

theorem lookup_eq_none_iff : t.lookup a = none ↔ ∀ v, (a, v) ∉ t.rows := by
  rw [Option.eq_none_iff_forall_ne_some]
  exact forall_congr' fun _ => lookup_eq_some_iff.not

/-- Two keys that have rows do not share their value. -/
theorem lookup_ne (hne : a ≠ b) (ha : t.lookup a = some v) : t.lookup b ≠ some v := fun hb =>
  hne (key_unique (lookup_eq_some_iff.mp ha) (lookup_eq_some_iff.mp hb))

/-- With a value of its own for the keys without a row, keys whose values are others are kept apart. -/
theorem orElse_ne {d : β} (hne : a ≠ b) (ha : t.orElse d a ≠ d) : t.orElse d a ≠ t.orElse d b := by
  intro heq
  rw [orElse, orElse] at heq
  rw [orElse] at ha
  cases hla : t.lookup a with
  | none => exact ha (by rw [hla, Option.getD_none])
  | some v =>
      cases hlb : t.lookup b with
      | none =>
          rw [hlb, Option.getD_none] at heq
          exact ha heq
      | some w =>
          rw [hla, hlb, Option.getD_some, Option.getD_some] at heq
          exact lookup_ne hne hla (heq ▸ hlb)

end Lookup

section Through

variable {α : Type*} [DecidableEq α] {t : Translation α α} {a b : α}

/-- The key `a` has no row, and is what `b` is translated to. -/
def Shadows (t : Translation α α) (a b : α) : Prop := t.lookup a = none ∧ (b, a) ∈ t.rows

theorem through_eq_of_shadows (h : t.Shadows a b) : t.through a = t.through b := by
  rw [through, through, h.1, lookup_eq_some_iff.mpr h.2]
  rfl

/-- Two keys come out the same exactly if one of them is passed through to the value of the other. -/
theorem through_eq_iff (hne : a ≠ b) : t.through a = t.through b ↔ t.Shadows a b ∨ t.Shadows b a := by
  constructor
  · intro heq
    rw [through, through] at heq
    cases hla : t.lookup a with
    | none =>
        cases hlb : t.lookup b with
        | none =>
            -- both are passed through
            rw [hla, hlb] at heq
            exact absurd heq hne
        | some w =>
            rw [hla, hlb, Option.getD_none, Option.getD_some] at heq
            exact .inl ⟨hla, heq ▸ lookup_eq_some_iff.mp hlb⟩
    | some v =>
        cases hlb : t.lookup b with
        | none =>
            rw [hla, hlb, Option.getD_none, Option.getD_some] at heq
            exact .inr ⟨hlb, heq ▸ lookup_eq_some_iff.mp hla⟩
        | some w =>
            rw [hla, hlb, Option.getD_some, Option.getD_some] at heq
            exact absurd (heq ▸ hlb) (lookup_ne hne hla)
  · rintro (h | h)
    · exact through_eq_of_shadows h
    · exact (through_eq_of_shadows h).symm

end Through

end Translation

end LazyBsd.Lib
