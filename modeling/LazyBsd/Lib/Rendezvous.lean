/-
# LazyBsd.Lib.Rendezvous — objects that one party creates and the others find by name.

A registry that several parties share. One of them fills its slots with new objects under the names of
the slots; any other looks the same names up. Names and objects are of any type, and of the registry only
the rules of `Lawful` are used.
-/
import Mathlib.Data.List.Nodup
import Mathlib.Data.Option.Basic
import Mathlib.Logic.Function.Basic
import Mathlib.Tactic.Common

namespace LazyBsd.Lib.Rendezvous

/-- The two calls: `create` fails or gives a new object, `lookup` finds the object of a name. -/
structure Registry (ν ρ σ : Type*) where
  create : ν → σ → Option (ρ × σ)
  lookup : ν → σ → Option ρ

variable {ν ρ σ κ : Type*}

/-- What a name stands for changes only at its creation, a name in use is refused, and an object that is
created is not yet in use under another name. -/
structure Registry.Lawful (g : Registry ν ρ σ) : Prop where
  lookup_created : ∀ {n s o s'}, g.create n s = some (o, s') → g.lookup n s' = some o
  lookup_kept : ∀ {n s o s'}, g.create n s = some (o, s') → ∀ m ≠ n, g.lookup m s' = g.lookup m s
  create_taken : ∀ {n s}, g.lookup n s ≠ none → g.create n s = none
  created_new : ∀ {n s o s'}, g.create n s = some (o, s') → ∀ m, g.lookup m s ≠ some o

/-- No object has two names. -/
def Registry.Separate (g : Registry ν ρ σ) (s : σ) : Prop :=
  ∀ {m n o}, g.lookup m s = some o → g.lookup n s = some o → m = n

/-- What the names stand for. -/
structure Filled (g : Registry ν ρ σ) (name : κ → ν) (ks : List κ) (tbl tbl' : κ → Option ρ)
    (s s' : σ) : Prop where
  slot : ∀ k ∈ ks, tbl' k = g.lookup (name k) s' ∧ (tbl' k).isSome
  rest : ∀ k ∉ ks, tbl' k = tbl k
  kept : ∀ n, (∀ k ∈ ks, n ≠ name k) → g.lookup n s' = g.lookup n s
  free : ∀ k ∈ ks, g.lookup (name k) s = none
  nodup : (ks.map name).Nodup

variable [DecidableEq κ] {g : Registry ν ρ σ} {name : κ → ν} {ks : List κ} {tbl tbl' : κ → Option ρ}
  {s s' : σ}

/-- The party that creates: the slots `ks` in their order. -/
def createAll (g : Registry ν ρ σ) (name : κ → ν) :
    List κ → (κ → Option ρ) × σ → Option ((κ → Option ρ) × σ)
  | [], p => some p
  | k :: ks, (tbl, s) =>
      (g.create (name k) s).bind fun r => createAll g name ks (Function.update tbl k (some r.1), r.2)

/-- A party that looks up. -/
def lookupAll (g : Registry ν ρ σ) (name : κ → ν) (s : σ) :
    List κ → (κ → Option ρ) → Option (κ → Option ρ)
  | [], tbl => some tbl
  | k :: ks, tbl =>
      (g.lookup (name k) s).bind fun o => lookupAll g name s ks (Function.update tbl k (some o))

/-! ## Creating -/

theorem Registry.Lawful.free_of_create (hg : g.Lawful) {n : ν} {r : ρ × σ}
    (h : g.create n s = some r) : g.lookup n s = none := by
  by_contra hne
  rw [hg.create_taken hne] at h
  exact absurd h (Option.some_ne_none _).symm

/-- One creation keeps the objects apart. -/
theorem Registry.Lawful.separate_create (hg : g.Lawful) {n : ν} {o : ρ} (h : g.create n s = some (o, s'))
    (hs : g.Separate s) : g.Separate s' := by
  have hnew : ∀ {m}, g.lookup m s' = some o → m = n := fun {m} hm => by
    by_contra hne
    rw [hg.lookup_kept h m hne] at hm
    exact hg.created_new h m hm
  intro m m' o' hm hm'
  by_cases hmn : m = n
  · rw [hmn, hg.lookup_created h] at hm
    rw [← hm] at hm'
    rw [hmn, hnew hm']
  · by_cases hmn' : m' = n
    · rw [hmn', hg.lookup_created h] at hm'
      rw [← hm'] at hm
      exact absurd (hnew hm) hmn
    · rw [hg.lookup_kept h m hmn] at hm
      rw [hg.lookup_kept h m' hmn'] at hm'
      exact hs hm hm'

theorem separate_createAll (hg : g.Lawful) (hs : g.Separate s)
    (h : createAll g name ks (tbl, s) = some (tbl', s')) : g.Separate s' := by
  induction ks generalizing tbl s with
  | nil =>
      obtain ⟨rfl, rfl⟩ := Prod.mk.inj (Option.some.inj h)
      exact hs
  | cons k ks ih =>
      obtain ⟨⟨o, s₁⟩, hcreate, hrest⟩ := Option.bind_eq_some_iff.mp h
      exact ih (hg.separate_create hcreate hs) hrest

/-- **What a successful run leaves**: every slot holds what its name stands for, everything else is
untouched, and the names were free and different. -/
theorem filled_of_createAll (hg : g.Lawful) (h : createAll g name ks (tbl, s) = some (tbl', s')) :
    Filled g name ks tbl tbl' s s' := by
  induction ks generalizing tbl s with
  | nil =>
      obtain ⟨rfl, rfl⟩ := Prod.mk.inj (Option.some.inj h)
      exact ⟨by simp, by simp, by simp, by simp, by simp⟩
  | cons k ks ih =>
      obtain ⟨⟨o, s₁⟩, hcreate, hrest⟩ := Option.bind_eq_some_iff.mp h
      have hr := ih hrest
      have hcreated : g.lookup (name k) s₁ = some o := hg.lookup_created hcreate
      -- a later slot of the same name would have been refused
      have hnew : ∀ k' ∈ ks, name k ≠ name k' := fun k' hk' heq => by
        have hfree := hr.free k' hk'
        rw [← heq, hcreated] at hfree
        exact Option.some_ne_none o hfree
      have hk : k ∉ ks := fun hmem => hnew k hmem rfl
      have hself : tbl' k = some o := by rw [hr.rest k hk, Function.update_self]
      have hkept : g.lookup (name k) s' = some o := (hr.kept _ hnew).trans hcreated
      constructor
      · intro k' hk'
        rcases List.mem_cons.mp hk' with rfl | hmem
        · exact ⟨hself.trans hkept.symm, by rw [hself]; rfl⟩
        · exact hr.slot k' hmem
      · intro k' hk'
        obtain ⟨hne, hmem⟩ := not_or.mp (mt List.mem_cons.mpr hk')
        rw [hr.rest k' hmem, Function.update_of_ne hne]
      · intro n hn
        rw [hr.kept n fun k' hk' => hn k' (List.mem_cons_of_mem k hk'),
          hg.lookup_kept hcreate n (hn k List.mem_cons_self)]
      · intro k' hk'
        rcases List.mem_cons.mp hk' with rfl | hmem
        · exact hg.free_of_create hcreate
        · rw [← hg.lookup_kept hcreate (name k') (hnew k' hmem).symm]
          exact hr.free k' hmem
      · rw [List.map_cons, List.nodup_cons]
        refine ⟨fun hmem => ?_, hr.nodup⟩
        obtain ⟨k', hk', heq⟩ := List.mem_map.mp hmem
        exact hnew k' hk' heq.symm

/-- **A run succeeds** when the names are different and free, and the registry takes every free one. -/
theorem createAll_isSome (hg : g.Lawful)
    (hroom : ∀ k ∈ ks, ∀ s, g.lookup (name k) s = none → (g.create (name k) s).isSome)
    (hnodup : (ks.map name).Nodup) (hfree : ∀ k ∈ ks, g.lookup (name k) s = none) :
    (createAll g name ks (tbl, s)).isSome := by
  induction ks generalizing tbl s with
  | nil => rfl
  | cons k ks ih =>
      rw [List.map_cons, List.nodup_cons] at hnodup
      obtain ⟨hroom₀, hroom⟩ := List.forall_mem_cons.mp hroom
      obtain ⟨hfree₀, hfree⟩ := List.forall_mem_cons.mp hfree
      obtain ⟨⟨o, s₁⟩, hcreate⟩ := Option.isSome_iff_exists.mp (hroom₀ s hfree₀)
      have hfree₁ : ∀ k' ∈ ks, g.lookup (name k') s₁ = none := fun k' hk' => by
        have hne : name k' ≠ name k := fun heq => hnodup.1 (heq ▸ List.mem_map_of_mem hk')
        rw [hg.lookup_kept hcreate _ hne, hfree k' hk']
      simp only [createAll, hcreate, Option.bind_some]
      exact ih hroom hnodup.2 hfree₁

/-! ## Looking up -/

/-- **What a party finds** is what the names stand for. -/
theorem lookupAll_eq_some (h : lookupAll g name s ks tbl = some tbl') :
    (∀ k ∈ ks, tbl' k = g.lookup (name k) s ∧ (tbl' k).isSome) ∧ ∀ k ∉ ks, tbl' k = tbl k := by
  induction ks generalizing tbl with
  | nil =>
      cases h
      exact ⟨by simp, by simp⟩
  | cons k ks ih =>
      obtain ⟨o, ho, hrest⟩ := Option.bind_eq_some_iff.mp h
      obtain ⟨hslot, hother⟩ := ih hrest
      constructor
      · intro k' hk'
        by_cases hmem : k' ∈ ks
        · exact hslot k' hmem
        · obtain rfl := (List.mem_cons.mp hk').resolve_right hmem
          rw [hother k' hmem, Function.update_self, ho]
          exact ⟨rfl, rfl⟩
      · intro k' hk'
        obtain ⟨hne, hmem⟩ := not_or.mp (mt List.mem_cons.mpr hk')
        rw [hother k' hmem, Function.update_of_ne hne]

/-- A party fails only at a name that stands for nothing. -/
theorem lookupAll_eq_none (h : lookupAll g name s ks tbl = none) :
    ∃ k ∈ ks, g.lookup (name k) s = none := by
  induction ks generalizing tbl with
  | nil => exact absurd h (Option.some_ne_none tbl)
  | cons k ks ih =>
      cases ho : g.lookup (name k) s with
      | none => exact ⟨k, List.mem_cons_self, ho⟩
      | some o =>
          simp only [lookupAll, ho, Option.bind_some] at h
          obtain ⟨k', hk', hnone⟩ := ih h
          exact ⟨k', List.mem_cons_of_mem k hk', hnone⟩

end LazyBsd.Lib.Rendezvous
