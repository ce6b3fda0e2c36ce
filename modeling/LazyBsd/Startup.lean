/-
# LazyBsd.Startup — the order in which `mi_startup` initialises the subsystems.

The table is sorted by subsystem and order and walked; an entry whose handler has returned is marked by
`SI_SUB_DONE` in the subsystem that it is sorted by. `sysinit_add` builds a table of what is registered and
what is added, however often a handler calls it, and after the handler the walk starts again on that table.
What carries over the restarts is a statement about the handlers called so far: each was the least of those
that were registered and had not been called.
-/
import Mathlib.Data.Finset.Card
import LazyBsd.Lib.ExchangeSort

namespace LazyBsd.Startup

open Lib.ExchangeSort

/-! ## The table -/

def siSubDummy : UInt32 := 0
def siSubDone : UInt32 := 1

/-- The key of a `struct sysinit`. -/
structure Sysinit where
  subsystem : UInt32
  order : UInt32
deriving DecidableEq, Repr

/-- The comparison of the sort: these two are not exchanged. -/
def Before (s t : Sysinit) : Prop :=
  s.subsystem < t.subsystem ∨ (s.subsystem = t.subsystem ∧ s.order ≤ t.order)

instance (s t : Sysinit) : Decidable (Before s t) := inferInstanceAs (Decidable (_ ∨ _))

/-- The entries in memory, `sysinit` and `newsysinit`, and the entries whose handlers were called. -/
structure Kernel (ι : Type) where
  entry : ι → Sysinit
  sysinit : List ι
  newsysinit : Option (List ι)
  ran : List ι

/-- The sets that the handler of an entry passes to `sysinit_add`, one after the other. They may depend on
the handlers that were called before. -/
abbrev Handlers (ι : Type) := List ι → ι → List (List ι)

variable {ι : Type}

/-- `sysinit_add`, which panics when there is no memory for the table. -/
def sysinitAdd (k : Kernel ι) (set : List ι) : Kernel ι :=
  { k with
    newsysinit := match k.newsysinit with
      | some newsysinit => some (newsysinit ++ set)
      | none => some (k.sysinit ++ set) }

/-- The call of a handler. -/
def callFunc (handlers : Handlers ι) (k : Kernel ι) (sipp : ι) : Kernel ι :=
  { (handlers k.ran sipp).foldl sysinitAdd k with ran := k.ran ++ [sipp] }

/-- The sort. -/
def sortTable (k : Kernel ι) : Kernel ι :=
  { k with sysinit := exchangeSort (fun x y => Before (k.entry x) (k.entry y)) k.sysinit }

section Walk

variable [DecidableEq ι]

def checkOff (k : Kernel ι) (sipp : ι) : Kernel ι :=
  { k with entry := Function.update k.entry sipp { k.entry sipp with subsystem := siSubDone } }

/-- The walk over the rest of the table; it ends early, with `true`, when there is a new table. -/
def traverse (handlers : Handlers ι) : List ι → Kernel ι → Kernel ι × Bool
  | [], k => (k, false)
  | sipp :: rest, k =>
      if (k.entry sipp).subsystem = siSubDummy then traverse handlers rest k
      else if (k.entry sipp).subsystem = siSubDone then traverse handlers rest k
      else
        let k := checkOff (callFunc handlers k sipp) sipp
        match k.newsysinit with
        | some newsysinit => ({ k with sysinit := newsysinit, newsysinit := none }, true)
        | none => traverse handlers rest k

/-- `mi_startup` from `restart` on, with at most so many turns; whether it returned. -/
def miStartup (handlers : Handlers ι) : Nat → Kernel ι → Kernel ι × Bool
  | 0, k => (k, false)
  | turns + 1, k =>
      let k := sortTable k
      match traverse handlers k.sysinit k with
      | (k, true) => miStartup handlers turns k
      | (k, false) => (k, true)

end Walk

/-- The kernel with a copy of `sysinit_set`. -/
def boot (entry : ι → Sysinit) (sysinitSet : List ι) : Kernel ι := ⟨entry, sysinitSet, none, []⟩

/-! ## What is to be run -/

/-- Neither a dummy nor done. -/
def Sysinit.Runs (s : Sysinit) : Prop := s.subsystem ≠ siSubDummy ∧ s.subsystem ≠ siSubDone

section Spec

variable (handlers : Handlers ι) (entry₀ : ι → Sysinit) (set₀ : List ι)

/-- An entry of the initial set, or of a set that one of these handlers added. -/
def Registered (ran : List ι) (x : ι) : Prop :=
  x ∈ set₀ ∨ ∃ before y after, ran = before ++ y :: after ∧ ∃ set ∈ handlers before y, x ∈ set

/-- Each handler called belongs to the least entry of those that were registered and not yet run. -/
inductive InOrder : List ι → Prop
  | nil : InOrder []
  | snoc {ran : List ι} {x : ι} (h : InOrder ran) (hreg : Registered handlers set₀ ran x)
      (hruns : (entry₀ x).Runs) (hnew : x ∉ ran)
      (hmin : ∀ y, Registered handlers set₀ ran y → (entry₀ y).Runs → y ∉ ran →
        Before (entry₀ x) (entry₀ y)) : InOrder (ran ++ [x])

/-- Between two handlers: the entries that were run are done and the others as they were, and the table has
the registered ones. -/
structure Consistent (k : Kernel ι) : Prop where
  order : InOrder handlers entry₀ set₀ k.ran
  entry : ∀ x, x ∉ k.ran → k.entry x = entry₀ x
  done : ∀ x ∈ k.ran, (k.entry x).subsystem = siSubDone
  table : ∀ x, x ∈ k.sysinit ↔ Registered handlers set₀ k.ran x
  new : k.newsysinit = none

/-- Still to be run. -/
def Waiting (k : Kernel ι) (x : ι) : Prop := (entry₀ x).Runs ∧ x ∉ k.ran

end Spec

variable {handlers : Handlers ι} {entry₀ : ι → Sysinit} {set₀ : List ι} {k : Kernel ι} {ran : List ι}
  {x y : ι}

/-! ## Keys -/

theorem before_total (s t : Sysinit) : Before s t ∨ Before t s := by
  unfold Before
  rcases Nat.lt_trichotomy s.subsystem.toNat t.subsystem.toNat with h | h | h
  · exact .inl (.inl h)
  · rcases Nat.le_total s.order.toNat t.order.toNat with ho | ho
    · exact .inl (.inr ⟨UInt32.toNat.inj h, ho⟩)
    · exact .inr (.inr ⟨(UInt32.toNat.inj h).symm, ho⟩)
  · exact .inr (.inl h)

theorem before_trans (s t u : Sysinit) (hst : Before s t) (htu : Before t u) : Before s u := by
  rcases hst with hst | ⟨hst, hso⟩
  · rcases htu with htu | ⟨htu, -⟩
    · exact .inl (Nat.lt_trans hst htu)
    · exact .inl (htu ▸ hst)
  · rcases htu with htu | ⟨htu, hto⟩
    · exact .inl (hst ▸ htu)
    · exact .inr ⟨hst.trans htu, Nat.le_trans hso hto⟩

/-! ## Registration -/

theorem registered_nil : Registered handlers set₀ [] x ↔ x ∈ set₀ := by
  constructor
  · rintro (hx | ⟨before, y, after, hran, -⟩)
    · exact hx
    · exact absurd hran (by simp)
  · exact .inl

/-- One more handler. -/
theorem registered_snoc : Registered handlers set₀ (ran ++ [y]) x ↔
    Registered handlers set₀ ran x ∨ ∃ set ∈ handlers ran y, x ∈ set := by
  constructor
  · rintro (hx | ⟨before, z, after, hran, hadds⟩)
    · exact .inl (.inl hx)
    · rcases List.eq_nil_or_concat' after with rfl | ⟨after, w, rfl⟩
      · obtain ⟨rfl, hz⟩ := List.append_inj' hran rfl
        obtain rfl := List.singleton_injective hz
        exact .inr hadds
      · rw [← List.cons_append, ← List.append_assoc] at hran
        obtain ⟨rfl, -⟩ := List.append_inj' hran rfl
        exact .inl (.inr ⟨before, z, after, rfl, hadds⟩)
  · rintro ((hx | ⟨before, z, after, rfl, hadds⟩) | hadds)
    · exact .inl hx
    · exact .inr ⟨before, z, after ++ [y], by simp, hadds⟩
    · exact .inr ⟨ran, y, [], rfl, hadds⟩

/-- What the handlers in a run were, one by one. -/
theorem InOrder.split (h : InOrder handlers entry₀ set₀ ran) {before after : List ι}
    (hran : ran = before ++ x :: after) :
    Registered handlers set₀ before x ∧ (entry₀ x).Runs ∧ x ∉ before ∧
      ∀ y, Registered handlers set₀ before y → (entry₀ y).Runs → y ∉ before →
        Before (entry₀ x) (entry₀ y) := by
  induction h generalizing after with
  | nil => exact absurd hran (by simp)
  | @snoc ran z h hreg hruns hnew hmin ih =>
      rcases List.eq_nil_or_concat' after with rfl | ⟨after, w, rfl⟩
      · obtain ⟨rfl, hz⟩ := List.append_inj' hran rfl
        obtain rfl := List.singleton_injective hz
        exact ⟨hreg, hruns, hnew, hmin⟩
      · rw [← List.cons_append, ← List.append_assoc] at hran
        exact ih (List.append_inj' hran rfl).1

theorem InOrder.nodup (h : InOrder handlers entry₀ set₀ ran) : ran.Nodup := by
  induction h with
  | nil => exact .nil
  | snoc h hreg hruns hnew hmin ih =>
      exact List.nodup_append.mpr ⟨ih, List.nodup_singleton _, fun a ha b hb hab =>
        hnew (List.mem_singleton.mp hb ▸ hab ▸ ha)⟩

theorem InOrder.registered (h : InOrder handlers entry₀ set₀ ran) (hx : x ∈ ran) :
    Registered handlers set₀ ran x := by
  induction h with
  | nil => exact absurd hx List.not_mem_nil
  | snoc h hreg hruns hnew hmin ih =>
      rcases List.mem_append.mp hx with hx | hx
      · exact registered_snoc.mpr (.inl (ih hx))
      · exact registered_snoc.mpr (.inl (List.mem_singleton.mp hx ▸ hreg))

/-! ## The steps of the walk -/

/-- Once there is a new table, additions go behind it. -/
theorem foldl_sysinitAdd_some {newsysinit : List ι} (h : k.newsysinit = some newsysinit)
    (sets : List (List ι)) :
    sets.foldl sysinitAdd k = { k with newsysinit := some (newsysinit ++ sets.flatten) } := by
  induction sets generalizing k newsysinit with
  | nil =>
      rw [List.flatten_nil, List.append_nil, ← h]
      rfl
  | cons set sets ih =>
      have hadd : (sysinitAdd k set).newsysinit = some (newsysinit ++ set) := by
        rw [sysinitAdd, h]
      rw [List.foldl_cons, ih hadd, List.flatten_cons, List.append_assoc]
      rfl

/-- Several additions build one table, of all that was registered and added. -/
theorem foldl_sysinitAdd_none (h : k.newsysinit = none) {set : List ι} (sets : List (List ι)) :
    (set :: sets).foldl sysinitAdd k =
      { k with newsysinit := some (k.sysinit ++ (set :: sets).flatten) } := by
  have hadd : (sysinitAdd k set).newsysinit = some (k.sysinit ++ set) := by
    rw [sysinitAdd, h]
  rw [List.foldl_cons, foldl_sysinitAdd_some hadd, List.flatten_cons, List.append_assoc]
  rfl

/-- At the start nothing was run. -/
theorem boot_consistent : Consistent handlers entry₀ set₀ (boot entry₀ set₀) where
  order := .nil
  entry _ _ := rfl
  done _ hx := absurd hx List.not_mem_nil
  table _ := registered_nil.symm
  new := rfl

section Steps

variable [DecidableEq ι]

/-- The field that is compared tells whether an entry is still to be run. -/
theorem Consistent.runs_iff (h : Consistent handlers entry₀ set₀ k) :
    (k.entry x).Runs ↔ Waiting entry₀ k x := by
  by_cases hx : x ∈ k.ran
  · exact iff_of_false (fun hruns => hruns.2 (h.done x hx)) fun hwait => hwait.2 hx
  · rw [h.entry x hx]
    exact ⟨fun hruns => ⟨hruns, hx⟩, fun hwait => hwait.1⟩

omit [DecidableEq ι] in
theorem Consistent.sortTable (h : Consistent handlers entry₀ set₀ k) :
    Consistent handlers entry₀ set₀ (sortTable k) :=
  { h with table := fun x => (exchangeSort_perm _).mem_iff.trans (h.table x) }

/-- The kernel behind a handler. -/
def handled (handlers : Handlers ι) (k : Kernel ι) (x : ι) : Kernel ι :=
  checkOff (callFunc handlers k x) x

/-- The table that there is behind a handler: the old one, or the new one with all additions. -/
theorem handled_eq (h : k.newsysinit = none) : handled handlers k x =
    { entry := Function.update k.entry x { k.entry x with subsystem := siSubDone }
      sysinit := k.sysinit
      newsysinit := if handlers k.ran x = [] then none else some (k.sysinit ++ (handlers k.ran x).flatten)
      ran := k.ran ++ [x] } := by
  rw [handled, callFunc]
  cases hsets : handlers k.ran x with
  | nil =>
      rw [List.foldl_nil, if_pos rfl, ← h]
      rfl
  | cons set sets =>
      rw [foldl_sysinitAdd_none h, if_neg (List.cons_ne_nil _ _)]
      rfl

theorem handled_ran (h : k.newsysinit = none) : (handled handlers k x).ran = k.ran ++ [x] := by
  rw [handled_eq h]

theorem handled_longer (h : k.newsysinit = none) : k.ran.length < (handled handlers k x).ran.length := by
  rw [handled_ran h, List.length_append]
  exact Nat.lt_succ_self _

/-- Fewer entries are to be run than before. -/
theorem Waiting.of_handled (h : k.newsysinit = none) (hy : Waiting entry₀ (handled handlers k x) y) :
    Waiting entry₀ k y ∧ y ≠ x := by
  rw [Waiting, handled_ran h, List.mem_append, not_or, List.mem_singleton] at hy
  exact ⟨⟨hy.1, hy.2.1⟩, hy.2.2⟩

/-- A handler called for the least of the entries to be run, and the table that the walk goes on with. -/
theorem Consistent.handled {sysinit : List ι} (h : Consistent handlers entry₀ set₀ k)
    (hreg : x ∈ k.sysinit) (hwait : Waiting entry₀ k x)
    (hmin : ∀ y ∈ k.sysinit, Waiting entry₀ k y → Before (entry₀ x) (entry₀ y))
    (htable : ∀ y, y ∈ sysinit ↔ y ∈ k.sysinit ∨ ∃ set ∈ handlers k.ran x, y ∈ set) :
    Consistent handlers entry₀ set₀
      { handled handlers k x with sysinit := sysinit, newsysinit := none } := by
  rw [handled_eq h.new]
  refine ⟨?_, ?_, ?_, ?_, rfl⟩
  · refine .snoc h.order ((h.table x).mp hreg) hwait.1 hwait.2 fun y hy hruns hnew => ?_
    exact hmin y ((h.table y).mpr hy) ⟨hruns, hnew⟩
  · intro y hy
    obtain ⟨hold, hne⟩ := not_or.mp (fun hor => hy (List.mem_append.mpr hor))
    show Function.update k.entry x _ y = entry₀ y
    rw [Function.update_of_ne fun hyx => hne (List.mem_singleton.mpr hyx)]
    exact h.entry y hold
  · intro y hy
    show (Function.update k.entry x _ y).subsystem = siSubDone
    by_cases hyx : y = x
    · rw [hyx, Function.update_self]
    · rw [Function.update_of_ne hyx]
      rcases List.mem_append.mp hy with hold | hnew
      · exact h.done y hold
      · exact absurd (List.mem_singleton.mp hnew) hyx
  · intro y
    rw [htable y, h.table y]
    exact registered_snoc.symm

section Turn

variable {rest : List ι} (hnew : k.newsysinit = none) (hruns : (k.entry x).Runs)
include hnew hruns

/-- The turn that calls a handler which adds nothing: on with the rest. -/
theorem traverse_on (hsets : handlers k.ran x = []) :
    traverse handlers (x :: rest) k = traverse handlers rest (handled handlers k x) := by
  have hnone : (checkOff (callFunc handlers k x) x).newsysinit = none := by
    show (handled handlers k x).newsysinit = none
    rw [handled_eq hnew]
    exact if_pos hsets
  rw [traverse, if_neg hruns.1, if_neg hruns.2]
  simp only [hnone]
  rfl

/-- The turn that calls a handler which adds some: the walk ends at the new table. -/
theorem traverse_restart (hsets : handlers k.ran x ≠ []) :
    traverse handlers (x :: rest) k =
      ({ handled handlers k x with
        sysinit := k.sysinit ++ (handlers k.ran x).flatten, newsysinit := none }, true) := by
  have hsome : (checkOff (callFunc handlers k x) x).newsysinit =
      some (k.sysinit ++ (handlers k.ran x).flatten) := by
    show (handled handlers k x).newsysinit = _
    rw [handled_eq hnew]
    exact if_neg hsets
  rw [traverse, if_neg hruns.1, if_neg hruns.2]
  simp only [hsome]
  rfl

end Turn

/-- What the walk over the rest of the table leaves: nothing to be run, or a new table and more handlers
called. -/
theorem traverse_spec {rest : List ι} (h : Consistent handlers entry₀ set₀ k)
    (hsub : ∀ x ∈ rest, x ∈ k.sysinit) (hleft : ∀ x ∈ k.sysinit, Waiting entry₀ k x → x ∈ rest)
    (hsorted : rest.Pairwise fun x y =>
      Waiting entry₀ k x → Waiting entry₀ k y → Before (entry₀ x) (entry₀ y)) :
    Consistent handlers entry₀ set₀ (traverse handlers rest k).1 ∧
      ((traverse handlers rest k).2 = false →
        ∀ x ∈ (traverse handlers rest k).1.sysinit, ¬ Waiting entry₀ (traverse handlers rest k).1 x) ∧
      ((traverse handlers rest k).2 = true →
        k.ran.length < (traverse handlers rest k).1.ran.length) := by
  induction rest generalizing k with
  | nil => exact ⟨h, fun _ x hx hwait => absurd (hleft x hx hwait) List.not_mem_nil, fun h => by cases h⟩
  | cons sipp rest ih =>
      obtain ⟨hfirst, hrest⟩ := List.pairwise_cons.mp hsorted
      -- a task that is passed over is none of those to be run
      have hskip (hnot : ¬ (k.entry sipp).Runs) : ∀ x ∈ k.sysinit, Waiting entry₀ k x → x ∈ rest := by
        intro x hx hwait
        rcases List.mem_cons.mp (hleft x hx hwait) with rfl | hx
        · exact absurd (h.runs_iff.mpr hwait) hnot
        · exact hx
      have hsub' : ∀ x ∈ rest, x ∈ k.sysinit := fun x hx => hsub x (List.mem_cons_of_mem _ hx)
      by_cases hdummy : (k.entry sipp).subsystem = siSubDummy
      · rw [traverse, if_pos hdummy]
        exact ih h hsub' (hskip fun hruns => hruns.1 hdummy) hrest
      · by_cases hdone : (k.entry sipp).subsystem = siSubDone
        · rw [traverse, if_neg hdummy, if_pos hdone]
          exact ih h hsub' (hskip fun hruns => hruns.2 hdone) hrest
        · have hreg : sipp ∈ k.sysinit := hsub sipp List.mem_cons_self
          have hwait : Waiting entry₀ k sipp := h.runs_iff.mp ⟨hdummy, hdone⟩
          have hmin : ∀ y ∈ k.sysinit, Waiting entry₀ k y → Before (entry₀ sipp) (entry₀ y) := by
            intro y hy hwait'
            rcases List.mem_cons.mp (hleft y hy hwait') with rfl | hy
            · exact or_self_iff.mp (before_total _ _)
            · exact hfirst y hy hwait hwait'
          have hlonger : k.ran.length < (handled handlers k sipp).ran.length := handled_longer h.new
          by_cases hsets : handlers k.ran sipp = []
          · rw [traverse_on h.new ⟨hdummy, hdone⟩ hsets]
            have hk : { handled handlers k sipp with sysinit := k.sysinit, newsysinit := none } =
                handled handlers k sipp := by
              rw [handled_eq h.new, if_pos hsets]
            have hnext : Consistent handlers entry₀ set₀ (handled handlers k sipp) :=
              hk ▸ h.handled hreg hwait hmin fun y => by simp [hsets]
            have hsame : (handled handlers k sipp).sysinit = k.sysinit := by
              rw [← hk]
            have hleft' : ∀ y ∈ (handled handlers k sipp).sysinit,
                Waiting entry₀ (handled handlers k sipp) y → y ∈ rest := by
              intro y hy hwait'
              obtain ⟨hold, hne⟩ := hwait'.of_handled h.new
              exact (List.mem_cons.mp (hleft y (hsame ▸ hy) hold)).resolve_left hne
            obtain ⟨hend, hall, hmore⟩ := ih hnext (hsame ▸ hsub') hleft'
              (hrest.imp fun hxy hx hy => hxy (hx.of_handled h.new).1 (hy.of_handled h.new).1)
            exact ⟨hend, hall, fun htrue => hlonger.trans (hmore htrue)⟩
          · rw [traverse_restart h.new ⟨hdummy, hdone⟩ hsets]
            refine ⟨h.handled hreg hwait hmin fun y => ?_, fun hfalse => ?_, fun _ => hlonger⟩
            · rw [List.mem_append, List.mem_flatten]
            · cases hfalse

/-- One turn from `restart` on. -/
theorem turn_spec (h : Consistent handlers entry₀ set₀ k) {k' : Kernel ι} {restart : Bool}
    (hturn : traverse handlers (sortTable k).sysinit (sortTable k) = (k', restart)) :
    Consistent handlers entry₀ set₀ k' ∧
      (restart = false → ∀ x ∈ k'.sysinit, ¬ Waiting entry₀ k' x) ∧
      (restart = true → k.ran.length < k'.ran.length) := by
  have hsort := h.sortTable
  have hordered : (sortTable k).sysinit.Pairwise fun x y => Before (k.entry x) (k.entry y) :=
    exchangeSort_sorted (fun x y => before_total (k.entry x) (k.entry y))
      (fun x y z => before_trans (k.entry x) (k.entry y) (k.entry z)) _
  have hsorted : (sortTable k).sysinit.Pairwise fun x y =>
      Waiting entry₀ (sortTable k) x → Waiting entry₀ (sortTable k) y →
        Before (entry₀ x) (entry₀ y) := by
    refine hordered.imp fun hxy hx hy => ?_
    rwa [h.entry _ hx.2, h.entry _ hy.2] at hxy
  have hspec := traverse_spec hsort (fun _ hx => hx) (fun _ hx _ => hx) hsorted
  rw [hturn] at hspec
  exact hspec

/-- Every stage of the start, the end of it, and how far it gets. -/
theorem miStartup_spec (h : Consistent handlers entry₀ set₀ k) (turns : Nat) :
    Consistent handlers entry₀ set₀ (miStartup handlers turns k).1 ∧
      ((miStartup handlers turns k).2 = true →
        ∀ x ∈ (miStartup handlers turns k).1.sysinit, ¬ Waiting entry₀ (miStartup handlers turns k).1 x) ∧
      ((miStartup handlers turns k).2 = false →
        k.ran.length + turns ≤ (miStartup handlers turns k).1.ran.length) := by
  induction turns generalizing k with
  | zero => exact ⟨h, fun htrue => absurd htrue Bool.false_ne_true, fun _ => Nat.le_refl _⟩
  | succ turns ih =>
      obtain ⟨k', restart, hturn⟩ : ∃ k' restart,
          traverse handlers (sortTable k).sysinit (sortTable k) = (k', restart) := ⟨_, _, rfl⟩
      obtain ⟨hk', hall, hmore⟩ := turn_spec h hturn
      cases restart with
      | false =>
          have hend : miStartup handlers (turns + 1) k = (k', true) := by
            rw [miStartup, hturn]
          rw [hend]
          exact ⟨hk', fun _ => hall rfl, fun hfalse => absurd hfalse.symm Bool.false_ne_true⟩
      | true =>
          have hagain : miStartup handlers (turns + 1) k = miStartup handlers turns k' := by
            rw [miStartup, hturn]
          obtain ⟨hcons, hdone, hlong⟩ := ih hk'
          rw [hagain]
          refine ⟨hcons, hdone, fun hfalse => ?_⟩
          have hlt := hmore rfl
          have hle := hlong hfalse
          omega

/-- **The start.** At every stage the handlers called were called once, each for an entry that had the
least key of those registered by then and not yet run; when it returns, every registered entry that is to
be run was run; and it returns if what gets registered is finite. -/
theorem miStartup_runs_each_once (handlers : Handlers ι) (entry₀ : ι → Sysinit) (set₀ : List ι) :
    (∀ turns before x after,
      (miStartup handlers turns (boot entry₀ set₀)).1.ran = before ++ x :: after →
        Registered handlers set₀ before x ∧ (entry₀ x).Runs ∧ x ∉ before ∧
          ∀ y, Registered handlers set₀ before y → (entry₀ y).Runs → y ∉ before →
            Before (entry₀ x) (entry₀ y)) ∧
    (∀ turns k, miStartup handlers turns (boot entry₀ set₀) = (k, true) →
      ∀ x, Registered handlers set₀ k.ran x → (entry₀ x).Runs → k.ran.count x = 1) ∧
    ∀ entries : Finset ι,
      (∀ turns x, Registered handlers set₀ (miStartup handlers turns (boot entry₀ set₀)).1.ran x →
        x ∈ entries) →
      ∃ turns k, miStartup handlers turns (boot entry₀ set₀) = (k, true) := by
  have hboot : Consistent handlers entry₀ set₀ (boot entry₀ set₀) := boot_consistent
  have hspec (turns : Nat) := miStartup_spec hboot turns
  refine ⟨?_, ?_, ?_⟩
  · intro turns before x after hran
    exact (hspec turns).1.order.split hran
  · intro turns k hend x hreg hruns
    obtain ⟨hcons, hall, -⟩ := hspec turns
    rw [hend] at hcons hall
    have hmem : x ∈ k.ran := by
      by_contra hnot
      exact hall rfl x ((hcons.table x).mpr hreg) ⟨hruns, hnot⟩
    exact List.count_eq_one_of_mem hcons.order.nodup hmem
  · intro entries hfinite
    obtain ⟨hcons, -, hlong⟩ := hspec (entries.card + 1)
    have hnodup := hcons.order.nodup
    have hfew : (miStartup handlers (entries.card + 1) (boot entry₀ set₀)).1.ran.length ≤
        entries.card := by
      rw [← List.toFinset_card_of_nodup hnodup]
      apply Finset.card_le_card
      intro x hx
      exact hfinite _ x (hcons.order.registered (List.mem_toFinset.mp hx))
    refine ⟨entries.card + 1, _, Prod.ext rfl ?_⟩
    cases hreturned : (miStartup handlers (entries.card + 1) (boot entry₀ set₀)).2 with
    | true => rfl
    | false =>
        have hle := hlong hreturned
        omega

end Steps

/-- A dummy and two entries; the handler of the first adds a third, to be run before the second. -/
def Sample.entry : Nat → Sysinit
  | 0 => ⟨0, 0⟩
  | 1 => ⟨8, 5⟩
  | 2 => ⟨16, 0⟩
  | _ => ⟨8, 1⟩

def Sample.adding : Handlers Nat := fun _ x => if x = 1 then [[], [3]] else []

theorem miStartup_runs_each_once_added :
    ∃ k, miStartup Sample.adding 2 (boot Sample.entry [2, 0, 1]) = (k, true) ∧
      k.ran = [1, 3, 2] ∧ k.ran.count 3 = 1 := by
  have hreturned : (miStartup Sample.adding 2 (boot Sample.entry [2, 0, 1])).2 = true := by decide
  have hran : (miStartup Sample.adding 2 (boot Sample.entry [2, 0, 1])).1.ran = [1, 3, 2] := by
    decide
  have hend : miStartup Sample.adding 2 (boot Sample.entry [2, 0, 1]) = (_, true) :=
    Prod.ext rfl hreturned
  refine ⟨_, hend, hran, ?_⟩
  apply (miStartup_runs_each_once Sample.adding Sample.entry [2, 0, 1]).2.1 2 _ hend 3
  · exact .inr ⟨[], 1, [3, 2], hran, [3], by decide, by decide⟩
  · exact ⟨by decide, by decide⟩

end LazyBsd.Startup
