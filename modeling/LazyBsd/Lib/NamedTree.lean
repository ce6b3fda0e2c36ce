/-
# LazyBsd.Lib.NamedTree — trees with data and named children.

A node has data and a list of children, each under a key. A path is a list of keys; at each node it goes to
the first child under its key. `keysAll p` says that every key of a tree satisfies `p`, and a path with a key
that does not leads nowhere.
-/
import Mathlib.Data.List.Basic

namespace LazyBsd.Lib

/-- A tree whose nodes hold `δ` and whose children are named by `κ`. -/
inductive NamedTree (κ δ : Type) where
  | node (data : δ) (children : List (κ × NamedTree κ δ))

namespace NamedTree

variable {κ δ : Type}

def data : NamedTree κ δ → δ
  | node d _ => d

def children : NamedTree κ δ → List (κ × NamedTree κ δ)
  | node _ cs => cs

mutual

/-- Every key in the tree satisfies `p`. -/
def keysAll (p : κ → Bool) : NamedTree κ δ → Bool
  | node _ cs => keysAllList p cs

def keysAllList (p : κ → Bool) : List (κ × NamedTree κ δ) → Bool
  | [] => true
  | c :: cs => keysAllChild p c && keysAllList p cs

def keysAllChild (p : κ → Bool) : κ × NamedTree κ δ → Bool
  | (k, t) => p k && keysAll p t

end

variable [DecidableEq κ]

/-- The first child under a key. -/
def find (k : κ) (t : NamedTree κ δ) : Option (NamedTree κ δ) :=
  (t.children.find? fun c => c.1 = k).map Prod.snd

/-- The node at the end of a path. -/
def walk : List κ → NamedTree κ δ → Option (NamedTree κ δ)
  | [], t => some t
  | k :: ks, t =>
      match find k t with
      | none => none
      | some c => walk ks c

section Keys

variable {p : κ → Bool} {k : κ} {ks : List κ} {t c : NamedTree κ δ} {cs : List (κ × NamedTree κ δ)}

omit [DecidableEq κ] in
theorem keysAll_of_mem (h : keysAllList p cs) {e : κ × NamedTree κ δ} (he : e ∈ cs) :
    p e.1 ∧ keysAll p e.2 := by
  induction cs with
  | nil => exact absurd he List.not_mem_nil
  | cons c cs ih =>
      rw [keysAllList, Bool.and_eq_true] at h
      rcases List.mem_cons.mp he with rfl | hmem
      · have hchild := h.1
        rwa [keysAllChild, Bool.and_eq_true] at hchild
      · exact ih h.2 hmem

/-- The child under a key: the key satisfies `p`, and so do the keys of the child. -/
theorem keysAll_find (h : keysAll p t) (hfind : find k t = some c) : p k ∧ keysAll p c := by
  obtain ⟨d, cs⟩ := t
  rw [find, Option.map_eq_some_iff] at hfind
  obtain ⟨e, hsome, rfl⟩ := hfind
  have hkey : e.1 = k := by simpa using List.find?_some hsome
  rw [keysAll] at h
  rw [← hkey]
  exact keysAll_of_mem h (List.mem_of_find?_eq_some hsome)

/-- **A path with a foreign key leads nowhere.** -/
theorem walk_eq_none (h : keysAll p t) (hk : k ∈ ks) (hp : p k = false) : walk ks t = none := by
  induction ks generalizing t with
  | nil => exact absurd hk List.not_mem_nil
  | cons k' ks ih =>
      rw [walk]
      cases hfind : find k' t with
      | none => rfl
      | some c =>
          obtain ⟨hkey, hchild⟩ := keysAll_find h hfind
          rcases List.mem_cons.mp hk with rfl | hmem
          · rw [hp] at hkey
            exact Bool.noConfusion hkey
          · exact ih hchild hmem

end Keys

end NamedTree

end LazyBsd.Lib
