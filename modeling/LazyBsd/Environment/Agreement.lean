/-
# LazyBsd.Environment.Agreement — which variables the two lookups see.

`kenv_acquire` finds nothing, whatever was set: the places it reads are never filled. It agrees with
`kern_getenv` on a name exactly when the process did not inherit the name and no call has set it.

The walk over a static block is compared with a search of the entries. One turn answers for one entry
(`staticEntry_of_equals`, `staticEntry_of_no_equals`) and `kernenv_next` goes to the next; the loop is then
followed by induction over the entries.
-/
import LazyBsd.Environment.Lookup

namespace LazyBsd.Environment

open Lib
open LazyBsd.Filter (CString)

/-! ## Sequences of `kern_setenv` -/

/-- The state after a sequence of calls. -/
def setAll (s : Kenv) (calls : List SetCall) : Kenv := calls.foldl (fun s c => (kernSetenv s c).2) s

@[simp] theorem setAll_nil (s : Kenv) : setAll s [] = s := rfl

@[simp] theorem setAll_cons (s : Kenv) (c : SetCall) (calls : List SetCall) :
    setAll s (c :: calls) = setAll (kernSetenv s c).2 calls := rfl

/-- The four variables that `kenv_acquire` reads, as they are initialised. -/
structure Unfilled (s : Kenv) : Prop where
  kernEnvp : s.kernEnvp = none
  mdEnvp : s.mdEnvp = none
  dynamicKenv : s.dynamicKenv = false

theorem boot_unfilled (environ : Environ) : Unfilled (boot environ) := ⟨rfl, rfl, rfl⟩

theorem kernSetenv_unfilled {s : Kenv} (h : Unfilled s) (c : SetCall) : Unfilled (kernSetenv s c).2 :=
  ⟨h.kernEnvp, h.mdEnvp, h.dynamicKenv⟩

/-- No sequence of calls fills them. -/
theorem setAll_unfilled {s : Kenv} (h : Unfilled s) (calls : List SetCall) :
    Unfilled (setAll s calls) := by
  induction calls generalizing s with
  | nil => exact h
  | cons c calls ih =>
      rw [setAll_cons]
      exact ih (kernSetenv_unfilled h c)

/-- `kenv_acquire` returns NULL for every name. -/
theorem kenvAcquire_unfilled {s : Kenv} (h : Unfilled s) (name : CString) :
    kenvAcquire s name = some none := by
  simp [kenvAcquire, getenvStatic, getenvStaticFrom, h.dynamicKenv, h.mdEnvp, h.kernEnvp]

theorem kernGetenv_kernSetenv (s : Kenv) (c : SetCall) (name : CString) :
    kernGetenv (kernSetenv s c).2 name =
      if c.succeeds = true ∧ c.name = name then some c.value else kernGetenv s name := by
  by_cases hs : c.succeeds = true
  · by_cases hn : c.name = name
    · subst hn
      simp [kernGetenv, kernSetenv, setenv, hs]
    · simp [kernGetenv, kernSetenv, setenv, hs, hn, Function.update_of_ne (Ne.symm hn)]
  · simp [kernGetenv, kernSetenv, setenv, hs]

/-- `kern_getenv` returns NULL exactly for a name that was not there and that no call has set. -/
theorem kernGetenv_setAll_eq_none_iff (s : Kenv) (calls : List SetCall) (name : CString) :
    kernGetenv (setAll s calls) name = none ↔
      kernGetenv s name = none ∧ ∀ c ∈ calls, c.name = name → c.succeeds = false := by
  induction calls generalizing s with
  | nil => simp
  | cons c calls ih =>
      rw [setAll_cons, ih, kernGetenv_kernSetenv, List.forall_mem_cons]
      by_cases hc : c.succeeds = true ∧ c.name = name
      · rw [if_pos hc]
        simp [hc.1, hc.2]
      · rw [if_neg hc]
        have hc' : c.name = name → c.succeeds = false := by
          intro hn
          by_contra hs
          exact hc ⟨by simpa using hs, hn⟩
        exact ⟨fun h => ⟨h.1, hc', h.2⟩, fun h => ⟨h.1, h.2.2⟩⟩

/-! ## One turn of the walk -/

/-- The value that an entry gives to a name, by its text before the first `=`. -/
def valueOf (name entry : CString) : Option CString :=
  if '=' ∈ entry ∧ entry.takeWhile (· ≠ '=') = name then some (entry.drop (name.length + 1)) else none

/-- The value of the first entry with that name. -/
def find (b : Strings nul) (name : CString) : Option CString := b.entries.findSome? (valueOf name)

/-- An entry with a `=` is a name without one, the `=` and a value. -/
theorem exists_name_value {e : CString} (h : '=' ∈ e) :
    ∃ n v, e = n ++ '=' :: v ∧ '=' ∉ n ∧ e.takeWhile (· ≠ '=') = n := by
  obtain ⟨n, v, rfl, hn⟩ := List.eq_append_cons_of_mem h
  exact ⟨n, v, rfl, hn, takeWhile_terminated hn v⟩

theorem valueOf_append {n : CString} (hn : '=' ∉ n) (v name : CString) :
    valueOf name (n ++ '=' :: v) = if n = name then some v else none := by
  rw [valueOf, takeWhile_terminated hn]
  by_cases h : n = name
  · subst h
    rw [if_pos ⟨by simp, rfl⟩, if_pos rfl]
    simp [List.drop_append]
  · rw [if_neg (fun hc => h hc.2), if_neg h]

theorem beforeEquals_append {n : CString} (hn : '=' ∉ n) (hz : nul ∉ n) {c : Char} (hc : c = '=' ∨ c = nul)
    (t : Chars) : beforeEquals (n ++ c :: t) = n := by
  have hpos : ∀ d ∈ n, (d ≠ '=' && d ≠ nul) = true := by
    intro d hd
    simp [ne_of_mem_of_not_mem hd hn, ne_of_mem_of_not_mem hd hz]
  have hneg : ¬ (c ≠ '=' && c ≠ nul) = true := by
    rcases hc with rfl | rfl <;> simp
  unfold beforeEquals
  rw [List.takeWhile_append_of_pos hpos, List.takeWhile_cons_of_neg (p := fun d => d ≠ '=' && d ≠ nul) hneg,
    List.append_nil]

/-- `strncmp` over the length of a string is a comparison of prefixes. -/
theorem strncmpZero_append {n : CString} (hz : nul ∉ n) (name : CString) (t : Chars) :
    strncmpZero name (n ++ t) n.length = some (n.isPrefixOf name) := by
  induction n generalizing name with
  | nil => simp [strncmpZero]
  | cons c n ih =>
      simp only [List.mem_cons, not_or] at hz
      cases name with
      | nil => simp [strncmpZero, Ne.symm hz.1]
      | cons a name =>
          rw [List.cons_append, List.length_cons, strncmpZero]
          by_cases hac : a = c
          · subst hac
            rw [if_pos rfl, ih hz.2]
            simp [List.isPrefixOf]
          · rw [if_neg hac]
            simp [List.isPrefixOf, Ne.symm hac]

theorem charAt_length {name : CString} (hz : nul ∉ name) {k : Nat} (hk : k ≤ name.length) :
    ∃ c, charAt name (k : Int) = some c ∧ (c = nul ↔ name.length = k) := by
  have hneg : ¬ (k : Int) < 0 := by omega
  rw [charAt, if_neg hneg, Int.toNat_natCast]
  rcases Nat.lt_or_eq_of_le hk with hlt | rfl
  · refine ⟨name[k], ?_, ?_⟩
    · rw [List.getElem?_append_left hlt, List.getElem?_eq_getElem hlt]
    · exact ⟨fun h => absurd (h ▸ List.getElem_mem hlt) hz, fun h => by omega⟩
  · exact ⟨nul, by simp, by simp⟩

theorem entryLen_append {n : CString} (hn : '=' ∉ n) (hz : nul ∉ n) (hlen : n.length < 0x80000000)
    (t : Chars) : entryLen (n ++ '=' :: t) = n.length := by
  unfold entryLen
  rw [beforeEquals_append hn hz (Or.inl rfl)]
  simp only [Int.bmod_def]
  omega

theorem entryLen_lt (cp : Chars) : entryLen cp < 0x80000000 := by
  unfold entryLen
  simp only [Int.bmod_def]
  omega

/-- **The turn at an entry with a `=`** returns its value when the name is the one asked for. -/
theorem staticEntry_of_equals {n name : CString} (hn : '=' ∉ n) (hz : nul ∉ n) (hname : nul ∉ name)
    (hlen : n.length < 0x80000000) (ep : Chars) :
    staticEntry (n ++ '=' :: ep) name = some (if n = name then some ep else none) := by
  have hdrop : (n ++ '=' :: ep).drop (beforeEquals (n ++ '=' :: ep)).length = '=' :: ep := by
    rw [beforeEquals_append hn hz (Or.inl rfl), List.drop_left]
  have hsize : sizeT (n.length : Int) = n.length := by
    unfold sizeT
    omega
  unfold staticEntry
  rw [hdrop, entryLen_append hn hz hlen, hsize, strncmpZero_append hz]
  by_cases hpre : n.isPrefixOf name = true
  · have hle : n.length ≤ name.length := (List.isPrefixOf_iff_prefix.mp hpre).length_le
    obtain ⟨c, hc, hnul⟩ := charAt_length hname hle
    have heq : name.length = n.length ↔ n = name :=
      ⟨fun h => (List.isPrefixOf_iff_prefix.mp hpre).eq_of_length h.symm, fun h => by rw [h]⟩
    simp [hpre, hc, hnul, heq]
  · have hne : n ≠ name := by
      rintro rfl
      exact hpre (List.isPrefixOf_iff_prefix.mpr (List.prefix_refl _))
    simp [hpre, hne]

/-- The turn at an entry without a `=` goes on. -/
theorem staticEntry_of_no_equals {e : CString} (he : '=' ∉ e) (hz : nul ∉ e) (t : Chars) (name : CString) :
    staticEntry (e ++ nul :: t) name = some none := by
  have hdrop : (e ++ nul :: t).drop (beforeEquals (e ++ nul :: t)).length = nul :: t := by
    rw [beforeEquals_append he hz (Or.inr rfl), List.drop_left]
  have hnul : nul ≠ '=' := by decide
  unfold staticEntry
  rw [hdrop]
  simp [hnul]

/-- A name that no `int` can measure is found nowhere. -/
theorem staticEntry_ne_found {name : CString} (hname : nul ∉ name) (hlen : 0x80000000 ≤ name.length)
    (cp ep : Chars) : staticEntry cp name ≠ some (some ep) := by
  intro h
  unfold staticEntry at h
  split at h
  · exact absurd h (by simp)
  · split_ifs at h
    · exact absurd h (by simp)
    · simp only [Option.bind_eq_bind, Option.bind_eq_some_iff] at h
      obtain ⟨same, -, h⟩ := h
      split_ifs at h
      · simp only [Option.bind_eq_some_iff] at h
        obtain ⟨last, hlast, h⟩ := h
        have hlt : entryLen cp < 0x80000000 := entryLen_lt cp
        have hnul : last = nul := by
          by_contra hne
          simp [hne] at h
        unfold charAt at hlast
        split_ifs at hlast with hneg
        have hk : (entryLen cp).toNat < name.length := by omega
        rw [List.getElem?_append_left hk, List.getElem?_eq_getElem hk] at hlast
        have hmem : last ∈ name := by
          rw [← Option.some.inj hlast]
          exact List.getElem_mem hk
        exact hname (hnul ▸ hmem)
      · exact absurd h (by simp)

/-! ## The walk -/

theorem cstring_append {v : CString} (hz : nul ∉ v) (t : Chars) : cstring (v ++ nul :: t) = v :=
  takeWhile_terminated hz t

/-- `kernenv_next` behind the last entry. -/
theorem kernenvNext_last {e : CString} (hz : nul ∉ e) (tail : Chars) :
    kernenvNext (e ++ nul :: nul :: tail) = some none := by
  unfold kernenvNext
  rw [dropWhile_terminated hz]
  exact if_pos rfl

/-- `kernenv_next` in front of another entry, which is not empty. -/
theorem kernenvNext_cons {e e' : CString} (hz : nul ∉ e) (hz' : nul ∉ e') (hne : e' ≠ []) (t : Chars) :
    kernenvNext (e ++ nul :: (e' ++ t)) = some (some (e' ++ t)) := by
  obtain ⟨c, e'', rfl⟩ := List.exists_cons_of_ne_nil hne
  have hc : c ≠ nul := fun h => hz' (h ▸ List.mem_cons_self)
  unfold kernenvNext
  rw [dropWhile_terminated hz, List.cons_append]
  exact if_neg hc

theorem getenvStaticLoop_found {cp ep : Chars} {name : CString}
    (h : staticEntry cp name = some (some ep)) : getenvStaticLoop cp name = some (some ep) := by
  rw [getenvStaticLoop, h]

theorem getenvStaticLoop_last {cp : Chars} {name : CString} (h : staticEntry cp name = some none)
    (hnext : kernenvNext cp = some none) : getenvStaticLoop cp name = some none := by
  rw [getenvStaticLoop, h]
  dsimp only
  split
  · next hn => simp [hnext] at hn
  · rfl
  · next hn => simp [hnext] at hn

theorem getenvStaticLoop_next {cp next : Chars} {name : CString} (h : staticEntry cp name = some none)
    (hnext : kernenvNext cp = some (some next)) :
    getenvStaticLoop cp name = getenvStaticLoop next name := by
  rw [getenvStaticLoop, h]
  dsimp only
  split
  · next hn => simp [hnext] at hn
  · next hn => simp [hnext] at hn
  · next hn =>
      rw [hnext] at hn
      cases hn
      rfl

/-- Every name of a block fits an `int`. -/
def ShortNames (es : List CString) : Prop :=
  ∀ e ∈ es, '=' ∈ e → (e.takeWhile (· ≠ '=')).length < 0x80000000

/-- **The turn at an entry** in front of its terminator: it returns the value that the entry gives to the
name, or goes on. -/
theorem staticEntry_entry {e name : CString} (hz : nul ∉ e) (hname : nul ∉ name)
    (hshort : '=' ∈ e → (e.takeWhile (· ≠ '=')).length < 0x80000000) (t : Chars) :
    ∃ r, staticEntry (e ++ nul :: t) name = some r ∧ r.map cstring = valueOf name e := by
  by_cases he : '=' ∈ e
  · obtain ⟨n, v, rfl, hn, htake⟩ := exists_name_value he
    rw [htake] at hshort
    simp only [List.mem_append, List.mem_cons, not_or] at hz
    refine ⟨if n = name then some (v ++ nul :: t) else none, ?_, ?_⟩
    · rw [List.append_assoc, List.cons_append, staticEntry_of_equals hn hz.1 hname (hshort he)]
    · rw [valueOf_append hn]
      by_cases h : n = name
      · rw [if_pos h, if_pos h, Option.map_some, cstring_append hz.2.2]
      · rw [if_neg h, if_neg h, Option.map_none]
  · refine ⟨none, staticEntry_of_no_equals he hz t name, ?_⟩
    rw [Option.map_none, valueOf, if_neg (fun h => he h.1)]

/-- **The walk over a block** reads nothing behind its end, and what it returns is the value of the first
entry with the name. Induction over the entries that are left. -/
theorem getenvStaticLoop_layout {name : CString} (hname : nul ∉ name) (tail : Chars) (e : CString)
    (es : List CString) (hz : ∀ e' ∈ e :: es, nul ∉ e') (hne : ∀ e' ∈ es, e' ≠ [])
    (hshort : ShortNames (e :: es)) :
    (getenvStaticLoop (Strings.layout nul (e :: es) tail) name).map (Option.map cstring) =
      some ((e :: es).findSome? (valueOf name)) := by
  induction es generalizing e with
  | nil =>
      have hze := hz e List.mem_cons_self
      obtain ⟨r, hr, hval⟩ := staticEntry_entry hze hname (hshort e List.mem_cons_self) (nul :: tail)
      rw [Strings.layout_cons, Strings.layout_nil, List.findSome?_cons, ← hval]
      cases r with
      | some ep => rw [getenvStaticLoop_found hr]; rfl
      | none => rw [getenvStaticLoop_last hr (kernenvNext_last hze tail)]; rfl
  | cons e' es ih =>
      obtain ⟨hze, hzes⟩ := List.forall_mem_cons.mp hz
      have hze' := hzes e' List.mem_cons_self
      have hne' := hne e' List.mem_cons_self
      obtain ⟨r, hr, hval⟩ := staticEntry_entry hze hname (hshort e List.mem_cons_self)
        (e' ++ nul :: Strings.layout nul es tail)
      rw [Strings.layout_cons, Strings.layout_cons, List.findSome?_cons, ← hval]
      cases r with
      | some ep => rw [getenvStaticLoop_found hr]; rfl
      | none =>
          have hrest := ih e' hzes (fun x hx => hne x (List.mem_cons_of_mem _ hx))
            (fun x hx => hshort x (List.mem_cons_of_mem _ hx))
          rw [Strings.layout_cons] at hrest
          rw [getenvStaticLoop_next hr (kernenvNext_cons hze hze' hne' _)]
          exact hrest

/-- The walk never finds a name that no `int` can measure. -/
theorem getenvStaticLoop_ne_found {name : CString} (hname : nul ∉ name)
    (hlen : 0x80000000 ≤ name.length) (cp ep : Chars) : getenvStaticLoop cp name ≠ some (some ep) := by
  induction hn : cp.length using Nat.strong_induction_on generalizing cp with
  | _ n ih =>
      subst hn
      intro h
      rw [getenvStaticLoop] at h
      split at h
      · exact absurd h (by simp)
      · next hfound => exact staticEntry_ne_found hname hlen cp _ hfound
      · split at h
        · exact absurd h (by simp)
        · exact absurd h (by simp)
        · next hnext => exact ih _ (kernenvNext_length_lt hnext) _ rfl h

/-- `_getenv_static_from` on a block answers every name as a search of the entries does, exactly when an
`int` can hold the length of each name in it. -/
theorem getenvStaticFrom_iff (b : Strings nul) (tail : Chars) :
    (∀ name, nul ∉ name →
      (getenvStaticFrom (some (b.chars tail)) name).map (Option.map cstring) = some (find b name)) ↔
      ShortNames b.entries := by
  constructor
  · intro h e he heq
    obtain ⟨n, v, rfl, hn, htake⟩ := exists_name_value heq
    rw [htake]
    by_contra hlen
    have hzn : nul ∉ n := fun hmem => b.unterminated _ he (List.mem_append_left _ hmem)
    -- the entry gives its own name a value, and the walk returns none of that name
    have hfind : (find b n).isSome := by
      rw [find, List.isSome_findSome?, List.any_eq_true]
      exact ⟨_, he, by rw [valueOf_append hn, if_pos rfl]; rfl⟩
    obtain ⟨value, hvalue⟩ := Option.isSome_iff_exists.mp hfind
    have hloop := h n hzn
    rw [hvalue, Option.map_eq_some_iff] at hloop
    obtain ⟨r, hr, hmap⟩ := hloop
    obtain ⟨ep, rfl, -⟩ := Option.map_eq_some_iff.mp hmap
    exact getenvStaticLoop_ne_found hzn (by omega) _ _ hr
  · intro hshort name hname
    exact getenvStaticLoop_layout hname tail b.first b.others b.unterminated b.nonempty hshort

/-- **What the two lookups see.** After any calls of `kern_setenv`, `kenv_acquire` answers a name as
`kern_getenv` does exactly when the process did not inherit the name and no call that succeeded has set it;
and `_getenv_static_from` answers every name as the entries of the block do exactly when an `int` can hold
the length of each name in the block. -/
theorem lookups_agree_iff (environ : Environ) (calls : List SetCall) (b : Strings nul) (tail : Chars) :
    (∀ name, kenvAcquire (setAll (boot environ) calls) name =
          some (kernGetenv (setAll (boot environ) calls) name) ↔
        environ name = none ∧ ∀ c ∈ calls, c.name = name → c.succeeds = false) ∧
      ((∀ name, nul ∉ name →
        (getenvStaticFrom (some (b.chars tail)) name).map (Option.map cstring) = some (find b name)) ↔
        ShortNames b.entries) := by
  refine ⟨fun name => ?_, getenvStaticFrom_iff b tail⟩
  rw [kenvAcquire_unfilled (setAll_unfilled (boot_unfilled environ) calls) name, Option.some.injEq, eq_comm,
    kernGetenv_setAll_eq_none_iff]
  rfl

/-- The variable that `lazybsd_freebsd_init` sets first: `kern_getenv` finds it, `kenv_acquire` does not. -/
theorem set_variable_not_acquired :
    ¬ ∀ (environ : Environ) (calls : List SetCall) (name : CString),
      kenvAcquire (setAll (boot environ) calls) name =
        some (kernGetenv (setAll (boot environ) calls) name) := by
  intro h
  have hset := h (fun _ => none) [⟨"kern.hz".toList, "100".toList, false⟩] "kern.hz".toList
  rw [kenvAcquire_unfilled (setAll_unfilled (boot_unfilled _) _)] at hset
  rw [setAll_cons, setAll_nil, kernGetenv_kernSetenv, if_pos ⟨rfl, rfl⟩] at hset
  exact absurd hset (by simp)

end LazyBsd.Environment
