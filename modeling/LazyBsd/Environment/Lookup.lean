/-
# LazyBsd.Environment.Lookup — the two lookups of `lazybsd_kern_environment.c`.

`kern_getenv` and `kern_setenv` go to the environment of the C library. `kenv_acquire` reads the static
blocks `md_envp` and `kern_envp`, or the array `kenvp` when `dynamic_kenv` is set. Nothing in the source
writes these four variables, so they keep their initial values: both blocks NULL, the flag clear.

A pointer into a block is what stands in memory from there to the end of the object; a read of a place
behind it is none. The walk over a block stops at its end and finds what a search of its entries finds,
as long as the `int len` can hold the length of every name.
-/
import LazyBsd.Lib.Run
import LazyBsd.Lib.Strings
import LazyBsd.Filter.PortList

namespace LazyBsd.Environment

open Lib
open LazyBsd.Filter (CString)

/-! ## The environment of the C library -/

/-- `environ`, as a map from names to values. -/
abbrev Environ := CString → Option CString

/-- One call of `kern_setenv`. -/
structure SetCall where
  name : CString
  value : CString
  enomem : Bool := false

/-- `setenv` refuses the empty name and a name with a `=` in it, and it may find no memory. -/
def SetCall.succeeds (c : SetCall) : Bool := c.name ≠ [] && !c.name.contains '=' && !c.enomem

/-- `setenv(name, value, 1)`: the return value and the environment after it. -/
def setenv (environ : Environ) (c : SetCall) : Int × Environ :=
  if c.succeeds then (0, Function.update environ c.name (some c.value)) else (-1, environ)

/-! ## The places that `kenv_acquire` reads -/

/-- The terminator of a C string. -/
def nul : Char := Char.ofNat 0

/-- What stands in memory from a pointer on. -/
abbrev Chars := List Char

/-- The state of the environment functions. -/
structure Kenv where
  environ : Environ
  kernEnvp : Option Chars := none
  mdEnvp : Option Chars := none
  kenvp : List CString := []
  dynamicKenv : Bool := false

/-- The state before the first call; the process inherits `environ`. -/
def boot (environ : Environ) : Kenv := { environ }

/-- `kern_getenv`. -/
def kernGetenv (s : Kenv) (name : CString) : Option CString := s.environ name

/-- `kern_setenv`: the return value and the state after it. -/
def kernSetenv (s : Kenv) (c : SetCall) : Int × Kenv :=
  let r := setenv s.environ c
  (r.1, { s with environ := r.2 })

/-! ## The walk over a static block -/

/-- `strncmp(name, cp, n) == 0`; none for a read behind the object. -/
def strncmpZero : CString → Chars → Nat → Option Bool
  | _, _, 0 => some true
  | _, [], _ + 1 => none
  | [], c :: _, _ + 1 => some (c = nul)
  | a :: name, c :: cp, n + 1 => if a = c then strncmpZero name cp n else some false

/-- `name[i]`, with the terminator of `name`. -/
def charAt (name : CString) (i : Int) : Option Char :=
  if i < 0 then none else (name ++ [nul])[i.toNat]?

/-- What the inner `for` of `_getenv_static_from` runs over. -/
def beforeEquals (cp : Chars) : Chars := cp.takeWhile fun c => c ≠ '=' && c ≠ nul

/-- The distance `ep - cp` in an `int`. -/
def entryLen (cp : Chars) : Int := ((beforeEquals cp).length : Int).bmod 0x100000000

/-- The `int` as the `size_t` of `strncmp`. -/
def sizeT (len : Int) : Nat := (len % 0x10000000000000000).toNat

/-- The body of the loop of `_getenv_static_from`: the pointer it returns, or no pointer to go on. -/
def staticEntry (cp : Chars) (name : CString) : Option (Option Chars) :=
  match cp.drop (beforeEquals cp).length with
  | [] => none
  | c :: ep =>
      if c ≠ '=' then some none
      else do
        let same ← strncmpZero name cp (sizeT (entryLen cp))
        if same then
          let last ← charAt name (entryLen cp)
          return if last = nul then some ep else none
        else return none

/-- `kernenv_next` of a pointer that is not NULL. -/
def kernenvNext (cp : Chars) : Option (Option Chars) :=
  match cp.dropWhile (· ≠ nul) with
  | _ :: c :: next => if c = nul then some none else some (some (c :: next))
  | _ => none

theorem kernenvNext_length_lt {cp next : Chars} (h : kernenvNext cp = some (some next)) :
    next.length < cp.length := by
  have hle : (cp.dropWhile (· ≠ nul)).length ≤ cp.length := (List.dropWhile_suffix _).length_le
  unfold kernenvNext at h
  split at h
  · next hcp =>
      split at h
      · exact absurd h (by simp)
      · obtain rfl : _ = next := by simpa using h
        rw [hcp, List.length_cons] at hle
        omega
  · exact absurd h (by simp)

/-- The loop of `_getenv_static_from` from a pointer that is not NULL. -/
def getenvStaticLoop (cp : Chars) (name : CString) : Option (Option Chars) :=
  match staticEntry cp name with
  | none => none
  | some (some ep) => some (some ep)
  | some none =>
      match _h : kernenvNext cp with
      | none => none
      | some none => some none
      | some (some next) => getenvStaticLoop next name
termination_by cp.length
decreasing_by exact kernenvNext_length_lt _h

/-- `_getenv_static_from`: none for a read behind the block, otherwise the pointer. -/
def getenvStaticFrom (chkenv : Option Chars) (name : CString) : Option (Option Chars) :=
  match chkenv with
  | none => some none
  | some cp => getenvStaticLoop cp name

/-- `_getenv_static`. -/
def getenvStatic (s : Kenv) (name : CString) : Option (Option Chars) := do
  let val ← getenvStaticFrom s.mdEnvp name
  if val.isSome then return val
  getenvStaticFrom s.kernEnvp name

/-- `_getenv_dynamic_locked`, without the index. -/
def getenvDynamicLocked (s : Kenv) (name : CString) : Option CString :=
  s.kenvp.findSome? fun cp =>
    if name.isPrefixOf cp && cp[name.length]? = some '=' then some (cp.drop (name.length + 1)) else none

/-- The C string at a pointer. -/
def cstring (p : Chars) : CString := p.takeWhile (· ≠ nul)

/-- `kenv_acquire`: the string at the pointer that it returns. -/
def kenvAcquire (s : Kenv) (name : CString) : Option (Option CString) :=
  if s.dynamicKenv then some (getenvDynamicLocked s name)
  else (getenvStatic s name).map fun p => p.map cstring

end LazyBsd.Environment
