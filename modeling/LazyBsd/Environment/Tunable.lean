/-
# LazyBsd.Environment.Tunable — the integer getters of `lazybsd_kern_environment.c`.

`strtoq(s, &end, 0)` reads a numeral in the notation of C: blanks, a sign, `0x` or a leading zero for the
base, then as many digits as there are. A number that no quad can hold is replaced by the nearest one that
can (`clamp`); `numeral` is the number itself. `getenv_quad` multiplies by 1024 once for each step of the
suffix, in 64 bits, and the other scalar getters cast what it stored. `getenv_array` reads a list: it shifts,
shifts back to see whether bits were lost, and compares with the range of the element.

An integer of the source is the Lean integer; what does not fit is cut by `Int.bmod` and `%`, as the machine
cuts it.
-/
import LazyBsd.Environment.Lookup
import Mathlib.Algebra.Order.Ring.Int

namespace LazyBsd.Environment

open LazyBsd.Filter (CString isSpace)

/-! ## Numerals -/

/-- The digit of a base up to 36; a character that is none has a value no base reaches. -/
def digitValue (c : Char) : Nat :=
  if '0' ≤ c ∧ c ≤ '9' then c.toNat - 48
  else if 'A' ≤ c ∧ c ≤ 'Z' then c.toNat - 55
  else if 'a' ≤ c ∧ c ≤ 'z' then c.toNat - 87
  else 36

/-- The number that digits spell in a base. -/
def spelled (base : Nat) (digits : CString) : Nat :=
  digits.foldl (fun n c => base * n + digitValue c) 0

/-- The base that the text announces, and its digits. -/
def radix : CString → Nat × CString
  | '0' :: x :: c :: s =>
      if (x = 'x' ∨ x = 'X') ∧ digitValue c < 16 then (16, c :: s) else (8, '0' :: x :: c :: s)
  | '0' :: s => (8, '0' :: s)
  | s => (10, s)

/-- The number without a sign at the start of the text, and what stands behind it. -/
def magnitude (s : CString) : Option (Nat × CString) :=
  let b := (radix s).1
  let digits := (radix s).2.takeWhile (digitValue · < b)
  if digits = [] then none
  else some (spelled b digits, (radix s).2.dropWhile (digitValue · < b))

/-- The number at the start of the text, and what stands behind it. -/
def numeral (s : CString) : Option (Int × CString) :=
  match s.dropWhile isSpace with
  | '-' :: t => (magnitude t).map fun r => (-(r.1 : Int), r.2)
  | '+' :: t => (magnitude t).map fun r => ((r.1 : Int), r.2)
  | t => (magnitude t).map fun r => ((r.1 : Int), r.2)

/-- `QUAD_MAX` and `QUAD_MIN`. -/
def quadMax : Int := 0x7FFFFFFFFFFFFFFF
def quadMin : Int := -0x8000000000000000

/-- The quad nearest to a number. -/
def clamp (v : Int) : Int := max quadMin (min quadMax v)

/-- `strtoq(s, &end, 0)`: the value and `end`, which is `s` when no digits were found. -/
def strtoq (s : CString) : Int × CString :=
  match numeral s with
  | none => (0, s)
  | some (v, rest) => (clamp v, rest)

/-! ## The scalar getters -/

/-- `iv *= 1024` in 64 bits. -/
def timesKilo (iv : Int) : Int := (iv * 1024).bmod 0x10000000000000000

/-- The `switch` on `vtp[0]`, which falls through from each suffix to the next smaller one; none is its
default. -/
def suffixSwitch (vtp : CString) (iv : Int) : Option Int :=
  match vtp.head? with
  | none => some iv
  | some c =>
      if c = 't' ∨ c = 'T' then some (timesKilo (timesKilo (timesKilo (timesKilo iv))))
      else if c = 'g' ∨ c = 'G' then some (timesKilo (timesKilo (timesKilo iv)))
      else if c = 'm' ∨ c = 'M' then some (timesKilo (timesKilo iv))
      else if c = 'k' ∨ c = 'K' then some (timesKilo iv)
      else none

/-- `getenv_quad`: the quad stored with a return value of 1; none for a return value of 0. -/
def getenvQuad (s : Kenv) (name : CString) : Option Int :=
  match kernGetenv s name with
  | none => none
  | some value =>
      let (iv, vtp) := strtoq value
      if vtp = value ∨ (vtp.drop 1 ≠ []) then none
      else suffixSwitch vtp iv

/-- `getenv_int`. -/
def getenvInt (s : Kenv) (name : CString) : Option Int :=
  (getenvQuad s name).map fun tmp => tmp.bmod 0x100000000

/-- `getenv_uint`. -/
def getenvUint (s : Kenv) (name : CString) : Option Int :=
  (getenvQuad s name).map fun tmp => tmp % 0x100000000

/-- `getenv_long`. -/
def getenvLong (s : Kenv) (name : CString) : Option Int :=
  (getenvQuad s name).map fun tmp => tmp.bmod 0x10000000000000000

/-- `getenv_ulong`. -/
def getenvUlong (s : Kenv) (name : CString) : Option Int :=
  (getenvQuad s name).map fun tmp => tmp % 0x10000000000000000

/-- The scalar getters. -/
inductive Getter
  | int
  | uint
  | long
  | ulong
  | quad

/-- What the getter stores. -/
def Getter.get (g : Getter) (s : Kenv) (name : CString) : Option Int :=
  match g with
  | .int => getenvInt s name
  | .uint => getenvUint s name
  | .long => getenvLong s name
  | .ulong => getenvUlong s name
  | .quad => getenvQuad s name

/-- What the destination of the getter can hold. -/
def Getter.holds (g : Getter) (v : Int) : Prop :=
  match g with
  | .int => -0x80000000 ≤ v ∧ v < 0x80000000
  | .uint => 0 ≤ v ∧ v < 0x100000000
  | .long => quadMin ≤ v ∧ v ≤ quadMax
  | .ulong => 0 ≤ v ∧ v < 0x10000000000000000
  | .quad => quadMin ≤ v ∧ v ≤ quadMax

/-! ## The array getter -/

/-- The `switch` on `*end`: the shift and the new `end`; none is its default. -/
def shiftSwitch : CString → Option (Nat × CString)
  | [] => some (0, [])
  | c :: s =>
      if c = 't' ∨ c = 'T' then some (40, s)
      else if c = 'g' ∨ c = 'G' then some (30, s)
      else if c = 'm' ∨ c = 'M' then some (20, s)
      else if c = 'k' ∨ c = 'K' then some (10, s)
      else if c = ' ' ∨ c = '\t' ∨ c = ',' then some (0, c :: s)
      else none

/-- The separators that are skipped behind a number. -/
def isSeparator (c : Char) : Bool := c = '\t' || c = ',' || c = ' '

/-- The checks of the inner `switch` and what it stores; none when it goes to `error`. -/
def storeElement (typeSize : Nat) (allowSigned : Bool) (value : Int) : Option Int :=
  match typeSize with
  | 1 =>
      if allowSigned then if value < -0x80 ∨ value > 0x7F then none else some (value % 0x100)
      else if value < 0 ∨ value > 0xFF then none else some (value % 0x100)
  | 2 =>
      if allowSigned then if value < -0x8000 ∨ value > 0x7FFF then none else some (value % 0x10000)
      else if value < 0 ∨ value > 0xFFFF then none else some (value % 0x10000)
  | 4 =>
      if allowSigned then
        if value < -0x80000000 ∨ value > 0x7FFFFFFF then none else some (value % 0x100000000)
      else if value > 0xFFFFFFFF then none else some (value % 0x100000000)
  | 8 => some (value % 0x10000000000000000)
  | _ => none

/-- `value <<= shift` in 64 bits. -/
def shiftLeft (value : Int) (shift : Nat) : Int := (value * 2 ^ shift).bmod 0x10000000000000000

/-- One turn of the loop of `getenv_array` at `ptr`, with `n` elements stored: the bits it stores and the new
`ptr`; none when it goes to `error`. -/
def arrayTurn (typeSize : Nat) (allowSigned : Bool) (size : Int) (n : Nat) (ptr : CString) :
    Option (Int × CString) :=
  let (value, stop) := strtoq ptr
  if value < 0 ∧ allowSigned = false then none
  else if ptr = stop then none
  else
    match shiftSwitch stop with
    | none => none
    | some (shift, stop) =>
        let stop := stop.dropWhile isSeparator
        let old := value
        let value := shiftLeft value shift
        if value / 2 ^ shift ≠ old then none
        else if (n : Int) ≥ size then none
        else (storeElement typeSize allowSigned value).map fun bits => (bits, stop)

/-! ## The loop ends -/

theorem radix_length_le (s : CString) : (radix s).2.length ≤ s.length := by
  unfold radix
  split
  · split
    · exact Nat.le_add_right _ 2
    · exact Nat.le_refl _
  · exact Nat.le_refl _
  · exact Nat.le_refl _

/-- What is left after dropping a prefix that is not empty is shorter. -/
theorem dropWhile_length_lt {p : Char → Bool} {s : CString} (h : s.takeWhile p ≠ []) :
    (s.dropWhile p).length < s.length := by
  have hsplit := congrArg List.length (List.takeWhile_append_dropWhile (p := p) (l := s))
  have hpos := List.length_pos_of_ne_nil h
  rw [List.length_append] at hsplit
  omega

theorem magnitude_length_lt {s rest : CString} {v : Nat} (h : magnitude s = some (v, rest)) :
    rest.length < s.length := by
  simp only [magnitude] at h
  split_ifs at h with hdigits
  obtain ⟨-, rfl⟩ := Prod.mk.inj (Option.some.inj h)
  exact Nat.lt_of_lt_of_le (dropWhile_length_lt hdigits) (radix_length_le s)

theorem numeral_length_lt {s rest : CString} {v : Int} (h : numeral s = some (v, rest)) :
    rest.length < s.length := by
  have hle : (s.dropWhile isSpace).length ≤ s.length := (List.dropWhile_suffix _).length_le
  unfold numeral at h
  split at h
  all_goals
    obtain ⟨⟨u, r⟩, hm, hr⟩ := Option.map_eq_some_iff.mp h
    obtain ⟨-, rfl⟩ := Prod.mk.inj hr
    have hlt : r.length < _ := magnitude_length_lt hm
    show r.length < s.length
  · next t ht =>
      rw [ht, List.length_cons] at hle
      omega
  · next t ht =>
      rw [ht, List.length_cons] at hle
      omega
  · omega

theorem shiftSwitch_length_le {s stop : CString} {shift : Nat} (h : shiftSwitch s = some (shift, stop)) :
    stop.length ≤ s.length := by
  unfold shiftSwitch at h
  split at h
  · obtain ⟨-, rfl⟩ := Prod.mk.inj (Option.some.inj h)
    exact Nat.le_refl _
  · split_ifs at h
    all_goals
      obtain ⟨-, rfl⟩ := Prod.mk.inj (Option.some.inj h)
      simp

/-- `end == ptr` exactly when there is no number. -/
theorem strtoq_stop_eq_iff (s : CString) : s = (strtoq s).2 ↔ numeral s = none := by
  unfold strtoq
  cases h : numeral s with
  | none => simp
  | some r =>
      have hlt := numeral_length_lt (show numeral s = some (r.1, r.2) from h)
      refine ⟨fun heq => ?_, fun hnone => by simp at hnone⟩
      exact absurd (congrArg List.length heq) (by simpa using Nat.ne_of_gt hlt)

theorem arrayTurn_length_lt {typeSize n : Nat} {allowSigned : Bool} {size bits : Int} {ptr stop : CString}
    (h : arrayTurn typeSize allowSigned size n ptr = some (bits, stop)) : stop.length < ptr.length := by
  simp only [arrayTurn] at h
  split at h
  · exact absurd h (by simp)
  split at h
  · exact absurd h (by simp)
  next hstop =>
    split at h
    · exact absurd h (by simp)
    next shift stop' hswitch =>
      split_ifs at h
      obtain ⟨b, -, hb⟩ := Option.map_eq_some_iff.mp h
      obtain ⟨-, rfl⟩ := Prod.mk.inj hb
      have hdrop : (stop'.dropWhile isSeparator).length ≤ stop'.length :=
        (List.dropWhile_suffix _).length_le
      have hle := shiftSwitch_length_le hswitch
      rw [strtoq_stop_eq_iff] at hstop
      obtain ⟨⟨v, rest⟩, hnum⟩ := Option.ne_none_iff_exists'.mp hstop
      have hrest : (strtoq ptr).2 = rest := by rw [strtoq, hnum]
      have hlt := numeral_length_lt hnum
      rw [hrest] at hle
      omega

/-- The loop of `getenv_array`: the elements it stores, and whether it got to the end of the text. -/
def arrayLoop (typeSize : Nat) (allowSigned : Bool) (size : Int) (n : Nat) (ptr : CString) :
    List Int × Bool :=
  if ptr = [] then ([], true)
  else
    match h : arrayTurn typeSize allowSigned size n ptr with
    | none => ([], false)
    | some (bits, stop) =>
        let r := arrayLoop typeSize allowSigned size (n + 1) stop
        (bits :: r.1, r.2)
termination_by ptr.length
decreasing_by exact arrayTurn_length_lt h

/-- The size of an element, by which the size of the buffer is divided. -/
structure TypeSize where
  bytes : Nat
  pos : 0 < bytes

/-- What a call of `getenv_array` leaves: the return value, the elements written and `*psize`. -/
structure ArrayRead where
  rc : Bool
  data : List Int
  psize : Option Int

/-- `getenv_array`. -/
def getenvArray (s : Kenv) (name : CString) (size : Int) (typeSize : TypeSize) (allowSigned : Bool) :
    ArrayRead :=
  match kenvAcquire s name with
  | some (some buf) =>
      let r := arrayLoop typeSize.bytes allowSigned (size.tdiv typeSize.bytes) 0 buf
      if r.2 then ⟨r.1 ≠ [], r.1, some (r.1.length * typeSize.bytes : Nat)⟩ else ⟨false, r.1, none⟩
  | _ => ⟨false, [], none⟩

end LazyBsd.Environment
