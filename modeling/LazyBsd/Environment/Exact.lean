/-
# LazyBsd.Environment.Exact — when the integer getters are exact.

`quantity` reads the text of a scalar tunable and `numbers` that of a list: the numbers they spell, without
a bound, and the power of two of each suffix. A getter is exact when what it stores is the value of what
the text spells, and it refuses every other text and every value that its destination cannot hold.

The scalar getters look at no range at all; they are exact when the number fits a quad and its value fits
the destination. `getenv_array` compares with the range of the element and undoes its shift, so it is wrong
for two kinds of text only: a number without a suffix that `strtoq` had to replace, read into eight bytes,
and two numbers with nothing but the suffix letter of the first between them.
-/
import LazyBsd.Environment.Tunable
import Mathlib.Algebra.Group.Nat.Defs
import Mathlib.Tactic.Positivity
import Mathlib.Tactic.Ring

namespace LazyBsd.Environment

open LazyBsd.Filter (CString)

/-! ## What a text spells -/

/-- The power of two of a suffix letter. -/
def suffixShift (c : Char) : Option Nat :=
  if c = 't' ∨ c = 'T' then some 40
  else if c = 'g' ∨ c = 'G' then some 30
  else if c = 'm' ∨ c = 'M' then some 20
  else if c = 'k' ∨ c = 'K' then some 10
  else none

/-- A number and the power of two of its suffix. -/
structure Quantity where
  number : Int
  shift : Nat

/-- The exact value. -/
def Quantity.value (q : Quantity) : Int := q.number * 2 ^ q.shift

/-- A number, at most one suffix letter, and nothing else. -/
def quantity (text : CString) : Option Quantity :=
  match numeral text with
  | some (v, []) => some ⟨v, 0⟩
  | some (v, [c]) => (suffixShift c).map fun k => ⟨v, k⟩
  | _ => none

/-- The value can be a quad. -/
def fitsQuad (v : Int) : Prop := quadMin ≤ v ∧ v ≤ quadMax

theorem suffixShift_mem {c : Char} {k : Nat} (h : suffixShift c = some k) : 10 ≤ k ∧ k ≤ 40 := by
  unfold suffixShift at h
  split_ifs at h
  all_goals
    obtain rfl := Option.some.inj h
    omega

/-! ## Arithmetic of the quad -/

theorem fitsQuad_clamp (v : Int) : fitsQuad (clamp v) := by
  unfold fitsQuad clamp quadMin quadMax
  omega

theorem clamp_of_fitsQuad {v : Int} (h : fitsQuad v) : clamp v = v := by
  unfold fitsQuad quadMin quadMax at h
  unfold clamp quadMin quadMax
  omega

theorem fitsQuad_of_clamp_eq {v : Int} (h : clamp v = v) : fitsQuad v := h ▸ fitsQuad_clamp v

theorem bmod_of_fitsQuad {v : Int} (h : fitsQuad v) : v.bmod 0x10000000000000000 = v := by
  unfold fitsQuad quadMin quadMax at h
  simp only [Int.bmod_def]
  omega

theorem fitsQuad_bmod (v : Int) : fitsQuad (v.bmod 0x10000000000000000) := by
  unfold fitsQuad quadMin quadMax
  simp only [Int.bmod_def]
  omega

/-- A multiple lies on the same side, and at least as far out. -/
theorem le_mul_two_pow {v : Int} (h : 0 ≤ v) (k : Nat) : v ≤ v * 2 ^ k :=
  le_mul_of_one_le_right h (one_le_pow₀ (by omega))

theorem mul_two_pow_le {v : Int} (h : v ≤ 0) (k : Nat) : v * 2 ^ k ≤ v := by
  have hneg := le_mul_two_pow (v := -v) (by omega) k
  rw [Int.neg_mul] at hneg
  omega

/-- The number fits when the value does. -/
theorem fitsQuad_of_mul {v : Int} {k : Nat} (h : fitsQuad (v * 2 ^ k)) : fitsQuad v := by
  unfold fitsQuad quadMin quadMax at h ⊢
  rcases Int.le_total 0 v with hv | hv
  · have hle := le_mul_two_pow hv k
    omega
  · have hle := mul_two_pow_le hv k
    omega

/-- A shift by at least one bit carries what `strtoq` replaced out of the range. -/
theorem fitsQuad_clamp_mul_iff {v : Int} {k : Nat} (hk : k ≠ 0) :
    fitsQuad (clamp v * 2 ^ k) ↔ fitsQuad (v * 2 ^ k) := by
  have hself : fitsQuad v → (fitsQuad (clamp v * 2 ^ k) ↔ fitsQuad (v * 2 ^ k)) := by
    intro h
    rw [clamp_of_fitsQuad h]
  by_cases hv : fitsQuad v
  · exact hself hv
  · refine iff_of_false (fun h => ?_) (fun h => hv (fitsQuad_of_mul h))
    obtain ⟨m, rfl⟩ := Nat.exists_eq_succ_of_ne_zero hk
    have hsplit : clamp v * 2 ^ (m + 1) = clamp v * 2 * 2 ^ m := by ring
    rw [Nat.succ_eq_add_one, hsplit] at h
    have htwice := fitsQuad_of_mul h
    simp only [fitsQuad, clamp, quadMin, quadMax] at htwice hv
    omega

/-- **The overflow check.** Shifting back gives the old value exactly when no bit was lost. -/
theorem shiftLeft_back_iff {c : Int} {k : Nat} (hk : k ≤ 40) :
    shiftLeft c k / 2 ^ k = c ↔ fitsQuad (c * 2 ^ k) := by
  have hpos : (0 : Int) < 2 ^ k := by positivity
  have hle : (2 : Int) ^ k ≤ 2 ^ 40 := pow_le_pow_right₀ (by omega) hk
  constructor
  · intro h
    -- the bits that came in on the right are fewer than a wrap of the quad
    have hfits := fitsQuad_bmod (c * 2 ^ k)
    have hdiv := Int.mul_ediv_add_emod (shiftLeft c k) (2 ^ k)
    have hlt := Int.emod_lt_of_pos (shiftLeft c k) hpos
    have hge := Int.emod_nonneg (shiftLeft c k) (Int.ne_of_gt hpos)
    rw [h, Int.mul_comm] at hdiv
    have hbmod : ∃ m : Int, shiftLeft c k = c * 2 ^ k + 0x10000000000000000 * m := by
      unfold shiftLeft
      simp only [Int.bmod_def]
      generalize c * 2 ^ k = x
      split_ifs
      · exact ⟨-(x / 0x10000000000000000), by omega⟩
      · exact ⟨-(x / 0x10000000000000000) - 1, by omega⟩
    obtain ⟨m, hm⟩ := hbmod
    have hzero : shiftLeft c k = c * 2 ^ k := by omega
    rw [← hzero]
    exact hfits
  · intro h
    unfold shiftLeft
    rw [bmod_of_fitsQuad h, Int.mul_ediv_cancel _ (Int.ne_of_gt hpos)]

/-! ## The scalar getters -/

theorem suffixSwitch_nil {iv : Int} (h : fitsQuad iv) : suffixSwitch [] iv = some (shiftLeft iv 0) := by
  unfold suffixSwitch shiftLeft
  rw [pow_zero, Int.mul_one, bmod_of_fitsQuad h]
  rfl

theorem timesKilo_shiftLeft (iv : Int) (k : Nat) : timesKilo (shiftLeft iv k) = shiftLeft iv (k + 10) := by
  have hkilo : iv * 2 ^ k * 1024 = iv * 2 ^ (k + 10) := by ring
  rw [timesKilo, shiftLeft, shiftLeft, Int.bmod_mul_bmod, hkilo]

/-- Each multiplication of the `switch` adds ten to the shift. -/
theorem suffixSwitch_singleton (c : Char) (iv : Int) :
    suffixSwitch [c] iv = (suffixShift c).map fun k => shiftLeft iv k := by
  have hkilo : timesKilo iv = shiftLeft iv 10 := rfl
  unfold suffixSwitch suffixShift
  show (if c = 't' ∨ c = 'T' then _ else _) = _
  split_ifs
  · rw [hkilo, timesKilo_shiftLeft, timesKilo_shiftLeft, timesKilo_shiftLeft]
    rfl
  · rw [hkilo, timesKilo_shiftLeft, timesKilo_shiftLeft]
    rfl
  · rw [hkilo, timesKilo_shiftLeft]
    rfl
  · rw [hkilo]
    rfl
  · rfl

/-- `getenv_quad` stores the nearest quad of the number, shifted in 64 bits. -/
theorem getenvQuad_eq (s : Kenv) (name : CString) :
    getenvQuad s name =
      ((kernGetenv s name).bind quantity).map fun q => shiftLeft (clamp q.number) q.shift := by
  unfold getenvQuad
  cases hget : kernGetenv s name with
  | none => rfl
  | some value =>
      rw [Option.bind_some]
      show (if (strtoq value).2 = value ∨ (strtoq value).2.drop 1 ≠ [] then none
        else suffixSwitch (strtoq value).2 (strtoq value).1) = _
      cases hnum : numeral value with
      | none =>
          have hstop : (strtoq value).2 = value := by rw [strtoq, hnum]
          rw [if_pos (Or.inl hstop), quantity, hnum]
          rfl
      | some r =>
          obtain ⟨v, rest⟩ := r
          have hstop : (strtoq value).2 ≠ value := by
            intro h
            rw [eq_comm, strtoq_stop_eq_iff, hnum] at h
            exact absurd h (by simp)
          have hvalue : strtoq value = (clamp v, rest) := by rw [strtoq, hnum]
          rw [hvalue] at hstop ⊢
          simp only [hstop, false_or, quantity, hnum]
          rcases rest with _ | ⟨c, _ | ⟨d, rest⟩⟩
          · show suffixSwitch [] (clamp v) = _
            exact suffixSwitch_nil (fitsQuad_clamp v)
          · show suffixSwitch [c] (clamp v) = _
            rw [suffixSwitch_singleton, Option.map_map]
            rfl
          · rfl

/-- The cast of a getter. -/
def Getter.cast (g : Getter) (tmp : Int) : Int :=
  match g with
  | .int => tmp.bmod 0x100000000
  | .uint => tmp % 0x100000000
  | .long => tmp.bmod 0x10000000000000000
  | .ulong => tmp % 0x10000000000000000
  | .quad => tmp

theorem Getter.get_eq (g : Getter) (s : Kenv) (name : CString) :
    g.get s name = (getenvQuad s name).map g.cast := by
  cases g
  case quad => exact Option.map_id'.symm
  all_goals rfl

theorem Getter.holds_cast (g : Getter) {v : Int} (h : fitsQuad v) : g.holds (g.cast v) := by
  unfold fitsQuad quadMin quadMax at h
  cases g <;> simp only [Getter.holds, Getter.cast, Int.bmod_def, quadMin, quadMax] <;> omega

/-- What the destination holds comes out of the wrap and the cast as it went in. -/
theorem Getter.cast_bmod (g : Getter) {v : Int} (h : g.holds v) :
    g.cast (v.bmod 0x10000000000000000) = v := by
  cases g <;> simp only [Getter.holds, Getter.cast, Int.bmod_def, quadMin, quadMax] at h ⊢ <;> omega

/-- **What is stored is exact** when the number fits a quad and the value fits the destination, and in no
other case. -/
theorem Getter.cast_eq_value_iff (g : Getter) (q : Quantity) :
    g.cast (shiftLeft (clamp q.number) q.shift) = q.value ↔ g.holds q.value ∧ fitsQuad q.number := by
  constructor
  · intro h
    have hholds : g.holds q.value := h ▸ g.holds_cast (fitsQuad_bmod _)
    refine ⟨hholds, ?_⟩
    by_contra hout
    have hquad : ¬ fitsQuad q.value := fun hv => hout (fitsQuad_of_mul hv)
    cases g
    case ulong =>
      -- the value is at least 2^63, so the number has no suffix, and the quad that replaced it is smaller
      by_cases hshift : q.shift = 0
      · unfold Quantity.value shiftLeft at h
        rw [hshift, pow_zero, Int.mul_one, Int.mul_one, bmod_of_fitsQuad (fitsQuad_clamp _)] at h
        unfold Quantity.value at hholds
        rw [hshift, pow_zero, Int.mul_one] at hholds
        simp only [Getter.holds, Getter.cast, fitsQuad, clamp, quadMin, quadMax] at h hholds hout
        omega
      · obtain ⟨m, hm⟩ := Nat.exists_eq_succ_of_ne_zero hshift
        have hsplit : q.value = q.number * 2 * 2 ^ m := by
          rw [Quantity.value, hm, Nat.succ_eq_add_one]
          ring
        rw [hsplit] at hholds
        simp only [Getter.holds, fitsQuad, quadMin, quadMax] at hholds hout
        rcases Int.le_total 0 q.number with hv | hv
        · have hle := le_mul_two_pow (v := q.number * 2) (by omega) m
          omega
        · have hle := mul_two_pow_le (v := q.number * 2) (by omega) m
          omega
    all_goals
      simp only [Getter.holds, fitsQuad, quadMin, quadMax] at hholds hquad
      omega
  · rintro ⟨hholds, hnum⟩
    rw [clamp_of_fitsQuad hnum]
    exact g.cast_bmod hholds

/-! ## The text of a list -/

/-- The shift of the suffix, if there is one, and what stands behind it. Without a suffix the number ends
at a separator or at the end of the text. -/
def suffixOf : CString → Option (Nat × CString)
  | [] => some (0, [])
  | c :: s =>
      match suffixShift c with
      | none => if isSeparator c then some (0, c :: s) else none
      | some k => some (k, s)

/-- A number of a list; `joined` when its suffix letter stands right in front of something else. -/
structure Element extends Quantity where
  joined : Bool

/-- The first number of a list, and the text of the others. -/
def element (text : CString) : Option (Element × CString) :=
  match numeral text with
  | none => none
  | some (v, rest) =>
      (suffixOf rest).map fun r =>
        (⟨⟨v, r.1⟩, r.2.head?.any (fun c => !isSeparator c)⟩, r.2.dropWhile isSeparator)

theorem shiftSwitch_eq_suffixOf (s : CString) : shiftSwitch s = suffixOf s := by
  unfold shiftSwitch suffixOf
  cases s with
  | nil => rfl
  | cons c s =>
      by_cases ht : c = 't' ∨ c = 'T'
      · simp [suffixShift, ht]
      by_cases hg : c = 'g' ∨ c = 'G'
      · simp [suffixShift, ht, hg]
      by_cases hm : c = 'm' ∨ c = 'M'
      · simp [suffixShift, ht, hg, hm]
      by_cases hk : c = 'k' ∨ c = 'K'
      · simp [suffixShift, ht, hg, hm, hk]
      have hsep : (c = ' ' ∨ c = '\t' ∨ c = ',') ↔ isSeparator c = true := by
        simp only [isSeparator, Bool.or_eq_true, decide_eq_true_eq]
        exact ⟨fun h => by rcases h with h | h | h <;> simp [h], fun h => by
          rcases h with (h | h) | h <;> simp [h]⟩
      simp only [suffixShift, ht, hg, hm, hk, if_false, hsep]

theorem suffixOf_shift {s rest : CString} {k : Nat} (h : suffixOf s = some (k, rest)) :
    (k = 0 ∨ 10 ≤ k) ∧ k ≤ 40 ∧ rest.length ≤ s.length := by
  unfold suffixOf at h
  split at h
  · obtain ⟨rfl, rfl⟩ := Prod.mk.inj (Option.some.inj h)
    exact ⟨Or.inl rfl, by omega, Nat.le_refl _⟩
  · split at h
    · split_ifs at h
      obtain ⟨rfl, rfl⟩ := Prod.mk.inj (Option.some.inj h)
      exact ⟨Or.inl rfl, by omega, Nat.le_refl _⟩
    · next k' hk' =>
        obtain ⟨rfl, rfl⟩ := Prod.mk.inj (Option.some.inj h)
        have hmem := suffixShift_mem hk'
        exact ⟨Or.inr hmem.1, hmem.2, by simp⟩

theorem element_length_lt {text rest : CString} {e : Element} (h : element text = some (e, rest)) :
    rest.length < text.length := by
  unfold element at h
  split at h
  · exact absurd h (by simp)
  · next v stop hnum =>
      obtain ⟨⟨k, stop'⟩, hsuf, hr⟩ := Option.map_eq_some_iff.mp h
      obtain ⟨-, rfl⟩ := Prod.mk.inj hr
      have hdrop : (stop'.dropWhile isSeparator).length ≤ stop'.length :=
        (List.dropWhile_suffix _).length_le
      have hlt := numeral_length_lt hnum
      have hle := (suffixOf_shift hsuf).2.2
      show (stop'.dropWhile isSeparator).length < text.length
      omega

/-- The numbers of a list, each behind the separators of the one before it. -/
def elements (text : CString) : Option (List Element) :=
  if text = [] then some []
  else
    match _h : element text with
    | none => none
    | some (e, rest) => (elements rest).map (e :: ·)
termination_by text.length
decreasing_by exact element_length_lt _h

/-- The list that a text spells: numbers with separators between them. -/
def numbers (text : CString) : Option (List Quantity) :=
  (elements text).bind fun es =>
    if es.any Element.joined then none else some (es.map Element.toQuantity)

/-! ## One element of an array -/

/-- The range of an element. -/
def holdsElement (typeSize : Nat) (allowSigned : Bool) (v : Int) : Prop :=
  if allowSigned then -2 ^ (8 * typeSize - 1) ≤ v ∧ v < 2 ^ (8 * typeSize - 1)
  else 0 ≤ v ∧ v < 2 ^ (8 * typeSize)

/-- The bits of an element as its type reads them. -/
def readBack (typeSize : Nat) (allowSigned : Bool) (bits : Int) : Int :=
  if allowSigned then bits.bmod (2 ^ (8 * typeSize)) else bits

/-- The number is not refused: its sign is allowed, its suffix keeps it in a quad, and the element has
eight bytes or holds its value. -/
structure Passes (typeSize : Nat) (allowSigned : Bool) (q : Quantity) : Prop where
  sign : allowSigned = true ∨ 0 ≤ q.number
  shift : q.shift = 0 ∨ fitsQuad q.value
  size : typeSize = 8 ∨ (typeSize = 1 ∨ typeSize = 2 ∨ typeSize = 4) ∧ holdsElement typeSize allowSigned q.value

/-- What `getenv_array` stores of a number that passes. -/
def storedBits (typeSize : Nat) (q : Quantity) : Int :=
  clamp q.number * 2 ^ q.shift % 2 ^ (8 * typeSize)

/-! ## One turn -/

/-- The checks of the inner `switch` are those of the range of the element. -/
theorem storeElement_eq_some_iff {typeSize : Nat} {allowSigned : Bool} {v b : Int}
    (hsign : allowSigned = true ∨ 0 ≤ v) :
    storeElement typeSize allowSigned v = some b ↔
      (typeSize = 8 ∨ (typeSize = 1 ∨ typeSize = 2 ∨ typeSize = 4) ∧ holdsElement typeSize allowSigned v) ∧
        v % 2 ^ (8 * typeSize) = b := by
  unfold storeElement holdsElement
  split
  · cases allowSigned <;> simp <;> omega
  · cases allowSigned <;> simp <;> omega
  · cases allowSigned <;> simp at hsign ⊢ <;> omega
  · simp
  · next h1 h2 h4 h8 =>
      refine iff_of_false (by simp) ?_
      rintro ⟨h | ⟨h | h | h, -⟩, -⟩
      exacts [h8 h, h1 h, h2 h, h4 h]

/-- What a small element holds lies inside the range of the quad. -/
theorem inside_of_holdsElement {typeSize : Nat} {allowSigned : Bool} {v : Int}
    (hsize : typeSize = 1 ∨ typeSize = 2 ∨ typeSize = 4) (h : holdsElement typeSize allowSigned v) :
    quadMin < v ∧ v < quadMax := by
  unfold quadMin quadMax
  rcases hsize with rfl | rfl | rfl <;> cases allowSigned <;> simp [holdsElement] at h <;> omega

/-- The overflow check passes for a number without a suffix, and else when the value is a quad. -/
theorem shift_check_iff {q : Quantity} (hshift : q.shift = 0 ∨ 10 ≤ q.shift) :
    fitsQuad (clamp q.number * 2 ^ q.shift) ↔ q.shift = 0 ∨ fitsQuad q.value := by
  rcases hshift with h | h
  · rw [h, pow_zero, Int.mul_one]
    exact iff_of_true (fitsQuad_clamp _) (Or.inl rfl)
  · have hne : q.shift ≠ 0 := by omega
    rw [fitsQuad_clamp_mul_iff hne, or_iff_right hne]
    rfl

/-- `strtoq` does not carry a number into the range of a small element. -/
theorem range_check_iff {typeSize : Nat} {allowSigned : Bool} {q : Quantity}
    (hsize : typeSize = 1 ∨ typeSize = 2 ∨ typeSize = 4) (hshift : q.shift = 0 ∨ fitsQuad q.value) :
    holdsElement typeSize allowSigned (clamp q.number * 2 ^ q.shift) ↔
      holdsElement typeSize allowSigned q.value := by
  by_cases hnum : fitsQuad q.number
  · rw [clamp_of_fitsQuad hnum]
    rfl
  · have hzero : q.shift = 0 := hshift.resolve_right fun h => hnum (fitsQuad_of_mul h)
    rw [Quantity.value, hzero, pow_zero, Int.mul_one, Int.mul_one]
    refine iff_of_false (fun h => ?_) (fun h => ?_)
    · have hin := inside_of_holdsElement hsize h
      simp only [fitsQuad, clamp, quadMin, quadMax] at hin hnum
      omega
    · have hin := inside_of_holdsElement hsize h
      exact hnum ⟨hin.1.le, hin.2.le⟩

theorem passes_iff {typeSize : Nat} {allowSigned : Bool} {q : Quantity}
    (hshift : q.shift = 0 ∨ 10 ≤ q.shift) :
    Passes typeSize allowSigned q ↔
      (allowSigned = true ∨ 0 ≤ clamp q.number) ∧ fitsQuad (clamp q.number * 2 ^ q.shift) ∧
        (typeSize = 8 ∨ (typeSize = 1 ∨ typeSize = 2 ∨ typeSize = 4) ∧
          holdsElement typeSize allowSigned (clamp q.number * 2 ^ q.shift)) := by
  have hsign : 0 ≤ clamp q.number ↔ 0 ≤ q.number := by
    unfold clamp quadMin quadMax
    omega
  rw [hsign, shift_check_iff hshift]
  constructor
  · intro h
    exact ⟨h.sign, h.shift, h.size.imp_right fun hs => ⟨hs.1, (range_check_iff hs.1 h.shift).mpr hs.2⟩⟩
  · rintro ⟨hs, hk, hr⟩
    exact ⟨hs, hk, hr.imp_right fun hs => ⟨hs.1, (range_check_iff hs.1 hk).mp hs.2⟩⟩

/-- What a turn does with a number and its suffix: the checks in order, then the store. -/
def storeChecked (typeSize : Nat) (allowSigned : Bool) (size : Int) (n : Nat) (v : Int) (k : Nat) : Option Int :=
  if clamp v < 0 ∧ allowSigned = false then none
  else if shiftLeft (clamp v) k / 2 ^ k ≠ clamp v then none
  else if (n : Int) ≥ size then none
  else storeElement typeSize allowSigned (shiftLeft (clamp v) k)

/-- The checks pass a number exactly when it passes and there is room for it. -/
theorem storeChecked_eq_some_iff {typeSize n k : Nat} {allowSigned : Bool} {size v b : Int}
    (hk : k = 0 ∨ 10 ≤ k) (hk40 : k ≤ 40) :
    storeChecked typeSize allowSigned size n v k = some b ↔
      Passes typeSize allowSigned ⟨v, k⟩ ∧ (n : Int) < size ∧ storedBits typeSize ⟨v, k⟩ = b := by
  have hpos : 0 ≤ clamp v → 0 ≤ clamp v * 2 ^ k := fun h => h.trans (le_mul_two_pow h k)
  have hsign : ¬ (clamp v < 0 ∧ allowSigned = false) ↔ allowSigned = true ∨ 0 ≤ clamp v := by
    cases allowSigned <;> simp
  rw [passes_iff hk, storeChecked, ← hsign]
  constructor
  · intro h
    split_ifs at h with hneg hback hroom
    have hfits := (shiftLeft_back_iff hk40).mp (not_not.mp hback)
    rw [shiftLeft, bmod_of_fitsQuad hfits] at h
    obtain ⟨hrange, hbits⟩ := (storeElement_eq_some_iff ((hsign.mp hneg).imp_right hpos)).mp h
    exact ⟨⟨hneg, hfits, hrange⟩, Int.not_le.mp hroom, hbits⟩
  · rintro ⟨⟨hneg, hfits, hrange⟩, hroom, hbits⟩
    rw [if_neg hneg, if_neg (not_not_intro ((shiftLeft_back_iff hk40).mpr hfits)),
      if_neg (Int.not_le.mpr hroom), shiftLeft, bmod_of_fitsQuad hfits]
    exact (storeElement_eq_some_iff ((hsign.mp hneg).imp_right hpos)).mpr ⟨hrange, hbits⟩

theorem arrayTurn_of_suffix {typeSize n k : Nat} {allowSigned : Bool} {size v : Int} {ptr rest rest' : CString}
    (hnum : numeral ptr = some (v, rest)) (hsuf : suffixOf rest = some (k, rest')) :
    arrayTurn typeSize allowSigned size n ptr =
      (storeChecked typeSize allowSigned size n v k).map fun bits => (bits, rest'.dropWhile isSeparator) := by
  have hvalue : strtoq ptr = (clamp v, rest) := by rw [strtoq, hnum]
  have hne : ptr ≠ rest := by
    intro h
    have hstop := (strtoq_stop_eq_iff ptr).mp (by rw [hvalue]; exact h)
    rw [hnum] at hstop
    exact absurd hstop (by simp)
  simp only [arrayTurn, hvalue, if_neg hne, shiftSwitch_eq_suffixOf, hsuf, storeChecked]
  split_ifs <;> rfl

/-- **One turn** stores the first number of the text when it passes and there is room for it. -/
theorem arrayTurn_eq_some_iff {typeSize n : Nat} {allowSigned : Bool} {size b : Int} {ptr stop : CString} :
    arrayTurn typeSize allowSigned size n ptr = some (b, stop) ↔
      ∃ e, element ptr = some (e, stop) ∧ Passes typeSize allowSigned e.toQuantity ∧ (n : Int) < size ∧
        storedBits typeSize e.toQuantity = b := by
  cases hnum : numeral ptr with
  | none =>
      have hstop : ptr = (strtoq ptr).2 := (strtoq_stop_eq_iff ptr).mpr hnum
      have helem : element ptr = none := by rw [element, hnum]
      simp only [arrayTurn, ← hstop, helem]
      simp
  | some r =>
      obtain ⟨v, rest⟩ := r
      cases hsuf : suffixOf rest with
      | none =>
          have hvalue : strtoq ptr = (clamp v, rest) := by rw [strtoq, hnum]
          simp [arrayTurn, hvalue, element, hnum, shiftSwitch_eq_suffixOf, hsuf]
      | some r =>
          obtain ⟨k, rest'⟩ := r
          obtain ⟨hk, hk40, -⟩ := suffixOf_shift hsuf
          have helem : element ptr =
              some (⟨⟨v, k⟩, rest'.head?.any fun c => !isSeparator c⟩, rest'.dropWhile isSeparator) := by
            simp only [element, hnum, hsuf, Option.map_some]
          rw [arrayTurn_of_suffix hnum hsuf, helem, Option.map_eq_some_iff]
          constructor
          · rintro ⟨bits, hbits, hpair⟩
            obtain ⟨rfl, rfl⟩ := Prod.mk.inj hpair
            exact ⟨_, rfl, (storeChecked_eq_some_iff hk hk40).mp hbits⟩
          · rintro ⟨e, he, hstored⟩
            obtain ⟨rfl, rfl⟩ := Prod.mk.inj (Option.some.inj he)
            exact ⟨b, (storeChecked_eq_some_iff hk hk40).mpr hstored, rfl⟩

/-! ## The loop -/

theorem arrayLoop_nil (typeSize : Nat) (allowSigned : Bool) (size : Int) (n : Nat) :
    arrayLoop typeSize allowSigned size n [] = ([], true) := by
  rw [arrayLoop, if_pos rfl]

theorem arrayLoop_error {typeSize n : Nat} {allowSigned : Bool} {size : Int} {ptr : CString}
    (hptr : ptr ≠ []) (h : arrayTurn typeSize allowSigned size n ptr = none) :
    arrayLoop typeSize allowSigned size n ptr = ([], false) := by
  rw [arrayLoop, if_neg hptr]
  split
  · rfl
  · next hturn => exact absurd (h.symm.trans hturn) (by simp)

theorem arrayLoop_turn {typeSize n : Nat} {allowSigned : Bool} {size b : Int} {ptr stop : CString}
    (h : arrayTurn typeSize allowSigned size n ptr = some (b, stop)) :
    arrayLoop typeSize allowSigned size n ptr =
      (b :: (arrayLoop typeSize allowSigned size (n + 1) stop).1,
        (arrayLoop typeSize allowSigned size (n + 1) stop).2) := by
  have hptr : ptr ≠ [] := List.ne_nil_of_length_pos (Nat.zero_lt_of_lt (arrayTurn_length_lt h))
  rw [arrayLoop, if_neg hptr]
  split
  · next hturn => exact absurd (h.symm.trans hturn) (by simp)
  · next hturn =>
      obtain ⟨rfl, rfl⟩ := Prod.mk.inj (Option.some.inj (h.symm.trans hturn))
      rfl

theorem elements_nil : elements [] = some [] := by
  rw [elements, if_pos rfl]

theorem elements_of_element {text rest : CString} {e : Element} (h : element text = some (e, rest)) :
    elements text = (elements rest).map (e :: ·) := by
  have htext : text ≠ [] := List.ne_nil_of_length_pos (Nat.zero_lt_of_lt (element_length_lt h))
  rw [elements, if_neg htext]
  split
  · next hnone => exact absurd (h.symm.trans hnone) (by simp)
  · next hsome =>
      obtain ⟨rfl, rfl⟩ := Prod.mk.inj (Option.some.inj (h.symm.trans hsome))
      rfl

theorem exists_element {text : CString} (htext : text ≠ []) {es : List Element}
    (h : elements text = some es) :
    ∃ e rest es', element text = some (e, rest) ∧ elements rest = some es' ∧ es = e :: es' := by
  rw [elements, if_neg htext] at h
  split at h
  · exact absurd h (by simp)
  · next e rest helem =>
      obtain ⟨es', hes', rfl⟩ := Option.map_eq_some_iff.mp h
      exact ⟨e, rest, es', helem, hes', rfl⟩

/-- **The loop.** It gets to the end of the text exactly when the text is a list of numbers that all pass and
for which there is room, and then it has stored them all. Induction over the text. -/
theorem arrayLoop_done_iff {typeSize : Nat} {allowSigned : Bool} {size : Int} (n : Nat) (ptr : CString)
    (data : List Int) :
    arrayLoop typeSize allowSigned size n ptr = (data, true) ↔
      ∃ es, elements ptr = some es ∧ (∀ e ∈ es, Passes typeSize allowSigned e.toQuantity) ∧
        (es = [] ∨ (n : Int) + es.length ≤ size) ∧
        es.map (fun e => storedBits typeSize e.toQuantity) = data := by
  induction hlen : ptr.length using Nat.strong_induction_on generalizing ptr n data with
  | _ len ih =>
      subst hlen
      by_cases hptr : ptr = []
      · subst hptr
        rw [arrayLoop_nil, elements_nil]
        simp
      · constructor
        · intro h
          cases hturn : arrayTurn typeSize allowSigned size n ptr with
          | none =>
              rw [arrayLoop_error hptr hturn] at h
              exact absurd h (by simp)
          | some r =>
              obtain ⟨b, stop⟩ := r
              obtain ⟨e, helem, hpass, hroom, rfl⟩ := arrayTurn_eq_some_iff.mp hturn
              rw [arrayLoop_turn hturn] at h
              obtain ⟨rfl, hdone⟩ := Prod.mk.inj h
              obtain ⟨es, hes, hall, hsize, hdata⟩ :=
                (ih _ (arrayTurn_length_lt hturn) (n + 1) stop _ rfl).mp (Prod.ext rfl hdone)
              refine ⟨e :: es, by rw [elements_of_element helem, hes]; rfl,
                List.forall_mem_cons.mpr ⟨hpass, hall⟩, Or.inr ?_, by rw [List.map_cons, hdata]⟩
              rw [List.length_cons]
              rcases hsize with rfl | hsize
              · simp only [List.length_nil]
                omega
              · omega
        · rintro ⟨es, hes, hall, hsize, rfl⟩
          obtain ⟨e, rest, es', helem, hes', rfl⟩ := exists_element hptr hes
          obtain ⟨hpass, hall'⟩ := List.forall_mem_cons.mp hall
          rw [List.length_cons] at hsize
          have hsize' := hsize.resolve_left (List.cons_ne_nil e es')
          have hturn := arrayTurn_eq_some_iff.mpr
            ⟨e, helem, hpass, show (n : Int) < size by omega, rfl⟩
          have hrest := (ih _ (arrayTurn_length_lt hturn) (n + 1) rest _ rfl).mpr
            ⟨es', hes', hall', Or.inr (by omega), rfl⟩
          rw [arrayLoop_turn hturn, hrest]
          rfl

/-! ## When the getters are exact -/

/-- An element gives back what its type holds. -/
theorem readBack_emod {typeSize : Nat} {allowSigned : Bool} {v : Int}
    (hpos : allowSigned = false → 0 ≤ v)
    (h : typeSize = 8 ∧ fitsQuad v ∨
      (typeSize = 1 ∨ typeSize = 2 ∨ typeSize = 4) ∧ holdsElement typeSize allowSigned v) :
    readBack typeSize allowSigned (v % 2 ^ (8 * typeSize)) = v := by
  rcases h with ⟨rfl, hfits⟩ | ⟨rfl | rfl | rfl, hrange⟩
  · unfold fitsQuad quadMin quadMax at hfits
    cases allowSigned
    · have hge := hpos rfl
      simp [readBack]
      omega
    · simp [readBack, Int.bmod_def]
      omega
  all_goals
    cases allowSigned <;> simp [holdsElement] at hrange <;> simp [readBack, Int.bmod_def] <;> omega

/-- What passes and fits a quad has a value that fits it. -/
theorem Passes.fitsQuad_value {typeSize : Nat} {allowSigned : Bool} {q : Quantity}
    (h : Passes typeSize allowSigned q) (hnum : fitsQuad q.number) : fitsQuad q.value := by
  rcases h.shift with hzero | hfits
  · rw [Quantity.value, hzero, pow_zero, Int.mul_one]
    exact hnum
  · exact hfits

/-- What is stored is read back as the value, when `strtoq` did not have to replace the number. -/
theorem readBack_storedBits_iff {typeSize : Nat} {allowSigned : Bool} {q : Quantity}
    (h : Passes typeSize allowSigned q) :
    readBack typeSize allowSigned (storedBits typeSize q) = q.value ↔ fitsQuad q.number := by
  have hsign : allowSigned = false → 0 ≤ q.number := fun hb => h.sign.resolve_left (by simp [hb])
  constructor
  · intro heq
    rcases h.size with rfl | ⟨hsize, hrange⟩
    · rcases h.shift with hzero | hfits
      · -- without a suffix the bits are those of the replacement
        have hpos : allowSigned = false → 0 ≤ clamp q.number := by
          intro hb
          have hnum := hsign hb
          unfold clamp quadMin quadMax
          omega
        unfold storedBits Quantity.value at heq
        rw [hzero, pow_zero, Int.mul_one, Int.mul_one,
          readBack_emod hpos (Or.inl ⟨rfl, fitsQuad_clamp _⟩)] at heq
        exact fitsQuad_of_clamp_eq heq
      · exact fitsQuad_of_mul hfits
    · have hin := inside_of_holdsElement hsize hrange
      exact fitsQuad_of_mul (k := q.shift) ⟨hin.1.le, hin.2.le⟩
  · intro hnum
    have hfits := h.fitsQuad_value hnum
    unfold storedBits
    rw [clamp_of_fitsQuad hnum]
    exact readBack_emod (fun hb => (hsign hb).trans (le_mul_two_pow (hsign hb) q.shift))
      (h.size.imp_left fun hsize => ⟨hsize, hfits⟩)

/-- What passes and fits a quad has a value that the element holds. -/
theorem holdsElement_of_passes {typeSize : Nat} {allowSigned : Bool} {q : Quantity}
    (h : Passes typeSize allowSigned q) (hnum : fitsQuad q.number) :
    holdsElement typeSize allowSigned q.value := by
  rcases h.size with rfl | ⟨-, hrange⟩
  · have hfits := h.fitsQuad_value hnum
    unfold fitsQuad quadMin quadMax at hfits
    cases allowSigned
    · have hsign := h.sign.resolve_left (by simp)
      have hpos : 0 ≤ q.value := hsign.trans (le_mul_two_pow hsign q.shift)
      simp [holdsElement]
      omega
    · simp [holdsElement]
      omega
  · exact hrange

/-- `getenv_array` returns 1 for a list that is not empty, fits the buffer and passes. -/
theorem getenvArray_rc_iff {s : Kenv} {name : CString} {size : Int} {typeSize : TypeSize}
    {allowSigned : Bool} {data : List Int} :
    (getenvArray s name size typeSize allowSigned).rc = true ∧
        (getenvArray s name size typeSize allowSigned).data = data ↔
      ∃ buf es, kenvAcquire s name = some (some buf) ∧ elements buf = some es ∧ es ≠ [] ∧
        (es.length : Int) ≤ size.tdiv typeSize.bytes ∧
        (∀ e ∈ es, Passes typeSize.bytes allowSigned e.toQuantity) ∧
        es.map (fun e => storedBits typeSize.bytes e.toQuantity) = data := by
  unfold getenvArray
  split
  · next buf hbuf =>
      have hdone := @arrayLoop_done_iff typeSize.bytes allowSigned (size.tdiv typeSize.bytes) 0 buf
      generalize arrayLoop typeSize.bytes allowSigned (size.tdiv typeSize.bytes) 0 buf = r at hdone
      obtain ⟨stored, ended⟩ := r
      constructor
      · intro h
        cases ended with
        | true =>
            obtain ⟨hrc, hdata⟩ : decide (stored ≠ []) = true ∧ stored = data := h
            obtain ⟨es, hes, hall, hroom, hmap⟩ := (hdone stored).mp rfl
            have hne : es ≠ [] := by
              rintro rfl
              rw [List.map_nil] at hmap
              subst hmap
              exact absurd hrc (by simp)
            refine ⟨buf, es, hbuf, hes, hne, ?_, hall, hmap.trans hdata⟩
            have hroom' := hroom.resolve_left hne
            omega
        | false => exact absurd h.1 (by simp)
      · rintro ⟨buf', es, hbuf', hes, hne, hroom, hall, rfl⟩
        obtain rfl : buf = buf' := Option.some.inj (Option.some.inj (hbuf.symm.trans hbuf'))
        have hpair := (hdone _).mpr ⟨es, hes, hall, Or.inr (by omega), rfl⟩
        obtain ⟨rfl, rfl⟩ := Prod.mk.inj hpair
        refine ⟨?_, rfl⟩
        show decide (es.map (fun e => storedBits typeSize.bytes e.toQuantity) ≠ []) = true
        simpa using hne
  · next hnone =>
      refine iff_of_false (fun h => absurd h.1 (by simp)) ?_
      rintro ⟨buf, es, hbuf, -⟩
      exact hnone buf hbuf

/-- A scalar getter is exact on a variable: it stores what the text spells, and it refuses a text that
spells nothing and a value that the destination cannot hold. -/
structure ScalarExact (g : Getter) (s : Kenv) (name : CString) : Prop where
  exact : ∀ x, g.get s name = some x →
    ∃ text q, kernGetenv s name = some text ∧ quantity text = some q ∧ x = q.value
  refused : ∀ text, kernGetenv s name = some text →
    (∀ q, quantity text = some q → ¬ g.holds q.value) → g.get s name = none

/-- The text spells nothing, or a number that fits a quad with a value that the destination holds. -/
def ScalarClean (g : Getter) (s : Kenv) (name : CString) : Prop :=
  ∀ text q, kernGetenv s name = some text → quantity text = some q →
    g.holds q.value ∧ fitsQuad q.number

/-- `getenv_array` is exact on a variable: its elements are read back as the values of the list that the text
spells, and it refuses a text that is no such list and a value that an element cannot hold. -/
structure ArrayExact (s : Kenv) (name : CString) (size : Int) (typeSize : TypeSize) (allowSigned : Bool) :
    Prop where
  exact : (getenvArray s name size typeSize allowSigned).rc = true →
    ∃ buf qs, kenvAcquire s name = some (some buf) ∧ numbers buf = some qs ∧
      (getenvArray s name size typeSize allowSigned).data.map (readBack typeSize.bytes allowSigned) =
        qs.map Quantity.value
  refused : ∀ buf, kenvAcquire s name = some (some buf) →
    (∀ qs, numbers buf = some qs → ∃ q ∈ qs, ¬ holdsElement typeSize.bytes allowSigned q.value) →
    (getenvArray s name size typeSize allowSigned).rc = false

/-- A text that nothing refuses has separators behind all its suffixes and no number that `strtoq` has to
replace. -/
def ArrayClean (s : Kenv) (name : CString) (size : Int) (typeSize : TypeSize) (allowSigned : Bool) : Prop :=
  ∀ buf es, kenvAcquire s name = some (some buf) → elements buf = some es → es ≠ [] →
    (es.length : Int) ≤ size.tdiv typeSize.bytes →
    (∀ e ∈ es, Passes typeSize.bytes allowSigned e.toQuantity) →
    ∀ e ∈ es, e.joined = false ∧ fitsQuad e.number

theorem scalar_exact_iff (g : Getter) (s : Kenv) (name : CString) :
    ScalarExact g s name ↔ ScalarClean g s name := by
  have hget : g.get s name = ((kernGetenv s name).bind quantity).map fun q =>
      g.cast (shiftLeft (clamp q.number) q.shift) := by
    rw [g.get_eq, getenvQuad_eq, Option.map_map]
    rfl
  constructor
  · intro h text q htext hq
    have hsome : g.get s name = some (g.cast (shiftLeft (clamp q.number) q.shift)) := by
      rw [hget, htext, Option.bind_some, hq]
      rfl
    obtain ⟨text', q', htext', hq', hx⟩ := h.exact _ hsome
    obtain rfl := Option.some.inj (htext.symm.trans htext')
    obtain rfl := Option.some.inj (hq.symm.trans hq')
    exact (g.cast_eq_value_iff q).mp hx
  · intro h
    refine ⟨fun x hx => ?_, fun text htext hnone => ?_⟩
    · rw [hget] at hx
      obtain ⟨q, hbind, hcast⟩ := Option.map_eq_some_iff.mp hx
      obtain ⟨text, htext, hq⟩ := Option.bind_eq_some_iff.mp hbind
      exact ⟨text, q, htext, hq, hcast.symm.trans ((g.cast_eq_value_iff q).mpr (h text q htext hq))⟩
    · rw [hget, htext, Option.bind_some]
      cases hq : quantity text with
      | none => rfl
      | some q => exact absurd (h text q htext hq).1 (hnone q hq)

theorem numbers_eq_some_iff {text : CString} {qs : List Quantity} :
    numbers text = some qs ↔
      ∃ es, elements text = some es ∧ (∀ e ∈ es, e.joined = false) ∧ es.map Element.toQuantity = qs := by
  unfold numbers
  cases helems : elements text with
  | none => simp
  | some es =>
      rw [Option.bind_some]
      by_cases hjoined : es.any Element.joined = true
      · rw [if_pos hjoined]
        refine iff_of_false (by simp) ?_
        rintro ⟨es', hes', hall, -⟩
        obtain rfl := Option.some.inj hes'
        obtain ⟨e, he, hj⟩ := List.any_eq_true.mp hjoined
        exact absurd hj (by simp [hall e he])
      · rw [if_neg hjoined]
        have hall : ∀ e ∈ es, e.joined = false := by
          intro e he
          by_contra hj
          exact hjoined (List.any_eq_true.mpr ⟨e, he, by simpa using hj⟩)
        constructor
        · intro h
          exact ⟨es, rfl, hall, Option.some.inj h⟩
        · rintro ⟨es', hes', -, rfl⟩
          rw [Option.some.inj hes']

theorem array_exact_iff (s : Kenv) (name : CString) (size : Int) (typeSize : TypeSize)
    (allowSigned : Bool) :
    ArrayExact s name size typeSize allowSigned ↔ ArrayClean s name size typeSize allowSigned := by
  constructor
  · intro h buf es hbuf hes hne hroom hall
    obtain ⟨hrc, hdata⟩ := getenvArray_rc_iff.mpr ⟨buf, es, hbuf, hes, hne, hroom, hall, rfl⟩
    obtain ⟨buf', qs, hbuf', hqs, hread⟩ := h.exact hrc
    obtain rfl : buf = buf' := Option.some.inj (Option.some.inj (hbuf.symm.trans hbuf'))
    obtain ⟨es', hes', hjoined, rfl⟩ := numbers_eq_some_iff.mp hqs
    obtain rfl : es = es' := Option.some.inj (hes.symm.trans hes')
    rw [hdata, List.map_map, List.map_map] at hread
    intro e he
    exact ⟨hjoined e he, (readBack_storedBits_iff (hall e he)).mp (List.map_inj_left.mp hread e he)⟩
  · intro h
    refine ⟨fun hrc => ?_, fun buf hbuf hnone => ?_⟩
    · obtain ⟨buf, es, hbuf, hes, hne, hroom, hall, hdata⟩ := getenvArray_rc_iff.mp ⟨hrc, rfl⟩
      have hclean := h buf es hbuf hes hne hroom hall
      refine ⟨buf, es.map Element.toQuantity, hbuf,
        numbers_eq_some_iff.mpr ⟨es, hes, fun e he => (hclean e he).1, rfl⟩, ?_⟩
      rw [← hdata, List.map_map, List.map_map]
      exact List.map_congr_left fun e he => (readBack_storedBits_iff (hall e he)).mpr (hclean e he).2
    · by_contra hrc
      rw [Bool.not_eq_false] at hrc
      obtain ⟨buf', es, hbuf', hes, hne, hroom, hall, -⟩ := getenvArray_rc_iff.mp ⟨hrc, rfl⟩
      obtain rfl : buf = buf' := Option.some.inj (Option.some.inj (hbuf.symm.trans hbuf'))
      have hclean := h buf es hbuf hes hne hroom hall
      obtain ⟨q, hq, hout⟩ := hnone _ (numbers_eq_some_iff.mpr ⟨es, hes, fun e he => (hclean e he).1, rfl⟩)
      obtain ⟨e, he, rfl⟩ := List.mem_map.mp hq
      exact hout (holdsElement_of_passes (hall e he) (hclean e he).2)

/-- **The integer getters.** A scalar getter is exact on a variable exactly when its text spells nothing, or a
number that fits a quad with a value that the destination holds; `getenv_array` exactly when the text is
refused anyway, or all its suffixes end at separators and all its numbers fit a quad. -/
theorem getters_exact_iff (s : Kenv) (name : CString) :
    (∀ g : Getter, ScalarExact g s name ↔ ScalarClean g s name) ∧
      ∀ (size : Int) (typeSize : TypeSize) (allowSigned : Bool),
        ArrayExact s name size typeSize allowSigned ↔ ArrayClean s name size typeSize allowSigned :=
  ⟨fun g => scalar_exact_iff g s name, array_exact_iff s name⟩

/-- `x=1,2k` in the dynamic environment, read into 16 bytes as elements of 4. -/
example : getenvArray ⟨fun _ => none, none, none, [['x', '=', '1', ',', '2', 'k']], true⟩ ['x'] 16
    ⟨4, by decide⟩ true = ⟨true, [1, 2048], some 8⟩ := by
  have hfirst : arrayTurn 4 true 4 0 ['1', ',', '2', 'k'] = some (1, ['2', 'k']) := by decide +kernel
  have hsecond : arrayTurn 4 true 4 1 ['2', 'k'] = some (2048, []) := by decide +kernel
  have hloop : arrayLoop 4 true 4 0 ['1', ',', '2', 'k'] = ([1, 2048], true) := by
    rw [arrayLoop_turn hfirst, arrayLoop_turn hsecond, arrayLoop_nil]
  show (let r := arrayLoop 4 true 4 0 ['1', ',', '2', 'k']
    if r.2 then (⟨r.1 ≠ [], r.1, some (r.1.length * 4 : Nat)⟩ : ArrayRead) else ⟨false, r.1, none⟩) = _
  rw [hloop]
  rfl

/-- The environment with one variable. -/
def oneVariable (name value : CString) : Kenv := boot (Function.update (fun _ => none) name (some value))

/-- `getenv_int` of `4g` returns 1 and stores 0. -/
theorem four_gigabytes_stored_as_zero :
    ¬ ∀ (g : Getter) (s : Kenv) (name : CString), ScalarExact g s name := by
  intro h
  have hget : Getter.int.get (oneVariable ['x'] ['4', 'g']) ['x'] = some 0 := rfl
  have hq : quantity ['4', 'g'] = some ⟨4, 30⟩ := rfl
  obtain ⟨text, q, htext, hq', hx⟩ := (h .int (oneVariable ['x'] ['4', 'g']) ['x']).exact 0 hget
  obtain rfl : ['4', 'g'] = text := Option.some.inj htext
  obtain rfl := Option.some.inj (hq.symm.trans hq')
  exact absurd hx (by simp [Quantity.value])

end LazyBsd.Environment
