/-
# LazyBsd.Printf.Number — the field of a number.

`ksprintn` writes the numeral of the number and stays inside `nbuf`. Around the numeral the field has
blanks on one side, a sign, a prefix and zeros (`Field`); `layout` says how many of each. A field that is
filled with zeros forgets its precision.

What a directive prints can be read again: `strtoq`, which the kernel environment reads its numbers with,
finds the number in the field, when the notation says its base.
-/
import Mathlib.Tactic.Linarith
import LazyBsd.Lib.Numeral
import LazyBsd.Printf.Model
import LazyBsd.Environment.Tunable

namespace LazyBsd.Printf

open LazyBsd.Filter (CString)
open LazyBsd.Lib (numeral spelled)
open LazyBsd.Environment (digitValue)

variable {sp : Spec} {num base room : Nat} {upper : Bool} {digits : CString}

/-! ## The numeral -/

theorem digitValue_digitChar (upper : Bool) {d : Nat} (h : d < 36) :
    digitValue (digitChar upper d) = d := by
  have hall : ∀ upper, ∀ d < 36, digitValue (digitChar upper d) = d := by decide +kernel
  exact hall upper d h

/-- The loop writes the numeral in front of what is there. -/
theorem ksprintnLoop_eq (hbase : 1 < base) (hle : base ≤ 36) (hroom : 0 < room)
    (hnum : num < base ^ room) :
    ksprintnLoop base upper room num digits =
      some (numeral (digitChar upper) base num ++ digits) := by
  induction room generalizing num digits with
  | zero => omega
  | succ room ih =>
      have hmod : num % base < base := Nat.mod_lt _ (by omega)
      rw [ksprintnLoop, if_neg (by omega)]
      rcases Nat.lt_or_ge num base with hlt | hge
      · rw [if_pos (Nat.div_eq_of_lt hlt), Lib.numeral_of_lt hlt, Nat.mod_eq_of_lt hlt]
        rfl
      · have hdiv : 0 < num / base := Nat.div_pos hge (by omega)
        have hnext : num / base < base ^ room := by
          rw [Nat.div_lt_iff_lt_mul (by omega), ← Nat.pow_succ]
          exact hnum
        have hmore : 0 < room := by
          rcases Nat.eq_zero_or_pos room with h0 | hpos
          · rw [h0, Nat.pow_zero] at hnext
            omega
          · exact hpos
        rw [if_neg hdiv.ne', ih hmore hnext, Lib.numeral_of_le hbase hge, List.append_assoc]
        rfl

/-- **`ksprintn` stays inside `nbuf`** and writes the numeral. -/
theorem ksprintn_eq (hnum : num < 2 ^ 64) (hbase : 1 < base) (hle : base ≤ 36) :
    ksprintn num base upper = some (numeral (digitChar upper) base num) := by
  have hroom : num < base ^ 64 := hnum.trans_le (Nat.pow_le_pow_left (by omega) 64)
  rw [ksprintn, if_neg (by omega), show maxNbuf - 1 = 64 from rfl,
    ksprintnLoop_eq hbase hle (by omega) hroom, List.append_nil]

/-! ## The parts of a field -/

/-- The parts of the field of a number. -/
structure Field where
  left : Nat
  neg : Bool
  sharp : CString
  zeros : Nat
  digits : CString
  right : Nat

/-- The characters of the field. -/
def Field.text (f : Field) : CString :=
  List.replicate f.left ' ' ++ (if f.neg then ['-'] else []) ++ f.sharp ++
    List.replicate f.zeros '0' ++ f.digits ++ List.replicate f.right ' '

/-- The number that the directive is about. -/
def Spec.value (sp : Spec) (num : Nat) : Int :=
  if sp.sign && decide (2 ^ 63 ≤ num) then (num : Int) - 2 ^ 64 else num

/-- Is the field filled with zeros? -/
def Spec.zeroFilled (sp : Spec) : Bool := !sp.ladjust && sp.padc == '0'

/-- Sign and prefix. -/
def Spec.head (sp : Spec) (base num : Nat) : Nat :=
  (sharpPrefix sp base (sp.value num).natAbs).length + if sp.value num < 0 then 1 else 0

/-- The precision that counts. -/
def Spec.precision (sp : Spec) (base num : Nat) : Int :=
  if sp.zeroFilled then sp.width - sp.head base num else sp.dwidth

/-- No `int` of the computation overflows. -/
def Spec.Fits (sp : Spec) (base num : Nat) : Prop :=
  0 ≤ sp.width ∧ sp.width ≤ intMax ∧ -intMax + 64 ≤ sp.precision base num ∧
    sp.head base num + sp.precision base num ≤ intMax

/-- The field of the number. -/
def layout (sp : Spec) (num base : Nat) (upper : Bool) : Field :=
  let digits := numeral (digitChar upper) base (sp.value num).natAbs
  let blanks := sp.width -
    (sp.head base num + max (sp.precision base num) digits.length)
  { left := if sp.ladjust then 0 else blanks.toNat
    neg := decide (sp.value num < 0)
    sharp := sharpPrefix sp base (sp.value num).natAbs
    zeros := (sp.precision base num - digits.length).toNat
    digits := digits
    right := if sp.ladjust then blanks.toNat else 0 }

theorem length_sharpPrefix_le (sp : Spec) (base num : Nat) : (sharpPrefix sp base num).length ≤ 2 := by
  unfold sharpPrefix
  split_ifs <;> simp

theorem Spec.head_le (sp : Spec) (base num : Nat) : sp.head base num ≤ 3 := by
  have hsharp := length_sharpPrefix_le sp base (sp.value num).natAbs
  unfold Spec.head
  split <;> omega

theorem Spec.value_natAbs_lt (hnum : num < 2 ^ 64) : (sp.value num).natAbs < 2 ^ 64 := by
  unfold Spec.value
  split_ifs with h
  · simp only [Bool.and_eq_true, decide_eq_true_eq] at h
    omega
  · simpa using hnum

/-- `neg` and the magnitude as the code computes them. -/
theorem Spec.value_cases (hnum : num < 2 ^ 64) :
    (sp.sign && decide (2 ^ 63 ≤ num)) = decide (sp.value num < 0) ∧
    (if sp.sign && decide (2 ^ 63 ≤ num) then 2 ^ 64 - num else num) = (sp.value num).natAbs := by
  unfold Spec.value
  split
  · rename_i h
    have hnegative : (num : Int) - 2 ^ 64 < 0 := by omega
    rw [h]
    refine ⟨(decide_eq_true hnegative).symm, ?_⟩
    show 2 ^ 64 - num = _
    omega
  · rename_i h
    rw [Bool.not_eq_true] at h
    rw [h]
    exact ⟨by simp, by simp⟩

theorem length_digits_le (upper : Bool) (hnum : num < 2 ^ 64) (hbase : 1 < base) :
    (numeral (digitChar upper) base num).length ≤ 64 :=
  Lib.length_numeral_le hbase (by omega) (hnum.trans_le (Nat.pow_le_pow_left (by omega) 64))

/-- **The field** is the one `layout` says. -/
theorem number_eq (hnum : num < 2 ^ 64) (hbase : 1 < base) (hle : base ≤ 36)
    (hfits : sp.Fits base num) :
    number sp num base upper = some (layout sp num base upper).text := by
  obtain ⟨hneg, hmag⟩ := sp.value_cases hnum
  have hlt := sp.value_natAbs_lt hnum
  obtain ⟨hwidth, hmax, hlow, hhigh⟩ := hfits
  have hhead : ((sharpPrefix sp base (sp.value num).natAbs).length : Int) +
      (if decide (sp.value num < 0) = true then 1 else 0) = sp.head base num := by
    unfold Spec.head
    by_cases hv : sp.value num < 0 <;> simp [hv]
  have hthree := sp.head_le base num
  have hlen := length_digits_le upper hlt hbase
  unfold number
  simp only [hneg] at hmag ⊢
  simp only [hmag, ksprintn_eq hlt hbase hle, hhead]
  have hprec : (if (!sp.ladjust && sp.padc == '0') = true then sp.width - (sp.head base num : Int)
      else sp.dwidth) = sp.precision base num := rfl
  simp only [hprec]
  have hdigits : (sp.head base num : Int) +
      (numeral (digitChar upper) base (sp.value num).natAbs).length ≤ intMax := by
    unfold intMax
    omega
  rw [if_neg (by omega)]
  cases hl : sp.ladjust <;> simp [layout, Field.text, padding, hl]

/-! ## What the field says -/

theorem digitValue_zero : digitValue '0' = 0 := rfl

theorem length_layout (hfits : sp.Fits base num) :
    (layout sp num base upper).text.length = max sp.width.toNat
      (sp.head base num + (layout sp num base upper).zeros +
        (layout sp num base upper).digits.length) := by
  have hwidth := hfits.1
  have hhead : sp.head base num = (sharpPrefix sp base (sp.value num).natAbs).length +
      (if sp.value num < 0 then ['-'] else []).length := by
    unfold Spec.head
    split <;> rfl
  simp only [layout, Field.text, List.length_append, List.length_replicate, decide_eq_true_eq]
  cases sp.ladjust <;> simp only [Bool.false_eq_true, if_false, if_true] <;> omega

/-- **The field of a number.** It is as wide as asked or as wide as it must be; the blanks are on one
side; a prefix stands only where `#` asks for it; the numeral has no leading zero, so the zeros are those
of the precision; all together spell the number. A field that is filled with zeros has no blanks, and its
precision does not matter. -/
theorem number_field (hnum : num < 2 ^ 64) (hbase : 1 < base) (hle : base ≤ 36)
    (hfits : sp.Fits base num) :
    ∃ f : Field, number sp num base upper = some f.text ∧
      (f.neg = true ↔ sp.value num < 0) ∧
      f.sharp = sharpPrefix sp base (sp.value num).natAbs ∧
      spelled digitValue base (List.replicate f.zeros '0' ++ f.digits) = (sp.value num).natAbs ∧
      (f.digits.length ≤ 64 ∧ (f.digits.head? = some '0' → sp.value num = 0)) ∧
      f.text.length = max sp.width.toNat (sp.head base num + f.zeros + f.digits.length) ∧
      (if sp.ladjust then f.left = 0 else f.right = 0) ∧
      (if sp.zeroFilled then f.left = 0 ∧ f.right = 0 else
        f.zeros = (sp.dwidth - f.digits.length).toNat) := by
  have hlt := sp.value_natAbs_lt hnum
  have hdigit (d : Nat) (hd : d < base) : digitValue (digitChar upper d) = d :=
    digitValue_digitChar upper (by omega)
  refine ⟨layout sp num base upper, number_eq hnum hbase hle hfits, decide_eq_true_iff, rfl, ?_,
    ⟨length_digits_le upper hlt hbase, fun hzero => ?_⟩, length_layout hfits, ?_, ?_⟩
  · rw [Lib.spelled_zeros digitValue_zero]
    exact Lib.spelled_numeral hbase hdigit
  · -- the numeral of another number starts with another digit
    by_contra hne
    obtain ⟨d, ds, hds, hd0, hdb⟩ := Lib.head_numeral (digitChar upper) hbase
      (Int.natAbs_ne_zero.mpr hne)
    have hchar : digitChar upper d = '0' := by
      simpa [layout, hds] using hzero
    have hvalue := hdigit d hdb
    rw [hchar, digitValue_zero] at hvalue
    exact hd0 hvalue.symm
  · cases hl : sp.ladjust <;> simp [layout, hl]
  · by_cases hz : sp.zeroFilled = true
    · have hright : sp.ladjust = false := by
        simp only [Spec.zeroFilled, Bool.and_eq_true, Bool.not_eq_true'] at hz
        exact hz.1
      simp only [hz, if_true, layout, hright, Bool.false_eq_true, if_false, Spec.precision, and_true]
      omega
    · simp [layout, Spec.precision, hz]

/-- `-42` under `%+08.2d`, which ignores the precision. -/
theorem number_field_zeros :
    let sp : Spec := { padc := '0', width := 8, sign := true, dot := true, dwidth := 2 }
    number sp (2 ^ 64 - 42) 10 false = some ['-', '0', '0', '0', '0', '0', '4', '2'] ∧
      ∃ f : Field, number sp (2 ^ 64 - 42) 10 false = some f.text ∧ f.text.length = 8 ∧ f.left = 0 := by
  intro sp
  obtain ⟨f, hf, -, -, -, -, hlength, -, hfilled⟩ := @number_field sp (2 ^ 64 - 42) 10
    false (by decide) (by decide) (by decide) ⟨by decide, by decide, by decide, by decide⟩
  have htext : number sp (2 ^ 64 - 42) 10 false = some ['-', '0', '0', '0', '0', '0', '4', '2'] := by
    decide +kernel
  refine ⟨htext, f, hf, ?_, hfilled.1⟩
  rw [← Option.some.inj (htext.symm.trans hf)]
  rfl

/-! ## Reading the field -/

/-- The notation of the field says the base: decimal without leading zeros, or octal or hexadecimal with
the prefix. -/
def Spec.Announced (sp : Spec) (num base : Nat) (upper : Bool) : Prop :=
  base = 10 ∧ (layout sp num base upper).zeros = 0 ∨ sp.sharpflag = true ∧ (base = 8 ∨ base = 16)

theorem plain_of_digitValue {c : Char} (h : digitValue c < 36) :
    Filter.isSpace c = false ∧ c ≠ '-' ∧ c ≠ '+' := by
  refine ⟨?_, ?_, ?_⟩
  · by_contra hspace
    rw [Bool.not_eq_false] at hspace
    simp only [Filter.isSpace, Bool.or_eq_true, decide_eq_true_eq, Bool.and_eq_true] at hspace
    rcases hspace with rfl | hcontrol
    · exact absurd h (by decide)
    · have hlow : ¬ 'A' ≤ c ∧ ¬ 'a' ≤ c ∧ ¬ '0' ≤ c := by
        simp only [Char.le_def, UInt32.le_iff_toNat_le]
        have hc : c.val.toNat = c.toNat := rfl
        rw [hc]
        refine ⟨?_, ?_, ?_⟩ <;> simp <;> omega
      simp [digitValue, hlow] at h
  · rintro rfl
    exact absurd h (by decide)
  · rintro rfl
    exact absurd h (by decide)

theorem radix_of_zero {s : CString} (h : ∀ x ∈ s.head?, x ≠ 'x' ∧ x ≠ 'X') :
    Environment.radix ('0' :: s) = (8, '0' :: s) := by
  unfold Environment.radix
  split
  · rename_i x c t heq
    obtain rfl := (List.cons.inj heq).2
    obtain ⟨hx, hX⟩ := h x rfl
    rw [if_neg (by simp [hx, hX])]
  · rename_i heq
    rw [(List.cons.inj heq).2]
  · rename_i hne
    exact absurd rfl (hne s)

theorem radix_of_digit {c : Char} {s : CString} (h : c ≠ '0') :
    Environment.radix (c :: s) = (10, c :: s) := by
  unfold Environment.radix
  split
  · rename_i heq
    exact absurd (List.cons.inj heq).1 h
  · rename_i heq
    exact absurd (List.cons.inj heq).1 h
  · rfl

/-- The digits of the base that was announced, up to the blanks. -/
theorem magnitude_of {s : CString} {m : Nat} (ds : CString) (hr : Environment.radix s =
    (base, ds ++ List.replicate m ' ')) (hds : ds ≠ []) (hbase : base ≤ 36)
    (hdigits : ∀ c ∈ ds, digitValue c < base) :
    Environment.magnitude s = some (spelled digitValue base ds, List.replicate m ' ') := by
  have hstop : (List.replicate m ' ').takeWhile (digitValue · < base) = [] := by
    cases m with
    | zero => rfl
    | succ m =>
        have hblank : ¬ digitValue ' ' < base := by
          rw [show digitValue ' ' = 36 from rfl]
          omega
        simp [List.replicate_succ, hblank]
  have htake : (ds ++ List.replicate m ' ').takeWhile (digitValue · < base) = ds := by
    rw [List.takeWhile_append_of_pos (by simpa using hdigits), hstop, List.append_nil]
  have hdrop : (ds ++ List.replicate m ' ').dropWhile (digitValue · < base) =
      List.replicate m ' ' := by
    have hsplit := List.takeWhile_append_dropWhile (p := (digitValue · < base))
      (l := ds ++ List.replicate m ' ')
    rw [htake] at hsplit
    exact List.append_cancel_left hsplit
  simp only [Environment.magnitude, hr, htake, hdrop, if_neg hds]
  rfl

/-- The text of a field behind its sign. -/
def Field.unsignedText (f : Field) : CString :=
  f.sharp ++ (List.replicate f.zeros '0' ++ f.digits) ++ List.replicate f.right ' '

theorem digits_lt (hbase : 1 < base) (hle : base ≤ 36) {c : Char} {m n : Nat}
    (h : c ∈ List.replicate m '0' ++ numeral (digitChar upper) base n) : digitValue c < base := by
  rcases List.mem_append.mp h with hzero | hdigit
  · rw [List.eq_of_mem_replicate hzero, digitValue_zero]
    omega
  · obtain ⟨d, hd, rfl⟩ := Lib.mem_numeral hbase hdigit
    rwa [digitValue_digitChar upper (by omega)]

/-- The magnitude is read in the base that the field announces. -/
theorem magnitude_layout (hann : sp.Announced num base upper) :
    Environment.magnitude (layout sp num base upper).unsignedText =
      some ((sp.value num).natAbs, List.replicate (layout sp num base upper).right ' ') := by
  have hbase : 1 < base ∧ base ≤ 36 := by
    rcases hann with ⟨rfl, -⟩ | ⟨-, rfl | rfl⟩ <;> omega
  have hdigit (d : Nat) (hd : d < base) : digitValue (digitChar upper d) = d :=
    digitValue_digitChar upper (by omega)
  generalize hf : layout sp num base upper = f
  have hdigits : f.digits = numeral (digitChar upper) base (sp.value num).natAbs := by
    rw [← hf]
    rfl
  have hsharp : f.sharp = sharpPrefix sp base (sp.value num).natAbs := by
    rw [← hf]
    rfl
  have hall : ∀ c ∈ List.replicate f.zeros '0' ++ f.digits, digitValue c < base := fun c hc => by
    rw [hdigits] at hc
    exact digits_lt hbase.1 hbase.2 hc
  have hne : List.replicate f.zeros '0' ++ f.digits ≠ [] := by
    rw [hdigits]
    exact List.append_ne_nil_of_right_ne_nil _ (Lib.numeral_ne_nil _ _ _)
  have hspelled : spelled digitValue base (List.replicate f.zeros '0' ++ f.digits) =
      (sp.value num).natAbs := by
    rw [Lib.spelled_zeros digitValue_zero, hdigits]
    exact Lib.spelled_numeral hbase.1 hdigit
  -- the first character behind a prefix is a digit, so no second prefix follows
  obtain ⟨c, cs, hcs⟩ := List.exists_cons_of_ne_nil hne
  have hc : digitValue c < base := hall c (hcs ▸ List.mem_cons_self)
  by_cases hzero : (sp.value num).natAbs = 0
  · -- zero has no prefix: a row of zeros, which is read in octal
    have hone : f.digits = ['0'] := by
      rw [hdigits, hzero]
      cases upper <;> rfl
    have htext : f.unsignedText =
        '0' :: (List.replicate f.zeros '0' ++ List.replicate f.right ' ') := by
      rw [Field.unsignedText, hsharp, hzero, hone, ← List.replicate_succ', List.replicate_succ]
      simp [sharpPrefix]
    have hplain : ∀ x ∈ (List.replicate f.zeros '0' ++ List.replicate f.right ' ').head?,
        x ≠ 'x' ∧ x ≠ 'X' := fun x hx => by
      rcases List.mem_append.mp (List.mem_of_mem_head? hx) with h | h <;>
        · rw [List.eq_of_mem_replicate h]
          decide
    have hzeros : ∀ c ∈ List.replicate (f.zeros + 1) '0', digitValue c < 8 := fun c hc => by
      rw [List.eq_of_mem_replicate hc]
      decide
    rw [htext, magnitude_of (List.replicate (f.zeros + 1) '0')
      (by rw [radix_of_zero hplain, List.replicate_succ]; rfl) (by simp) (by omega) hzeros, hzero]
    have hread := @Lib.spelled_zeros _ digitValue 8 _ digitValue_zero (f.zeros + 1) []
    rw [List.append_nil] at hread
    rw [hread]
    rfl
  · rcases hann with ⟨rfl, hz⟩ | ⟨hflag, rfl | rfl⟩
    · -- decimal: the first digit is not zero
      have hsharped : f.sharp = [] := by
        rw [hsharp, sharpPrefix]
        split <;> rfl
      rw [hf] at hz
      have hfirst : c ≠ '0' := by
        obtain ⟨d, ds, hds, hd0, hdb⟩ := Lib.head_numeral (digitChar upper) hbase.1 hzero
        rw [hz, hdigits, hds] at hcs
        rintro rfl
        have hvalue := hdigit d hdb
        rw [(List.cons.inj hcs).1, digitValue_zero] at hvalue
        exact hd0 hvalue.symm
      have htext : f.unsignedText = c :: (cs ++ List.replicate f.right ' ') := by
        rw [Field.unsignedText, hsharped, hcs]
        rfl
      rw [htext, magnitude_of (c :: cs) (by rw [radix_of_digit hfirst]; rfl) (List.cons_ne_nil c cs) hbase.2
        (hcs ▸ hall), ← hcs, hspelled]
    · -- octal: the prefix is a leading zero
      have hsharped : f.sharp = ['0'] := by
        rw [hsharp, sharpPrefix, if_pos ⟨hflag, hzero⟩]
        rfl
      have hplain : c ≠ 'x' ∧ c ≠ 'X' := by
        refine ⟨?_, ?_⟩ <;>
          · rintro rfl
            exact absurd hc (by decide)
      have htext : f.unsignedText = '0' :: (c :: cs ++ List.replicate f.right ' ') := by
        rw [Field.unsignedText, hsharped, hcs]
        rfl
      have hmore : ∀ x ∈ '0' :: c :: cs, digitValue x < 8 := by
        rw [← hcs]
        exact List.forall_mem_cons.mpr ⟨by decide, hall⟩
      rw [htext, magnitude_of ('0' :: c :: cs)
        (by rw [radix_of_zero (by simpa using hplain)]; rfl) (by simp) hbase.2 hmore]
      have hread := @Lib.spelled_zeros _ digitValue 8 _ digitValue_zero 1 (c :: cs)
      rw [show List.replicate 1 '0' ++ c :: cs = '0' :: c :: cs from rfl] at hread
      rw [hread, ← hcs, hspelled]
    · -- hexadecimal
      have hsharped : f.sharp = ['0', 'x'] := by
        rw [hsharp, sharpPrefix, if_pos ⟨hflag, hzero⟩]
        rfl
      have htext : f.unsignedText = '0' :: 'x' :: c :: (cs ++ List.replicate f.right ' ') := by
        rw [Field.unsignedText, hsharped, hcs]
        rfl
      have hradix : Environment.radix ('0' :: 'x' :: c :: (cs ++ List.replicate f.right ' ')) =
          (16, c :: cs ++ List.replicate f.right ' ') := by
        simp [Environment.radix, hc]
      rw [htext, magnitude_of (c :: cs) hradix (List.cons_ne_nil c cs) hbase.2 (hcs ▸ hall), ← hcs,
        hspelled]

/-- The number is read with its sign. -/
theorem numeral_layout (hann : sp.Announced num base upper) :
    Environment.numeral (layout sp num base upper).text =
      some (sp.value num, List.replicate (layout sp num base upper).right ' ') := by
  have hmag := magnitude_layout hann
  have hbase : 1 < base ∧ base ≤ 36 := by
    rcases hann with ⟨rfl, -⟩ | ⟨-, rfl | rfl⟩ <;> omega
  have hplain : ∃ c cs, (layout sp num base upper).unsignedText = c :: cs ∧ digitValue c < 36 := by
    obtain ⟨c, cs, hcs⟩ := List.exists_cons_of_ne_nil
      (List.append_ne_nil_of_right_ne_nil (List.replicate (layout sp num base upper).zeros '0')
        (Lib.numeral_ne_nil (digitChar upper) base (sp.value num).natAbs))
    have hc : digitValue c < base := digits_lt hbase.1 hbase.2 (hcs ▸ List.mem_cons_self)
    have htext : (layout sp num base upper).unsignedText =
        (layout sp num base upper).sharp ++
          (c :: cs ++ List.replicate (layout sp num base upper).right ' ') := by
      rw [Field.unsignedText, List.append_assoc, ← hcs]
      rfl
    rcases hsharp : (layout sp num base upper).sharp with _ | ⟨x, xs⟩
    · exact ⟨c, _, by rw [htext, hsharp]; rfl, by omega⟩
    · refine ⟨x, _, by rw [htext, hsharp]; rfl, ?_⟩
      have hx : sharpPrefix sp base (sp.value num).natAbs = x :: xs := hsharp
      unfold sharpPrefix at hx
      split_ifs at hx <;>
        · rw [← (List.cons.inj hx).1]
          decide
  obtain ⟨c, cs, hcs, hc⟩ := hplain
  obtain ⟨hspace, hminus, hplus⟩ := plain_of_digitValue hc
  have hblanks (n : Nat) (t : CString) (ht : ∀ x ∈ t.head?, Filter.isSpace x = false) :
      (List.replicate n ' ' ++ t).dropWhile Filter.isSpace = t := by
    rw [List.dropWhile_append_of_pos (fun x hx => by rw [List.eq_of_mem_replicate hx]; rfl)]
    cases t with
    | nil => rfl
    | cons x t => simp [ht x rfl]
  have htext : (layout sp num base upper).text =
      List.replicate (layout sp num base upper).left ' ' ++
        ((if sp.value num < 0 then ['-'] else []) ++ (layout sp num base upper).unsignedText) := by
    simp [Field.text, Field.unsignedText, layout]
  unfold Environment.numeral
  rw [htext]
  by_cases hneg : sp.value num < 0
  · rw [if_pos hneg, hblanks _ _ (by simp [Filter.isSpace])]
    simp only [List.singleton_append, hmag, Option.map_some]
    rw [show (-((sp.value num).natAbs : Int)) = sp.value num by omega]
  · rw [if_neg hneg, List.nil_append, hblanks _ _ (by simp [hcs, hspace]), hcs]
    have hnonneg : ((sp.value num).natAbs : Int) = sp.value num := by omega
    rw [hcs] at hmag
    split
    · rename_i heq
      exact absurd (List.cons.inj heq).1 hminus
    · rename_i heq
      exact absurd (List.cons.inj heq).1 hplus
    · rw [hmag, Option.map_some, hnonneg]

/-- **What the kernel prints, its environment reads.** A variable whose value is the field of a number, in
a notation that says the base and without blanks behind it, has that number for `getenv_quad`, up to the
bounds of a quad. -/
theorem getenvQuad_of_printed {s : Environment.Kenv} {name text : CString} (hnum : num < 2 ^ 64)
    (hfits : sp.Fits base num) (hann : sp.Announced num base upper)
    (hright : (layout sp num base upper).right = 0)
    (hprinted : number sp num base upper = some text)
    (hget : Environment.kernGetenv s name = some text) :
    Environment.getenvQuad s name = some (Environment.clamp (sp.value num)) := by
  have hbase : 1 < base ∧ base ≤ 36 := by
    rcases hann with ⟨rfl, -⟩ | ⟨-, rfl | rfl⟩ <;> omega
  obtain rfl : (layout sp num base upper).text = text := by
    rw [number_eq hnum hbase.1 hbase.2 hfits] at hprinted
    exact Option.some.inj hprinted
  have hread := numeral_layout hann
  rw [hright, List.replicate_zero] at hread
  have hstrtoq : Environment.strtoq (layout sp num base upper).text =
      (Environment.clamp (sp.value num), []) := by
    rw [Environment.strtoq, hread]
  have hsome : (layout sp num base upper).text ≠ [] := fun hnil => by
    rw [hnil, show Environment.numeral [] = none from rfl] at hread
    exact absurd hread (Option.some_ne_none _).symm
  simp only [Environment.getenvQuad, hget, hstrtoq]
  rw [if_neg (by simpa using hsome.symm)]
  rfl

/-- The environment has the variable `x` with what `%#9x` prints of 255. -/
theorem getenvQuad_of_printed_hexadecimal :
    Environment.getenvQuad (Environment.boot fun name => if name = ['x'] then
      some [' ', ' ', ' ', ' ', ' ', '0', 'x', 'f', 'f'] else none) ['x'] = some 255 :=
  @getenvQuad_of_printed { width := 9, sharpflag := true } 255 16 false _ _ _
    (by decide) ⟨by decide, by decide, by decide, by decide⟩ (.inr ⟨rfl, .inr rfl⟩)
    rfl rfl rfl

end LazyBsd.Printf
