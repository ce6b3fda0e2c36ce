/-
# LazyBsd.Printf.Format — `kvprintf` prints what the format says.

A format is a row of pieces: text, and directives with flags, a width, a precision, a length modifier and a
conversion. `Directive.read` says which settings the directive stands for and which arguments they take,
`printPieces` what the pieces print; `kvprintf`, which sees single characters, does the same.

A directive that `kvprintf` does not know is printed as it stands, and so is all that comes behind it. The
NUL that ends a format in the middle of a directive is such a directive too: `kvprintf` prints it and reads
on behind the end of the format.
-/
import LazyBsd.Lib.Numeral
import LazyBsd.Printf.Model

namespace LazyBsd.Printf

open LazyBsd.Filter (CString)
open LazyBsd.Lib (numeral spelled)

variable {radix : Nat} {sp : Spec} {percent s rest : CString} {args : List Arg} {o : Out} {c : Char}

/-! ## The grammar -/

/-- A flag. -/
inductive Flag
  | sharp
  | plus
  | minus
  | zero
  deriving DecidableEq, Repr

/-- A width or a precision. -/
inductive Amount
  | digits (n : Nat)
  | star
  deriving DecidableEq, Repr

/-- A length modifier. -/
inductive Size
  | hh
  | h
  | l
  | ll
  | q
  | j
  | t
  | z
  deriving DecidableEq, Repr

/-- A directive up to its conversion. -/
structure Directive where
  flags : List Flag
  width : Option Amount
  precision : Option (Option Amount)
  size : Option Size

/-- The characters of the grammar. -/
def Flag.char : Flag → Char
  | .sharp => '#'
  | .plus => '+'
  | .minus => '-'
  | .zero => '0'

def Amount.text : Amount → CString
  | .digits n => numeral hex2ascii 10 n
  | .star => ['*']

def Size.text : Size → CString
  | .hh => ['h', 'h']
  | .h => ['h']
  | .l => ['l']
  | .ll => ['l', 'l']
  | .q => ['q']
  | .j => ['j']
  | .t => ['t']
  | .z => ['z']

/-- A part that may be missing. -/
def amountText : Option Amount → CString
  | none => []
  | some a => a.text

def precisionText : Option (Option Amount) → CString
  | none => []
  | some a => '.' :: amountText a

def sizeText : Option Size → CString
  | none => []
  | some size => size.text

/-- The directive up to its conversion. -/
def Directive.text (d : Directive) : CString :=
  '%' :: (d.flags.map Flag.char ++ (amountText d.width ++ (precisionText d.precision ++ sizeText d.size)))

/-- A number in a directive is an `int`, and a width does not start with a zero. -/
def Amount.Valid (dot : Bool) : Amount → Prop
  | .digits n => (n : Int) ≤ intMax ∧ (dot = false → n ≠ 0)
  | .star => True

structure Directive.Valid (d : Directive) : Prop where
  width : ∀ a ∈ d.width, a.Valid false
  precision : ∀ p ∈ d.precision, ∀ a ∈ p, a.Valid true

/-- The conversions. -/
def conversions : List Char :=
  ['%', 'b', 'c', 'D', 'd', 'i', 'n', 'o', 'p', 'r', 's', 'u', 'X', 'x', 'y']

/-- The other characters that a directive is made of. -/
def modifiers : List Char := ['.', '#', '+', '-', '*', 'h', 'j', 'l', 'q', 't', 'z']

/-! ## The meaning -/

/-- What a flag sets. -/
def Flag.set (sp : Spec) : Flag → Spec
  | .sharp => { sp with sharpflag := true }
  | .plus => { sp with sign := true }
  | .minus => { sp with ladjust := true }
  | .zero => { sp with padc := '0' }

/-- What a `*` sets: the precision, or the width, on the other side when it is negative. -/
def setStar (sp : Spec) (args : List Arg) (v : Int) : Option (Spec × List Arg) :=
  if sp.dot then some ({ sp with dwidth := v }, args)
  else if 0 ≤ v then some ({ sp with width := v }, args)
  else if intMax < -v then none
  else some ({ sp with width := -v, ladjust := !sp.ladjust }, args)

/-- What a width or a precision sets. -/
def Amount.set (sp : Spec) (args : List Arg) : Amount → Option (Spec × List Arg)
  | .digits n => some (sp.setNumber n, args)
  | .star =>
      match args with
      | .word w :: args => setStar sp args (intValue w)
      | _ => none

/-- What a length modifier sets. -/
def Size.set (sp : Spec) : Size → Spec
  | .hh => { sp with hflag := false, cflag := true }
  | .h => { sp with hflag := true }
  | .l => { sp with lflag := true }
  | .ll => { sp with lflag := false, qflag := true }
  | .q => { sp with qflag := true }
  | .j => { sp with jflag := true }
  | .t => { sp with tflag := true }
  | .z => { sp with zflag := true }

/-- The settings of a width or a precision that may be missing. -/
def setAmount (sp : Spec) (args : List Arg) : Option Amount → Option (Spec × List Arg)
  | none => some (sp, args)
  | some a => a.set sp args

/-- The settings of a precision. -/
def setPrecision (sp : Spec) (args : List Arg) : Option (Option Amount) → Option (Spec × List Arg)
  | none => some (sp, args)
  | some a => setAmount { sp with dot := true } args a

/-- The settings of a length modifier that may be missing. -/
def setSize (sp : Spec) : Option Size → Spec
  | none => sp
  | some size => size.set sp

/-- The settings of a directive, and the arguments it leaves for the conversion. -/
def Directive.read (d : Directive) (args : List Arg) : Option (Spec × List Arg) :=
  match setAmount (d.flags.foldl Flag.set {}) args d.width with
  | none => none
  | some (sp, args) =>
      match setPrecision sp args d.precision with
      | none => none
      | some (sp, args) => some (setSize sp d.size, args)

/-- A piece of a format. -/
inductive Piece
  | text (s : CString)
  | directive (d : Directive) (conversion : Char)

/-- The characters of a piece. -/
def Piece.chars : Piece → CString
  | .text s => s
  | .directive d c => d.text ++ [c]

/-- The format of the pieces, without the NUL. -/
def formatOf (ps : List Piece) : CString := ps.flatMap Piece.chars

/-- Text has no `%` and no NUL; a directive ends with a conversion. -/
def Piece.Valid : Piece → Prop
  | .text s => ∀ c ∈ s, c ≠ '%' ∧ c ≠ '\x00'
  | .directive d c => d.Valid ∧ c ∈ conversions

/-- What the pieces print: the arguments they leave and the output behind them. -/
def printPieces (radix : Nat) : List Piece → List Arg → Out → Option (List Arg × Out)
  | [], args, o => some (args, o)
  | .text s :: ps, args, o => printPieces radix ps args (pchars o s)
  | .directive d c :: ps, args, o =>
      match d.read args with
      | none => none
      | some (sp, args) =>
          match switch radix sp args o c with
          | some (.done o args) => printPieces radix ps args o
          | _ => none

/-! ## Text -/

theorem pchars_append (o : Out) (s t : CString) : pchars o (s ++ t) = pchars (pchars o s) t :=
  List.foldl_append ..

/-- Text is printed; behind a directive that is not known all is text. -/
theorem run_text {stop : Bool} (h : ∀ c ∈ s, (c ≠ '%' ∨ stop = true) ∧ c ≠ '\x00') :
    run radix ⟨stop, .text, args, o⟩ (s ++ rest) = run radix ⟨stop, .text, args, pchars o s⟩ rest := by
  induction s generalizing o with
  | nil => rfl
  | cons c s ih =>
      obtain ⟨⟨hc, h0⟩, hs⟩ := List.forall_mem_cons.mp h
      have hturn : turn radix ⟨stop, .text, args, o⟩ c =
          some (.inl ⟨stop, .text, args, pchar o c⟩) := by
        simp only [turn, if_pos hc, if_neg h0]
      rw [List.cons_append, run, hturn]
      exact ih hs

/-- The NUL ends the format. -/
theorem run_nul {stop : Bool} : run radix ⟨stop, .text, args, o⟩ ('\x00' :: rest) = some o := by
  cases stop <;> rfl

/-! ## Reading a directive -/

/-- A character after which the directive goes on. -/
theorem run_again (sp' : Spec) {args' : List Arg}
    (h : switch radix sp args o c = some (.again sp' args')) :
    run radix ⟨false, .directive sp percent, args, o⟩ (c :: rest) =
      run radix ⟨false, .directive sp' (percent ++ [c]), args', o⟩ rest := by
  rw [run]
  simp only [turn, reswitch, h, Option.map_some]

theorem run_flags {fs : List Flag} (hdot : sp.dot = false) :
    run radix ⟨false, .directive sp percent, args, o⟩ (fs.map Flag.char ++ rest) =
      run radix ⟨false, .directive (fs.foldl Flag.set sp) (percent ++ fs.map Flag.char), args, o⟩
        rest := by
  induction fs generalizing sp percent with
  | nil => simp
  | cons f fs ih =>
      have hstep : switch radix sp args o f.char = some (.again (f.set sp) args) := by
        cases f <;> simp [switch, Flag.char, Flag.set, hdot]
      have hset : (f.set sp).dot = false := by
        cases f <;> exact hdot
      rw [List.map_cons, List.cons_append, run_again _ hstep, ih hset]
      simp

/-- The digits of a number. -/
theorem run_digits {n : Nat} {ds : CString} (hds : ∀ c ∈ ds, ∃ d < 10, c = hex2ascii d)
    (hmax : (ds.foldl (fun n c => n * 10 + (c.toNat - 48)) n : Nat) ≤ intMax) :
    run radix ⟨false, .digits sp n percent, args, o⟩ (ds ++ rest) =
      run radix ⟨false, .digits sp (ds.foldl (fun n c => n * 10 + (c.toNat - 48)) n : Nat)
        (percent ++ ds), args, o⟩ rest := by
  induction ds generalizing n percent with
  | nil => simp
  | cons c ds ih =>
      obtain ⟨⟨d, hd, rfl⟩, hrest⟩ := List.forall_mem_cons.mp hds
      have hdigit : (hex2ascii d).isDigit = true ∧ (hex2ascii d).toNat = 48 + d := by
        interval_cases d <;> exact ⟨rfl, rfl⟩
      have hgrow (ds : CString) (m : Nat) :
          m ≤ ds.foldl (fun n c => n * 10 + (c.toNat - 48)) m := by
        induction ds generalizing m with
        | nil => exact Nat.le_refl m
        | cons c ds ih => exact le_trans (show m ≤ m * 10 + (c.toNat - 48) by omega) (ih _)
      have hle := hgrow ds (n * 10 + ((hex2ascii d).toNat - 48))
      rw [List.foldl_cons] at hmax
      have hnext : (n : Int) * 10 + ((hex2ascii d).toNat - 48) =
          ((n * 10 + ((hex2ascii d).toNat - 48) : Nat) : Int) := by
        rw [hdigit.2]
        omega
      rw [List.cons_append, run]
      simp only [turn, hdigit.1, if_true, hnext]
      rw [if_neg (by omega)]
      simp only [List.foldl_cons]
      rw [ih hrest hmax, List.append_assoc]
      rfl

/-- The character behind the digits is read by the `switch`. -/
theorem run_number {n : Int} (hc : c.isDigit = false) :
    run radix ⟨false, .digits sp n percent, args, o⟩ (c :: rest) =
      run radix ⟨false, .directive (sp.setNumber n) percent, args, o⟩ (c :: rest) := by
  rw [run, run]
  simp only [turn, hc, Bool.false_eq_true, if_false, reswitch]

theorem hex2ascii_value {d : Nat} (h : d < 10) : (hex2ascii d).toNat - 48 = d := by
  interval_cases d <;> rfl

/-- **A width or a precision is read.** -/
theorem run_amount {a : Amount} (hc : c.isDigit = false) (hvalid : a.Valid sp.dot) :
    run radix ⟨false, .directive sp percent, args, o⟩ (a.text ++ c :: rest) =
      (a.set sp args).bind fun r =>
        run radix ⟨false, .directive r.1 (percent ++ a.text), r.2, o⟩ (c :: rest) := by
  cases a with
  | star =>
      show run radix _ ('*' :: c :: rest) = _
      have hswitch : switch radix sp args o '*' = star sp args := rfl
      rw [run]
      simp only [turn, reswitch, hswitch, star, Amount.set, Amount.text]
      cases args with
      | nil => rfl
      | cons arg args =>
          cases arg with
          | word w =>
              dsimp only
              unfold setStar
              split_ifs <;> rfl
          | _ => rfl
  | digits n =>
      obtain ⟨hmax, hzero⟩ := hvalid
      obtain ⟨x, ds, hds⟩ := List.exists_cons_of_ne_nil
        (Lib.numeral_ne_nil hex2ascii 10 n)
      have hmem : ∀ y ∈ x :: ds, ∃ d < 10, y = hex2ascii d := fun y hy => by
        rw [← hds] at hy
        exact Lib.mem_numeral (by omega) hy
      obtain ⟨⟨d, hd, rfl⟩, hmore⟩ := List.forall_mem_cons.mp hmem
      -- a width does not start with a zero, which would be a flag
      have hfirst : sp.dot = false → d ≠ 0 := fun hdot => by
        obtain ⟨d', ds', hds', hd0, hd'⟩ := Lib.head_numeral hex2ascii (by omega : 1 < 10)
          (hzero hdot)
        rw [hds] at hds'
        have hvalue := congrArg (fun c => c.toNat - 48) (List.cons.inj hds').1
        simp only [hex2ascii_value hd, hex2ascii_value hd'] at hvalue
        omega
      have hswitch : switch radix sp args o (hex2ascii d) = some (.digits sp d) := by
        interval_cases d
        · cases hdot : sp.dot with
          | true => simp [switch, hex2ascii, hdot]
          | false => exact absurd rfl (hfirst hdot)
        all_goals rfl
      have hvalue : ds.foldl (fun n c => n * 10 + (c.toNat - 48)) d = n := by
        have hspelled : spelled (fun c => c.toNat - 48) 10 (Lib.numeral hex2ascii 10 n) = n :=
          Lib.spelled_numeral (by omega) fun d hd => hex2ascii_value hd
        rw [hds, spelled, List.foldl_cons, hex2ascii_value hd] at hspelled
        simpa [Nat.mul_comm] using hspelled
      have htext : Amount.text (.digits n) = hex2ascii d :: ds := hds
      rw [htext, List.cons_append, run]
      simp only [turn, reswitch, hswitch, Option.map_some]
      rw [run_digits hmore (by rw [hvalue]; exact hmax), hvalue, run_number hc, List.append_assoc]
      rfl

theorem run_setAmount {a : Option Amount} (hc : c.isDigit = false) (hvalid : ∀ a' ∈ a, a'.Valid sp.dot) :
    run radix ⟨false, .directive sp percent, args, o⟩ (amountText a ++ c :: rest) =
      (setAmount sp args a).bind fun r =>
        run radix ⟨false, .directive r.1 (percent ++ amountText a), r.2, o⟩ (c :: rest) := by
  cases a with
  | none => simp [setAmount, amountText]
  | some a => exact run_amount hc (hvalid a rfl)

/-- What a width or a precision leaves alone. -/
def SameModifiers (sp sp' : Spec) : Prop :=
  sp'.dot = sp.dot ∧ sp'.hflag = sp.hflag ∧ sp'.lflag = sp.lflag

theorem sameModifiers_digits (n : Int) : SameModifiers sp (sp.setNumber n) := by
  unfold Spec.setNumber
  split <;> exact ⟨rfl, rfl, rfl⟩

theorem sameModifiers_setStar {v : Int} {r : Spec × List Arg} (h : setStar sp args v = some r) :
    SameModifiers sp r.1 := by
  unfold setStar at h
  split_ifs at h <;>
    · rw [← Option.some.inj h]
      exact ⟨rfl, rfl, rfl⟩

theorem sameModifiers_setAmount {a : Option Amount} {r : Spec × List Arg}
    (h : setAmount sp args a = some r) : SameModifiers sp r.1 := by
  cases a with
  | none =>
      rw [← Option.some.inj h]
      exact ⟨rfl, rfl, rfl⟩
  | some a =>
      cases a with
      | digits n =>
          rw [← Option.some.inj h]
          exact sameModifiers_digits n
      | star =>
          rcases args with _ | ⟨arg, args⟩
          · cases h
          cases arg with
          | word w => exact sameModifiers_setStar h
          | _ => cases h

theorem run_size {size : Option Size} (hh : sp.hflag = false) (hl : sp.lflag = false) :
    run radix ⟨false, .directive sp percent, args, o⟩ (sizeText size ++ rest) =
      run radix ⟨false, .directive (setSize sp size) (percent ++ sizeText size), args, o⟩ rest := by
  have hagain (c : Char) (sp' : Spec) (hs : switch radix sp args o c = some (.again sp' args)) :
      run radix ⟨false, .directive sp percent, args, o⟩ (c :: rest) =
        run radix ⟨false, .directive sp' (percent ++ [c]), args, o⟩ rest := run_again _ hs
  cases size with
  | none => simp [setSize, sizeText]
  | some size =>
      cases size with
      | hh =>
          have hfirst : switch radix sp args o 'h' = some (.again { sp with hflag := true } args) := by
            simp [switch, hh]
          show run radix _ ('h' :: 'h' :: rest) = _
          rw [run_again _ hfirst, run_again { sp with hflag := false, cflag := true } rfl,
            List.append_assoc]
          rfl
      | h => exact hagain 'h' { sp with hflag := true } (by simp [switch, hh])
      | l => exact hagain 'l' { sp with lflag := true } (by simp [switch, hl])
      | ll =>
          have hfirst : switch radix sp args o 'l' = some (.again { sp with lflag := true } args) := by
            simp [switch, hl]
          show run radix _ ('l' :: 'l' :: rest) = _
          rw [run_again _ hfirst, run_again { sp with lflag := false, qflag := true } rfl,
            List.append_assoc]
          rfl
      | _ => exact hagain _ _ rfl

theorem run_precision {p : Option (Option Amount)} (hc : c.isDigit = false)
    (hvalid : ∀ a ∈ p, ∀ a' ∈ a, a'.Valid true) :
    run radix ⟨false, .directive sp percent, args, o⟩ (precisionText p ++ c :: rest) =
      (setPrecision sp args p).bind fun r =>
        run radix ⟨false, .directive r.1 (percent ++ precisionText p), r.2, o⟩ (c :: rest) := by
  cases p with
  | none => simp [setPrecision, precisionText]
  | some a =>
      show run radix _ ('.' :: (amountText a ++ c :: rest)) = _
      rw [run_again { sp with dot := true } rfl, run_setAmount hc (hvalid a rfl)]
      simp only [setPrecision, precisionText, List.append_assoc, List.singleton_append]

/-- What follows the amounts starts with a letter. -/
theorem exists_cons_sizeText (size : Option Size) (rest : CString) (hc : c.isDigit = false) :
    ∃ x t, sizeText size ++ c :: rest = x :: t ∧ x.isDigit = false := by
  cases size with
  | none => exact ⟨c, rest, rfl, hc⟩
  | some size => cases size <;> exact ⟨_, _, rfl, rfl⟩

theorem exists_cons_precisionText {p : Option (Option Amount)} {x : Char} {t : CString}
    (hx : x.isDigit = false) : ∃ y u, precisionText p ++ x :: t = y :: u ∧ y.isDigit = false := by
  cases p with
  | none => exact ⟨x, t, rfl, hx⟩
  | some a => exact ⟨'.', _, rfl, rfl⟩

theorem sameModifiers_flags (sp : Spec) (fs : List Flag) : SameModifiers sp (fs.foldl Flag.set sp) := by
  induction fs generalizing sp with
  | nil => exact ⟨rfl, rfl, rfl⟩
  | cons f fs ih =>
      have hstep : SameModifiers sp (f.set sp) := by
        cases f <;> exact ⟨rfl, rfl, rfl⟩
      obtain ⟨hdot, hh, hl⟩ := ih (f.set sp)
      exact ⟨hdot.trans hstep.1, hh.trans hstep.2.1, hl.trans hstep.2.2⟩

/-- **A directive is read up to its conversion.** -/
theorem run_directive {d : Directive} (hvalid : d.Valid) (hc : c.isDigit = false) :
    run radix ⟨false, .text, args, o⟩ (d.text ++ c :: rest) =
      (d.read args).bind fun r =>
        run radix ⟨false, .directive r.1 d.text, r.2, o⟩ (c :: rest) := by
  obtain ⟨x, t, hsize, hx⟩ := exists_cons_sizeText d.size rest hc
  obtain ⟨y, u, hprecision, hy⟩ := exists_cons_precisionText (p := d.precision) (t := t) hx
  obtain ⟨hdot, hh, hl⟩ := sameModifiers_flags {} d.flags
  have hstart : run radix ⟨false, .text, args, o⟩ (d.text ++ c :: rest) =
      run radix ⟨false, .directive {} ['%'], args, o⟩
        (d.flags.map Flag.char ++ (amountText d.width ++ (y :: u))) := by
    rw [← hprecision, ← hsize, Directive.text, List.cons_append, run]
    simp only [List.append_assoc]
    rfl
  rw [hstart, run_flags rfl, run_setAmount hy (by rw [hdot]; exact hvalid.width)]
  unfold Directive.read
  cases hw : setAmount (d.flags.foldl Flag.set {}) args d.width with
  | none => rfl
  | some r =>
      obtain ⟨-, hh', hl'⟩ := sameModifiers_setAmount hw
      simp only [Option.bind_some]
      rw [← hprecision, run_precision hx hvalid.precision]
      cases hp : setPrecision r.1 r.2 d.precision with
      | none => rfl
      | some r' =>
          have hkept : r'.1.hflag = false ∧ r'.1.lflag = false := by
            cases hpre : d.precision with
            | none =>
                rw [hpre] at hp
                obtain rfl := Option.some.inj hp
                exact ⟨hh'.trans hh, hl'.trans hl⟩
            | some a =>
                rw [hpre] at hp
                obtain ⟨-, hh'', hl''⟩ := sameModifiers_setAmount hp
                exact ⟨hh''.trans (hh'.trans hh), hl''.trans (hl'.trans hl)⟩
          simp only [Option.bind_some]
          rw [← hsize, run_size hkept.1 hkept.2]
          simp only [Directive.text, List.append_assoc, List.cons_append, List.nil_append]

/-! ## The conversions -/

/-- Up to `INT_MAX` the number of characters is an `int`. -/
theorem intValue_of_le {w : Nat} (h : (w : Int) ≤ intMax) : intValue w = w := by
  unfold intMax at h
  unfold intValue
  exact Int.bmod_eq_of_le_mul_two (by omega) (by omega)

/-- `retval` is the number of the characters, as an `int`. -/
def Out.Counted (o : Out) : Prop := o.retval = intValue o.chars.length

theorem Out.Counted.pchar (h : o.Counted) : (pchar o c).Counted := by
  unfold Out.Counted intValue at *
  simp only [Printf.pchar, h, Int.bmod_add_bmod, List.length_append, List.length_singleton,
    Nat.cast_add, Nat.cast_one]

theorem Out.counted_init : Out.Counted ⟨[], 0, []⟩ := by
  have hzero : intValue 0 = 0 := intValue_of_le (by unfold intMax; omega)
  exact hzero.symm

theorem Out.Counted.pchars (h : o.Counted) : (pchars o s).Counted := by
  induction s generalizing o with
  | nil => exact h
  | cons c s ih =>
      have hfirst : (Printf.pchar o c).Counted := h.pchar
      exact ih hfirst

/-- The ends of a turn that a conversion can have. -/
def Breaks (o : Out) (r : Option Switch) : Prop :=
  r = none ∨ ∃ o' args', r = some (.done o' args') ∧ (o.Counted → o'.Counted)

theorem breaks_field {s : Option CString} : Breaks o (field o args s) := by
  cases s with
  | none => exact .inl rfl
  | some s => exact .inr ⟨_, _, rfl, Out.Counted.pchars⟩

theorem breaks_handleSign {base : Nat} : Breaks o (handleSign sp base args o) := by
  unfold handleSign
  split
  · exact breaks_field
  · exact .inl rfl

theorem breaks_handleNosign {base : Nat} {upper : Bool} :
    Breaks o (handleNosign sp base upper args o) := by
  unfold handleNosign
  split
  · exact breaks_field
  · exact .inl rfl

/-- A conversion leaves the `switch` by `break`, if at all. -/
theorem breaks_conversion (radix : Nat) (sp : Spec) (args : List Arg) (o : Out) (h : c ∈ conversions) :
    Breaks o (switch radix sp args o c) := by
  simp only [conversions, List.mem_cons, List.not_mem_nil, or_false] at h
  rcases h with rfl | rfl | rfl | rfl | rfl | rfl | rfl | rfl | rfl | rfl | rfl | rfl | rfl | rfl | rfl
  · show Breaks o (field _ _ _)
    exact breaks_field
  · simp only [switch]
    split
    · exact breaks_field
    · exact .inl rfl
  · simp only [switch]
    split
    · exact breaks_field
    · exact .inl rfl
  · simp only [switch]
    split
    · exact breaks_field
    · exact .inl rfl
  · show Breaks o (handleSign _ _ _ _)
    exact breaks_handleSign
  · show Breaks o (handleSign _ _ _ _)
    exact breaks_handleSign
  · simp only [switch]
    split
    · exact .inr ⟨_, _, rfl, id⟩
    · exact .inl rfl
  · show Breaks o (handleNosign _ _ _ _ _)
    exact breaks_handleNosign
  · simp only [switch]
    split
    · exact breaks_field
    · exact .inl rfl
  · show Breaks o (if sp.sign then handleSign _ _ _ _ else handleNosign _ _ _ _ _)
    split
    · exact breaks_handleSign
    · exact breaks_handleNosign
  · simp only [switch]
    split
    · exact breaks_field
    · exact .inl rfl
  · show Breaks o (handleNosign _ _ _ _ _)
    exact breaks_handleNosign
  · show Breaks o (handleNosign _ _ _ _ _)
    exact breaks_handleNosign
  · show Breaks o (handleNosign _ _ _ _ _)
    exact breaks_handleNosign
  · show Breaks o (handleSign _ _ _ _)
    exact breaks_handleSign

/-- A character that no directive has. -/
theorem switch_unknown (hc : c.isDigit = false) (hconv : c ∉ conversions) (hmod : c ∉ modifiers) :
    switch radix sp args o c = some .unknown := by
  simp only [conversions, modifiers, List.mem_cons, List.not_mem_nil, or_false, not_or] at hconv hmod
  unfold switch
  split
  all_goals first
    | rfl
    | simp_all

/-! ## Formats -/

theorem not_digit_of_mem_conversions (h : c ∈ conversions) : c.isDigit = false := by
  have hall : ∀ c ∈ conversions, c.isDigit = false := by simp [conversions]
  exact hall c h

/-- **The pieces are printed**, and the loop goes on behind them. -/
theorem run_pieces {ps : List Piece} (hvalid : ∀ p ∈ ps, p.Valid) :
    run radix ⟨false, .text, args, o⟩ (formatOf ps ++ rest) =
      (printPieces radix ps args o).bind fun r => run radix ⟨false, .text, r.1, r.2⟩ rest := by
  induction ps generalizing args o with
  | nil => rfl
  | cons p ps ih =>
      obtain ⟨hp, hps⟩ := List.forall_mem_cons.mp hvalid
      rw [formatOf, List.flatMap_cons, List.append_assoc]
      cases p with
      | text s =>
          show run radix _ (s ++ (formatOf ps ++ rest)) = _
          rw [run_text fun c hc => ⟨.inl (hp c hc).1, (hp c hc).2⟩, ih hps]
          rfl
      | directive d c =>
          show run radix _ ((d.text ++ [c]) ++ (formatOf ps ++ rest)) = _
          rw [List.append_assoc, List.singleton_append,
            run_directive hp.1 (not_digit_of_mem_conversions hp.2)]
          unfold printPieces
          cases d.read args with
          | none => rfl
          | some r =>
              simp only [Option.bind_some]
              rw [run]
              rcases breaks_conversion radix r.1 r.2 o hp.2 with
                hs | ⟨o', args', hs, -⟩
              · simp only [turn, reswitch, hs]
                rfl
              · simp only [turn, reswitch, hs, Option.map_some]
                exact ih hps

theorem counted_printPieces {ps : List Piece} (hvalid : ∀ p ∈ ps, p.Valid) {r : List Arg × Out}
    (ho : o.Counted) (h : printPieces radix ps args o = some r) : r.2.Counted := by
  induction ps generalizing args o with
  | nil =>
      rw [← Option.some.inj h]
      exact ho
  | cons p ps ih =>
      obtain ⟨hp, hps⟩ := List.forall_mem_cons.mp hvalid
      cases p with
      | text s => exact ih hps ho.pchars h
      | directive d c =>
          unfold printPieces at h
          cases hread : d.read args with
          | none => simp [hread] at h
          | some r' =>
              rcases breaks_conversion radix r'.1 r'.2 o hp.2 with
                hs | ⟨o', args', hs, hcounted⟩
              · simp [hread, hs] at h
              · simp only [hread, hs] at h
                exact ih hps (hcounted ho) h

/-- The radix of `%r`. -/
def radixOf (radix : Int) : Nat := if radix < 2 ∨ 36 < radix then 10 else radix.toNat

/-- **A format prints what its pieces mean**, whatever follows its NUL in memory, and the return value is
the number of characters, when that is an `int`. -/
theorem kvprintf_pieces {ps : List Piece} {radix : Int} (hvalid : ∀ p ∈ ps, p.Valid)
    (beyond : CString) :
    kvprintf (some (formatOf ps ++ '\x00' :: beyond)) radix args =
        (printPieces (radixOf radix) ps args ⟨[], 0, []⟩).map Prod.snd ∧
      ∀ o, kvprintf (some (formatOf ps ++ '\x00' :: beyond)) radix args = some o →
        (o.chars.length : Int) ≤ intMax → o.retval = o.chars.length := by
  have hrun : kvprintf (some (formatOf ps ++ '\x00' :: beyond)) radix args =
      (printPieces (radixOf radix) ps args ⟨[], 0, []⟩).map Prod.snd := by
    show run (radixOf radix) ⟨false, .text, args, ⟨[], 0, []⟩⟩ _ = _
    rw [Option.getD_some, run_pieces hvalid]
    simp only [run_nul]
    cases printPieces (radixOf radix) ps args ⟨[], 0, []⟩ <;> rfl
  refine ⟨hrun, fun o ho hmax => ?_⟩
  rw [hrun] at ho
  obtain ⟨r, hr, rfl⟩ := Option.map_eq_some_iff.mp ho
  exact (counted_printPieces hvalid Out.counted_init hr).trans (intValue_of_le hmax)

namespace Sample

/-- `%-6s|%0*d|%#x` and a newline. -/
def pieces : List Piece :=
  [.directive ⟨[.minus], some (.digits 6), none, none⟩ 's', .text ['|'],
    .directive ⟨[.zero], some .star, none, none⟩ 'd', .text ['|'],
    .directive ⟨[.sharp], none, none, some .l⟩ 'x', .text ['\n']]

def arguments : List Arg := [.text (some ['v', 'e', 't', 'h']), .word 5, .word 0xFFFFFFD6, .word 0x1F]

theorem pieces_valid : ∀ p ∈ pieces, p.Valid := by
  have htext (c : Char) (hc : c ≠ '%' ∧ c ≠ '\x00') : (Piece.text [c]).Valid := fun x hx => by
    rwa [List.mem_singleton.mp hx]
  simp only [pieces, List.forall_mem_cons, List.not_mem_nil, false_implies, implies_true, and_true]
  refine ⟨⟨⟨?_, ?_⟩, by decide⟩, htext _ (by decide), ⟨⟨?_, ?_⟩, by decide⟩, htext _ (by decide),
    ⟨⟨?_, ?_⟩, by decide⟩, htext _ (by decide)⟩
  all_goals simp [Amount.Valid, intMax]

end Sample

/-- The format `%-6s|%0*d|%#lx` with the name of an interface, a width, -42 and 31. -/
theorem kvprintf_pieces_line :
    (kvprintf (some (formatOf Sample.pieces ++ '\x00' :: ['?'])) 10 Sample.arguments).map Out.chars =
      some ['v', 'e', 't', 'h', ' ', ' ', '|', '-', '0', '0', '4', '2', '|', '0', 'x', '1', 'f', '\n'] := by
  rw [(kvprintf_pieces Sample.pieces_valid ['?']).1]
  decide +kernel

/-- **Behind a directive that is not known nothing is formatted.** The directive and all that follows are
printed as they stand. The NUL is not known either: a format that ends in the middle of a directive is
printed with its NUL, and so is what follows it in memory, up to the next NUL. -/
theorem kvprintf_unknown {ps : List Piece} {d : Directive} {tail beyond : CString} {radix : Int}
    (hvalid : ∀ p ∈ ps, p.Valid) (hd : d.Valid) (hc : c.isDigit = false) (hconv : c ∉ conversions)
    (hmod : c ∉ modifiers) (htail : ∀ x ∈ tail, x ≠ '\x00') :
    kvprintf (some (formatOf ps ++ (d.text ++ c :: (tail ++ '\x00' :: beyond)))) radix args =
      (printPieces (radixOf radix) ps args ⟨[], 0, []⟩).bind fun r =>
        (d.read r.1).map fun _ => pchars r.2 (d.text ++ c :: tail) := by
  show run (radixOf radix) ⟨false, .text, args, ⟨[], 0, []⟩⟩ _ = _
  rw [Option.getD_some, run_pieces hvalid]
  refine congrArg _ (funext fun r => ?_)
  rw [run_directive hd hc]
  cases d.read r.1 with
  | none => rfl
  | some r' =>
      rw [Option.bind_some, run]
      simp only [turn, reswitch, switch_unknown hc hconv hmod, Option.map_some]
      rw [run_text fun x hx => ⟨.inr rfl, htail x hx⟩, run_nul, ← pchars_append, List.append_assoc,
        List.singleton_append]

/-- `50%` at the end of a format prints what lies behind the format, here `key`. -/
theorem kvprintf_unknown_end :
    (kvprintf (some ['5', '0', '%', '\x00', 'k', 'e', 'y', '\x00', '?']) 10 []).map Out.chars =
      some ['5', '0', '%', '\x00', 'k', 'e', 'y'] := by
  have hprinted := @kvprintf_unknown [] '\x00' [.text ['5', '0']] ⟨[], none, none, none⟩
    ['k', 'e', 'y'] ['?'] 10
    (by simp [Piece.Valid]) ⟨by simp, by simp⟩ (by decide) (by decide) (by decide) (by simp)
  exact congrArg (Option.map Out.chars) hprinted

end LazyBsd.Printf
