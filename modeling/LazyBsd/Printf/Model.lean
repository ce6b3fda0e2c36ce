/-
# LazyBsd.Printf.Model — `kvprintf` of `lazybsd_subr_prf.c`.

`kvprintf` reads its format one character at a time: text is printed, and after a `%` the `switch` is
entered again for every flag until a conversion ends the directive. One such turn is `turn`; `run` makes
the turns over the memory that `fmt` points to. That memory contains the terminating NUL and may go on
behind it: nothing keeps the loop from reading on when the NUL comes in the middle of a directive. To read
beyond the memory, to write beyond `nbuf`, an argument of another type than the directive takes, a shift
by 32 bits or more and an `int` that overflows in a width are `none`; `retval` wraps around.

What `PCHAR` prints is collected in `Out`; `func` decides where it goes.
-/
import Mathlib.Algebra.Group.Nat.Defs
import Mathlib.Tactic.Common
import LazyBsd.Filter.PortList

namespace LazyBsd.Printf

open LazyBsd.Filter (CString)

/-! ## Numbers -/

/-- `MAXNBUF`. -/
def maxNbuf : Nat := 65

/-- `INT_MAX`. -/
def intMax : Int := 0x7FFFFFFF

/-- The table behind `hex2ascii`, which has 36 digits. -/
def hex2ascii (d : Nat) : Char := Char.ofNat (if d < 10 then 48 + d else 87 + d)

/-- A digit as `ksprintn` stores it. -/
def digitChar (upper : Bool) (d : Nat) : Char := if upper then (hex2ascii d).toUpper else hex2ascii d

/-- The loop of `ksprintn`, which has room for `room` more digits. The digits stand in the order in which
they are printed, the last one written first. -/
def ksprintnLoop (base : Nat) (upper : Bool) : Nat → Nat → CString → Option CString
  | 0, _, _ => none
  | room + 1, num, digits =>
      if 36 ≤ num % base then none
      else if num / base = 0 then some (digitChar upper (num % base) :: digits)
      else ksprintnLoop base upper room (num / base) (digitChar upper (num % base) :: digits)

/-- `ksprintn`: the digits in `nbuf`, behind the NUL at its start. -/
def ksprintn (num base : Nat) (upper : Bool) : Option CString :=
  if base = 0 then none else ksprintnLoop base upper (maxNbuf - 1) num []

/-! ## Arguments and output -/

/-- An argument in the `va_list`: a 64-bit slot, a `char *` (`NULL` or a text), a `u_char *` to bytes, or
the address of a variable for `%n`. -/
inductive Arg
  | word (w : Nat)
  | text (s : Option CString)
  | bytes (bs : List Nat)
  | variable

/-- The integer types that the length modifiers choose. -/
inductive IntType
  | char
  | short
  | int
  | long
  | ssize
  | ptrdiff
  | quad
  | intmax
  deriving DecidableEq, Repr

/-- The width of the type. -/
def IntType.bits : IntType → Nat
  | .char => 8
  | .short => 16
  | .int => 32
  | _ => 64

/-- `num = va_arg(ap, ..)` for an unsigned type. -/
def unsignedValue (t : IntType) (w : Nat) : Nat := w % 2 ^ t.bits

/-- `num = va_arg(ap, ..)` for a signed type: as an `uintmax_t`, with the sign extended. -/
def signedValue (t : IntType) (w : Nat) : Nat :=
  if w % 2 ^ t.bits < 2 ^ (t.bits - 1) then w % 2 ^ t.bits
  else 2 ^ 64 - 2 ^ t.bits + w % 2 ^ t.bits

/-- `va_arg(ap, int)`. -/
def intValue (w : Nat) : Int := (w : Int).bmod 0x100000000

/-- What `kvprintf` has printed, `retval`, and what `%n` has stored. -/
structure Out where
  chars : CString
  retval : Int
  stored : List (IntType × Int)

/-- `PCHAR`, with its `retval++`. -/
def pchar (o : Out) (c : Char) : Out :=
  { o with chars := o.chars ++ [c], retval := (o.retval + 1).bmod 0x100000000 }

/-- `PCHAR` for each character of a text. -/
def pchars (o : Out) (s : CString) : Out := s.foldl pchar o

/-! ## Directives -/

/-- What the flags of a directive have set. -/
structure Spec where
  padc : Char := ' '
  width : Int := 0
  dwidth : Int := 0
  ladjust : Bool := false
  sharpflag : Bool := false
  sign : Bool := false
  dot : Bool := false
  lflag : Bool := false
  qflag : Bool := false
  cflag : Bool := false
  hflag : Bool := false
  jflag : Bool := false
  tflag : Bool := false
  zflag : Bool := false

/-- The type that `handle_sign` and `handle_nosign` read. -/
def Spec.intType (sp : Spec) : IntType :=
  if sp.jflag then .intmax else if sp.qflag then .quad else if sp.tflag then .ptrdiff
  else if sp.lflag then .long else if sp.zflag then .ssize else if sp.hflag then .short
  else if sp.cflag then .char else .int

/-- The type that `%n` writes; it knows no `t`. -/
def Spec.storeType (sp : Spec) : IntType :=
  if sp.jflag then .intmax else if sp.qflag then .quad else if sp.lflag then .long
  else if sp.zflag then .ssize else if sp.hflag then .short else if sp.cflag then .char else .int

/-- `while (n-- > 0) PCHAR(c)`. -/
def padding (c : Char) (n : Int) : CString := List.replicate n.toNat c

/-- The prefix of a number under `#`. -/
def sharpPrefix (sp : Spec) (base num : Nat) : CString :=
  if sp.sharpflag ∧ num ≠ 0 then
    if base = 8 then ['0'] else if base = 16 then ['0', 'x'] else []
  else []

/-- From the label `number` on: the field of the number. -/
def number (sp : Spec) (num base : Nat) (upper : Bool) : Option CString :=
  let neg := sp.sign && decide (2 ^ 63 ≤ num)
  let num := if neg then 2 ^ 64 - num else num
  match ksprintn num base upper with
  | none => none
  | some p =>
      let tmp : Int := (sharpPrefix sp base num).length + if neg then 1 else 0
      let dwidth := if !sp.ladjust && sp.padc == '0' then sp.width - tmp else sp.dwidth
      -- the last turn of `while (dwidth-- > 0)` goes one below
      if intMax < tmp + max dwidth p.length ∨ dwidth - p.length < -intMax then none
      else
        let width := sp.width - (tmp + max dwidth p.length)
        some ((if sp.ladjust then [] else padding ' ' width) ++ (if neg then ['-'] else []) ++
          sharpPrefix sp base num ++ padding '0' (dwidth - p.length) ++ p ++
          if sp.ladjust then padding ' ' width else [])

/-- The case `'s'`. -/
def string (sp : Spec) (p : Option CString) : CString :=
  let p := p.getD ['(', 'n', 'u', 'l', 'l', ')']
  let p := if sp.dot then p.take sp.dwidth.toNat else p
  let pad := padding sp.padc (sp.width - p.length)
  if sp.ladjust then p ++ pad else pad ++ p

/-- The loop of `'D'` over `width` bytes. -/
def hexdump (separator : Option CString) : Nat → List Nat → Option CString
  | 0, _ => some []
  | _ + 1, [] => none
  | width + 1, up :: rest =>
      let hex := [hex2ascii (up / 16), hex2ascii (up % 16)]
      if width = 0 then some hex
      else
        match separator, hexdump separator width rest with
        | some q, some dump => some (hex ++ q ++ dump)
        | _, _ => none

/-- `c > ' '` for a `char`, which has a sign. -/
def aboveBlank (c : Char) : Bool := decide (32 < c.toNat ∧ c.toNat < 128)

/-- The loop of `'b'`: `on` says that the bit of the current name is set, `tmp` that a name was printed. A
character that is no part of a name is the number of the next bit. -/
def names (num : Nat) : Bool → Bool → CString → Option (Bool × CString)
  | _, tmp, [] => some (tmp, [])
  | on, tmp, c :: p =>
      if aboveBlank c then (names num on tmp p).map fun r => (r.1, if on then c :: r.2 else r.2)
      else if 32 < c.toNat then none
      else if num.testBit (c.toNat - 1) then
        (names num true true p).map fun r => (r.1, (if tmp then ',' else '<') :: r.2)
      else names num false tmp p

/-- A `char` as the base of a division of `uintmax_t`. -/
def charBase (c : Char) : Nat := if c.toNat < 128 then c.toNat else 2 ^ 64 - 256 + c.toNat

/-- The case `'b'`. The first character behind the base is always the number of a bit. -/
def register (num : Nat) : CString → Option CString
  | [] => none
  | base :: p =>
      match ksprintn num (charBase base) false with
      | none => none
      | some digits =>
          if num = 0 then some digits
          else if p.head?.any aboveBlank then none
          else (names num false false p).map fun r => digits ++ r.2 ++ if r.1 then ['>'] else []

/-! ## The `switch` -/

/-- How a turn of the `switch` ends: `goto reswitch`, inside the loop over the digits of a width, `break`,
or in the default case. -/
inductive Switch
  | again (sp : Spec) (args : List Arg)
  | digits (sp : Spec) (n : Int)
  | done (o : Out) (args : List Arg)
  | unknown

/-- Print the field and leave the `switch`. -/
def field (o : Out) (args : List Arg) (s : Option CString) : Option Switch :=
  s.map fun s => .done (pchars o s) args

/-- `handle_nosign`. -/
def handleNosign (sp : Spec) (base : Nat) (upper : Bool) (args : List Arg) (o : Out) : Option Switch :=
  match args with
  | .word w :: args =>
      field o args (number { sp with sign := false } (unsignedValue sp.intType w) base upper)
  | _ => none

/-- `handle_sign`. -/
def handleSign (sp : Spec) (base : Nat) (args : List Arg) (o : Out) : Option Switch :=
  match args with
  | .word w :: args => field o args (number sp (signedValue sp.intType w) base false)
  | _ => none

/-- The case `'*'`. -/
def star (sp : Spec) (args : List Arg) : Option Switch :=
  match args with
  | .word w :: args =>
      if sp.dot then some (.again { sp with dwidth := intValue w } args)
      else if 0 ≤ intValue w then some (.again { sp with width := intValue w } args)
      else if intMax < -intValue w then none
      else some (.again { sp with width := -intValue w, ladjust := !sp.ladjust } args)
  | _ => none

/-- The `switch` on a character behind the `%`. -/
def switch (radix : Nat) (sp : Spec) (args : List Arg) (o : Out) (ch : Char) : Option Switch :=
  match ch with
  | '.' => some (.again { sp with dot := true } args)
  | '#' => some (.again { sp with sharpflag := true } args)
  | '+' => some (.again { sp with sign := true } args)
  | '-' => some (.again { sp with ladjust := true } args)
  | '%' => field o args (some ['%'])
  | '*' => star sp args
  | '0' => if sp.dot then some (.digits sp 0) else some (.again { sp with padc := '0' } args)
  | 'b' =>
      match args with
      | .word w :: .text (some p) :: args => field o args (register (unsignedValue .int w) p)
      | _ => none
  | 'c' =>
      match args with
      | .word w :: args => field o args (some [Char.ofNat (w % 256)])
      | _ => none
  | 'D' =>
      match args with
      | .bytes up :: .text p :: args =>
          field o args (hexdump p (if sp.width = 0 then 16 else sp.width.toNat) up)
      | _ => none
  | 'd' => handleSign { sp with sign := true } 10 args o
  | 'i' => handleSign { sp with sign := true } 10 args o
  | 'h' =>
      some (.again (if sp.hflag then { sp with hflag := false, cflag := true }
        else { sp with hflag := true }) args)
  | 'j' => some (.again { sp with jflag := true } args)
  | 'l' =>
      some (.again (if sp.lflag then { sp with lflag := false, qflag := true }
        else { sp with lflag := true }) args)
  | 'n' =>
      match args with
      | .variable :: args =>
          some (.done { o with stored := o.stored ++ [(sp.storeType, o.retval)] } args)
      | _ => none
  | 'o' => handleNosign sp 8 false args o
  | 'p' =>
      match args with
      | .word w :: args =>
          field o args
            (number { sp with sharpflag := sp.width = 0, sign := false } (w % 2 ^ 64) 16 false)
      | _ => none
  | 'q' => some (.again { sp with qflag := true } args)
  | 'r' => if sp.sign then handleSign sp radix args o else handleNosign sp radix false args o
  | 's' =>
      match args with
      | .text p :: args => field o args (some (string sp p))
      | _ => none
  | 't' => some (.again { sp with tflag := true } args)
  | 'u' => handleNosign sp 10 false args o
  | 'X' => handleNosign sp 16 true args o
  | 'x' => handleNosign sp 16 false args o
  | 'y' => handleSign { sp with sign := true } 16 args o
  | 'z' => some (.again { sp with zflag := true } args)
  | _ => if ch.isDigit then some (.digits sp (ch.toNat - 48)) else some .unknown

/-! ## The loop over the format -/

/-- Where the loop stands: in the text, behind a `%`, or in the loop over the digits of a width. `percent`
is the directive so far, from its `%` on. -/
inductive Mode
  | text
  | directive (sp : Spec) (percent : CString)
  | digits (sp : Spec) (n : Int) (percent : CString)

/-- The variables of `kvprintf` between two characters of the format. -/
structure St where
  stop : Bool
  mode : Mode
  args : List Arg
  out : Out

/-- `if (dot) dwidth = n; else width = n;`. -/
def Spec.setNumber (sp : Spec) (n : Int) : Spec :=
  if sp.dot then { sp with dwidth := n } else { sp with width := n }

/-- A character behind the `%`, where `percent` ends with it. -/
def reswitch (radix : Nat) (st : St) (sp : Spec) (percent : CString) (ch : Char) : Option St :=
  match switch radix sp st.args st.out ch with
  | none => none
  | some (.again sp args) => some { st with mode := .directive sp percent, args := args }
  | some (.digits sp n) => some { st with mode := .digits sp n percent }
  | some (.done o args) => some { st with mode := .text, args := args, out := o }
  | some .unknown => some { st with stop := true, mode := .text, out := pchars st.out percent }

/-- The next character of the format; `inr` is the return. -/
def turn (radix : Nat) (st : St) (ch : Char) : Option (St ⊕ Out) :=
  match st.mode with
  | .text =>
      if ch ≠ '%' ∨ st.stop then
        if ch = '\x00' then some (.inr st.out) else some (.inl { st with out := pchar st.out ch })
      else some (.inl { st with mode := .directive {} ['%'] })
  | .directive sp percent => (reswitch radix st sp (percent ++ [ch]) ch).map .inl
  | .digits sp n percent =>
      if ch.isDigit then
        if intMax < n * 10 + (ch.toNat - 48) then none
        else some (.inl { st with mode := .digits sp (n * 10 + (ch.toNat - 48)) (percent ++ [ch]) })
      else (reswitch radix st (sp.setNumber n) (percent ++ [ch]) ch).map .inl

/-- The loop over the memory at `fmt`. -/
def run (radix : Nat) : St → CString → Option Out
  | _, [] => none
  | st, ch :: fmt =>
      match turn radix st ch with
      | none => none
      | some (.inr o) => some o
      | some (.inl st) => run radix st fmt

/-- The variables at the start. -/
def St.init (args : List Arg) : St := ⟨false, .text, args, ⟨[], 0, []⟩⟩

/-- The format for a null pointer. -/
def fmtNull : CString :=
  ['(', 'f', 'm', 't', ' ', 'n', 'u', 'l', 'l', ')', '\n', '\x00']

/-- `kvprintf`: what it prints, returns and stores. -/
def kvprintf (fmt : Option CString) (radix : Int) (args : List Arg) : Option Out :=
  run (if radix < 2 ∨ 36 < radix then 10 else radix.toNat) (St.init args) (fmt.getD fmtNull)

end LazyBsd.Printf
