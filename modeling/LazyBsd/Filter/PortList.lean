/-
# LazyBsd.Filter.PortList — the KNI port lists of `lazybsd_dpdk.cc` (`kni_set_bitmap`).

A port list is a C string, here the list of its characters before the NUL; a pointer into it is the
suffix that it points to, and a distance between two such pointers is the offset `strstr` found.
`set_bitmap` swaps the bytes of the port before it indexes, `get_bitmap` indexes with the field as it
lies in the packet: both come to the same bit.

The text of a list of ports and ranges is spelled by `listText`, one decimal numeral for each number. The
loop is followed item by item: one turn marks the ports of the first item and no others, whatever comes
after it, and goes on behind the comma.
-/
import LazyBsd.Filter.Classifier
import Mathlib.Data.List.Basic
import Mathlib.Logic.Function.Basic

namespace LazyBsd.Filter

open Lib Lib.Traced

/-! ## The library functions -/

/-- A C string, without the NUL. -/
abbrev CString := List Char

/-- `strstr`: the offset of the first occurrence. -/
def strstr (needle : CString) : CString → Option Nat
  | [] => if needle = [] then some 0 else none
  | c :: s => if needle.isPrefixOf (c :: s) then some 0 else (strstr needle s).map (· + 1)

/-- `isspace` in the C locale. -/
def isSpace (c : Char) : Bool := c = ' ' || (9 ≤ c.toNat && c.toNat ≤ 13)

/-- The number that a string of digits spells. -/
def decimal (digits : CString) : Nat := digits.foldl (fun n c => 10 * n + (c.toNat - 48)) 0

/-- The number at the start of the string, with its sign. -/
def signedNumber : CString → Int
  | '-' :: s => -(decimal (s.takeWhile Char.isDigit) : Int)
  | '+' :: s => decimal (s.takeWhile Char.isDigit)
  | s => decimal (s.takeWhile Char.isDigit)

/-- `strtol(s, NULL, 10)`: a number that does not fit is the nearest one that does. -/
def strtol (s : CString) : Int :=
  max (-0x8000000000000000) (min 0x7FFFFFFFFFFFFFFF (signedNumber (s.dropWhile isSpace)))

/-- `atoi`: the `long` of `strtol`, cut to an `int`. -/
def atoi (s : CString) : Int := (strtol s).bmod 0x100000000

/-! ## The bitmap -/

/-- The bytes of a port bitmap. -/
abbrev Bitmap := Nat → UInt8

/-- The bitmap after `memset`. -/
def zeroBitmap : Bitmap := fun _ => 0

/-- `htons` on a little-endian machine. -/
def htons (port : UInt16) : UInt16 := port <<< 8 ||| port >>> 8

/-- `set_bitmap`. -/
def setBitmap (port : UInt16) (bitmap : Bitmap) : Bitmap :=
  let port := htons port
  Function.update bitmap (port.toNat / 8) (bitmap (port.toNat / 8) ||| magicBits[port.toNat % 8]!)

/-- The `for` over a range; the `int` is cut to 16 bits in the call of `set_bitmap`. -/
def setRange (lo hi : Int) (bitmap : Bitmap) : Bitmap :=
  (List.range (hi + 1 - lo).toNat).foldl
    (fun b (k : Nat) => setBitmap (UInt16.ofInt (lo + (k : Int))) b) bitmap

/-- `!tail || tail_num < tail - 1`. -/
def dashFirst (tailNum : Nat) : Option Nat → Bool
  | none => true
  | some tail => decide ((tailNum : Int) < (tail : Int) - 1)

/-- One turn of the loop of `kni_set_bitmap` from `head`; none when it never ends, since no `int` is
above `INT_MAX`. -/
def kniSetBitmapTurn (head : CString) (bitmap : Bitmap) : Option Bitmap :=
  let tail := strstr [','] head
  let tailNum := strstr ['-'] head
  match tailNum with
  | none => some (setBitmap (UInt16.ofInt (atoi head)) bitmap)
  | some n =>
      if dashFirst n tail then
        let hi := atoi (head.drop (n + 1))
        if hi = 0x7FFFFFFF then none else some (setRange (atoi head) hi bitmap)
      else some (setBitmap (UInt16.ofInt (atoi head)) bitmap)

theorem strstr_lt_length {c : Char} {s : CString} {t : Nat} (h : strstr [c] s = some t) :
    t < s.length := by
  induction s generalizing t with
  | nil => simp [strstr] at h
  | cons d s ih =>
      simp only [strstr] at h
      split at h
      · obtain rfl : 0 = t := by simpa using h
        exact Nat.succ_pos _
      · obtain ⟨t', ht', rfl⟩ := Option.map_eq_some_iff.mp h
        exact Nat.succ_lt_succ (ih ht')

/-- The loop of `kni_set_bitmap` from `head` on. -/
def kniSetBitmapLoop (head : CString) (bitmap : Bitmap) : Option Bitmap :=
  match kniSetBitmapTurn head bitmap with
  | none => none
  | some bitmap =>
      match h : strstr [','] head with
      | none => some bitmap
      | some t => kniSetBitmapLoop (head.drop (t + 1)) bitmap
termination_by head.length
decreasing_by
  have hlt := strstr_lt_length h
  rw [List.length_drop]
  omega

/-- `kni_set_bitmap`. -/
def kniSetBitmap (p : Option CString) (bitmap : Bitmap) : Option Bitmap :=
  match p with
  | none => some bitmap
  | some head => kniSetBitmapLoop head bitmap

/-! ## The text of a port list -/

/-- A decimal numeral for a port number; leading zeros are allowed. -/
structure Numeral where
  digits : CString
  nonempty : digits ≠ []
  all_digit : ∀ c ∈ digits, c.isDigit = true
  isPort : decimal digits ≤ 65535

/-- The number that is spelled. -/
def Numeral.value (n : Numeral) : Nat := decimal n.digits

/-- One item of a list: a port, or a range with both ends in it. -/
inductive PortItem
  | port (n : Numeral)
  | range (lo hi : Numeral) (le : lo.value ≤ hi.value)

/-- The item as it is written. -/
def PortItem.text : PortItem → CString
  | .port n => n.digits
  | .range lo hi _ => lo.digits ++ '-' :: hi.digits

/-- The ports of the item. -/
def PortItem.Covers : PortItem → Nat → Prop
  | .port n, p => p = n.value
  | .range lo hi _, p => lo.value ≤ p ∧ p ≤ hi.value

/-- The items with commas between them. -/
def listText : PortItem → List PortItem → CString
  | item, [] => item.text
  | item, next :: rest => item.text ++ ',' :: listText next rest

/-- The destination port of a TCP or UDP header at `off`, as a number. -/
def dstPort (data : Bytes) (off : Nat) : UInt16 :=
  (data (off + 2)).toUInt16 <<< 8 ||| (data (off + 3)).toUInt16

/-! ## `strstr` and `atoi` on such a text -/

section Text

variable {c : Char} {pre s rest : CString}

theorem strstr_cons_self : strstr [c] (c :: s) = some 0 := by
  simp [strstr]

theorem strstr_append (h : c ∉ pre) : strstr [c] (pre ++ s) = (strstr [c] s).map (pre.length + ·) := by
  induction pre with
  | nil => simp
  | cons d pre ih =>
      obtain ⟨hd, hpre⟩ := not_or.mp (List.mem_cons.not.mp h)
      have hne : (c == d) = false := by simpa using hd
      simp only [List.cons_append, strstr, List.isPrefixOf, hne, Bool.false_and, Bool.false_eq_true,
        if_false, ih hpre, Option.map_map]
      congr 1
      funext k
      show pre.length + k + 1 = (pre.length + 1) + k
      omega

/-- What stops a numeral: the end of the string, or a character that is no digit. -/
def Stops (rest : CString) : Prop := ∀ c ∈ rest.head?, c.isDigit = false

theorem stops_nil : Stops [] := fun _ h => by simp at h

theorem stops_cons (h : c.isDigit = false) : Stops (c :: rest) := fun _ hc => by
  obtain rfl : c = _ := by simpa using hc
  exact h

theorem takeWhile_digits {digits : CString} (h : ∀ c ∈ digits, c.isDigit = true) (hrest : Stops rest) :
    (digits ++ rest).takeWhile Char.isDigit = digits := by
  rw [List.takeWhile_append_of_pos h]
  cases rest with
  | nil => simp
  | cons c rest => simp [hrest c rfl]

theorem isDigit_bounds (h : c.isDigit = true) : 48 ≤ c.toNat ∧ c.toNat ≤ 57 := by
  rw [Char.isDigit, Bool.and_eq_true, decide_eq_true_eq, decide_eq_true_eq] at h
  exact ⟨UInt32.le_iff_toNat_le.mp h.1, UInt32.le_iff_toNat_le.mp h.2⟩

/-- A digit is neither a blank nor a sign. -/
theorem digit_ne (h : c.isDigit = true) : isSpace c = false ∧ c ≠ '-' ∧ c ≠ '+' ∧ c ≠ ',' := by
  have hb := isDigit_bounds h
  refine ⟨?_, ?_, ?_, ?_⟩
  · have hne : c ≠ ' ' := fun e => absurd hb.1 (by subst e; decide)
    have hle : ¬ c.toNat ≤ 13 := by omega
    simp [isSpace, hne, hle]
  all_goals
    intro e
    exact absurd hb.1 (by subst e; decide)

theorem signedNumber_digit {digits : CString} (hne : digits ≠ [])
    (h : ∀ c ∈ digits, c.isDigit = true) (hrest : Stops rest) :
    signedNumber (digits ++ rest) = decimal digits := by
  obtain ⟨d, ds, rfl⟩ := List.exists_cons_of_ne_nil hne
  obtain ⟨-, hminus, hplus, -⟩ := digit_ne (h d List.mem_cons_self)
  have hscan := takeWhile_digits h hrest
  rw [List.cons_append] at hscan ⊢
  rw [signedNumber, hscan]
  · exact fun s hs => hminus (List.cons.inj hs).1
  · exact fun s hs => hplus (List.cons.inj hs).1

/-- `atoi` reads a numeral, whatever comes behind it. -/
theorem atoi_numeral (n : Numeral) (hrest : Stops rest) : atoi (n.digits ++ rest) = n.value := by
  have hblank : (n.digits ++ rest).dropWhile isSpace = n.digits ++ rest := by
    obtain ⟨d, ds, hd⟩ := List.exists_cons_of_ne_nil n.nonempty
    have hspace := (digit_ne (n.all_digit d (hd ▸ List.mem_cons_self))).1
    rw [hd, List.cons_append, List.dropWhile_cons_of_neg (by simp [hspace])]
  have hport : decimal n.digits ≤ 65535 := n.isPort
  have hlong : strtol (n.digits ++ rest) = (decimal n.digits : Int) := by
    rw [strtol, hblank, signedNumber_digit n.nonempty n.all_digit hrest]
    omega
  rw [atoi, hlong, Numeral.value]
  exact Int.bmod_eq_of_le (by omega) (by omega)

end Text

/-! ## One bit -/

/-- The swapped port in terms of its two bytes. -/
theorem toNat_htons (p : UInt16) : (htons p).toNat = p.toNat % 256 * 256 + p.toNat / 256 := by
  have hp : p.toNat < 65536 := p.toNat_lt
  have hhigh : (p <<< 8).toNat = p.toNat % 256 * 256 := by
    rw [UInt16.toNat_shiftLeft, show (8 : UInt16).toNat % 16 = 8 from rfl, Nat.shiftLeft_eq]
    omega
  have hlow : (p >>> 8).toNat = p.toNat / 256 := by
    rw [UInt16.toNat_shiftRight, show (8 : UInt16).toNat % 16 = 8 from rfl, Nat.shiftRight_eq_div_pow]
  have hlt : p.toNat / 256 < 2 ^ 8 := by omega
  rw [htons, UInt16.toNat_or, hhigh, hlow, show p.toNat % 256 * 256 = (p.toNat % 256) <<< 8 from
    (Nat.shiftLeft_eq (p.toNat % 256) 8).symm, ← Nat.shiftLeft_add_eq_or_of_lt hlt]

/-- Two bytes joined, the first one above. -/
theorem toNat_joined (hi lo : UInt8) :
    (hi.toUInt16 <<< 8 ||| lo.toUInt16).toNat = hi.toNat * 256 + lo.toNat := by
  have hhi : hi.toNat < 256 := hi.toNat_lt
  have hlo : lo.toNat < 2 ^ 8 := lo.toNat_lt
  rw [UInt16.toNat_or, UInt16.toNat_shiftLeft, UInt8.toNat_toUInt16, UInt8.toNat_toUInt16,
    show (8 : UInt16).toNat % 16 = 8 from rfl,
    Nat.mod_eq_of_lt (by rw [Nat.shiftLeft_eq]; omega), ← Nat.shiftLeft_add_eq_or_of_lt hlo,
    Nat.shiftLeft_eq]

/-- The port field as it lies in the packet is the swapped port. -/
theorem readRaw16_dstPort (data : Bytes) (off : Nat) :
    (readRaw16 data (off + 2)).res = some (htons (dstPort data off)) := by
  show some ((data (off + 3)).toUInt16 <<< 8 ||| (data (off + 2)).toUInt16) = _
  congr 1
  apply UInt16.toNat_inj.mp
  have hhi : (data (off + 2)).toNat < 256 := (data (off + 2)).toNat_lt
  have hlo : (data (off + 3)).toNat < 256 := (data (off + 3)).toNat_lt
  rw [toNat_htons, dstPort, toNat_joined, toNat_joined]
  omega

/-- Port `p` is in the bitmap. -/
def Marked (bitmap : Bitmap) (p : UInt16) : Prop := getBitmap (htons p) bitmap = true

theorem magicBits_and : ∀ m k : Fin 8,
    magicBits[m.val]! &&& magicBits[k.val]! = if m = k then magicBits[k.val]! else 0 := by
  decide

theorem magicBits_ne_zero : ∀ k : Fin 8, magicBits[k.val]! ≠ 0 := by
  decide

/-- Setting bit `m` of a byte is seen by a test of bit `m` and by no other. -/
theorem testBit_setBit (x : UInt8) (m k : Fin 8) :
    0 < (x ||| magicBits[m.val]!) &&& magicBits[k.val]! ↔ m = k ∨ 0 < x &&& magicBits[k.val]! := by
  have hdistrib : (x ||| magicBits[m.val]!) &&& magicBits[k.val]! =
      (x &&& magicBits[k.val]!) ||| (magicBits[m.val]! &&& magicBits[k.val]!) := by
    apply UInt8.toBitVec_inj.mp
    ext i
    simp [Bool.and_or_distrib_right]
  rw [hdistrib, magicBits_and, UInt8.pos_iff_ne_zero, UInt8.pos_iff_ne_zero, Ne, UInt8.or_eq_zero_iff]
  by_cases hmk : m = k
  · rw [if_pos hmk]
    exact iff_of_true (fun h => magicBits_ne_zero k h.2) (.inl hmk)
  · rw [if_neg hmk]
    simp [hmk]

/-- `set_bitmap` marks its port and no other. -/
theorem marked_setBitmap (bitmap : Bitmap) (p q : UInt16) :
    Marked (setBitmap p bitmap) q ↔ q = p ∨ Marked bitmap q := by
  have heq : q = p ↔ (htons q).toNat = (htons p).toNat := by
    refine ⟨fun h => h ▸ rfl, fun h => UInt16.toNat_inj.mp ?_⟩
    rw [toNat_htons, toNat_htons] at h
    have hp : p.toNat < 65536 := p.toNat_lt
    have hq : q.toNat < 65536 := q.toNat_lt
    omega
  rw [Marked, Marked, getBitmap, getBitmap, setBitmap, decide_eq_true_eq, decide_eq_true_eq, heq]
  by_cases hbyte : (htons q).toNat / 8 = (htons p).toNat / 8
  · -- both bits are in one byte
    have hbit := testBit_setBit (bitmap ((htons p).toNat / 8))
      ⟨(htons p).toNat % 8, Nat.mod_lt _ (by decide)⟩ ⟨(htons q).toNat % 8, Nat.mod_lt _ (by decide)⟩
    rw [hbyte, Function.update_self, hbit]
    refine or_congr_left ?_
    rw [Fin.mk.injEq]
    omega
  · rw [Function.update_of_ne hbyte]
    refine ⟨Or.inr, fun h => h.resolve_left fun he => hbyte (by rw [he])⟩

theorem not_marked_zeroBitmap (p : UInt16) : ¬ Marked zeroBitmap p := by
  simp [Marked, getBitmap, zeroBitmap]

/-- A port number survives the cut to 16 bits. -/
theorem toNat_ofInt {n : Nat} (h : n ≤ 65535) : (UInt16.ofInt n).toNat = n := by
  rw [UInt16.ofInt, UInt16.toNat_ofNat']
  omega

/-- The first `n` turns of the loop over a range. -/
theorem marked_turns {lo n : Nat} (hn : lo + n ≤ 65536) (bitmap : Bitmap) (q : UInt16) :
    Marked ((List.range n).foldl
        (fun b (k : Nat) => setBitmap (UInt16.ofInt (lo + (k : Int))) b) bitmap) q ↔
      (lo ≤ q.toNat ∧ q.toNat < lo + n) ∨ Marked bitmap q := by
  induction n with
  | zero => exact ⟨Or.inr, fun h => h.resolve_left (by omega)⟩
  | succ n ih =>
      -- the port of the last turn is below 2¹⁶, so the cut changes nothing
      have hport : q = UInt16.ofInt (lo + (n : Int)) ↔ q.toNat = lo + n := by
        rw [← UInt16.toNat_inj, ← Int.natCast_add, toNat_ofInt (by omega)]
      rw [List.range_succ, List.foldl_append, List.foldl_cons, List.foldl_nil, marked_setBitmap,
        ih (by omega), hport, ← or_assoc]
      exact or_congr_left (by omega)

/-- The loop over a range marks the ports of the range. -/
theorem marked_setRange {lo hi : Nat} (hhi : hi ≤ 65535) (bitmap : Bitmap) (q : UInt16) :
    Marked (setRange lo hi bitmap) q ↔ (lo ≤ q.toNat ∧ q.toNat ≤ hi) ∨ Marked bitmap q := by
  have hturns : ((hi : Int) + 1 - lo).toNat = hi + 1 - lo := by omega
  rw [setRange, hturns]
  by_cases hle : lo ≤ hi
  · rw [marked_turns (by omega)]
    exact or_congr_left (by omega)
  · rw [Nat.sub_eq_zero_of_le (by omega)]
    exact ⟨Or.inr, fun h => h.resolve_left (by omega)⟩

/-! ## One item -/

theorem comma_not_mem_digits (n : Numeral) : ',' ∉ n.digits :=
  fun h => (digit_ne (n.all_digit _ h)).2.2.2 rfl

theorem dash_not_mem_digits (n : Numeral) : '-' ∉ n.digits :=
  fun h => (digit_ne (n.all_digit _ h)).2.1 rfl

theorem comma_not_mem_text (item : PortItem) : ',' ∉ item.text := by
  cases item with
  | port n => exact comma_not_mem_digits n
  | range lo hi _ =>
      have hdash : ',' ≠ '-' := by decide
      simp [PortItem.text, comma_not_mem_digits, hdash]

/-- The rest of the string behind an item: the end, or a comma. -/
def Behind (rest : CString) : Prop := rest = [] ∨ ∃ s, rest = ',' :: s

theorem Behind.stops {rest : CString} (h : Behind rest) : Stops rest := by
  obtain rfl | ⟨s, rfl⟩ := h
  · exact stops_nil
  · exact stops_cons (by decide)

/-- Where the next comma is: right behind the item, if there is one at all. -/
theorem strstr_comma {rest : CString} (h : Behind rest) (item : PortItem) :
    strstr [','] (item.text ++ rest) = if rest = [] then none else some item.text.length := by
  rw [strstr_append (comma_not_mem_text item)]
  obtain rfl | ⟨s, rfl⟩ := h
  · rfl
  · rw [strstr_cons_self]
    simp

/-- The turn for a range: the dash is found well before the comma. -/
theorem turn_range {rest : CString} (h : Behind rest) {lo hi : Numeral} (hle : lo.value ≤ hi.value)
    (bitmap : Bitmap) :
    kniSetBitmapTurn ((PortItem.range lo hi hle).text ++ rest) bitmap =
      some (setRange lo.value hi.value bitmap) := by
  have htext : (PortItem.range lo hi hle).text ++ rest = lo.digits ++ '-' :: (hi.digits ++ rest) := by
    simp [PortItem.text]
  have hdash : strstr ['-'] ((PortItem.range lo hi hle).text ++ rest) = some lo.digits.length := by
    rw [htext, strstr_append (dash_not_mem_digits lo), strstr_cons_self]
    simp
  have hfirst : dashFirst lo.digits.length
      (strstr [','] ((PortItem.range lo hi hle).text ++ rest)) = true := by
    have hlen : 0 < hi.digits.length := List.length_pos_iff.mpr hi.nonempty
    rw [strstr_comma h]
    split
    · rfl
    · rw [dashFirst, decide_eq_true_eq, PortItem.text, List.length_append, List.length_cons]
      omega
  have hlo : atoi ((PortItem.range lo hi hle).text ++ rest) = lo.value := by
    rw [htext]
    exact atoi_numeral lo (stops_cons (by decide))
  have hhi : atoi (((PortItem.range lo hi hle).text ++ rest).drop (lo.digits.length + 1)) = hi.value := by
    have hbehind : lo.digits ++ '-' :: (hi.digits ++ rest) = (lo.digits ++ ['-']) ++ (hi.digits ++ rest) := by
      simp
    have hlength : lo.digits.length + 1 = (lo.digits ++ ['-']).length := by simp
    rw [htext, hbehind, hlength, List.drop_left]
    exact atoi_numeral hi h.stops
  have hmax : ¬ (hi.value : Int) = 0x7FFFFFFF := by
    have hport : hi.value ≤ 65535 := hi.isPort
    omega
  simp only [kniSetBitmapTurn, hdash, hfirst, hlo, hhi, if_true, if_neg hmax]

/-- The turn for a single port: a dash, if one is found, is behind the comma. -/
theorem turn_port {rest : CString} (h : Behind rest) (n : Numeral) (bitmap : Bitmap) :
    kniSetBitmapTurn ((PortItem.port n).text ++ rest) bitmap =
      some (setBitmap (UInt16.ofInt n.value) bitmap) := by
  have hn : atoi ((PortItem.port n).text ++ rest) = n.value := atoi_numeral n h.stops
  have hdash : strstr ['-'] ((PortItem.port n).text ++ rest) =
      (strstr ['-'] rest).map (n.digits.length + ·) := strstr_append (dash_not_mem_digits n)
  rw [kniSetBitmapTurn, hn, hdash, strstr_comma h]
  cases hk : strstr ['-'] rest with
  | none => rfl
  | some k =>
      -- then there is a comma too, and the dash is behind it
      have hrest : rest ≠ [] := by
        rintro rfl
        simp [strstr] at hk
      have hlate : dashFirst (n.digits.length + k) (some (PortItem.port n).text.length) = false := by
        rw [dashFirst, decide_eq_false_iff_not, PortItem.text]
        omega
      simp only [Option.map_some, if_neg hrest, hlate, Bool.false_eq_true, if_false]

/-- One turn marks the ports of its item and no others. -/
theorem turn_spec {rest : CString} (h : Behind rest) (item : PortItem) (bitmap : Bitmap) :
    ∃ bitmap', kniSetBitmapTurn (item.text ++ rest) bitmap = some bitmap' ∧
      ∀ q, Marked bitmap' q ↔ item.Covers q.toNat ∨ Marked bitmap q := by
  cases item with
  | port n =>
      have hport : n.value ≤ 65535 := n.isPort
      refine ⟨_, turn_port h n bitmap, fun q => ?_⟩
      rw [marked_setBitmap, PortItem.Covers, ← UInt16.toNat_inj, toNat_ofInt hport]
  | range lo hi hle => exact ⟨_, turn_range h hle bitmap, marked_setRange hi.isPort bitmap⟩

/-! ## The whole list -/

/-- The loop ends, and has marked the ports of all items from `head` on. -/
theorem kniSetBitmapLoop_spec (item : PortItem) (rest : List PortItem) (bitmap : Bitmap) :
    ∃ bitmap', kniSetBitmapLoop (listText item rest) bitmap = some bitmap' ∧
      ∀ q, Marked bitmap' q ↔ (∃ i ∈ item :: rest, i.Covers q.toNat) ∨ Marked bitmap q := by
  induction rest generalizing item bitmap with
  | nil =>
      obtain ⟨bitmap', hturn, hmarked⟩ := turn_spec (.inl rfl) item bitmap
      have hcomma := strstr_comma (.inl rfl) item
      rw [List.append_nil] at hturn hcomma
      refine ⟨bitmap', ?_, fun q => ?_⟩
      · rw [listText, kniSetBitmapLoop, hturn]
        simp only
        split
        · rfl
        · rename_i t ht
          rw [hcomma] at ht
          cases ht
      · rw [hmarked]
        simp
  | cons next rest ih =>
      have hbehind : Behind (',' :: listText next rest) := .inr ⟨_, rfl⟩
      obtain ⟨mid, hturn, hmid⟩ := turn_spec hbehind item bitmap
      obtain ⟨bitmap', hloop, hmarked⟩ := ih next mid
      have hcomma := strstr_comma hbehind item
      rw [if_neg (List.cons_ne_nil _ _)] at hcomma
      refine ⟨bitmap', ?_, fun q => ?_⟩
      · rw [listText, kniSetBitmapLoop, hturn]
        simp only
        split
        · rename_i hnone
          rw [hcomma] at hnone
          cases hnone
        · rename_i t ht
          obtain rfl : item.text.length = t := Option.some.inj (hcomma.symm.trans ht)
          have hhead : (item.text ++ ',' :: listText next rest).drop (item.text.length + 1) =
              listText next rest := by
            rw [← List.drop_drop, List.drop_left, List.drop_one, List.tail_cons]
          rw [hhead, hloop]
      · rw [hmarked, hmid, ← or_assoc]
        have hcons := List.exists_mem_cons_iff (fun i : PortItem => i.Covers q.toNat) item (next :: rest)
        exact or_congr_left (or_comm.trans hcons.symm)

/-- The classifier passes on a packet to a marked port, and only such a packet. -/
theorem filterPort_kni {hdrSize len : UInt16} {bitmap : Bitmap} {data : Bytes} {off : Nat}
    (hlen : hdrSize ≤ len) :
    (filterPort hdrSize bitmap data off len).res = some .kni ↔ Marked bitmap (dstPort data off) := by
  have hres : (filterPort hdrSize bitmap data off len).res =
      some (protocolFilterL4 (htons (dstPort data off)) bitmap) := by
    rw [filterPort, if_neg (UInt16.not_lt.mpr hlen), res_bind, readRaw16_dstPort]
    rfl
  rw [hres, protocolFilterL4, Marked]
  split
  · exact iff_of_true rfl ‹_›
  · exact iff_of_false (by simp) ‹_›

/-- Every port of the list is passed to the kernel interface, and no other port is: for every list, both
protocols, every bitmap that was zeroed before, and every packet that holds the header. -/
theorem kni_port_list_honoured (item : PortItem) (rest : List PortItem) :
    ∃ bitmap, kniSetBitmap (some (listText item rest)) zeroBitmap = some bitmap ∧
      ∀ (cfg : FilterConfig) (data : Bytes) (off : Nat) (len : UInt16),
        (cfg.tcpPortBitmap = bitmap → 20 ≤ len →
          ((protocolFilterTcp cfg data off len).res = some .kni ↔
            ∃ i ∈ item :: rest, i.Covers (dstPort data off).toNat)) ∧
        (cfg.udpPortBitmap = bitmap → 8 ≤ len →
          ((protocolFilterUdp cfg data off len).res = some .kni ↔
            ∃ i ∈ item :: rest, i.Covers (dstPort data off).toNat)) := by
  obtain ⟨bitmap, hloop, hmarked⟩ := kniSetBitmapLoop_spec item rest zeroBitmap
  have hlisted : ∀ q, Marked bitmap q ↔ ∃ i ∈ item :: rest, i.Covers q.toNat := fun q =>
    (hmarked q).trans (or_iff_left (not_marked_zeroBitmap q))
  refine ⟨bitmap, hloop, fun cfg data off len => ⟨?_, ?_⟩⟩
  · rintro rfl hlen
    exact (filterPort_kni hlen).trans (hlisted _)
  · rintro rfl hlen
    exact (filterPort_kni hlen).trans (hlisted _)

theorem kni_port_list_honoured_8005 :
    ∃ bitmap, kniSetBitmap (some ['8', '0', ',', '8', '0', '0', '0', '-', '8', '0', '1', '0']) zeroBitmap =
        some bitmap ∧
      (protocolFilterTcp ⟨true, bitmap, zeroBitmap⟩ (fun i => if i = 2 then 0x1f else 0x45) 0 20).res =
        some .kni := by
  obtain ⟨bitmap, hloop, hkni⟩ := kni_port_list_honoured
    (.port ⟨['8', '0'], by decide, List.all_eq_true.mp rfl, by decide⟩)
    [.range ⟨['8', '0', '0', '0'], by decide, List.all_eq_true.mp rfl, by decide⟩
      ⟨['8', '0', '1', '0'], by decide, List.all_eq_true.mp rfl, by decide⟩ (by decide)]
  refine ⟨bitmap, hloop, ((hkni _ _ _ _).1 rfl (by decide)).mpr ?_⟩
  exact ⟨_, List.mem_cons_of_mem _ List.mem_cons_self, by decide, by decide⟩

end LazyBsd.Filter
