/-
# LazyBsd.Zerocopy — writing into the mbuf chain of a zero-copy buffer.

`lazybsd_zc_mbuf_get` makes a buffer of a chain of empty mbufs, `lazybsd_zc_mbuf_write` fills the chain
piece by piece and leaves a cursor at the mbuf it came to. The check that a piece still fits adds two
`int`s: a piece with which the sum passes `INT_MAX` is let through.
-/
import Mathlib.Algebra.Ring.Nat
import LazyBsd.Lib.Object

namespace LazyBsd.Zerocopy

open Lib.Object

/-! ## The buffer -/

/-- An mbuf with `size` bytes behind `m_data`. -/
structure Zbuf where
  mLen : Nat
  size : Nat
  fits : mLen ≤ size
deriving DecidableEq, Repr

def Zbuf.mTrailingspace (mb : Zbuf) : Nat := mb.size - mb.mLen

/-- `mb->m_len += length`. -/
def Zbuf.grow (mb : Zbuf) (length : Nat) (h : length ≤ mb.mTrailingspace) : Zbuf where
  mLen := mb.mLen + length
  size := mb.size
  fits := by
    have hfits := mb.fits
    unfold mTrailingspace at h
    omega

/-- `struct lazybsd_zc_mbuf`, with the chain. A pointer to an mbuf is its place in the chain, and the
bytes behind its `m_data` are an object of their own. -/
structure ZcMbuf where
  bsdMbuf : List Zbuf
  bsdMbufOff : Option Nat
  off : Int
  len : Int
  byte : Contents Nat

def mtod (i : Nat) : Ptr Nat := ⟨i, 0⟩

/-- The sum of two `int`s. -/
def intAdd (x y : Int) : Int := (x + y).bmod (2 ^ 32)

/-- `m_getm2` is asked for `max(len, 1)` bytes; `none` when it returns `NULL`. -/
def lazybsdZcMbufGet (mGetm2 : Nat → Option (List Zbuf)) (byte : Contents Nat) (len : Nat) :
    Option ZcMbuf :=
  (mGetm2 (max len 1)).map fun mb =>
    { bsdMbuf := mb
      bsdMbufOff := some 0
      off := 0
      len := len
      byte := byte }

/-- The loop of `lazybsd_zc_mbuf_write` from the mbuf in place `i` on. It returns the mbufs as they are
left and the one it broke off at. -/
def writeLoop (data : Nat → UInt8) (len : Nat) (i : Nat) :
    List Zbuf → Nat → Contents Nat → List Zbuf × Option Nat × Contents Nat
  | [], _, byte => ([], none, byte)
  | mb :: rest, progress, byte =>
      let length := min mb.mTrailingspace (len - progress)
      let byte := filled byte (mtod i + mb.mLen) (fun k => data (progress + k)) length
      let mb := mb.grow length (Nat.min_le_left _ _)
      let progress := progress + length
      if len = progress then (mb :: rest, some i, byte)
      else
        let (rest, cursor, byte) := writeLoop data len (i + 1) rest progress byte
        (mb :: rest, cursor, byte)

def lazybsdZcMbufWrite (zm : ZcMbuf) (data : Nat → UInt8) (len : Nat) : Int × ZcMbuf :=
  if intAdd zm.off len > zm.len then (-1, zm)
  else
    match zm.bsdMbufOff with
    | none => (len, { zm with off := intAdd zm.off len })
    | some i =>
        let (mbufs, cursor, byte) := writeLoop data len i (zm.bsdMbuf.drop i) 0 zm.byte
        (len,
          { zm with
            bsdMbuf := zm.bsdMbuf.take i ++ mbufs
            bsdMbufOff := cursor
            off := intAdd zm.off len
            byte := byte })

/-! ## What the chain holds -/

/-- The bytes of the mbufs from place `i` on. -/
def chainBytes (byte : Contents Nat) (i : Nat) : List Zbuf → List UInt8
  | [] => []
  | mb :: rest => bytesAt byte (mtod i) mb.mLen ++ chainBytes byte (i + 1) rest

def ZcMbuf.bytes (zm : ZcMbuf) : List UInt8 := chainBytes zm.byte 0 zm.bsdMbuf

def room (mbufs : List Zbuf) : Nat := (mbufs.map Zbuf.mTrailingspace).sum

section Chain

variable {byte byte' : Contents Nat} {i len progress : Nat} {data : Nat → UInt8}
  {mbufs rest : List Zbuf} {mb : Zbuf}

theorem chainBytes_append (byte : Contents Nat) (i : Nat) (l l' : List Zbuf) :
    chainBytes byte i (l ++ l') = chainBytes byte i l ++ chainBytes byte (i + l.length) l' := by
  induction l generalizing i with
  | nil => rfl
  | cons mb l ih =>
      rw [List.cons_append, chainBytes, chainBytes, ih, List.append_assoc, List.length_cons,
        Nat.add_assoc, Nat.add_comm 1]

theorem chainBytes_congr (h : ∀ p : Ptr Nat, i ≤ p.obj → p.obj < i + mbufs.length → byte' p = byte p) :
    chainBytes byte' i mbufs = chainBytes byte i mbufs := by
  induction mbufs generalizing i with
  | nil => rfl
  | cons mb rest ih =>
      rw [List.length_cons] at h
      rw [chainBytes, chainBytes]
      congr 1
      · apply bytesAt_congr
        intro k _
        exact h (mtod i + k) (Nat.le_refl i) (by show i < _; omega)
      · apply ih
        intro p hlo hhi
        exact h p (by omega) (by omega)

theorem length_chainBytes (byte : Contents Nat) (i : Nat) (l : List Zbuf) :
    (chainBytes byte i l).length = (l.map Zbuf.mLen).sum := by
  induction l generalizing i with
  | nil => rfl
  | cons mb l ih =>
      rw [chainBytes, List.length_append, length_bytesAt, ih, List.map_cons, List.sum_cons]

theorem chainBytes_of_empty (h : ∀ mb ∈ mbufs, mb.mLen = 0) : chainBytes byte i mbufs = [] := by
  induction mbufs generalizing i with
  | nil => rfl
  | cons mb rest ih =>
      rw [chainBytes, h mb List.mem_cons_self, ih fun mb' hmb' => h mb' (List.mem_cons_of_mem _ hmb')]
      rfl

/-- The `n` bytes of `data` from `progress` on. -/
def piece (data : Nat → UInt8) (progress n : Nat) : List UInt8 :=
  (List.range n).map fun k => data (progress + k)

@[simp] theorem length_piece (data : Nat → UInt8) (progress n : Nat) :
    (piece data progress n).length = n := by
  rw [piece, List.length_map, List.length_range]

theorem piece_add (data : Nat → UInt8) (progress m n : Nat) :
    piece data progress (m + n) = piece data progress m ++ piece data (progress + m) n := by
  rw [piece, List.range_add, List.map_append, List.map_map]
  congr 1
  apply List.map_congr_left
  intro k _
  show data (progress + (m + k)) = data (progress + m + k)
  rw [Nat.add_assoc]

/-- One turn of the loop puts a piece behind what its mbuf holds. -/
theorem bytesAt_turn (byte : Contents Nat) (i m progress n : Nat) :
    bytesAt (filled byte (mtod i + m) (fun k => data (progress + k)) n) (mtod i) (m + n) =
      bytesAt byte (mtod i) m ++ piece data progress n := by
  rw [bytesAt_add]
  congr 1
  · apply bytesAt_filled_apart
    intro _
    right
    show 0 + m ≤ 0 + m
    exact Nat.le_refl _
  · exact bytesAt_filled _ _ _ _

/-- What the loop leaves of the mbufs from place `i` on, when it puts `d` behind their bytes. -/
structure Filled (i : Nat) (mbufs : List Zbuf) (d : List UInt8) (byte : Contents Nat)
    (out : List Zbuf × Option Nat × Contents Nat) : Prop where
  bytes : chainBytes out.2.2 i out.1 = chainBytes byte i mbufs ++ d
  cursor : ∃ j < out.1.length, out.2.1 = some (i + j) ∧ (∀ mb ∈ out.1.drop (j + 1), mb.mLen = 0) ∧
    room mbufs = d.length + room (out.1.drop j)
  before : ∀ p : Ptr Nat, p.obj < i → out.2.2 p = byte p

theorem filled_before {m n : Nat} {src : Nat → UInt8} {p : Ptr Nat} (h : p.obj ≠ i) :
    filled byte (mtod i + m) src n p = byte p :=
  if_neg fun hcovers => h hcovers.1

/-- The piece fits into the first mbuf. -/
theorem writeLoop_fits (hprogress : progress ≤ len) (hfits : len - progress ≤ mb.mTrailingspace)
    (hempty : ∀ mb ∈ rest, mb.mLen = 0) :
    Filled i (mb :: rest) (piece data progress (len - progress)) byte
      (writeLoop data len i (mb :: rest) progress byte) := by
  have hlength : min mb.mTrailingspace (len - progress) = len - progress := Nat.min_eq_right hfits
  have hdone : len = progress + (len - progress) := (Nat.add_sub_cancel' hprogress).symm
  have hout : writeLoop data len i (mb :: rest) progress byte =
      (mb.grow (len - progress) hfits :: rest, some i,
        filled byte (mtod i + mb.mLen) (fun k => data (progress + k)) (len - progress)) := by
    simp only [writeLoop, hlength, if_pos hdone]
  rw [hout]
  constructor
  · show chainBytes _ i (_ :: rest) = _
    rw [chainBytes, chainBytes, chainBytes_of_empty hempty, chainBytes_of_empty hempty,
      List.append_nil, List.append_nil]
    exact bytesAt_turn byte i mb.mLen progress (len - progress)
  · refine ⟨0, Nat.zero_lt_succ _, rfl, hempty, ?_⟩
    show mb.mTrailingspace + room rest = _ + (mb.size - (mb.mLen + (len - progress)) + room rest)
    rw [length_piece]
    unfold Zbuf.mTrailingspace at hfits ⊢
    omega
  · intro p hp
    dsimp only
    exact filled_before (Nat.ne_of_lt hp)

/-- The first mbuf is filled up, and the loop goes on behind it. -/
theorem writeLoop_goes_on {mbufs : List Zbuf} (hmore : mb.mTrailingspace < len - progress)
    (hrest : Filled (i + 1) mbufs
      (piece data (progress + mb.mTrailingspace) (len - (progress + mb.mTrailingspace)))
      (filled byte (mtod i + mb.mLen) (fun k => data (progress + k)) mb.mTrailingspace)
      (writeLoop data len (i + 1) mbufs (progress + mb.mTrailingspace)
        (filled byte (mtod i + mb.mLen) (fun k => data (progress + k)) mb.mTrailingspace)))
    (hempty : ∀ mb ∈ mbufs, mb.mLen = 0) :
    Filled i (mb :: mbufs) (piece data progress (len - progress)) byte
      (writeLoop data len i (mb :: mbufs) progress byte) := by
  have hlength : min mb.mTrailingspace (len - progress) = mb.mTrailingspace :=
    Nat.min_eq_left (Nat.le_of_lt hmore)
  have hgoes : ¬ len = progress + mb.mTrailingspace := by omega
  have hsplit : piece data progress (len - progress) = piece data progress mb.mTrailingspace ++
      piece data (progress + mb.mTrailingspace) (len - (progress + mb.mTrailingspace)) := by
    rw [← piece_add]
    congr 1
    omega
  rw [writeLoop]
  simp only [hlength, if_neg hgoes]
  generalize writeLoop data len (i + 1) mbufs _ _ = out at hrest ⊢
  obtain ⟨rest, cursor, byte'⟩ := out
  obtain ⟨hbytes, ⟨j, hj, hcursor, htail, hroom⟩, hbefore⟩ := hrest
  dsimp only at hbytes hj hcursor htail hroom hbefore
  constructor
  · show chainBytes byte' i (mb.grow mb.mTrailingspace _ :: rest) = _
    have hfirst : bytesAt byte' (mtod i) (mb.mLen + mb.mTrailingspace) =
        bytesAt byte (mtod i) mb.mLen ++ piece data progress mb.mTrailingspace := by
      rw [← bytesAt_turn]
      apply bytesAt_congr
      intro k _
      exact hbefore _ (Nat.lt_succ_self i)
    rw [chainBytes_of_empty hempty, List.nil_append] at hbytes
    rw [chainBytes, chainBytes, chainBytes_of_empty hempty, List.append_nil, hbytes, hsplit,
      ← List.append_assoc]
    congr 1
  · refine ⟨j + 1, Nat.succ_lt_succ hj, ?_, htail, ?_⟩
    · rw [hcursor, Nat.add_assoc, Nat.add_comm 1]
    · show mb.mTrailingspace + room mbufs = _
      rw [hroom, length_piece, length_piece]
      show _ = _ + room (rest.drop j)
      omega
  · intro p hp
    dsimp only
    rw [hbefore p (Nat.lt_succ_of_lt hp)]
    exact filled_before (Nat.ne_of_lt hp)

/-- The induction is over the mbufs; those behind the first one are empty and have the room. -/
theorem writeLoop_filled (hprogress : progress ≤ len) (hroom : len - progress ≤ room (mb :: rest))
    (hempty : ∀ mb ∈ rest, mb.mLen = 0) :
    Filled i (mb :: rest) (piece data progress (len - progress)) byte
      (writeLoop data len i (mb :: rest) progress byte) := by
  induction rest generalizing i mb progress byte with
  | nil =>
      apply writeLoop_fits hprogress _ hempty
      simpa [room] using hroom
  | cons mb' rest ih =>
      rcases Nat.lt_or_ge mb.mTrailingspace (len - progress) with hmore | hfits
      · apply writeLoop_goes_on hmore _ hempty
        apply ih
        · omega
        · change len - progress ≤ mb.mTrailingspace + room (mb' :: rest) at hroom
          omega
        · intro mb hmb
          exact hempty mb (List.mem_cons_of_mem _ hmb)
      · exact writeLoop_fits hprogress hfits hempty

end Chain

/-! ## One call -/

/-- What the caller passes to one call: an `int` of at least 0 and as many bytes. -/
structure Write where
  data : Nat → UInt8
  len : Nat
  isInt : len < 2 ^ 31

def Write.bytes (w : Write) : List UInt8 := piece w.data 0 w.len

def ZcMbuf.write (zm : ZcMbuf) (w : Write) : Int × ZcMbuf := lazybsdZcMbufWrite zm w.data w.len

/-- The chain holds `acc` and nothing else, and the next call finds an mbuf to go on with. -/
structure ZcMbuf.Holds (zm : ZcMbuf) (acc : List UInt8) : Prop where
  bytes : zm.bytes = acc
  off : zm.off = acc.length
  lens : ((zm.bsdMbuf.map Zbuf.mLen).sum : Int) = zm.off
  nonneg : 0 ≤ zm.off
  fits : zm.off ≤ zm.len
  cursor : zm.bsdMbufOff ≠ none

/-- The invariant. What comes behind the cursor is empty, and from the cursor on there is the room
that the check promises. -/
structure ZcMbuf.Inv (zm : ZcMbuf) (cap : Nat) (acc : List UInt8) : Prop where
  bytes : zm.bytes = acc
  off : zm.off = acc.length
  len : zm.len = cap
  fits : acc.length ≤ cap
  cursor : ∃ j < zm.bsdMbuf.length, zm.bsdMbufOff = some j ∧
    (∀ mb ∈ zm.bsdMbuf.drop (j + 1), mb.mLen = 0) ∧ cap ≤ acc.length + room (zm.bsdMbuf.drop j)

section Step

variable {zm : ZcMbuf} {len : Nat} {acc : List UInt8} {w : Write}

theorem ZcMbuf.Inv.holds (h : zm.Inv len acc) : zm.Holds acc := by
  have hlens : ((zm.bsdMbuf.map Zbuf.mLen).sum : Int) = zm.off := by
    rw [h.off, ← h.bytes, ZcMbuf.bytes, length_chainBytes]
  have hfits := h.fits
  obtain ⟨j, -, hj, -⟩ := h.cursor
  refine ⟨h.bytes, h.off, hlens, ?_, ?_, ?_⟩
  · rw [h.off]
    exact Int.natCast_nonneg _
  · rw [h.off, h.len]
    exact Int.ofNat_le.mpr hfits
  · rw [hj]
    exact Option.some_ne_none j

theorem intAdd_of_lt {m n : Nat} (h : m + n < 2 ^ 31) : intAdd m n = (m + n : Nat) := by
  simp only [intAdd, Int.bmod_def]
  split <;> omega

theorem intAdd_wraps {m n : Nat} (hm : m < 2 ^ 31) (hn : n < 2 ^ 31) (h : 2 ^ 31 ≤ m + n) :
    intAdd m n < 0 := by
  simp only [intAdd, Int.bmod_def]
  split <;> omega

/-- A piece that does not fit is rejected. -/
theorem ZcMbuf.Inv.rejects (h : zm.Inv len acc) (hint : acc.length + w.len < 2 ^ 31)
    (hbig : len < acc.length + w.len) : zm.write w = (-1, zm) := by
  have hgt : intAdd zm.off w.len > zm.len := by
    rw [h.off, h.len, intAdd_of_lt hint]
    exact Int.ofNat_lt.mpr hbig
  rw [ZcMbuf.write, lazybsdZcMbufWrite, if_pos hgt]

/-- A piece that fits is put behind the others. -/
theorem ZcMbuf.Inv.accepts (h : zm.Inv len acc) (hlen : len < 2 ^ 31)
    (hfits : acc.length + w.len ≤ len) :
    (zm.write w).1 = w.len ∧ (zm.write w).2.Inv len (acc ++ w.bytes) := by
  obtain ⟨j, hj, hcursor, htail, hroom⟩ := h.cursor
  have hsum : intAdd zm.off w.len = (acc.length + w.len : Nat) := by
    rw [h.off, intAdd_of_lt (by omega)]
  have hle : ¬ intAdd zm.off w.len > zm.len := by
    rw [hsum, h.len]
    exact Int.not_lt.mpr (Int.ofNat_le.mpr hfits)
  obtain ⟨mb, rest, hdrop⟩ : ∃ mb rest, zm.bsdMbuf.drop j = mb :: rest :=
    ⟨_, _, List.drop_eq_getElem_cons hj⟩
  have hrest : zm.bsdMbuf.drop (j + 1) = rest := by
    rw [← List.drop_drop, hdrop, List.drop_one]
    rfl
  rw [hrest] at htail
  rw [hdrop] at hroom
  have hloop : Filled j (mb :: rest) (piece w.data 0 (w.len - 0)) zm.byte
      (writeLoop w.data w.len j (mb :: rest) 0 zm.byte) :=
    writeLoop_filled (Nat.zero_le _) (by omega) htail
  have hwrite : zm.write w = ((w.len : Int), { zm with
      bsdMbuf := zm.bsdMbuf.take j ++ (writeLoop w.data w.len j (mb :: rest) 0 zm.byte).1
      bsdMbufOff := (writeLoop w.data w.len j (mb :: rest) 0 zm.byte).2.1
      off := intAdd zm.off w.len
      byte := (writeLoop w.data w.len j (mb :: rest) 0 zm.byte).2.2 }) := by
    simp only [ZcMbuf.write, lazybsdZcMbufWrite, if_neg hle, hcursor, hdrop]
  rw [hwrite]
  generalize writeLoop w.data w.len j (mb :: rest) 0 zm.byte = out at hloop
  obtain ⟨hbytes, ⟨k, hk, hout, hempty, hleft⟩, hbefore⟩ := hloop
  have hlength : (zm.bsdMbuf.take j).length = j := List.length_take_of_le (Nat.le_of_lt hj)
  refine ⟨rfl, ?_, ?_, h.len, ?_, ?_⟩
  · -- the mbufs before the cursor are left alone
    have hold := h.bytes
    rw [ZcMbuf.bytes, ← List.take_append_drop j zm.bsdMbuf, hdrop, chainBytes_append, hlength,
      Nat.zero_add] at hold
    show chainBytes out.2.2 0 (zm.bsdMbuf.take j ++ out.1) = acc ++ w.bytes
    rw [chainBytes_append, hlength, Nat.zero_add, hbytes, ← List.append_assoc, ← hold]
    congr 2
    apply chainBytes_congr
    intro p _ hp
    rw [hlength, Nat.zero_add] at hp
    exact hbefore p hp
  · show intAdd zm.off w.len = ((acc ++ w.bytes).length : Int)
    rw [hsum, List.length_append, Write.bytes, length_piece]
  · rw [List.length_append, Write.bytes, length_piece]
    exact hfits
  · have hdropped (n : Nat) : (zm.bsdMbuf.take j ++ out.1).drop (j + n) = out.1.drop n := by
      rw [List.drop_append, hlength, List.drop_eq_nil_of_le (by omega), List.nil_append,
        Nat.add_sub_cancel_left]
    refine ⟨j + k, ?_, hout, ?_, ?_⟩
    · show j + k < (zm.bsdMbuf.take j ++ out.1).length
      rw [List.length_append, hlength]
      omega
    · show ∀ mb ∈ (zm.bsdMbuf.take j ++ out.1).drop (j + k + 1), mb.mLen = 0
      rw [Nat.add_assoc, hdropped]
      exact hempty
    · show len ≤ (acc ++ w.bytes).length + room ((zm.bsdMbuf.take j ++ out.1).drop (j + k))
      rw [hdropped, List.length_append]
      rw [length_piece] at hleft
      rw [Write.bytes, length_piece]
      omega

/-- A piece with which the sum passes `INT_MAX` is let through, and `off` is negative after it. -/
theorem ZcMbuf.Inv.overflows (h : zm.Inv len acc) (hlen : len < 2 ^ 31)
    (hbig : 2 ^ 31 ≤ acc.length + w.len) :
    (zm.write w).1 = w.len ∧ (zm.write w).2.off < 0 := by
  have hfits := h.fits
  have hneg : intAdd zm.off w.len < 0 := by
    rw [h.off]
    exact intAdd_wraps (by omega) w.isInt hbig
  have hle : ¬ intAdd zm.off w.len > zm.len := by
    rw [h.len]
    omega
  rw [ZcMbuf.write, lazybsdZcMbufWrite, if_neg hle]
  split
  · exact ⟨rfl, hneg⟩
  · exact ⟨rfl, hneg⟩

end Step

/-! ## Runs -/

/-- From `zm` on, which holds `acc`, each call is rejected and changes nothing, or it returns its length
and puts its bytes behind the others. -/
def Appends (zm : ZcMbuf) (acc : List UInt8) : List Write → Prop
  | [] => zm.Holds acc
  | w :: ws => zm.Holds acc ∧
      (((zm.write w).1 = -1 ∧ (zm.write w).2 = zm ∧ Appends zm acc ws) ∨
        ((zm.write w).1 = w.len ∧ Appends (zm.write w).2 (acc ++ w.bytes) ws))

/-- No call makes the sum of `off` and its length pass `INT_MAX`; `total` is the sum of the lengths
accepted so far. -/
def InRange (len : Nat) (total : Nat) : List Write → Prop
  | [] => True
  | w :: ws => total + w.len < 2 ^ 31 ∧
      InRange len (if total + w.len ≤ len then total + w.len else total) ws

/-- `m_getm2`: a chain of empty mbufs with the room that was asked for. -/
structure MGetm2 where
  alloc : Nat → Option (List Zbuf)
  empty : ∀ n mbufs, alloc n = some mbufs → ∀ mb ∈ mbufs, mb.mLen = 0
  enough : ∀ n mbufs, alloc n = some mbufs → n ≤ room mbufs

section Run

variable {zm : ZcMbuf} {len : Nat} {acc : List UInt8} {byte : Contents Nat}

theorem lazybsdZcMbufGet_inv (mGetm2 : MGetm2)
    (h : lazybsdZcMbufGet mGetm2.alloc byte len = some zm) : zm.Inv len [] := by
  obtain ⟨mbufs, hmbufs, rfl⟩ := Option.map_eq_some_iff.mp h
  have hempty := mGetm2.empty _ _ hmbufs
  have henough := mGetm2.enough _ _ hmbufs
  refine ⟨chainBytes_of_empty hempty, rfl, rfl, Nat.zero_le _, 0, ?_, rfl, ?_, ?_⟩
  · -- room for one byte at least is in some mbuf
    show 0 < mbufs.length
    cases mbufs with
    | nil =>
        change max len 1 ≤ 0 at henough
        omega
    | cons mb rest => exact Nat.zero_lt_succ _
  · intro mb hmb
    exact hempty mb (List.mem_of_mem_drop hmb)
  · show len ≤ 0 + room mbufs
    omega

theorem appends_iff (ws : List Write) (hlen : len < 2 ^ 31) (h : zm.Inv len acc) :
    Appends zm acc ws ↔ InRange len acc.length ws := by
  induction ws generalizing zm acc with
  | nil => exact iff_of_true h.holds trivial
  | cons w ws ih =>
      rw [Appends, InRange]
      by_cases hint : acc.length + w.len < 2 ^ 31
      · rw [and_iff_right h.holds, and_iff_right hint]
        by_cases hfits : acc.length + w.len ≤ len
        · obtain ⟨hret, hinv⟩ := h.accepts hlen hfits
          have hlength : (acc ++ w.bytes).length = acc.length + w.len := by
            rw [List.length_append, Write.bytes, length_piece]
          rw [if_pos hfits, ← hlength, ← ih hinv]
          constructor
          · rintro (⟨hrejected, -⟩ | ⟨-, hrest⟩)
            · rw [hret] at hrejected
              omega
            · exact hrest
          · intro hrest
            exact .inr ⟨hret, hrest⟩
        · rw [if_neg hfits, ← ih h, h.rejects hint (Nat.lt_of_not_le hfits)]
          constructor
          · rintro (⟨-, -, hrest⟩ | ⟨haccepted, -⟩)
            · exact hrest
            · change -1 = (w.len : Int) at haccepted
              omega
          · intro hrest
            exact .inl ⟨rfl, rfl, hrest⟩
      · apply iff_of_false
        · obtain ⟨hret, hneg⟩ := h.overflows hlen (Nat.le_of_not_lt hint)
          rintro ⟨-, ⟨hrejected, -⟩ | ⟨-, hrest⟩⟩
          · rw [hret] at hrejected
            omega
          · have hholds : (zm.write w).2.Holds (acc ++ w.bytes) := by
              cases ws with
              | nil => exact hrest
              | cons w' ws => exact hrest.1
            exact absurd hholds.nonneg (Int.not_le.mpr hneg)
        · rintro ⟨hlt, -⟩
          exact hint hlt

/-- Every call of a run does what it should exactly as long as no sum passes `INT_MAX`. -/
theorem zc_writes_append_iff (mGetm2 : MGetm2) (byte : Contents Nat) (len : Nat) (zm : ZcMbuf)
    (ws : List Write) (hlen : len < 2 ^ 31)
    (hget : lazybsdZcMbufGet mGetm2.alloc byte len = some zm) :
    Appends zm [] ws ↔ InRange len 0 ws :=
  appends_iff ws hlen (lazybsdZcMbufGet_inv mGetm2 hget)

end Run

/-! ## Buffers of four and of eight bytes -/

/-- An allocator that returns one mbuf of the size it is asked for. -/
def oneMbuf : MGetm2 where
  alloc n := some [⟨0, n, Nat.zero_le n⟩]
  empty := by
    rintro n mbufs hmbufs mb hmb
    obtain rfl := Option.some.inj hmbufs
    rw [List.mem_singleton.mp hmb]
  enough := by
    rintro n mbufs hmbufs
    obtain rfl := Option.some.inj hmbufs
    show n ≤ n - 0 + 0
    omega

def fourBytes : ZcMbuf where
  bsdMbuf := [⟨0, 4, Nat.zero_le 4⟩]
  bsdMbufOff := some 0
  off := 0
  len := 4
  byte := fun _ => 0

/-- An allocator that returns a chain of mbufs of three bytes. -/
def threeEach : MGetm2 where
  alloc n := some (List.replicate (n / 3 + 1) ⟨0, 3, Nat.zero_le 3⟩)
  empty := by
    rintro n mbufs hmbufs mb hmb
    obtain rfl := Option.some.inj hmbufs
    rw [List.eq_of_mem_replicate hmb]
  enough := by
    rintro n mbufs hmbufs
    obtain rfl := Option.some.inj hmbufs
    rw [room, List.map_replicate, List.sum_replicate_nat]
    show n ≤ (n / 3 + 1) * 3
    omega

/-- Eight bytes in a chain of three mbufs. -/
def eightBytes : ZcMbuf where
  bsdMbuf := List.replicate 3 ⟨0, 3, Nat.zero_le 3⟩
  bsdMbufOff := some 0
  off := 0
  len := 8
  byte := fun _ => 0

/-- Two bytes, then five that go over three mbufs, then two that do not fit, then none, then the last
one. -/
theorem zc_writes_append_to_the_end :
    Appends eightBytes [] [⟨fun _ => 65, 2, by decide⟩, ⟨fun _ => 66, 5, by decide⟩,
      ⟨fun _ => 67, 2, by decide⟩, ⟨fun _ => 68, 0, by decide⟩, ⟨fun _ => 69, 1, by decide⟩] := by
  apply (zc_writes_append_iff threeEach (fun _ => 0) 8 eightBytes _ (by decide) rfl).mpr
  exact ⟨by decide, by decide, by decide, by decide, by decide, trivial⟩

/-- One byte, and then a piece of `INT_MAX` bytes. -/
theorem zc_write_overflows :
    ¬ Appends fourBytes [] [⟨fun _ => 65, 1, by decide⟩, ⟨fun _ => 66, 2 ^ 31 - 1, by decide⟩] := by
  have hget : lazybsdZcMbufGet oneMbuf.alloc (fun _ => 0) 4 = some fourBytes := rfl
  rw [appends_iff _ (by decide) (lazybsdZcMbufGet_inv oneMbuf hget)]
  rintro ⟨-, hlt, -⟩
  exact absurd hlt (by decide)

end LazyBsd.Zerocopy
