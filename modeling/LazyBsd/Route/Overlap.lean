/-
# LazyBsd.Route.Overlap — a message that is stored over the addresses that it repeats.

The reply to a request is built in the buffer of the request, and slots of it may point into that buffer.
An address that lies further ahead there than its copy is overwritten, in part at least, by the copies of
the addresses before it, and only then read. `Kept` says of the slots and of the block, before anything is
stored, that this does no harm: the copies put the bytes there that are there already. Then the turns of the
loop store exactly the copies (`turns_pieces`). `LengthsKept` is what is needed of the lengths alone.
-/
import LazyBsd.Route.Parse

namespace LazyBsd.Route

open Lib

/-! ## The copies -/

/-- The copies of the addresses in the slots `is`, as they are in `b`. -/
def pieces (sc : Scope6) (stack : Bytes) (slots : RtInfo) (b : Bytes) (is : List Nat) : List Piece :=
  is.filterMap fun i => (slots i).map fun sa => ⟨i, encoded sc stack b sa⟩

/-- Their bytes, one copy behind the other. -/
def copies (sc : Scope6) (stack : Bytes) (slots : RtInfo) (b : Bytes) (is : List Nat) : List UInt8 :=
  lay (pieces sc stack slots b is)

/-- The place of the copy of slot `i`. -/
def placeOf (slots : RtInfo) (b : Bytes) (i : Nat) : Nat := rtMsghdrSize + roomFor slots b (List.range i)

/-- How many bytes of a sockaddr its copy is made of: a sockaddr_in6 goes through a variable of 28 bytes. -/
def SaRef.span (b : Bytes) (sa : SaRef) : Nat :=
  if sa.family b = afInet6 then max 28 (saSize (sa.len b)) else saSize (sa.len b)

/-- What a turn stores, as a piece of the message. -/
def Turn.piece (sc : Scope6) (stack : Bytes) (t : Turn) : Piece := ⟨t.slot, t.stored sc stack⟩

section Copies

variable {sc : Scope6} {stack b b' : Bytes} {slots : RtInfo} {i : Nat} {is js : List Nat} {sa : SaRef}

theorem lay_pieces (ts : List Turn) : lay (ts.map (Turn.piece sc stack)) = storage sc stack ts := by
  rw [lay, storage, List.flatMap_map]
  rfl

theorem pieces_empty (hi : slots i = none) (is : List Nat) :
    pieces sc stack slots b (i :: is) = pieces sc stack slots b is := by
  rw [pieces, List.filterMap_cons, hi]
  rfl

theorem pieces_cons (hi : slots i = some sa) (is : List Nat) :
    pieces sc stack slots b (i :: is) = ⟨i, encoded sc stack b sa⟩ :: pieces sc stack slots b is := by
  rw [pieces, List.filterMap_cons, hi]
  rfl

theorem mem_pieces {x : Piece} (hx : x ∈ pieces sc stack slots b is) :
    ∃ i ∈ is, ∃ sa, slots i = some sa ∧ x = ⟨i, encoded sc stack b sa⟩ := by
  obtain ⟨i, hi, hslot⟩ := List.mem_filterMap.mp hx
  obtain ⟨sa, hsa, rfl⟩ := Option.map_eq_some_iff.mp hslot
  exact ⟨i, hi, sa, hsa, rfl⟩

theorem pieces_slots : (pieces sc stack slots b is).map Piece.slot = present slots is := by
  induction is with
  | nil => rfl
  | cons i is ih =>
    cases hi : slots i with
    | none => rw [pieces_empty hi, present_empty hi, ih]
    | some sa => rw [pieces_cons hi, present_cons hi, List.map_cons, ih]

theorem copies_append : copies sc stack slots b (is ++ js) =
    copies sc stack slots b is ++ copies sc stack slots b js := by
  rw [copies, pieces, List.filterMap_append, lay_append]
  rfl

theorem roomFor_append : roomFor slots b (is ++ js) = roomFor slots b is + roomFor slots b js := by
  induction is with
  | nil => exact (Nat.zero_add _).symm
  | cons i is ih =>
    rw [List.cons_append]
    cases hi : slots i with
    | none => rw [roomFor_empty hi, roomFor_empty hi, ih]
    | some sa => rw [roomFor_cons hi, roomFor_cons hi, ih, Nat.add_assoc]

variable (sc stack slots b) in
@[simp] theorem length_copies (is : List Nat) :
    (copies sc stack slots b is).length = roomFor slots b is := by
  induction is with
  | nil => rfl
  | cons i is ih =>
    rw [copies] at ih ⊢
    cases hi : slots i with
    | none => rw [pieces_empty hi, roomFor_empty hi, ih]
    | some sa => rw [pieces_cons hi, roomFor_cons hi, lay_cons, List.length_append, ih, encoded_length]

theorem SaRef.saSize_le_span : saSize (sa.len b) ≤ sa.span b := by
  rw [span]
  split
  · exact Nat.le_max_right _ _
  · exact Nat.le_refl _

/-- A copy depends on those bytes only. -/
theorem encoded_congr {sa' : SaRef} (h : ∀ k < sa.span b, sa'.byte b' k = sa.byte b k) :
    encoded sc stack b' sa' = encoded sc stack b sa := by
  have hsize := (saSize_spec (sa.len b)).2.1
  have hspan : saSize (sa.len b) ≤ sa.span b := SaRef.saSize_le_span
  have hlen : sa'.len b' = sa.len b := h 0 (by omega)
  have hfamily : sa'.family b' = sa.family b := h 1 (by omega)
  have hbytes (n : Nat) (hn : n ≤ sa.span b) : sa'.bytes b' n = sa.bytes b n := by
    apply Block.read_congr
    intro k hk
    rw [Nat.zero_add]
    exact h k (Nat.lt_of_lt_of_le hk hn)
  unfold encoded
  rw [hlen, hfamily]
  dsimp only
  split
  case _ hin6 =>
    have h28 : 28 ≤ sa.span b := by
      rw [SaRef.span, if_pos hin6]
      exact Nat.le_max_left _ _
    rw [hbytes 28 h28, hbytes _ hspan]
  case _ => exact hbytes _ hspan

/-- A slot and those before and behind it. -/
theorem eq_range_of_append {n : Nat} {pre : List Nat} (h : pre ++ i :: is = List.range n) :
    pre = List.range i ∧ i < n := by
  have hlen := congrArg List.length h
  rw [List.length_append, List.length_cons, List.length_range] at hlen
  have hpre : pre = List.range pre.length := by
    have htake := congrArg (List.take pre.length) h
    rwa [List.take_left', List.take_range, Nat.min_eq_left (by omega)] at htake
    rfl
  have hi : i = pre.length := by
    have hget := congrArg (·[pre.length]?) h
    simpa [show pre.length < n by omega] using hget
  rw [← hi] at hpre
  exact ⟨hpre, by omega⟩

/-- Storing one copy more. -/
theorem write_copies_succ (hi : slots i = some sa) (pre : List Nat) :
    Block.write (Block.write b' rtMsghdrSize (copies sc stack slots b pre))
        (rtMsghdrSize + roomFor slots b pre) (encoded sc stack b sa) =
      Block.write b' rtMsghdrSize (copies sc stack slots b (pre ++ [i])) := by
  have hlast : copies sc stack slots b [i] = encoded sc stack b sa := by
    rw [copies, pieces_cons hi]
    exact (lay_cons _ _).trans (List.append_nil _)
  rw [copies_append, hlast, ← Block.write_append, length_copies]

theorem roomFor_succ (hi : slots i = some sa) (pre : List Nat) :
    roomFor slots b (pre ++ [i]) = roomFor slots b pre + saSize (sa.len b) := by
  rw [roomFor_append, roomFor_cons hi]
  rfl

/-- An empty slot takes no room and has no copy. -/
theorem roomFor_skip (hi : slots i = none) (pre : List Nat) :
    roomFor slots b (pre ++ [i]) = roomFor slots b pre := by
  rw [roomFor_append, roomFor_empty hi]
  rfl

theorem copies_skip (hi : slots i = none) (pre : List Nat) :
    copies sc stack slots b (pre ++ [i]) = copies sc stack slots b pre := by
  rw [copies_append, copies, copies, pieces_empty hi]
  exact List.append_nil _

theorem placeOf_succ (hi : slots i = some sa) :
    placeOf slots b (i + 1) = placeOf slots b i + saSize (sa.len b) := by
  rw [placeOf, List.range_succ, roomFor_succ hi, placeOf, Nat.add_assoc]

theorem placeOf_skip (hi : slots i = none) : placeOf slots b (i + 1) = placeOf slots b i := by
  rw [placeOf, List.range_succ, roomFor_skip hi, placeOf]

end Copies

/-! ## Addresses that are still there -/

/-- **The copies of the addresses before it change no byte of an address** that lies in the message, and
none of the bytes behind it that are copied with it. -/
def Kept (sc : Scope6) (stack : Bytes) (slots : RtInfo) (b : Bytes) : Prop :=
  ∀ i < rtaxMax, ∀ off, slots i = some (.msg off) → ∀ k < (SaRef.msg off).span b,
    Block.write b rtMsghdrSize (copies sc stack slots b (List.range i)) (off + k) = b (off + k)

instance (sc : Scope6) (stack : Bytes) (slots : RtInfo) (b : Bytes) : Decidable (Kept sc stack slots b) :=
  decidable_of_iff (∀ i < rtaxMax, ∀ sa ∈ slots i, ∀ k < sa.span b,
      sa.byte (Block.write b rtMsghdrSize (copies sc stack slots b (List.range i))) k = sa.byte b k) (by
    constructor
    · exact fun h i hi off hslot k hk => h i hi _ hslot k hk
    · intro h i hi sa hslot k hk
      cases sa with
      | ext f => rfl
      | msg off => exact h i hi off hslot k hk)

/-- No copy reaches an address of the message before its turn: the address lies where its own copy begins,
or behind. -/
def Unreached (slots : RtInfo) (b : Bytes) : Prop :=
  ∀ i < rtaxMax, ∀ off, slots i = some (.msg off) → placeOf slots b i ≤ off

/-- It lies from `p` on, if it lies in the message. -/
def SaRef.IsFrom (p : Nat) : SaRef → Prop
  | .ext _ => True
  | .msg off => p ≤ off

instance (p : Nat) : DecidablePred (SaRef.IsFrom p)
  | .ext _ => inferInstanceAs (Decidable True)
  | .msg off => inferInstanceAs (Decidable (p ≤ off))

instance (slots : RtInfo) (b : Bytes) : Decidable (Unreached slots b) :=
  decidable_of_iff (∀ i < rtaxMax, ∀ sa ∈ slots i, sa.IsFrom (placeOf slots b i)) (by
    constructor
    · exact fun h i hi off hslot => h i hi _ hslot
    · intro h i hi sa hslot
      cases sa with
      | ext f => exact trivial
      | msg off => exact h i hi off hslot)

section Kept

variable {sc : Scope6} {stack b : Bytes} {slots : RtInfo}

/-- Nothing changes of an address that lies no further ahead than its copy. -/
theorem kept_of_unreached (h : Unreached slots b) : Kept sc stack slots b := by
  intro i hi off hslot k _
  have hplace := h i hi off hslot
  rw [placeOf] at hplace
  exact Block.write_after (by rw [length_copies]; omega)

theorem Kept.encoded_eq (h : Kept sc stack slots b) {i : Nat} (hi : i < rtaxMax) {sa : SaRef}
    (hslot : slots i = some sa) :
    encoded sc stack (Block.write b rtMsghdrSize (copies sc stack slots b (List.range i))) sa =
      encoded sc stack b sa := by
  apply encoded_congr
  intro k hk
  cases sa with
  | ext f => rfl
  | msg off => exact h i hi off hslot k hk

/-- **The turns of the loop store the copies.** -/
theorem turns_pieces (h : Kept sc stack slots b) : ∀ (is pre : List Nat),
    pre ++ is = List.range rtaxMax →
    (turns sc stack slots is (rtMsghdrSize + roomFor slots b pre)
        (Block.write b rtMsghdrSize (copies sc stack slots b pre))).map (Turn.piece sc stack) =
      pieces sc stack slots b is := by
  intro is
  induction is with
  | nil => exact fun _ _ => rfl
  | cons i is ih =>
    intro pre hsplit
    obtain ⟨hpre, hlt⟩ := eq_range_of_append hsplit
    have hrest := ih (pre ++ [i]) (by rw [List.append_assoc]; exact hsplit)
    rw [turns]
    cases hi : slots i with
    | none =>
      rw [copies_skip hi, roomFor_skip hi] at hrest
      rw [pieces_empty hi]
      exact hrest
    | some sa =>
      have hcopy := h.encoded_eq hlt hi
      rw [← hpre] at hcopy
      have hlen : saSize (sa.len (Block.write b rtMsghdrSize (copies sc stack slots b pre))) =
          saSize (sa.len b) := by
        have hlength := congrArg List.length hcopy
        rwa [encoded_length, encoded_length] at hlength
      rw [pieces_cons hi]
      simp only [List.map_cons]
      rw [hlen, hcopy, write_copies_succ hi, Nat.add_assoc, ← roomFor_succ hi, hrest]
      refine congrArg (· :: _) ?_
      rw [Turn.piece, Turn.stored, hcopy]

theorem Kept.storage_eq (h : Kept sc stack slots b) :
    storage sc stack (turns sc stack slots (List.range rtaxMax) rtMsghdrSize b) =
      copies sc stack slots b (List.range rtaxMax) := by
  have hpieces := turns_pieces h (List.range rtaxMax) [] rfl
  have hnone : Block.write b rtMsghdrSize (copies sc stack slots b []) = b := Block.write_nil
  rw [hnone] at hpieces
  rw [← lay_pieces, copies, ← hpieces]
  rfl

end Kept

/-! ## Lengths that are still there -/

/-- The copy of slot `j`, an address outside the message, has the byte `v` at the place `q`. -/
def PutsAt (sc : Scope6) (stack : Bytes) (slots : RtInfo) (b : Bytes) (j q : Nat) (v : UInt8) : Prop :=
  ∃ f, slots j = some (.ext f) ∧ placeOf slots b j ≤ q ∧
    (encoded sc stack b (.ext f))[q - placeOf slots b j]? = some v

/-- **The length of an address in the message is not changed by the copies before it**: the address lies no
further ahead than its copy, or one of outside the message puts the same byte there. -/
def LengthsKept (sc : Scope6) (stack : Bytes) (slots : RtInfo) (b : Bytes) : Prop :=
  ∀ i < rtaxMax, ∀ off, slots i = some (.msg off) →
    placeOf slots b i ≤ off ∨ ∃ j < i, PutsAt sc stack slots b j off (b off)

section Lengths

variable {sc : Scope6} {stack b : Bytes} {slots : RtInfo}

theorem roomFor_range_mono {j i : Nat} (h : j ≤ i) :
    roomFor slots b (List.range j) ≤ roomFor slots b (List.range i) := by
  obtain ⟨n, rfl⟩ := Nat.exists_eq_add_of_le h
  rw [List.range_add, roomFor_append]
  exact Nat.le_add_right _ _

/-- A copy lies before the places of the slots behind it. -/
theorem PutsAt.lt {j q i : Nat} {v : UInt8} (h : PutsAt sc stack slots b j q v) (hj : j < i) :
    q < placeOf slots b i := by
  obtain ⟨f, hf, hle, hbyte⟩ := h
  obtain ⟨hlt, -⟩ := List.getElem?_eq_some_iff.mp hbyte
  rw [encoded_length] at hlt
  have hmono : roomFor slots b (List.range (j + 1)) ≤ roomFor slots b (List.range i) :=
    roomFor_range_mono hj
  rw [List.range_succ, roomFor_succ hf] at hmono
  rw [placeOf] at hle hlt ⊢
  omega

/-- The block `b'` at the turn of slot `i`: behind its place nothing has been stored, and before it lie the
copies of the addresses outside the message. -/
structure StoredTo (sc : Scope6) (stack : Bytes) (slots : RtInfo) (b : Bytes) (i : Nat) (b' : Bytes) :
    Prop where
  behind : ∀ q, placeOf slots b i ≤ q → b' q = b q
  copies : ∀ j < i, ∀ q v, PutsAt sc stack slots b j q v → b' q = v

/-- A turn finds the length of its address, and stores it. -/
theorem StoredTo.turn (h : LengthsKept sc stack slots b) {i : Nat} (hi : i < rtaxMax) {b' : Bytes}
    (hb : StoredTo sc stack slots b i b') {sa : SaRef} (hslot : slots i = some sa) :
    sa.len b' = sa.len b ∧ placeOf slots b (i + 1) = placeOf slots b i + saSize (sa.len b) ∧
      StoredTo sc stack slots b (i + 1)
        (Block.write b' (placeOf slots b i) (encoded sc stack b' sa)) := by
  have hlen : sa.len b' = sa.len b := by
    cases sa with
    | ext f => rfl
    | msg off =>
      rcases h i hi off hslot with hunreached | ⟨j, hj, hputs⟩
      · exact hb.behind off hunreached
      · exact hb.copies j hj off _ hputs
  have hplace : placeOf slots b (i + 1) = placeOf slots b i + saSize (sa.len b) := placeOf_succ hslot
  have hsize : (encoded sc stack b' sa).length = saSize (sa.len b) := by rw [encoded_length, hlen]
  refine ⟨hlen, hplace, ⟨fun q hq => ?_, fun j hj q v hputs => ?_⟩⟩
  · rw [hplace] at hq
    rw [Block.write_after (by rw [hsize]; exact hq)]
    exact hb.behind q (by omega)
  · rcases Nat.lt_succ_iff_lt_or_eq.mp hj with hold | rfl
    · rw [Block.write_before (hputs.lt hold)]
      exact hb.copies j hold q v hputs
    · -- the copy that was stored just now
      obtain ⟨f, hf, hle, hbyte⟩ := hputs
      obtain rfl := Option.some.inj (hslot.symm.trans hf)
      obtain ⟨k, rfl⟩ := Nat.exists_eq_add_of_le hle
      have hsame : encoded sc stack b' (.ext f) = encoded sc stack b (.ext f) :=
        encoded_congr fun _ _ => rfl
      rw [Nat.add_sub_cancel_left, ← hsame] at hbyte
      obtain ⟨hlt, hget⟩ := List.getElem?_eq_some_iff.mp hbyte
      rw [Block.write_at b' _ _ hlt, hget]

/-- An empty slot stores nothing. -/
theorem StoredTo.skip {i : Nat} {b' : Bytes} (hb : StoredTo sc stack slots b i b') (hi : slots i = none) :
    StoredTo sc stack slots b (i + 1) b' := by
  refine ⟨fun q hq => hb.behind q ?_, fun j hj q v hputs => ?_⟩
  · rwa [placeOf_skip hi] at hq
  · rcases Nat.lt_succ_iff_lt_or_eq.mp hj with hold | rfl
    · exact hb.copies j hold q v hputs
    · obtain ⟨f, hf, -⟩ := hputs
      rw [hi] at hf
      cases hf

end Lengths

/-! ## The copies read back -/

/-- The copy of a sockaddr as a piece of the message. -/
abbrev SaRef.copy (sc : Scope6) (stack b : Bytes) (i : Nat) (sa : SaRef) : Piece := ⟨i, encoded sc stack b sa⟩

/-- **The sockaddrs of family AF_INET6 come back.** Each one is what it was when its scope has been recovered
for the copy and embedded again in the message `m`; and where its copy is shorter than the 28 bytes that
`sa6_embedscope` works on, that function finds nothing to embed there. -/
structure ScopesReturn (sc : Scope6) (stack : Bytes) (slots : RtInfo) (b m : Bytes) : Prop where
  parsed : ∀ i < rtaxMax, ∀ sa, slots i = some sa → sa.family b = afInet6 →
    (sa.copy sc stack b i).parsed sc = sa.contents b
  short : ∀ i < rtaxMax, ∀ sa, slots i = some sa → sa.family b = afInet6 → saSize (sa.len b) < 28 →
    sc.embedscope (Block.read m (placeOf slots b i) 28) = Block.read m (placeOf slots b i) 28

instance (sc : Scope6) (stack : Bytes) (slots : RtInfo) (b m : Bytes) :
    Decidable (ScopesReturn sc stack slots b m) :=
  decidable_of_iff (∀ i < rtaxMax, ∀ sa ∈ slots i, sa.family b = afInet6 →
      (sa.copy sc stack b i).parsed sc = sa.contents b ∧ (saSize (sa.len b) < 28 →
        sc.embedscope (Block.read m (placeOf slots b i) 28) = Block.read m (placeOf slots b i) 28))
    ⟨fun h => ⟨fun i hi sa hsa hfamily => (h i hi sa hsa hfamily).1,
      fun i hi sa hsa hfamily => (h i hi sa hsa hfamily).2⟩,
    fun h i hi sa hsa hfamily => ⟨h.parsed i hi sa hsa hfamily, h.short i hi sa hsa hfamily⟩⟩

section Read

variable {sc : Scope6} {stack b b' : Bytes} {slots : RtInfo} {i : Nat} {is : List Nat} {sa : SaRef}

theorem copy_mem_pieces (hi : i ∈ is) (hsa : slots i = some sa) :
    sa.copy sc stack b i ∈ pieces sc stack slots b is :=
  List.mem_filterMap.mpr ⟨i, hi, by rw [hsa]; rfl⟩

@[simp] theorem SaRef.copy_len : (sa.copy sc stack b i).len = sa.len b := by
  have hhead := (encoded_head sc stack b sa).1
  rw [Piece.len, List.getD_eq_getElem?_getD]
  exact congrArg (Option.getD · 0) hhead

@[simp] theorem SaRef.copy_family : (sa.copy sc stack b i).family = sa.family b := by
  have hhead := (encoded_head sc stack b sa).2
  rw [Piece.family, List.getD_eq_getElem?_getD]
  exact congrArg (Option.getD · 0) hhead

theorem SaRef.copy_size : (sa.copy sc stack b i).bytes.length = saSize (sa.copy sc stack b i).len := by
  rw [copy_len]
  exact encoded_length

/-- Away from AF_INET6 a copy is read as what it is a copy of. -/
theorem SaRef.copy_parsed (hfamily : sa.family b ≠ afInet6) :
    (sa.copy sc stack b i).parsed sc = sa.contents b := by
  have hsize := (saSize_spec (sa.len b)).1
  rw [Piece.parsed, Piece.embedded, if_neg (by rw [copy_family]; exact fun h => hfamily h.1), copy_len]
  show (encoded sc stack b sa).take (sa.len b).toNat = _
  rw [encoded_of_family hfamily]
  exact Block.read_take hsize

theorem mem_present : i ∈ present slots (List.range rtaxMax) ↔ i < rtaxMax ∧ (slots i).isSome := by
  rw [present, List.mem_filter, List.mem_range]

/-- The copies can be read one after the other, in a message where short sockaddrs of family AF_INET6 have
nothing to embed. -/
theorem stand_pieces (h : ∀ i < rtaxMax, ∀ sa, slots i = some sa → sa.family b = afInet6 →
      saSize (sa.len b) < 28 →
      sc.embedscope (Block.read b' (placeOf slots b i) 28) = Block.read b' (placeOf slots b i) 28) :
    ∀ (is pre : List Nat), pre ++ is = List.range rtaxMax →
      Stand sc b' (rtMsghdrSize + roomFor slots b pre) (pieces sc stack slots b is) := by
  intro is
  induction is with
  | nil => exact fun _ _ => trivial
  | cons i is ih =>
    intro pre hsplit
    obtain ⟨hpre, hlt⟩ := eq_range_of_append hsplit
    have hrest := ih (pre ++ [i]) (by rw [List.append_assoc]; exact hsplit)
    cases hi : slots i with
    | none =>
      rw [roomFor_skip hi] at hrest
      rw [pieces_empty hi]
      exact hrest
    | some sa =>
      have hsize : (encoded sc stack b sa).length = saSize (sa.len b) := encoded_length
      rw [roomFor_succ hi, ← Nat.add_assoc, ← hsize] at hrest
      rw [pieces_cons hi]
      refine ⟨⟨SaRef.copy_size, fun hfamily => ?_⟩, hrest⟩
      rw [SaRef.copy_family] at hfamily
      rcases Nat.lt_or_ge (saSize (sa.len b)) 28 with hshort | hcomplete
      · rw [hpre]
        exact .inr (h i hlt sa hi hfamily hshort)
      · exact .inl (by rw [encoded_length]; exact hcomplete)

/-- **`rt_xaddrs` reads the pieces of the slots back**, in a message that names these slots. -/
theorem rtXaddrs_pieces {xs : List Piece} (hslots : xs.map Piece.slot = present slots (List.range rtaxMax))
    {addrs : UInt32} (haddrs : ∀ j, hasAddr addrs j = decide (j ∈ present slots (List.range rtaxMax)))
    (hlies : LiesAt b' rtMsghdrSize (lay xs)) (hstand : Stand sc b' rtMsghdrSize xs)
    (hlen : ∀ x ∈ xs, x.len ≠ 0) {cplim : Nat} (hend : cplim = rtMsghdrSize + (lay xs).length) :
    let r := rtXaddrs sc cplim addrs (List.range rtaxMax) rtMsghdrSize (fun _ => none) b'
    r.1 = true ∧ (∀ i, i ∉ present slots (List.range rtaxMax) → r.2.1 i = none) ∧
      ∀ x ∈ xs, ∃ off, r.2.1 x.slot = some (.msg off) ∧ (SaRef.msg off).contents r.2.2 = x.parsed sc := by
  have hfilter : xs.map Piece.slot = (List.range rtaxMax).filter (hasAddr addrs) := by
    rw [hslots]
    apply List.filter_congr
    intro i hi
    rw [haddrs, present]
    simp [hi]
  obtain ⟨hok, -, hother, hfound⟩ := rtXaddrs_laid (List.range rtaxMax) xs rtMsghdrSize (fun _ => none) b'
    List.nodup_range hfilter hlies hstand hlen hend
  exact ⟨hok, fun i hi => hother i (by rwa [hslots]), hfound⟩

end Read

/-! ## Slots seen from another block -/

/-- The slots hold sockaddrs with the same bytes. -/
def SameBytes (slots' : RtInfo) (b' : Bytes) (slots : RtInfo) (b : Bytes) : Prop :=
  ∀ i, (slots' i).map (SaRef.byte b') = (slots i).map (SaRef.byte b)

namespace SameBytes

variable {sc : Scope6} {stack b b' m : Bytes} {slots slots' : RtInfo} {i : Nat} {sa : SaRef}

theorem symm (h : SameBytes slots' b' slots b) : SameBytes slots b slots' b' := fun i => (h i).symm

theorem of_some (h : SameBytes slots' b' slots b) (hsa : slots i = some sa) :
    ∃ sa', slots' i = some sa' ∧ sa'.byte b' = sa.byte b := by
  have hi := h i
  rw [hsa, Option.map_some, Option.map_eq_some_iff] at hi
  exact hi

theorem of_none (h : SameBytes slots' b' slots b) (hi : slots i = none) : slots' i = none := by
  have hmap := h i
  rw [hi, Option.map_none, Option.map_eq_none_iff] at hmap
  exact hmap

theorem roomFor_eq (h : SameBytes slots' b' slots b) (is : List Nat) :
    roomFor slots' b' is = roomFor slots b is := by
  induction is with
  | nil => rfl
  | cons i is ih =>
    cases hi : slots i with
    | none => rw [roomFor_empty hi, roomFor_empty (h.of_none hi), ih]
    | some sa =>
      obtain ⟨sa', hsa', hbyte⟩ := h.of_some hi
      have hlen : sa'.len b' = sa.len b := congrFun hbyte 0
      rw [roomFor_cons hi, roomFor_cons hsa', ih, hlen]

theorem pieces_eq (h : SameBytes slots' b' slots b) (is : List Nat) :
    pieces sc stack slots' b' is = pieces sc stack slots b is := by
  induction is with
  | nil => rfl
  | cons i is ih =>
    cases hi : slots i with
    | none => rw [pieces_empty hi, pieces_empty (h.of_none hi), ih]
    | some sa =>
      obtain ⟨sa', hsa', hbyte⟩ := h.of_some hi
      have hcopy : encoded sc stack b' sa' = encoded sc stack b sa :=
        encoded_congr fun k _ => congrFun hbyte k
      rw [pieces_cons hi, pieces_cons hsa', ih, hcopy]

theorem placeOf_eq (h : SameBytes slots' b' slots b) (i : Nat) : placeOf slots' b' i = placeOf slots b i := by
  rw [placeOf, placeOf, h.roomFor_eq]

/-- The scopes return in both or in none. -/
theorem scopesReturn (h : SameBytes slots' b' slots b) (hs : ScopesReturn sc stack slots b m) :
    ScopesReturn sc stack slots' b' m := by
  have hsame {i : Nat} {sa' : SaRef} (hsa' : slots' i = some sa') :
      ∃ sa, slots i = some sa ∧ sa.len b = sa'.len b' ∧ sa.family b = sa'.family b' ∧
        sa.contents b = sa'.contents b' ∧ sa.copy sc stack b i = sa'.copy sc stack b' i := by
    obtain ⟨sa, hsa, hbyte⟩ := h.symm.of_some hsa'
    refine ⟨sa, hsa, congrFun hbyte 0, congrFun hbyte 1, ?_, ?_⟩
    · rw [SaRef.contents, SaRef.bytes, SaRef.len, hbyte]
      rfl
    · exact congrArg (Piece.mk i) (encoded_congr fun k _ => congrFun hbyte k)
  constructor
  · intro i hi sa' hsa' hfamily
    obtain ⟨sa, hsa, -, hfam, hcontents, hcopy⟩ := hsame hsa'
    rw [← hcopy, ← hcontents]
    exact hs.parsed i hi sa hsa (hfam.trans hfamily)
  · intro i hi sa' hsa' hfamily hshort
    obtain ⟨sa, hsa, hlen, hfam, -, -⟩ := hsame hsa'
    rw [h.placeOf_eq]
    exact hs.short i hi sa hsa (hfam.trans hfamily) (by rwa [hlen])

end SameBytes

end LazyBsd.Route
