/-
# LazyBsd.Route.Encoding — sizing, writing and parsing a routing message agree.

For addresses that lie outside the buffer and have no scope, `rtsock_msg_buffer` without a buffer and
with one computes the same length, a buffer of that length is enough and necessary, and `rt_xaddrs` reads
the addresses back (`encoding_agrees`). What the loop stores stays below `cp + buflen`, which no turn
changes (`msgBufferLoop_inside`); a buffer with no room for the header takes nothing.
-/
import LazyBsd.Route.Faithful

namespace LazyBsd.Route

open Lib

/-- The addresses of the slots `is` lie outside the buffer. -/
def Outside (info : RtInfo) (is : List Nat) : Prop :=
  ∀ i ∈ is, ∀ sa, info i = some sa → ∃ f, sa = .ext f

section Loop

variable {sc : Scope6} {stack : Bytes} {info : RtInfo} {i : Nat} {is : List Nat} {st : MsgBuffer}

theorem Outside.tail (h : Outside info (i :: is)) : Outside info is :=
  fun j hj => h j (List.mem_cons_of_mem i hj)

/-- The length of an address outside the buffer does not depend on what the buffer holds. -/
theorem Outside.len_eq (h : Outside info (i :: is)) {sa : SaRef} (hi : info i = some sa) (b b' : Bytes) :
    sa.len b' = sa.len b := by
  obtain ⟨f, rfl⟩ := h i List.mem_cons_self sa hi
  rfl

variable (sc stack) in
/-- Whatever is stored, the loop counts the same. -/
theorem msgBufferLoop_len (b : Bytes) : ∀ (is : List Nat) (st : MsgBuffer), Outside info is →
    (msgBufferLoop sc stack info is st).len = st.len + roomFor info b is := by
  intro is
  induction is with
  | nil => intro st _; rfl
  | cons i is ih =>
    intro st hout
    rw [msgBufferLoop, ih _ hout.tail]
    cases hi : info i with
    | none => rw [msgBufferTurn_empty hi, roomFor_empty hi]
    | some sa =>
      have hturn : (msgBufferTurn sc stack info st i).len = st.len + saSize (sa.len b) := by
        rw [← hout.len_eq hi b st.block, msgBufferTurn, hi]
        dsimp only
        split
        · rfl
        · split <;> rfl
      rw [hturn, roomFor_cons hi, Nat.add_assoc]

/-- The free part of a buffer of `size` bytes begins behind the header, and `buflen` says where it ends,
as long as there is a `cp`. -/
def MsgBuffer.Within (size : Int) (st : MsgBuffer) : Prop :=
  ∀ cp, st.cp = some cp → rtMsghdrSize ≤ cp ∧ (cp : Int) + st.buflen = size

variable (sc stack info) in
/-- A turn stores below the end of the buffer. -/
theorem msgBufferTurn_inside {size : Int} (h : st.Within size) (i : Nat) :
    (msgBufferTurn sc stack info st i).Within size ∧
      ∀ k, (msgBufferTurn sc stack info st i).block k ≠ st.block k → (k : Int) < size := by
  cases hi : info i with
  | none =>
    rw [msgBufferTurn_empty hi]
    exact ⟨h, fun k hk => absurd rfl hk⟩
  | some sa =>
    cases hcp : st.cp with
    | none =>
      rw [msgBufferTurn, hi]
      simp only [hcp]
      exact ⟨fun cp hcp' => absurd hcp'.symm (Option.some_ne_none cp), fun k hk => absurd rfl hk⟩
    | some cp =>
      obtain ⟨hheader, hend⟩ := h cp hcp
      rcases Int.lt_or_le st.buflen (encoded sc stack st.block sa).length with hfull | hroom
      · obtain ⟨hcp', hblock, _⟩ := msgBufferTurn_full hi hcp hfull
        exact ⟨fun cp hcp'' => absurd (hcp'.symm.trans hcp'') (by simp),
          fun k hk => absurd (congrFun hblock k) hk⟩
      · rw [msgBufferTurn_room hi hcp hroom]
        refine ⟨fun cp' hcp' => ?_, fun k hk => ?_⟩
        · cases hcp'
          refine ⟨by omega, ?_⟩
          show ((cp + (encoded sc stack st.block sa).length : Nat) : Int) + (st.buflen - _) = size
          omega
        · -- only the bytes of the copy change
          by_contra hge
          exact hk (Block.write_after (by omega))

variable (sc stack info) in
theorem msgBufferLoop_inside {size : Int} : ∀ (is : List Nat) (st : MsgBuffer), st.Within size →
    (msgBufferLoop sc stack info is st).Within size ∧
      ∀ k, (msgBufferLoop sc stack info is st).block k ≠ st.block k → (k : Int) < size := by
  intro is
  induction is with
  | nil => intro st h; exact ⟨h, fun k hk => absurd rfl hk⟩
  | cons i is ih =>
    intro st h
    obtain ⟨hturn, hstored⟩ := msgBufferTurn_inside sc stack info h i
    obtain ⟨hrest, hstored'⟩ := ih _ hturn
    refine ⟨hrest, fun k hk => ?_⟩
    by_cases hsame : (msgBufferTurn sc stack info st i).block k = st.block k
    · rw [← hsame] at hk
      exact hstored' k hk
    · exact hstored k hsame

variable (sc stack info) in
/-- With less than no room the loop stores nothing. -/
theorem msgBufferLoop_nothing : ∀ (is : List Nat) (st : MsgBuffer), st.buflen < 0 →
    (msgBufferLoop sc stack info is st).block = st.block ∧
      (msgBufferLoop sc stack info is st).buflen = st.buflen := by
  intro is
  induction is with
  | nil => intro st _; exact ⟨rfl, rfl⟩
  | cons i is ih =>
    intro st hneg
    have hturn : (msgBufferTurn sc stack info st i).block = st.block ∧
        (msgBufferTurn sc stack info st i).buflen = st.buflen := by
      unfold msgBufferTurn
      split
      · exact ⟨rfl, rfl⟩
      · dsimp only
        split
        · exact ⟨rfl, rfl⟩
        · rw [if_neg (by omega)]
          exact ⟨rfl, rfl⟩
    obtain ⟨hblock, hbuflen⟩ := ih _ (by rw [hturn.2]; exact hneg)
    exact ⟨hblock.trans hturn.1, hbuflen.trans hturn.2⟩

end Loop

/-! ## The function -/

section Buffer

variable {sc : Scope6} {stack b : Bytes} {type : UInt8} {info : RtInfo}

variable (sc stack b type) in
/-- The length of the message, with any buffer and without one. -/
theorem rtsockMsgBuffer_len (hout : Outside info (List.range rtaxMax)) (tmemsize : Option Int) :
    (rtsockMsgBuffer sc stack type info tmemsize b).len =
      rtMsghdrSize + roomFor info b (List.range rtaxMax) := by
  have hlen := msgBufferLoop_len sc stack b (List.range rtaxMax) (.start tmemsize b) hout
  have hmod := (roomFor_spec b info (List.range rtaxMax)).1
  have hend : ∀ st : MsgBuffer, (msgBufferEnd type st).len = align st.len := by
    intro st
    unfold msgBufferEnd
    dsimp only
    split <;> rfl
  rw [rtsockMsgBuffer, hend, hlen]
  exact align_of_mod (by change (152 + roomFor info b (List.range rtaxMax)) % 8 = 0; omega)

/-- No call writes behind its buffer. -/
theorem rtsockMsgBuffer_inside {size : Int} {k : Nat}
    (hk : (rtsockMsgBuffer sc stack type info (some size) b).block k ≠ b k) : (k : Int) < size := by
  have hstart : (MsgBuffer.start (some size) b).Within size := by
    intro cp hcp
    cases hcp
    refine ⟨Nat.le_refl _, ?_⟩
    show ((152 : Nat) : Int) + (size - (152 : Nat)) = size
    omega
  obtain ⟨hwithin, hstored⟩ := msgBufferLoop_inside sc stack info (List.range rtaxMax) _ hstart
  rw [rtsockMsgBuffer] at hk
  generalize msgBufferLoop sc stack info (List.range rtaxMax) (.start (some size) b) = st
    at hk hwithin hstored
  by_cases hloop : st.block k = b k
  · -- the header is filled in only if there is room behind it
    rw [← hloop] at hk
    unfold msgBufferEnd at hk
    dsimp only at hk
    split at hk
    case _ cp hcp =>
      have hfill : k < 4 := Nat.lt_of_not_le fun hge => hk (fillHeader_behind _ hge)
      split at hcp
      · exact absurd hcp.symm (Option.some_ne_none cp)
      case _ hpad =>
        obtain ⟨hheader, hend⟩ := hwithin cp hcp
        have hheader' : 152 ≤ cp := hheader
        omega
    case _ => exact absurd rfl hk
  · exact hstored k hloop

/-- A buffer with no room for the header takes nothing. -/
theorem rtsockMsgBuffer_nothing {size : Int} (hsize : size < rtMsghdrSize) :
    (rtsockMsgBuffer sc stack type info (some size) b).cp = none ∧
      (rtsockMsgBuffer sc stack type info (some size) b).block = b := by
  have hneg : (MsgBuffer.start (some size) b).buflen < 0 := by
    show size - (rtMsghdrSize : Int) < 0
    omega
  obtain ⟨hblock, hbuflen⟩ := msgBufferLoop_nothing sc stack info (List.range rtaxMax) _ hneg
  rw [rtsockMsgBuffer]
  generalize msgBufferLoop sc stack info (List.range rtaxMax) (.start (some size) b) = st
    at hblock hbuflen
  have hnone : msgBufferEnd type st = { st with len := align st.len, cp := none } := by
    unfold msgBufferEnd
    dsimp only
    rw [if_pos (by omega)]
  rw [hnone]
  exact ⟨rfl, hblock⟩

/-- No address can be lost that lies outside the buffer. -/
theorem Outside.unreached (hout : Outside info (List.range rtaxMax)) : Unreached info b := by
  intro i hi off hslot
  obtain ⟨f, hf⟩ := hout i (List.mem_range.mpr hi) _ hslot
  cases hf

variable (sc stack) in
/-- What the loop stores are the copies of the addresses. -/
theorem storage_outside (hout : Outside info (List.range rtaxMax)) :
    storage sc stack (turns sc stack info (List.range rtaxMax) rtMsghdrSize b) =
      copies sc stack info b (List.range rtaxMax) :=
  (kept_of_unreached hout.unreached).storage_eq

variable (sc stack) in
/-- They take the room that was counted. -/
theorem length_storage_outside (hout : Outside info (List.range rtaxMax)) :
    (storage sc stack (turns sc stack info (List.range rtaxMax) rtMsghdrSize b)).length =
      roomFor info b (List.range rtaxMax) := by
  rw [storage_outside sc stack hout, length_copies]

/-- A call succeeds when its buffer has the length of the message, and only then. -/
theorem rtsockMsgBuffer_succeeds_iff (hout : Outside info (List.range rtaxMax)) (size : Int) :
    (rtsockMsgBuffer sc stack type info (some size) b).cp.isSome = true ↔
      ((rtMsghdrSize + roomFor info b (List.range rtaxMax) : Nat) : Int) ≤ size := by
  rw [← length_storage_outside sc stack hout]
  rcases Int.lt_or_le size rtMsghdrSize with hsmall | hheader
  · rw [(rtsockMsgBuffer_nothing hsmall).1]
    refine iff_of_false (by simp) ?_
    omega
  · obtain ⟨n, rfl⟩ := Int.eq_ofNat_of_zero_le (Int.le_trans (Int.natCast_nonneg _) hheader)
    rcases Nat.lt_or_ge n (rtMsghdrSize + (storage sc stack
      (turns sc stack info (List.range rtaxMax) rtMsghdrSize b)).length) with hshort | hfits
    · rw [(rtsockMsgBuffer_short type rfl (by omega) hshort).1]
      refine iff_of_false (by simp) ?_
      omega
    · rw [(rtsockMsgBuffer_fits type rfl hfits).2.1]
      refine iff_of_true rfl ?_
      omega

/-- A call that fails leaves the header. -/
theorem rtsockMsgBuffer_fails {size : Int}
    (hnone : (rtsockMsgBuffer sc stack type info (some size) b).cp = none) :
    ∀ k < rtMsghdrSize, (rtsockMsgBuffer sc stack type info (some size) b).block k = b k := by
  rcases Int.lt_or_le size rtMsghdrSize with hsmall | hheader
  · rw [(rtsockMsgBuffer_nothing hsmall).2]
    exact fun k _ => rfl
  · obtain ⟨n, rfl⟩ := Int.eq_ofNat_of_zero_le (Int.le_trans (Int.natCast_nonneg _) hheader)
    refine (rtsockMsgBuffer_short type rfl (by omega) (Nat.lt_of_not_le fun hfits => ?_)).2.1
    rw [(rtsockMsgBuffer_fits type rfl hfits).2.1] at hnone
    exact absurd hnone (Option.some_ne_none _)

end Buffer

/-! ## Encoding and parsing -/

/-- The addresses that a message takes up as they are: outside the buffer, with a length, and of another
family than AF_INET6. -/
def Plain (info : RtInfo) : Prop :=
  ∀ i < rtaxMax, ∀ sa, info i = some sa → ∃ f, sa = .ext f ∧ f 0 ≠ 0 ∧ f 1 ≠ afInet6

/-- `rt_xaddrs` on the message that a call has encoded, with the addresses that the call reports. -/
def parseEncoded (sc : Scope6) (st : MsgBuffer) : Bool × RtInfo × Bytes :=
  rtXaddrs sc st.len st.addrs (List.range rtaxMax) rtMsghdrSize (fun _ => none) st.block

/-- A call with a buffer of `size` bytes, and what a call without one and the parser make of it. -/
structure Agrees (sc : Scope6) (info : RtInfo) (size : Int) (b : Bytes) (counted st : MsgBuffer) :
    Prop where
  length : st.len = counted.len
  succeeds : st.cp.isSome = true ↔ (counted.len : Int) ≤ size
  inside : ∀ k, st.block k ≠ b k → (k : Int) < size
  fails : st.cp = none → ∀ k < rtMsghdrSize, st.block k = b k
  accepted : st.cp.isSome = true → (parseEncoded sc st).1 = true
  absent : st.cp.isSome = true → ∀ i < rtaxMax, info i = none → (parseEncoded sc st).2.1 i = none
  found : st.cp.isSome = true → ∀ i < rtaxMax, ∀ sa, info i = some sa →
    ∃ off, (parseEncoded sc st).2.1 i = some (.msg off) ∧
      (SaRef.msg off).contents (parseEncoded sc st).2.2 = sa.contents b

variable {sc : Scope6} {stack b : Bytes} {type : UInt8} {info : RtInfo}

theorem Plain.outside (h : Plain info) : Outside info (List.range rtaxMax) := by
  intro i hi sa hsa
  obtain ⟨f, hf, _⟩ := h i (List.mem_range.mp hi) sa hsa
  exact ⟨f, hf⟩

theorem Plain.family_ne (h : Plain info) {i : Nat} (hi : i < rtaxMax) {sa : SaRef} (hsa : info i = some sa) :
    sa.family b ≠ afInet6 := by
  obtain ⟨f, rfl, _, hfamily⟩ := h i hi sa hsa
  exact hfamily

/-- A call that succeeds has written the copies of the addresses behind the header. -/
theorem rtsockMsgBuffer_lies (hout : Outside info (List.range rtaxMax)) {size : Int}
    (hsome : (rtsockMsgBuffer sc stack type info (some size) b).cp.isSome = true) :
    LiesAt (rtsockMsgBuffer sc stack type info (some size) b).block rtMsghdrSize
      (copies sc stack info b (List.range rtaxMax)) := by
  have hsize := (rtsockMsgBuffer_succeeds_iff hout size).mp hsome
  rw [← length_copies sc stack b info] at hsize
  obtain ⟨n, rfl⟩ := Int.eq_ofNat_of_zero_le (Int.le_trans (Int.natCast_nonneg _) hsize)
  rw [(rtsockMsgBuffer_fits type (storage_outside sc stack hout).symm (by omega)).1]
  have hwritten := Block.read_write b rtMsghdrSize (copies sc stack info b (List.range rtaxMax))
  exact LiesAt.congr (fun k hk _ => fillHeader_behind _ (Nat.le_trans (by decide) hk)) hwritten

/-- The message of a call that succeeds, read back. -/
theorem parseEncoded_spec (h : Plain info) {size : Int}
    (hsome : (rtsockMsgBuffer sc stack type info (some size) b).cp.isSome = true) :
    let r := parseEncoded sc (rtsockMsgBuffer sc stack type info (some size) b)
    r.1 = true ∧ (∀ i, i ∉ present info (List.range rtaxMax) → r.2.1 i = none) ∧
      ∀ i < rtaxMax, ∀ sa, info i = some sa →
        ∃ off, r.2.1 i = some (.msg off) ∧ (SaRef.msg off).contents r.2.2 = sa.contents b := by
  have hend := rtsockMsgBuffer_len sc stack b type h.outside (some size)
  rw [← length_copies sc stack b info] at hend
  have hstand : Stand sc (rtsockMsgBuffer sc stack type info (some size) b).block rtMsghdrSize
      (pieces sc stack info b (List.range rtaxMax)) :=
    stand_pieces (fun i hi sa hsa hfamily => absurd hfamily (h.family_ne hi hsa)) (List.range rtaxMax) [] rfl
  have hlen : ∀ x ∈ pieces sc stack info b (List.range rtaxMax), x.len ≠ 0 := by
    intro x hx
    obtain ⟨i, hi, sa, hsa, rfl⟩ := mem_pieces hx
    obtain ⟨f, rfl, hzero, _⟩ := h i (List.mem_range.mp hi) sa hsa
    rw [SaRef.copy_len]
    exact hzero
  obtain ⟨hok, hnone, hfound⟩ := rtXaddrs_pieces pieces_slots (rtsockMsgBuffer_addrs (some size))
    (rtsockMsgBuffer_lies h.outside hsome) hstand hlen hend
  refine ⟨hok, hnone, fun i hi sa hsa => ?_⟩
  obtain ⟨off, hoff, hcontents⟩ := hfound _ (copy_mem_pieces (List.mem_range.mpr hi) hsa)
  exact ⟨off, hoff, hcontents.trans (SaRef.copy_parsed (h.family_ne hi hsa))⟩

/-- **Sizing, writing and parsing agree**, for every buffer. -/
theorem encoding_agrees (sc : Scope6) (stack b : Bytes) (type : UInt8) {info : RtInfo}
    (h : Plain info) (size : Int) :
    Agrees sc info size b (rtsockMsgBuffer sc stack type info none b)
      (rtsockMsgBuffer sc stack type info (some size) b) := by
  have hlen := rtsockMsgBuffer_len sc stack b type h.outside
  refine ⟨(hlen (some size)).trans (hlen none).symm, ?_, fun k => rtsockMsgBuffer_inside,
    rtsockMsgBuffer_fails, fun hsome => (parseEncoded_spec h hsome).1,
    fun hsome i _ hnone => (parseEncoded_spec h hsome).2.1 i ?_,
    fun hsome => (parseEncoded_spec h hsome).2.2⟩
  · rw [hlen none]
    exact rtsockMsgBuffer_succeeds_iff h.outside size
  · rw [mem_present, hnone]
    simp

/-- The route to 10.0.0.0/8: destination and netmask. -/
def Sample.subnet : RtInfo := fun i =>
  if i = rtaxDst then some (.ext (Block.write (fun _ => 0) 0 (sin [10, 0, 0, 0])))
  else if i = rtaxNetmask then some (.ext (Block.write (fun _ => 0) 0 (sin [255, 0, 0, 0])))
  else none

open Sample in
/-- In a buffer that has room for the two addresses and nothing else. -/
theorem subnet_agrees :
    Agrees scope subnet 184 plain (rtsockMsgBuffer scope (fun _ => 0) rtmGet subnet none plain)
      (rtsockMsgBuffer scope (fun _ => 0) rtmGet subnet (some 184) plain) := by
  apply encoding_agrees
  intro i _ sa hsa
  rw [subnet] at hsa
  split at hsa
  · exact ⟨_, (Option.some.inj hsa).symm, by decide, by decide⟩
  · split at hsa
    · exact ⟨_, (Option.some.inj hsa).symm, by decide, by decide⟩
    · exact absurd hsa.symm (Option.some_ne_none sa)

end LazyBsd.Route
