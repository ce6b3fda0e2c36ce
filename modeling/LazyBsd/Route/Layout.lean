/-
# LazyBsd.Route.Layout — what lies behind the header of a message.

`rtsock_msg_buffer` stores one sockaddr behind the other, and each of them is read when those before
it are stored already. `turns` lists what the turns of its loop find, `storage` what they store:
`msgBufferLoop_fits` and `msgBufferLoop_short` give the state that the loop leaves in these terms.
`rt_xaddrs` goes the same way back: `rtXaddrs_laid` says what it makes of sockaddrs that lie one behind
the other.
-/
import LazyBsd.Route.Message

namespace LazyBsd.Route

open Lib

/-! ## What the loop stores -/

section Encoded

variable {sc : Scope6} {stack b : Bytes} {sa : SaRef}

@[simp] theorem SaRef.length_bytes (n : Nat) : (sa.bytes b n).length = n := Block.length_read

@[simp] theorem encoded_length : (encoded sc stack b sa).length = saSize (sa.len b) := by
  unfold encoded
  split
  · split <;> simp
  · simp

variable (sc stack b sa) in
/-- The length and the family are stored as they are. -/
theorem encoded_head : (encoded sc stack b sa)[0]? = some (sa.len b) ∧
    (encoded sc stack b sa)[1]? = some (sa.family b) := by
  have hsize := (saSize_spec (sa.len b)).2.1
  have hbytes : ∀ n, 2 ≤ n → (sa.bytes b n)[0]? = some (sa.len b) ∧
      (sa.bytes b n)[1]? = some (sa.family b) := by
    intro n hn
    rw [SaRef.bytes, Block.getElem?_read (by omega), Block.getElem?_read (by omega)]
    exact ⟨rfl, rfl⟩
  unfold encoded
  split
  · split
    case _ sin6 hrec =>
      have htake := sc.recover_head (SaRef.length_bytes 28) hrec
      have hat : ∀ k < 2, sin6[k]? = (sa.bytes b 28)[k]? := by
        intro k hk
        rw [← List.getElem?_take_of_lt hk, htake, List.getElem?_take_of_lt hk]
      have hold := hbytes 28 (by decide)
      constructor
      · rw [List.getElem?_map, List.getElem?_range (by omega), Option.map_some,
          List.getD_eq_getElem?_getD, hat 0 (by decide), hold.1]
        rfl
      · rw [List.getElem?_map, List.getElem?_range (by omega), Option.map_some,
          List.getD_eq_getElem?_getD, hat 1 (by decide), hold.2]
        rfl
    case _ => exact hbytes _ (by omega)
  · exact hbytes _ (by omega)

/-- Away from AF_INET6 the copy is the sockaddr with its padding. -/
theorem encoded_of_family (h : sa.family b ≠ afInet6) :
    encoded sc stack b sa = sa.bytes b (saSize (sa.len b)) := by
  rw [encoded]
  exact if_neg h

end Encoded

/-- A turn of the loop of `rtsock_msg_buffer` that finds a sockaddr: the slot, the place where the
sockaddr is stored, the sockaddr, and the block as it is then. -/
structure Turn where
  slot : Nat
  place : Nat
  sa : SaRef
  block : Bytes

/-- The sockaddr as it is found, its length, and what the turn stores. -/
def Turn.found (t : Turn) : List UInt8 := t.sa.contents t.block
def Turn.len (t : Turn) : UInt8 := t.sa.len t.block
def Turn.family (t : Turn) : UInt8 := t.sa.family t.block
def Turn.stored (sc : Scope6) (stack : Bytes) (t : Turn) : List UInt8 := encoded sc stack t.block t.sa

/-- The turns for the slots `is`, when the first of them stores at `p`. -/
def turns (sc : Scope6) (stack : Bytes) (info : RtInfo) : List Nat → Nat → Bytes → List Turn
  | [], _, _ => []
  | i :: is, p, b =>
      match info i with
      | none => turns sc stack info is p b
      | some sa =>
          ⟨i, p, sa, b⟩ :: turns sc stack info is (p + saSize (sa.len b))
            (Block.write b p (encoded sc stack b sa))

/-- All that the turns store, in the order in which it lies. -/
def storage (sc : Scope6) (stack : Bytes) (ts : List Turn) : List UInt8 :=
  ts.flatMap (Turn.stored sc stack)

/-- The slots that hold an address. -/
def present (info : RtInfo) (is : List Nat) : List Nat := is.filter fun i => (info i).isSome

/-- The room that the addresses take as they are in `b`. -/
def roomFor (info : RtInfo) (b : Bytes) : List Nat → Nat
  | [] => 0
  | i :: is =>
      match info i with
      | none => roomFor info b is
      | some sa => saSize (sa.len b) + roomFor info b is

section Loop

variable {sc : Scope6} {stack b : Bytes} {info : RtInfo}

variable (sc stack) in
@[simp] theorem Turn.length_stored (t : Turn) : (t.stored sc stack).length = saSize t.len :=
  encoded_length

theorem turns_slots : ∀ (is : List Nat) (p : Nat) (b : Bytes),
    (turns sc stack info is p b).map Turn.slot = present info is := by
  intro is
  induction is with
  | nil => intro p b; rfl
  | cons i is ih =>
    intro p b
    rw [turns, present, List.filter_cons]
    cases hi : info i with
    | none => exact ih p b
    | some sa =>
      rw [List.map_cons, ih]
      rfl

theorem storage_cons (t : Turn) (ts : List Turn) :
    storage sc stack (t :: ts) = t.stored sc stack ++ storage sc stack ts := List.flatMap_cons

variable (sc stack) in
/-- What is stored is a whole number of units of 8 bytes, at most 256 for each slot. -/
theorem length_storage (ts : List Turn) :
    (storage sc stack ts).length % 8 = 0 ∧ (storage sc stack ts).length ≤ 256 * ts.length := by
  induction ts with
  | nil => exact ⟨rfl, Nat.le_refl 0⟩
  | cons t ts ih =>
    have hsize := saSize_spec t.len
    rw [storage_cons, List.length_append, Turn.length_stored, List.length_cons]
    omega

theorem roomFor_empty {i : Nat} (hi : info i = none) (is : List Nat) :
    roomFor info b (i :: is) = roomFor info b is := by
  rw [roomFor, hi]

theorem roomFor_cons {i : Nat} {sa : SaRef} (hi : info i = some sa) (is : List Nat) :
    roomFor info b (i :: is) = saSize (sa.len b) + roomFor info b is := by
  rw [roomFor, hi]

variable (b info) in
theorem roomFor_spec (is : List Nat) :
    roomFor info b is % 8 = 0 ∧ roomFor info b is ≤ 256 * is.length := by
  induction is with
  | nil => exact ⟨rfl, Nat.le_refl 0⟩
  | cons i is ih =>
    rw [List.length_cons]
    cases hi : info i with
    | none =>
      rw [roomFor_empty hi]
      omega
    | some sa =>
      have hsize := saSize_spec (sa.len b)
      rw [roomFor_cons hi]
      omega

theorem msgBufferTurn_empty {st : MsgBuffer} {i : Nat} (hi : info i = none) :
    msgBufferTurn sc stack info st i = st := by
  rw [msgBufferTurn, hi]

variable (sc stack info) in
/-- Without a buffer the loop counts. -/
theorem msgBufferLoop_counts : ∀ (is : List Nat) (st : MsgBuffer), st.cp = none →
    let st' := msgBufferLoop sc stack info is st
    st'.cp = none ∧ st'.block = st.block ∧ st'.len = st.len + roomFor info st.block is ∧
      st'.copied = st.copied := by
  intro is
  induction is with
  | nil => intro st hcp; exact ⟨hcp, rfl, rfl, rfl⟩
  | cons i is ih =>
    intro st hcp
    rw [msgBufferLoop]
    cases hi : info i with
    | none =>
      rw [msgBufferTurn_empty hi, roomFor_empty hi]
      exact ih st hcp
    | some sa =>
      have hturn : msgBufferTurn sc stack info st i =
          { st with addrs := addAddr st.addrs i, len := st.len + saSize (sa.len st.block) } := by
        rw [msgBufferTurn, hi]
        simp only [hcp]
      rw [hturn, roomFor_cons hi, ← Nat.add_assoc]
      exact ih _ hcp

variable (sc stack info) in
/-- The bits that the loop sets. -/
theorem msgBufferLoop_addrs : ∀ (is : List Nat) (st : MsgBuffer), (∀ i ∈ is, i < 32) → ∀ j,
    hasAddr (msgBufferLoop sc stack info is st).addrs j =
      (hasAddr st.addrs j || decide (j ∈ present info is)) := by
  intro is
  induction is with
  | nil => intro st _ j; simp [msgBufferLoop, present]
  | cons i is ih =>
    intro st his j
    have hturn : hasAddr (msgBufferTurn sc stack info st i).addrs j =
        (hasAddr st.addrs j || decide (j ∈ present info [i])) := by
      unfold msgBufferTurn present
      cases hi : info i with
      | none => simp [hi]
      | some sa =>
        have hadd := hasAddr_addAddr st.addrs (his i List.mem_cons_self) j
        simp only
        split
        · simp [hadd, hi, eq_comm]
        · split <;> simp [hadd, hi, eq_comm]
    rw [msgBufferLoop, ih _ (fun k hk => his k (List.mem_cons_of_mem _ hk)), hturn, Bool.or_assoc,
      ← Bool.decide_or]
    congr 1
    apply decide_eq_decide.mpr
    simp only [present, List.mem_filter, List.mem_cons, List.not_mem_nil, or_false]
    tauto

/-- The state after the bytes `e` of slot `i` were stored at `cp`. -/
def MsgBuffer.put (st : MsgBuffer) (i cp : Nat) (e : List UInt8) : MsgBuffer where
  block := Block.write st.block cp e
  addrs := addAddr st.addrs i
  len := st.len + e.length
  cp := some (cp + e.length)
  buflen := st.buflen - e.length
  copied := st.copied ++ [i]

/-- A turn that has room. -/
theorem msgBufferTurn_room {st : MsgBuffer} {i cp : Nat} {sa : SaRef} (hi : info i = some sa)
    (hcp : st.cp = some cp)
    (hroom : ((encoded sc stack st.block sa).length : Int) ≤ st.buflen) :
    msgBufferTurn sc stack info st i = st.put i cp (encoded sc stack st.block sa) := by
  rw [MsgBuffer.put, encoded_length]
  rw [encoded_length] at hroom
  rw [msgBufferTurn, hi]
  simp only [hcp]
  exact if_pos hroom

/-- A turn that has none. -/
theorem msgBufferTurn_full {st : MsgBuffer} {i cp : Nat} {sa : SaRef} (hi : info i = some sa)
    (hcp : st.cp = some cp)
    (hfull : st.buflen < ((encoded sc stack st.block sa).length : Int)) :
    (msgBufferTurn sc stack info st i).cp = none ∧
      (msgBufferTurn sc stack info st i).block = st.block ∧
      (msgBufferTurn sc stack info st i).copied = st.copied := by
  rw [encoded_length] at hfull
  rw [msgBufferTurn, hi]
  simp only [hcp]
  rw [if_neg (by omega)]
  exact ⟨rfl, rfl, rfl⟩

theorem storage_turns_empty {i cp : Nat} {is : List Nat} (hi : info i = none) :
    storage sc stack (turns sc stack info (i :: is) cp b) =
      storage sc stack (turns sc stack info is cp b) := by
  rw [turns, hi]

theorem storage_turns_cons {i cp : Nat} {is : List Nat} {sa : SaRef} (hi : info i = some sa) :
    storage sc stack (turns sc stack info (i :: is) cp b) =
      encoded sc stack b sa ++ storage sc stack (turns sc stack info is
        (cp + (encoded sc stack b sa).length) (Block.write b cp (encoded sc stack b sa))) := by
  rw [turns, hi, encoded_length]
  exact storage_cons _ _

theorem present_empty {i : Nat} {is : List Nat} (hi : info i = none) :
    present info (i :: is) = present info is := by
  rw [present, List.filter_cons, hi]
  rfl

theorem present_cons {i : Nat} {is : List Nat} {sa : SaRef} (hi : info i = some sa) :
    present info (i :: is) = i :: present info is := by
  rw [present, List.filter_cons, hi]
  rfl

variable (sc stack info) in
/-- **Where all that the turns find fits, they store it.** -/
theorem msgBufferLoop_fits : ∀ (is : List Nat) (st : MsgBuffer) (cp : Nat), st.cp = some cp →
    ((storage sc stack (turns sc stack info is cp st.block)).length : Int) ≤ st.buflen →
    let flat := storage sc stack (turns sc stack info is cp st.block)
    let st' := msgBufferLoop sc stack info is st
    st'.cp = some (cp + flat.length) ∧ st'.block = Block.write st.block cp flat ∧
      st'.len = st.len + flat.length ∧ st'.buflen = st.buflen - flat.length ∧
      st'.copied = st.copied ++ present info is := by
  intro is
  induction is with
  | nil =>
    intro st cp hcp _
    simp [msgBufferLoop, turns, storage, present, hcp]
  | cons i is ih =>
    intro st cp hcp hfits
    cases hi : info i with
    | none =>
      rw [storage_turns_empty hi] at hfits ⊢
      rw [msgBufferLoop, msgBufferTurn_empty hi, present_empty hi]
      exact ih st cp hcp hfits
    | some sa =>
      rw [storage_turns_cons hi, List.length_append] at hfits
      rw [msgBufferLoop, storage_turns_cons hi, present_cons hi, msgBufferTurn_room hi hcp (by omega)]
      obtain ⟨hcp', hblock, hlen, hbuflen, hcopied⟩ := ih
        (st.put i cp (encoded sc stack st.block sa)) _ rfl (by dsimp only [MsgBuffer.put]; omega)
      dsimp only [MsgBuffer.put] at hcp' hblock hlen hbuflen hcopied ⊢
      refine ⟨?_, ?_, ?_, ?_, ?_⟩
      · rw [hcp', List.length_append, Nat.add_assoc]
      · rw [hblock, Block.write_append]
      · rw [hlen, List.length_append, Nat.add_assoc]
      · rw [hbuflen, List.length_append]
        omega
      · rw [hcopied, List.append_assoc]
        rfl

variable (sc stack info) in
/-- **Where it does not fit, the loop ends without a buffer**, and an address is missing. -/
theorem msgBufferLoop_short : ∀ (is : List Nat) (st : MsgBuffer) (cp : Nat), st.cp = some cp →
    0 ≤ st.buflen →
    st.buflen < (storage sc stack (turns sc stack info is cp st.block)).length → is.Nodup →
    (∀ i ∈ is, i ∉ st.copied) →
    let st' := msgBufferLoop sc stack info is st
    st'.cp = none ∧ (∀ k < cp, st'.block k = st.block k) ∧ (∃ i ∈ present info is, i ∉ st'.copied) := by
  intro is
  induction is with
  | nil =>
    intro st cp _ hroom hshort
    simp only [turns, storage, List.flatMap_nil, List.length_nil] at hshort
    omega
  | cons i is ih =>
    intro st cp hcp hroom hshort hnodup hnew
    obtain ⟨hi', hnodup'⟩ := List.nodup_cons.mp hnodup
    cases hi : info i with
    | none =>
      rw [storage_turns_empty hi] at hshort
      rw [msgBufferLoop, msgBufferTurn_empty hi, present_empty hi]
      exact ih st cp hcp hroom hshort hnodup' fun k hk => hnew k (List.mem_cons_of_mem _ hk)
    | some sa =>
      rw [msgBufferLoop, present_cons hi]
      rcases Int.lt_or_le st.buflen (encoded sc stack st.block sa).length with hfull | hfits
      · -- from here on the loop only counts
        obtain ⟨hcp', hblock, hcopied⟩ := msgBufferTurn_full hi hcp hfull
        obtain ⟨hcp'', hblock', -, hcopied'⟩ := msgBufferLoop_counts sc stack info is _ hcp'
        refine ⟨hcp'', fun k _ => by rw [hblock', hblock], i, List.mem_cons_self, ?_⟩
        rw [hcopied', hcopied]
        exact hnew i List.mem_cons_self
      · rw [storage_turns_cons hi, List.length_append] at hshort
        rw [msgBufferTurn_room hi hcp hfits]
        obtain ⟨hcp', hblock, j, hj, hmissing⟩ := ih
          (st.put i cp (encoded sc stack st.block sa)) _ rfl
          (by dsimp only [MsgBuffer.put]; omega) (by dsimp only [MsgBuffer.put]; omega) hnodup' (by
            intro k hk
            rw [MsgBuffer.put, List.mem_append, List.mem_singleton]
            rintro (hold | rfl)
            · exact hnew k (List.mem_cons_of_mem _ hk) hold
            · exact hi' hk)
        refine ⟨hcp', fun k hk => ?_, j, List.mem_cons_of_mem _ hj, hmissing⟩
        rw [hblock k (by omega)]
        exact Block.write_before hk

end Loop

/-! ## `rtsock_msg_buffer` -/

section Buffer

variable {sc : Scope6} {stack b : Bytes} {type : UInt8} {info : RtInfo}

theorem align_of_mod {n : Nat} (h : n % 8 = 0) : align n = n := by
  rw [align]
  omega

theorem msgBufferEnd_of_none {st : MsgBuffer} (hcp : st.cp = none) :
    msgBufferEnd type st = { st with len := align st.len } := by
  obtain ⟨b, addrs, len, cp, buflen, copied⟩ := st
  subst hcp
  rw [msgBufferEnd]
  simp only [ite_self]

variable (type) in
theorem msgBufferEnd_of_room {st : MsgBuffer} {cp : Nat} (hcp : st.cp = some cp)
    (hlen : st.len % 8 = 0) (hroom : 0 ≤ st.buflen) :
    msgBufferEnd type st = { st with block := fillHeader type st.len st.block } := by
  obtain ⟨b, addrs, len, cp', buflen, copied⟩ := st
  dsimp only at hcp hlen hroom
  subst hcp
  rw [msgBufferEnd]
  simp only [align_of_mod hlen]
  rw [if_neg (by omega)]

/-- The length that a call without a buffer computes. -/
theorem rtsockMsgBuffer_counts : (rtsockMsgBuffer sc stack type info none b).len =
    rtMsghdrSize + roomFor info b (List.range rtaxMax) := by
  obtain ⟨hcp, -, hlen, -⟩ := msgBufferLoop_counts sc stack info (List.range rtaxMax)
    (.start none b) rfl
  have hmod := (roomFor_spec b info (List.range rtaxMax)).1
  rw [rtsockMsgBuffer, msgBufferEnd_of_none hcp]
  change align (msgBufferLoop sc stack info (List.range rtaxMax) (.start none b)).len = _
  rw [hlen]
  exact align_of_mod (by change (152 + roomFor info b (List.range rtaxMax)) % 8 = 0; omega)

/-- The addresses that a call reports. -/
theorem rtsockMsgBuffer_addrs (tmemsize : Option Int) (j : Nat) :
    hasAddr (rtsockMsgBuffer sc stack type info tmemsize b).addrs j =
      decide (j ∈ present info (List.range rtaxMax)) := by
  have hbits := msgBufferLoop_addrs sc stack info (List.range rtaxMax)
    (.start tmemsize b) (fun i hi => Nat.lt_trans (List.mem_range.mp hi) (by decide)) j
  have hzero : hasAddr (MsgBuffer.start tmemsize b).addrs j = false := Nat.zero_testBit j
  rw [hzero, Bool.false_or] at hbits
  rw [← hbits, rtsockMsgBuffer, msgBufferEnd]
  split <;> rfl

variable (type) in
/-- **A message that fits its buffer.** -/
theorem rtsockMsgBuffer_fits {size : Nat} {flat : List UInt8}
    (hflat : flat = storage sc stack (turns sc stack info (List.range rtaxMax) rtMsghdrSize b))
    (hfits : rtMsghdrSize + flat.length ≤ size) :
    let st := rtsockMsgBuffer sc stack type info (some size) b
    st.block = fillHeader type (rtMsghdrSize + flat.length) (Block.write b rtMsghdrSize flat) ∧
      st.cp = some (rtMsghdrSize + flat.length) ∧ st.copied = present info (List.range rtaxMax) := by
  have hmod := (length_storage sc stack
    (turns sc stack info (List.range rtaxMax) rtMsghdrSize b)).1
  rw [← hflat] at hmod
  have hroom : (MsgBuffer.start (some size) b).buflen = (size : Int) - rtMsghdrSize := rfl
  obtain ⟨hcp, hblock, hlen, hbuflen, hcopied⟩ := msgBufferLoop_fits sc stack info
    (List.range rtaxMax) (.start (some size) b) rtMsghdrSize rfl (by
      rw [hroom]
      change ((storage sc stack (turns sc stack info (List.range rtaxMax) rtMsghdrSize b)).length :
        Int) ≤ _
      rw [← hflat]
      omega)
  have hstart : (MsgBuffer.start (some size) b).block = b := rfl
  rw [hstart, ← hflat] at hcp hblock hlen hbuflen
  have hend := msgBufferEnd_of_room type hcp (by
    rw [hlen]
    change (152 + _) % 8 = 0
    omega) (by rw [hbuflen, hroom]; omega)
  rw [rtsockMsgBuffer, hend]
  refine ⟨?_, hcp, hcopied⟩
  dsimp only
  rw [hlen, hblock]
  rfl

variable (type) in
/-- **A message that does not fit** leaves the header, and an address is missing. -/
theorem rtsockMsgBuffer_short {size : Nat} {flat : List UInt8}
    (hflat : flat = storage sc stack (turns sc stack info (List.range rtaxMax) rtMsghdrSize b))
    (hsize : rtMsghdrSize ≤ size) (hshort : size < rtMsghdrSize + flat.length) :
    let st := rtsockMsgBuffer sc stack type info (some size) b
    st.cp = none ∧ (∀ k < rtMsghdrSize, st.block k = b k) ∧
      ∃ i ∈ present info (List.range rtaxMax), i ∉ st.copied := by
  have hroom : (MsgBuffer.start (some size) b).buflen = (size : Int) - rtMsghdrSize := rfl
  obtain ⟨hcp, hblock, hmissing⟩ := msgBufferLoop_short sc stack info
    (List.range rtaxMax) (.start (some size) b) rtMsghdrSize rfl
    (by rw [hroom]; omega) (by
      rw [hroom]
      change _ < ((storage sc stack (turns sc stack info (List.range rtaxMax) rtMsghdrSize b)).length :
        Int)
      rw [← hflat]
      omega) List.nodup_range (fun _ _ => List.not_mem_nil)
  rw [rtsockMsgBuffer, msgBufferEnd_of_none hcp]
  exact ⟨hcp, hblock, hmissing⟩

end Buffer

end LazyBsd.Route
