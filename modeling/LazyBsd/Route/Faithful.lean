/-
# LazyBsd.Route.Faithful — when a reply says what it was built from.

`Faithful` compares a reply, read back with `rt_xaddrs`, with the addresses that the slots named when it
was about to be built. It needs that the addresses kept from the request are still there when they are
copied (`Kept`), which a larger buffer provides and one in place need not, and that the sockaddrs of family
AF_INET6 come back from the scope functions (`ScopesReturn`). Both are conditions on the slots and on the
message when the reply is about to be built (`Intact`).
-/
import LazyBsd.Route.Reply
import LazyBsd.Route.Overlap

namespace LazyBsd.Route

open Lib

/-! ## The header of a reply -/

section Header

variable {rc : RibCmdInfo} {addrs : UInt32} {b : Bytes} {k : Nat}

theorem fillReply_before (hk : k < 8) : fillReply rc addrs b k = b k := by
  rw [fillReply, Block.write_before (by omega), Block.write_before (by omega), Block.write_before hk]

theorem length_rtGetmetrics : (rtGetmetrics rc).length = 112 := by
  simp [rtGetmetrics, le64]

theorem fillReply_behind (hk : rtMsghdrSize ≤ k) : fillReply rc addrs b k = b k := by
  rw [rtMsghdrSize] at hk
  rw [fillReply, Block.write_after (by simp only [le32, List.length_cons, List.length_nil]; omega),
    Block.write_after (by rw [length_rtGetmetrics]; omega),
    Block.write_after (by simp only [le32, List.length_cons, List.length_nil]; omega)]

theorem rtmAddrs_fillReply : rtmAddrs (fillReply rc addrs b) = addrs := by
  have hread : Block.read (fillReply rc addrs b) 12 4 = le32 addrs := Block.read_write _ _ _
  rw [rtmAddrs, hread, leNat_le32, UInt32.ofNat_toNat]

end Header

/-! ## A faithful reply -/

/-- `rt_xaddrs` on a message, as its own header describes it. -/
def parseMessage (sc : Scope6) (b : Bytes) : Bool × RtInfo × Bytes :=
  rtXaddrs sc (rtmMsglen b) (rtmAddrs b) (List.range rtaxMax) rtMsghdrSize (fun _ => none) b

/-- The address in a slot. -/
def address (slots : RtInfo) (b : Bytes) (i : Nat) : Option (List UInt8) :=
  (slots i).map (SaRef.contents b)

/-- The reply says what the slots named in the block `b`. -/
structure Faithful (sc : Scope6) (slots : RtInfo) (b : Bytes) (reply : Reply) : Prop where
  /-- `rtm_msglen` is the length of the header and of the addresses. -/
  msglen : rtmMsglen reply.rtm.block = rtMsghdrSize + roomFor slots b (List.range rtaxMax)
  /-- `rtm_addrs` is the set of the addresses that were encoded. -/
  addrs : ∀ i < rtaxMax, hasAddr (rtmAddrs reply.rtm.block) i = decide (i ∈ reply.copied)
  accepted : (parseMessage sc reply.rtm.block).1 = true
  absent : ∀ i < rtaxMax, address slots b i = none → (parseMessage sc reply.rtm.block).2.1 i = none
  found : ∀ i < rtaxMax, ∀ sa, address slots b i = some sa →
    ∃ off, (parseMessage sc reply.rtm.block).2.1 i = some (.msg off) ∧
      (SaRef.msg off).contents (parseMessage sc reply.rtm.block).2.2 = sa

/-- Every address has a length. -/
def HasLengths (slots : RtInfo) (b : Bytes) : Prop :=
  ∀ i < rtaxMax, ∀ sa, slots i = some sa → sa.len b ≠ 0

instance (slots : RtInfo) (b : Bytes) : Decidable (HasLengths slots b) :=
  decidable_of_iff (∀ i < rtaxMax, (slots i).all fun sa => sa.len b ≠ 0) (by
    simp only [HasLengths, Option.all_eq_true, decide_eq_true_eq])

theorem SaRef.length_contents {b : Bytes} (sa : SaRef) : (sa.contents b).length = (sa.len b).toNat :=
  SaRef.length_bytes _

/-! ## The second pass -/

section Pass

variable {sc : Scope6} {mem : Memory} {rc : RibCmdInfo} {slots : RtInfo} {rtm : Rtm}

/-- The turns of the second pass. -/
abbrev replyTurns (sc : Scope6) (mem : Memory) (slots : RtInfo) (rtm : Rtm) : List Turn :=
  turns sc mem.ss slots (List.range rtaxMax) rtMsghdrSize rtm.block

variable (sc mem slots rtm) in
theorem length_replyTurns : (replyTurns sc mem slots rtm).length ≤ rtaxMax := by
  rw [← List.length_map (f := Turn.slot), turns_slots, present]
  exact Nat.le_trans (List.length_filter_le _ _) (Nat.le_of_eq List.length_range)

theorem rtmAddrs_buildReply (j : Nat) : hasAddr (rtmAddrs (buildReply sc mem rc slots rtm).rtm.block) j =
    decide (j ∈ present slots (List.range rtaxMax)) := by
  rw [buildReply]
  dsimp only
  rw [rtmAddrs_fillReply]
  exact rtsockMsgBuffer_addrs _ j

variable (rc) in
/-- **A reply that fits its buffer** consists of the header and of what the turns store. -/
theorem buildReply_fits {flat : List UInt8} (hflat : flat = storage sc mem.ss (replyTurns sc mem slots rtm))
    (hfits : rtMsghdrSize + flat.length ≤ rtm.size) :
    let reply := buildReply sc mem rc slots rtm
    rtmMsglen reply.rtm.block = rtMsghdrSize + flat.length ∧
      (∀ k, rtMsghdrSize ≤ k → reply.rtm.block k = Block.write rtm.block rtMsghdrSize flat k) ∧
      reply.rtm.filled = max rtm.filled (rtMsghdrSize + flat.length) ∧
      reply.copied = present slots (List.range rtaxMax) := by
  have hturns := length_replyTurns sc mem slots rtm
  have hlen := (length_storage sc mem.ss (replyTurns sc mem slots rtm)).2
  rw [← hflat] at hlen
  obtain ⟨hblock, hcp, hcopied⟩ := rtsockMsgBuffer_fits (rtmType rtm.block) hflat hfits
  rw [buildReply]
  dsimp only
  refine ⟨?_, ?_, ?_, hcopied⟩
  · rw [rtmMsglen_congr fun k hk => fillReply_before (by omega), hblock]
    apply rtmMsglen_fillHeader
    rw [rtaxMax] at hturns
    rw [rtMsghdrSize]
    omega
  · intro k hk
    rw [fillReply_behind hk, hblock]
    exact fillHeader_behind _ (Nat.le_trans (by decide) hk)
  · rw [hcp]
    rfl

variable (rc) in
/-- A reply that does not fit keeps the length of the request and lacks an address. -/
theorem buildReply_short {flat : List UInt8}
    (hflat : flat = storage sc mem.ss (replyTurns sc mem slots rtm)) (hsize : rtMsghdrSize ≤ rtm.size)
    (hshort : rtm.size < rtMsghdrSize + flat.length) :
    let reply := buildReply sc mem rc slots rtm
    rtmMsglen reply.rtm.block = rtmMsglen rtm.block ∧ reply.rtm.filled = rtm.filled ∧
      ∃ i ∈ present slots (List.range rtaxMax), i ∉ reply.copied := by
  obtain ⟨hcp, hblock, hmissing⟩ := rtsockMsgBuffer_short (rtmType rtm.block) hflat hsize hshort
  rw [buildReply]
  dsimp only
  refine ⟨?_, ?_, hmissing⟩
  · apply rtmMsglen_congr
    intro k hk
    rw [fillReply_before (by omega), hblock k (Nat.lt_trans hk (by decide))]
  · rw [hcp]
    exact Nat.max_eq_left (Nat.zero_le _)

/-- **Where the addresses are kept and the scopes return, the reply is faithful.** -/
theorem faithful_of_kept (hroom : placeOf slots rtm.block rtaxMax ≤ rtm.size)
    (hlen : HasLengths slots rtm.block) (hkept : Kept sc mem.ss slots rtm.block)
    (hscopes : ScopesReturn sc mem.ss slots rtm.block (Block.write rtm.block rtMsghdrSize
      (copies sc mem.ss slots rtm.block (List.range rtaxMax)))) :
    Faithful sc slots rtm.block (buildReply sc mem rc slots rtm) := by
  have hcount := length_copies sc mem.ss rtm.block slots (List.range rtaxMax)
  obtain ⟨hmsglen, hblock, -, hcopied⟩ := buildReply_fits rc hkept.storage_eq.symm (by rwa [hcount])
  have hlies : LiesAt (buildReply sc mem rc slots rtm).rtm.block rtMsghdrSize
      (lay (pieces sc mem.ss slots rtm.block (List.range rtaxMax))) :=
    LiesAt.congr (fun k hk _ => hblock k hk) (Block.read_write _ _ _)
  have hstand : Stand sc (buildReply sc mem rc slots rtm).rtm.block rtMsghdrSize
      (pieces sc mem.ss slots rtm.block (List.range rtaxMax)) := by
    refine stand_pieces (fun i hi sa hsa hfamily hsize => ?_) (List.range rtaxMax) [] rfl
    have hsame : Block.read (buildReply sc mem rc slots rtm).rtm.block (placeOf slots rtm.block i) 28 =
        Block.read (Block.write rtm.block rtMsghdrSize
          (copies sc mem.ss slots rtm.block (List.range rtaxMax))) (placeOf slots rtm.block i) 28 := by
      apply Block.read_congr
      intro k _
      exact hblock _ (Nat.le_trans (Nat.le_add_right _ _) (Nat.le_add_right _ _))
    rw [hsame]
    exact hscopes.short i hi sa hsa hfamily hsize
  have hlen' : ∀ x ∈ pieces sc mem.ss slots rtm.block (List.range rtaxMax), x.len ≠ 0 := by
    intro x hx
    obtain ⟨i, hi, sa, hsa, rfl⟩ := mem_pieces hx
    rw [SaRef.copy_len]
    exact hlen i (List.mem_range.mp hi) sa hsa
  obtain ⟨hok, hnone, hfound⟩ := rtXaddrs_pieces pieces_slots rtmAddrs_buildReply hlies hstand hlen' hmsglen
  refine ⟨?_, ?_, hok, ?_, ?_⟩
  · rw [hmsglen, hcount]
  · intro i _
    rw [rtmAddrs_buildReply, hcopied]
  · intro i hi hempty
    apply hnone i
    rw [mem_present]
    rintro ⟨-, hsome⟩
    rw [address, Option.map_eq_none_iff] at hempty
    rw [hempty] at hsome
    exact absurd hsome (by decide)
  · intro i hi c hc
    rw [address, Option.map_eq_some_iff] at hc
    obtain ⟨sa, hsa, rfl⟩ := hc
    obtain ⟨off, hoff, hcontents⟩ := hfound _ (copy_mem_pieces (List.mem_range.mpr hi) hsa)
    refine ⟨off, hoff, hcontents.trans ?_⟩
    by_cases hfamily : sa.family rtm.block = afInet6
    · exact hscopes.parsed i hi sa hsa hfamily
    · exact SaRef.copy_parsed hfamily

end Pass

/-! ## What a faithful reply was built from -/

/-- The addresses that lie in the message are of another family than AF_INET6 and have no padding, and no
sockaddr_in6 is cut short. -/
structure Regular (slots : RtInfo) (b : Bytes) : Prop where
  kept : ∀ i < rtaxMax, ∀ off, slots i = some (.msg off) →
    (SaRef.msg off).family b ≠ afInet6 ∧ ((SaRef.msg off).len b).toNat % 8 = 0
  sin6 : ∀ i < rtaxMax, ∀ sa, slots i = some sa → sa.family b = afInet6 → 25 ≤ (sa.len b).toNat

section Converse

variable {sc : Scope6} {stack b b' t : Bytes} {slots : RtInfo} {p : Nat} {sa : SaRef}

theorem saSize_of_mod {len : UInt8} (hmod : len.toNat % 8 = 0) (hzero : len ≠ 0) :
    saSize len = len.toNat := by
  have hall : ∀ n : Fin 256, (UInt8.ofNat n).toNat % 8 = 0 → UInt8.ofNat n ≠ 0 →
      saSize (.ofNat n) = (UInt8.ofNat n).toNat := by decide +kernel
  have hlen := hall ⟨len.toNat, len.toNat_lt⟩
  rw [UInt8.ofNat_toNat] at hlen
  exact hlen hmod hzero

/-- What is read back at `p` is what the turn found in the block `t`, unless it was a sockaddr_in6. -/
theorem bytes_of_read (hfamily : sa.family b ≠ afInet6) (hmod : (sa.len b).toNat % 8 = 0)
    (hzero : sa.len b ≠ 0) (hat : LiesAt b' p (encoded sc stack t sa))
    (hread : Block.read (accept sc p b') p (sa.len t).toNat = sa.contents b) :
    ∀ k < sa.span b, sa.byte t k = sa.byte b k := by
  have hsize := saSize_spec (sa.len t)
  have hlen : sa.len t = sa.len b := by
    have hlength := congrArg List.length hread
    rw [Block.length_read, SaRef.length_contents] at hlength
    exact UInt8.toNat_inj.mp hlength
  have height : 8 ≤ (sa.len b).toNat := by
    have hpos : (sa.len b).toNat ≠ 0 := fun h => hzero (UInt8.toNat_inj.mp h)
    omega
  have hbyte (k : Nat) (hk : k < (sa.len b).toNat) : accept sc p b' (p + k) = sa.byte b k := by
    have hget := congrArg (·[k]?) hread
    rw [hlen] at hget
    simp only [SaRef.contents, SaRef.bytes, Block.getElem?_read hk] at hget
    rw [Nat.zero_add] at hget
    exact Option.some.inj hget
  -- the family stays what it is, so nothing is embedded
  have hfamily' : sa.family t = sa.family b := by
    have hone := hbyte 1 (by omega)
    rw [accept_before (by omega), ← hat.getD (by rw [encoded_length]; omega), List.getD_eq_getElem?_getD,
      (encoded_head sc stack t sa).2] at hone
    exact hone
  have hplain : encoded sc stack t sa = sa.bytes t (saSize (sa.len t)) :=
    encoded_of_family (by rw [hfamily']; exact hfamily)
  have hstays : accept sc p b' = b' := by
    have hfam := hbyte 1 (by omega)
    rw [accept_before (by omega)] at hfam
    rw [accept, if_neg]
    rw [hfam]
    exact hfamily
  intro k hk
  rw [SaRef.span, if_neg hfamily, saSize_of_mod hmod hzero, ← hlen] at hk
  have hfound := hbyte k (by rwa [← hlen])
  rw [hstays, ← hat.getD (by rw [encoded_length]; omega), hplain, SaRef.bytes, List.getD_eq_getElem?_getD,
    Block.getElem?_read (by omega), Nat.zero_add] at hfound
  exact hfound

variable (sc stack) in
/-- **What is read back faithfully was kept**, slot by slot, in a message that has the copies of the slots
`pre` in front of what the turns for the others stored. -/
theorem kept_of_read (hreg : Regular slots b) (hlen : HasLengths slots b) (cplim : Nat) {addrs : UInt32}
    (haddrs : ∀ j, hasAddr addrs j = decide (j ∈ present slots (List.range rtaxMax))) :
    ∀ (is pre : List Nat) (info : RtInfo) (b' : Bytes), pre ++ is = List.range rtaxMax →
      let flat := storage sc stack (turns sc stack slots is (rtMsghdrSize + roomFor slots b pre)
        (Block.write b rtMsghdrSize (copies sc stack slots b pre)))
      let r := rtXaddrs sc cplim addrs is (rtMsghdrSize + roomFor slots b pre) info b'
      LiesAt b' (rtMsghdrSize + roomFor slots b pre) flat →
      cplim = rtMsghdrSize + roomFor slots b pre + flat.length →
      (∀ i ∈ is, ∀ sa, slots i = some sa →
        ∃ off, r.2.1 i = some (.msg off) ∧ (SaRef.msg off).contents r.2.2 = sa.contents b) →
      ∀ i ∈ is, ∀ sa, slots i = some sa →
        (∀ k < sa.span b, sa.byte (Block.write b rtMsghdrSize
            (copies sc stack slots b (List.range i))) k = sa.byte b k) ∧
          (sa.family b = afInet6 → (sa.copy sc stack b i).parsed sc = sa.contents b) := by
  intro is
  induction is with
  | nil => exact fun _ _ _ _ _ _ _ i hi => absurd hi List.not_mem_nil
  | cons i is ih =>
    intro pre info b' hsplit
    obtain ⟨hpre, hlt⟩ := eq_range_of_append hsplit
    have hsplit' : pre ++ [i] ++ is = List.range rtaxMax := by
      rw [List.append_assoc]
      exact hsplit
    have hfresh : i ∉ is := by
      have hnodup : (pre ++ i :: is).Nodup := by
        rw [hsplit]
        exact List.nodup_range
      exact (List.nodup_cons.mp (List.nodup_append.mp hnodup).2.1).1
    cases hi : slots i with
    | none =>
      have hbit : hasAddr addrs i = false := by
        rw [haddrs, decide_eq_false_iff_not, mem_present, hi]
        exact fun h => absurd h.2 (by decide)
      have hrest := ih (pre ++ [i]) info b' hsplit'
      rw [roomFor_skip hi, copies_skip hi] at hrest
      dsimp only
      rw [storage_turns_empty hi, rtXaddrs_skip hbit]
      intro hat hend hread j hj sa hsa
      rcases List.mem_cons.mp hj with rfl | hj'
      · rw [hi] at hsa
        cases hsa
      · exact hrest hat hend (fun j hj => hread j (List.mem_cons_of_mem i hj)) j hj' sa hsa
    | some sa =>
      have hbit : hasAddr addrs i = true := by
        rw [haddrs, decide_eq_true_iff, mem_present, hi]
        exact ⟨hlt, rfl⟩
      dsimp only
      rw [storage_turns_cons hi]
      intro hat hend hread
      obtain ⟨hfirst, hbehind⟩ := LiesAt.append_iff.mp hat
      rw [List.length_append, ← Nat.add_assoc] at hend
      obtain ⟨hpiece, hturn⟩ := rtXaddrs_found hbit hfresh hfirst (SaRef.copy_size (i := i))
        (by dsimp only; omega) (hread i List.mem_cons_self sa hi)
      have hbytes : ∀ k < sa.span b,
          sa.byte (Block.write b rtMsghdrSize (copies sc stack slots b pre)) k = sa.byte b k := by
        cases sa with
        | ext f => exact fun _ _ => rfl
        | msg off =>
          obtain ⟨hfamily, hmod⟩ := hreg.kept i hlt off hi
          rw [SaRef.copy_len] at hpiece
          exact bytes_of_read hfamily hmod (hlen i hlt _ hi) hfirst hpiece
      -- so the turn has stored the copy, and the rest follows behind it
      have hcopy : encoded sc stack (Block.write b rtMsghdrSize (copies sc stack slots b pre)) sa =
          encoded sc stack b sa := encoded_congr hbytes
      have hsame : sa.copy sc stack (Block.write b rtMsghdrSize (copies sc stack slots b pre)) i =
          sa.copy sc stack b i := congrArg (Piece.mk i) hcopy
      rw [hcopy] at hfirst hbehind hend
      rw [hsame] at hturn hpiece
      rw [hturn] at hread
      have hplace : rtMsghdrSize + roomFor slots b pre + (encoded sc stack b sa).length =
          rtMsghdrSize + roomFor slots b (pre ++ [i]) := by
        rw [encoded_length, roomFor_succ hi, Nat.add_assoc]
      rw [write_copies_succ hi, hplace] at hbehind hend
      have hstands : (sa.copy sc stack b i).Stands sc b' (rtMsghdrSize + roomFor slots b pre) := by
        refine ⟨SaRef.copy_size, fun hfamily => .inl ?_⟩
        rw [SaRef.copy_family] at hfamily
        have hcomplete := hreg.sin6 i hlt sa hi hfamily
        have hsize := saSize_spec (sa.len b)
        show 28 ≤ (encoded sc stack b sa).length
        rw [encoded_length]
        omega
      have hrest := ih (pre ++ [i]) _ _ hsplit' (LiesAt.congr (fun k hk _ => accept_behind hfirst hstands
          (by rwa [hplace])) hbehind) hend fun j hj => by
        have hfound := hread j (List.mem_cons_of_mem i hj)
        dsimp only at hfound
        rwa [hplace] at hfound
      intro j hj sa' hsa
      rcases List.mem_cons.mp hj with rfl | hj'
      · obtain rfl := Option.some.inj (hi.symm.trans hsa)
        rw [← hpre]
        refine ⟨hbytes, fun _ => ?_⟩
        rw [← contents_accept hfirst hstands fun _ _ _ => rfl, contents_msg,
          accept_len hfirst hstands.two_le]
        exact hpiece
      · exact hrest j hj' sa' hsa

end Converse

/-- **What a faithful reply was built from was kept**, where the slots are regular. -/
theorem kept_of_faithful {sc : Scope6} {mem : Memory} {rc : RibCmdInfo} {slots : RtInfo} {rtm : Rtm}
    (hroom : placeOf slots rtm.block rtaxMax ≤ rtm.size) (hlen : HasLengths slots rtm.block)
    (hreg : Regular slots rtm.block) (h : Faithful sc slots rtm.block (buildReply sc mem rc slots rtm))
    (m : Bytes) : Kept sc mem.ss slots rtm.block ∧ ScopesReturn sc mem.ss slots rtm.block m := by
  have hsize : rtMsghdrSize ≤ rtm.size := Nat.le_trans (Nat.le_add_right _ _) hroom
  have hfits : rtMsghdrSize + (storage sc mem.ss (replyTurns sc mem slots rtm)).length ≤ rtm.size := by
    by_contra hshort
    -- an address is missing, and `rtm_addrs` names it
    obtain ⟨-, -, i, hi, hmissing⟩ := buildReply_short rc rfl hsize (Nat.lt_of_not_le hshort)
    have hbit := h.addrs i (mem_present.mp hi).1
    rw [rtmAddrs_buildReply, decide_eq_true hi, eq_comm, decide_eq_true_iff] at hbit
    exact hmissing hbit
  obtain ⟨hmsglen, hblock, -, -⟩ := buildReply_fits rc rfl hfits
  have hlies : LiesAt (buildReply sc mem rc slots rtm).rtm.block rtMsghdrSize
      (storage sc mem.ss (replyTurns sc mem slots rtm)) :=
    LiesAt.congr (fun k hk _ => hblock k hk) (Block.read_write _ _ _)
  have hnone : Block.write rtm.block rtMsghdrSize (copies sc mem.ss slots rtm.block []) = rtm.block :=
    Block.write_nil
  have hbits (j : Nat) : hasAddr (rtmAddrs (buildReply sc mem rc slots rtm).rtm.block) j =
      decide (j ∈ present slots (List.range rtaxMax)) := rtmAddrs_buildReply j
  have hread := kept_of_read sc mem.ss hreg hlen (rtmMsglen (buildReply sc mem rc slots rtm).rtm.block) hbits
    (List.range rtaxMax) [] (fun _ => none) (buildReply sc mem rc slots rtm).rtm.block rfl
  rw [hnone] at hread
  have hall := hread hlies hmsglen fun i hi sa hsa =>
    h.found i (List.mem_range.mp hi) _ (by rw [address, hsa]; rfl)
  refine ⟨fun i hi off hslot => (hall i (List.mem_range.mpr hi) _ hslot).1, ?_, ?_⟩
  · exact fun i hi sa hsa => (hall i (List.mem_range.mpr hi) sa hsa).2
  · intro i hi sa hsa hfamily hshort
    have hcomplete := hreg.sin6 i hi sa hsa hfamily
    have hspec := saSize_spec (sa.len rtm.block)
    omega

/-! ## `update_rtm_from_rc` -/

section Update

variable {sc : Scope6} {mem : Memory} {slots slots' : RtInfo} {b b' : Bytes} {rtm rtm' : Rtm}

theorem SameBytes.address_eq (h : SameBytes slots' b' slots b) (i : Nat) :
    address slots' b' i = address slots b i := by
  rw [address, address]
  cases hi : slots i with
  | none =>
    rw [h.of_none hi]
    rfl
  | some sa =>
    obtain ⟨sa', hsa', hbyte⟩ := h.of_some hi
    rw [hsa', Option.map_some, Option.map_some, SaRef.contents, SaRef.bytes, SaRef.len, hbyte]
    rfl

/-- A reply is as faithful to slots that hold the same addresses. -/
theorem Faithful.congr (h : SameBytes slots' b' slots b) {reply : Reply} :
    Faithful sc slots' b' reply ↔ Faithful sc slots b reply := by
  constructor
  · rintro ⟨hmsglen, haddrs, haccepted, habsent, hfound⟩
    simp only [h.address_eq, h.roomFor_eq] at hmsglen habsent hfound
    exact ⟨hmsglen, haddrs, haccepted, habsent, hfound⟩
  · rintro ⟨hmsglen, haddrs, haccepted, habsent, hfound⟩
    simp only [← h.address_eq, ← h.roomFor_eq] at hmsglen habsent hfound
    exact ⟨hmsglen, haddrs, haccepted, habsent, hfound⟩

theorem HasLengths.congr (h : SameBytes slots' b' slots b) (hlen : HasLengths slots b) :
    HasLengths slots' b' := by
  intro i hi sa' hsa'
  obtain ⟨sa, hsa, hbyte⟩ := h.symm.of_some hsa'
  have hsame : sa.len b = sa'.len b' := congrFun hbyte 0
  rw [← hsame]
  exact hlen i hi sa hsa

/-- The buffer for the reply has the room that was counted, and its slots the same addresses. -/
theorem replyBuffer_spec {len : Nat} (h : replyBuffer mem len slots rtm = some (slots', rtm')) :
    len ≤ rtm'.size ∧ SameBytes slots' rtm'.block slots rtm.block := by
  unfold replyBuffer at h
  split at h
  · rw [Option.map_eq_some_iff] at h
    obtain ⟨tmp, -, hbuf⟩ := h
    cases hbuf
    refine ⟨Nat.le_refl len, fun i => ?_⟩
    rw [Option.map_map]
    congr 1
    funext sa
    cases sa <;> rfl
  case _ hroom =>
    cases h
    exact ⟨Nat.le_of_not_lt hroom, fun _ => rfl⟩

/-- In a larger buffer no slot points into the message. -/
theorem replyBuffer_outside {len : Nat} (h : replyBuffer mem len slots rtm = some (slots', rtm'))
    (hlen : rtm.size < len) (i off : Nat) : slots' i ≠ some (.msg off) := by
  rw [replyBuffer, if_pos hlen, Option.map_eq_some_iff] at h
  obtain ⟨tmp, -, hbuf⟩ := h
  cases hbuf
  intro hi
  rw [Option.map_eq_some_iff] at hi
  obtain ⟨old, -, hleave⟩ := hi
  cases old <;> cases hleave

theorem updateRtmFromRc_eq {jail : Jail} {rc : RibCmdInfo} {maxlen : Nat} {ready last : RtInfo}
    {rtmReady rtmLast : Rtm} (hready : aboutToBuild sc jail mem rc slots rtm = .ok (ready, rtmReady))
    (hmax : replyLen sc mem ready rtmReady ≤ maxlen)
    (hbuf : replyBuffer mem (replyLen sc mem ready rtmReady) ready rtmReady = some (last, rtmLast)) :
    updateRtmFromRc sc jail mem rc maxlen slots rtm = buildReply sc mem rc last rtmLast := by
  rw [updateRtmFromRc, hready]
  dsimp only
  rw [if_neg (Nat.not_lt.mpr hmax), hbuf]

variable (sc mem slots rtm) in
/-- The length that is counted is where the copies end. -/
theorem replyLen_eq : replyLen sc mem slots rtm = placeOf slots rtm.block rtaxMax :=
  rtsockMsgBuffer_counts

/-- **What a faithful reply needs** of the slots and of the message `rtm`, when it is about to be built in
the block `buf`: in the buffer of the request, the addresses of the message are kept; and the sockaddrs of
family AF_INET6 come back. -/
structure Intact (sc : Scope6) (stack : Bytes) (slots : RtInfo) (rtm : Rtm) (buf : Bytes) : Prop where
  kept : placeOf slots rtm.block rtaxMax ≤ rtm.size → Kept sc stack slots rtm.block
  scopes : ScopesReturn sc stack slots rtm.block (Block.write buf rtMsghdrSize
    (copies sc stack slots rtm.block (List.range rtaxMax)))

instance (sc : Scope6) (stack : Bytes) (slots : RtInfo) (rtm : Rtm) (buf : Bytes) :
    Decidable (Intact sc stack slots rtm buf) :=
  decidable_of_iff ((placeOf slots rtm.block rtaxMax ≤ rtm.size → Kept sc stack slots rtm.block) ∧
      ScopesReturn sc stack slots rtm.block (Block.write buf rtMsghdrSize
        (copies sc stack slots rtm.block (List.range rtaxMax))))
    ⟨fun h => ⟨h.1, h.2⟩, fun h => ⟨h.kept, h.scopes⟩⟩

section Built

variable {jail : Jail} {rc : RibCmdInfo} {maxlen : Nat} {ready last : RtInfo} {rtmReady rtmLast : Rtm}

/-- A slot that was filled with nothing of the message. -/
theorem kept_of_update {slots : RtInfo} {j i off : Nat} {sa : Option SaRef} (hsa : sa ≠ some (.msg off))
    (h : Function.update slots j sa i = some (.msg off)) : slots i = some (.msg off) ∧ i ≠ j := by
  by_cases hij : i = j
  · subst hij
    rw [Function.update_self] at h
    exact absurd h hsa
  · rw [Function.update_of_ne hij] at h
    exact ⟨h, hij⟩

/-- **A reply repeats what the route does not give**: an address of the request that it is built from is in
a slot that neither the route nor its interface fills. -/
theorem repeated_of_ready (hready : aboutToBuild sc jail mem rc slots rtm = .ok (ready, rtmReady))
    {i off : Nat} (hi : ready i = some (.msg off)) :
    slots i = some (.msg off) ∧ i ∉ [rtaxDst, rtaxGateway, rtaxNetmask, rtaxGenmask] ∧
      (rtmAddrs rtm.block &&& rtaIfpIfa ≠ 0 → i ∉ [rtaxIfp, rtaxIfa]) := by
  unfold aboutToBuild at hready
  dsimp only at hready
  generalize exportRtaddrs rc.rt _ _ = addrs at hready
  have hroute : Function.update (Function.update (Function.update (Function.update slots rtaxDst
      (some (.ext addrs.1))) rtaxNetmask (if rc.rt.isHost then none else some (.ext addrs.2))) rtaxGateway
        (some (.ext rc.nh.gwSa))) rtaxGenmask none i = some (.msg off) →
      slots i = some (.msg off) ∧ i ∉ [rtaxDst, rtaxGateway, rtaxNetmask, rtaxGenmask] := by
    intro h
    obtain ⟨h, hgenmask⟩ := kept_of_update (by simp) h
    obtain ⟨h, hgateway⟩ := kept_of_update (by simp) h
    obtain ⟨h, hnetmask⟩ := kept_of_update (by split <;> simp) h
    obtain ⟨h, hdst⟩ := kept_of_update (by simp) h
    exact ⟨h, by simp [hdst, hgateway, hnetmask, hgenmask]⟩
  have hifp {s : RtInfo} {sa sa' : Option SaRef} (hsa : sa ≠ some (.msg off)) (hsa' : sa' ≠ some (.msg off))
      (h : Function.update (Function.update s rtaxIfp sa) rtaxIfa sa' i = some (.msg off)) :
      s i = some (.msg off) ∧ i ∉ [rtaxIfp, rtaxIfa] := by
    obtain ⟨h, hifa⟩ := kept_of_update hsa' h
    obtain ⟨h, hifp⟩ := kept_of_update hsa h
    exact ⟨h, by simp [hifp, hifa]⟩
  split at hready
  · split at hready
    · split at hready
      · cases hready
      · cases hready
        split at hi
        · -- a point-to-point interface gives the broadcast address as well
          obtain ⟨hi, -⟩ := kept_of_update (by cases rc.nh.ifaDstaddr <;> simp) hi
          obtain ⟨h, hnot⟩ := hifp (by simp) (by simp) hi
          exact ⟨(hroute h).1, (hroute h).2, fun _ => hnot⟩
        · obtain ⟨h, hnot⟩ := hifp (by simp) (by simp) hi
          exact ⟨(hroute h).1, (hroute h).2, fun _ => hnot⟩
    · cases hready
      obtain ⟨h, hnot⟩ := hifp (by simp) (by simp) hi
      exact ⟨(hroute h).1, (hroute h).2, fun _ => hnot⟩
  case _ hbits =>
    have hnone : rtmAddrs rtm.block &&& rtaIfpIfa ≠ 0 → i ∉ [rtaxIfp, rtaxIfa] := fun h => absurd h hbits
    split at hready
    · cases hready
      exact ⟨(hroute hi).1, (hroute hi).2, hnone⟩
    · cases hready
      exact ⟨(hroute hi).1, (hroute hi).2, hnone⟩

theorem room_of_reply (hbuf : replyBuffer mem (replyLen sc mem ready rtmReady) ready rtmReady =
    some (last, rtmLast)) : placeOf last rtmLast.block rtaxMax ≤ rtmLast.size := by
  obtain ⟨hsize, hsame⟩ := replyBuffer_spec hbuf
  rw [hsame.placeOf_eq]
  rwa [replyLen_eq] at hsize

/-- The second pass is over the request itself, or no slot points into what it is over. -/
theorem replyBuffer_cases
    (hbuf : replyBuffer mem (replyLen sc mem ready rtmReady) ready rtmReady = some (last, rtmLast)) :
    placeOf ready rtmReady.block rtaxMax ≤ rtmReady.size ∧ last = ready ∧ rtmLast = rtmReady ∨
      rtmReady.size < placeOf ready rtmReady.block rtaxMax ∧ ∀ i off, last i ≠ some (.msg off) := by
  rcases Nat.lt_or_ge rtmReady.size (replyLen sc mem ready rtmReady) with hlarger | hfits
  · exact .inr ⟨by rwa [← replyLen_eq sc mem], replyBuffer_outside hbuf hlarger⟩
  · rw [replyBuffer, if_neg (Nat.not_lt.mpr hfits)] at hbuf
    cases hbuf
    exact .inl ⟨by rwa [← replyLen_eq sc mem], rfl, rfl⟩

theorem update_faithful (hready : aboutToBuild sc jail mem rc slots rtm = .ok (ready, rtmReady))
    (hmax : replyLen sc mem ready rtmReady ≤ maxlen)
    (hbuf : replyBuffer mem (replyLen sc mem ready rtmReady) ready rtmReady = some (last, rtmLast))
    (hlen : HasLengths ready rtmReady.block) (h : Intact sc mem.ss ready rtmReady rtmLast.block) :
    Faithful sc ready rtmReady.block (updateRtmFromRc sc jail mem rc maxlen slots rtm) := by
  have hsame := (replyBuffer_spec hbuf).2
  have hkept : Kept sc mem.ss last rtmLast.block := by
    rcases replyBuffer_cases hbuf with ⟨hfits, rfl, rfl⟩ | ⟨-, hout⟩
    · exact h.kept hfits
    · exact fun i _ off hslot => absurd hslot (hout i off)
  have hscopes := hsame.scopesReturn h.scopes
  rw [copies, ← hsame.pieces_eq] at hscopes
  rw [updateRtmFromRc_eq hready hmax hbuf, ← Faithful.congr hsame]
  exact faithful_of_kept (room_of_reply hbuf) (hlen.congr hsame) hkept hscopes

/-- **A reply is faithful where the addresses of the message are kept and those of family AF_INET6 come
back**; and only there, if the slots are regular. An address of the message that is a sockaddr_in6, or has
padding, is copied with more than its contents, which other bytes than its own may do for. -/
theorem reply_is_faithful_when
    (hready : aboutToBuild sc jail mem rc slots rtm = .ok (ready, rtmReady))
    (hmax : replyLen sc mem ready rtmReady ≤ maxlen)
    (hbuf : replyBuffer mem (replyLen sc mem ready rtmReady) ready rtmReady = some (last, rtmLast))
    (hlen : HasLengths ready rtmReady.block) :
    (Intact sc mem.ss ready rtmReady rtmLast.block →
        Faithful sc ready rtmReady.block (updateRtmFromRc sc jail mem rc maxlen slots rtm)) ∧
      (Regular ready rtmReady.block →
        (Faithful sc ready rtmReady.block (updateRtmFromRc sc jail mem rc maxlen slots rtm) ↔
          Intact sc mem.ss ready rtmReady rtmLast.block)) := by
  have hgo : Intact sc mem.ss ready rtmReady rtmLast.block →
      Faithful sc ready rtmReady.block (updateRtmFromRc sc jail mem rc maxlen slots rtm) :=
    update_faithful hready hmax hbuf hlen
  refine ⟨hgo, fun hreg => ⟨fun h => ?_, hgo⟩⟩
  have hsame := (replyBuffer_spec hbuf).2
  have hreg' : Regular last rtmLast.block := by
    refine ⟨fun i hi off hslot => ?_, fun i hi sa hsa hfamily => ?_⟩
    · rcases replyBuffer_cases hbuf with ⟨-, rfl, rfl⟩ | ⟨-, hout⟩
      · exact hreg.kept i hi off hslot
      · exact absurd hslot (hout i off)
    · obtain ⟨old, hold, hbyte⟩ := hsame.symm.of_some hsa
      have hlen' : old.len rtmReady.block = sa.len rtmLast.block := congrFun hbyte 0
      rw [← hlen']
      exact hreg.sin6 i hi old hold ((congrFun hbyte 1).trans hfamily)
  rw [updateRtmFromRc_eq hready hmax hbuf, ← Faithful.congr hsame] at h
  obtain ⟨hkept, hscopes⟩ := kept_of_faithful (room_of_reply hbuf) (hlen.congr hsame) hreg' h
    (Block.write rtmLast.block rtMsghdrSize (copies sc mem.ss ready rtmReady.block (List.range rtaxMax)))
  refine ⟨fun hfits => ?_, hsame.symm.scopesReturn hscopes⟩
  rcases replyBuffer_cases hbuf with ⟨-, rfl, rfl⟩ | ⟨hlarger, -⟩
  · exact hkept
  · exact absurd hfits (Nat.not_le.mpr hlarger)

/-- **A reply in a larger buffer is faithful** as far as no sockaddr_in6 is in it: the request is left
alone until every address has been copied. -/
theorem larger_buffer_is_faithful
    (hready : aboutToBuild sc jail mem rc slots rtm = .ok (ready, rtmReady))
    (hmax : replyLen sc mem ready rtmReady ≤ maxlen)
    (hbuf : replyBuffer mem (replyLen sc mem ready rtmReady) ready rtmReady = some (last, rtmLast))
    (hlen : HasLengths ready rtmReady.block)
    (hlarger : rtmReady.size < placeOf ready rtmReady.block rtaxMax)
    (hfamily : ∀ i < rtaxMax, ∀ sa, ready i = some sa → sa.family rtmReady.block ≠ afInet6) :
    Faithful sc ready rtmReady.block (updateRtmFromRc sc jail mem rc maxlen slots rtm) := by
  refine update_faithful hready hmax hbuf hlen ⟨fun hfits => absurd hfits (Nat.not_le.mpr hlarger), ?_⟩
  exact ⟨fun i hi sa hsa h6 => absurd h6 (hfamily i hi sa hsa),
    fun i hi sa hsa h6 => absurd h6 (hfamily i hi sa hsa)⟩

/-- **So is one in place**, if every address that it repeats lies no further ahead in the request than
in the reply. -/
theorem unreached_is_faithful
    (hready : aboutToBuild sc jail mem rc slots rtm = .ok (ready, rtmReady))
    (hmax : replyLen sc mem ready rtmReady ≤ maxlen)
    (hbuf : replyBuffer mem (replyLen sc mem ready rtmReady) ready rtmReady = some (last, rtmLast))
    (hlen : HasLengths ready rtmReady.block)
    (hfamily : ∀ i < rtaxMax, ∀ sa, ready i = some sa → sa.family rtmReady.block ≠ afInet6)
    (hunreached : Unreached ready rtmReady.block) :
    Faithful sc ready rtmReady.block (updateRtmFromRc sc jail mem rc maxlen slots rtm) := by
  refine update_faithful hready hmax hbuf hlen ⟨fun _ => kept_of_unreached hunreached, ?_⟩
  exact ⟨fun i hi sa hsa h6 => absurd h6 (hfamily i hi sa hsa),
    fun i hi sa hsa h6 => absurd h6 (hfamily i hi sa hsa)⟩

end Built

end Update

/-! ## A request for a route and a source

The route to 10.0.0.0/8 goes through 10.0.0.1. A request asks for it by the destination 10.0.0.5 and
may name 192.0.2.7 as `RTAX_AUTHOR`. -/

namespace Sample

def scope : Scope6 := ⟨id, some, id, fun _ => rfl, fun h h' => by cases h'; exact h, fun _ h => by cases h; rfl⟩

def jail : Jail := ⟨fun _ => true, fun _ => true, some, fun _ => true, some⟩

def memory : Memory := ⟨fun _ => 0, fun _ => 0, fun _ => 0, fun _ => 0, none⟩

def caller : Caller := ⟨1, 0, false⟩

/-- A `sockaddr_in`. -/
def sin (addr : List UInt8) : List UInt8 := [16, 2, 0, 0] ++ addr ++ List.replicate 8 0

def route : RibCmdInfo where
  rt := ⟨[10, 0, 0, 0], [255, 0, 0, 0], 0, 1, false, 0⟩
  nh := ⟨Block.write (fun _ => 0) 0 (sin [10, 0, 0, 1]), none, fun _ => 0, none, 0, 1500, 1⟩
  nhWeight := 1

/-- An RTM_GET message with the addresses `sas`. -/
def request (addrs : UInt32) (sas : List UInt8) : Bytes :=
  Block.write (fun _ => 0) 0
    (le16 (.ofNat (rtMsghdrSize + sas.length)) ++ [5, rtmGet] ++ List.replicate 8 0 ++ le32 addrs ++
      List.replicate 136 0 ++ sas)

/-- The request as `fill_addrinfo` leaves it, in its buffer. -/
def parsed (len : Nat) (b : Bytes) : Outcome := fillAddrinfo scope caller len b
def rtm (len : Nat) (b : Bytes) : Rtm := ⟨(parsed len b).2.block, 1024, len⟩

def plain : Bytes := request 1 (sin [10, 0, 0, 5])
def withAuthor : Bytes := request 65 (sin [10, 0, 0, 5] ++ sin [192, 0, 2, 7])

/-- With a gateway and a netmask, the author lies where the reply has it; behind it a broadcast address of
family AF_INET6 with 8 bytes. -/
def withAll : Bytes := request 199 (sin [10, 0, 0, 5] ++ sin [10, 0, 0, 1] ++ sin [255, 0, 0, 0] ++
  sin [192, 0, 2, 7] ++ [8, afInet6, 0, 0, 0, 0, 0, 0])

end Sample

open Sample in
/-- The route's gateway is stored where the author of the request lies, and the reply repeats it as the
author. -/
theorem author_is_overwritten :
    (parsed 184 withAuthor).1 = 0 ∧
      ∃ ready rtmReady, aboutToBuild scope jail memory route (parsed 184 withAuthor).2.slots
          (rtm 184 withAuthor) = .ok (ready, rtmReady) ∧
        HasLengths ready rtmReady.block ∧
        (updateRtmFromRc scope jail memory route 1024 (parsed 184 withAuthor).2.slots
          (rtm 184 withAuthor)).error = 0 ∧
        ¬ Faithful scope ready rtmReady.block (updateRtmFromRc scope jail memory route 1024
          (parsed 184 withAuthor).2.slots (rtm 184 withAuthor)) := by
  refine ⟨by decide +kernel, _, _, rfl, by decide +kernel, by decide +kernel, ?_⟩
  intro h
  obtain ⟨off, hoff, hcontents⟩ := h.found rtaxAuthor (by decide) (sin [192, 0, 2, 7])
    (by decide +kernel)
  have hplace : (parseMessage scope (updateRtmFromRc scope jail memory route 1024
      (parsed 184 withAuthor).2.slots (rtm 184 withAuthor)).rtm.block).2.1 rtaxAuthor =
        some (.msg 200) := rfl
  rw [hplace] at hoff
  cases hoff
  revert hcontents
  decide +kernel

open Sample in
theorem reply_is_faithful_in_place :
    ∃ ready rtmReady, aboutToBuild scope jail memory route (parsed 224 withAll).2.slots (rtm 224 withAll) =
        .ok (ready, rtmReady) ∧
      (∃ off, ready rtaxAuthor = some (.msg off)) ∧ (∃ off, ready rtaxBrd = some (.msg off)) ∧
      Faithful scope ready rtmReady.block (updateRtmFromRc scope jail memory route 1024
        (parsed 224 withAll).2.slots (rtm 224 withAll)) := by
  refine ⟨_, _, rfl, ⟨200, rfl⟩, ⟨216, rfl⟩, ?_⟩
  apply (reply_is_faithful_when rfl (by decide +kernel) rfl (by decide +kernel)).1
  decide +kernel

end LazyBsd.Route
