/-
# LazyBsd.Socket.Ancillary — control messages keep level, type and data across the translations.

In place the two headers share their first twelve bytes, and both walks step by a length that the turn
has just rewritten: the header lemmas say what each field reads as after the turn, the turn lemmas that
both layouts then step by the same distance. The runs are inductions on the messages of the buffer.
-/
import LazyBsd.Socket.Cmsg

namespace LazyBsd.Socket

open Lib.Object

variable {b b' : Contents Obj} {p q linux freebsd : Ptr Obj} {lay : Layout} {n m v i j : Nat}

/-! ## Numbers of the macros -/

theorem cmsgLenOf_eq (h : n < 2 ^ 64) : cmsgLenOf n = n := by
  have hcancel : (16 : UInt64) + (UInt64.ofNat n - 16) = UInt64.ofNat n := by
    rw [UInt64.add_comm, UInt64.sub_add_cancel]
  rw [cmsgLenOf, hcancel, UInt64.toNat_ofNat_of_lt' (by simpa using h)]

theorem payloadLen_eq (hlo : dataOff ≤ n) (hhi : n < 2 ^ 64) : payloadLen n = n - dataOff := by
  have hn : (UInt64.ofNat n).toNat = n := UInt64.toNat_ofNat_of_lt' (by simpa using hhi)
  rw [payloadLen, UInt64.toNat_sub_of_le, hn]
  · rfl
  · rw [UInt64.le_iff_toNat_le, hn]
    exact hlo

theorem align_spec (n : Nat) : n ≤ align n ∧ align n < n + 8 ∧ align n % 8 = 0 := by
  unfold align
  omega

theorem dataOff_le_align (h : dataOff ≤ n) : dataOff ≤ align n := h.trans (align_spec n).1

/-! ## Fields of a header -/

theorem number_put_beside (h : i + n ≤ j ∨ j + m ≤ i) :
    number (put b (p + i) n v) (p + j) m = number b (p + j) m := by
  apply number_put_apart
  intro _
  simp only [Ptr.add_off]
  omega

theorem number_put_first (h : n ≤ j) : number (put b p n v) (p + j) m = number b (p + j) m :=
  number_put_beside (i := 0) (.inl (by omega))

theorem number_put_later (h : m ≤ i) : number (put b (p + i) n v) p m = number b p m :=
  number_put_beside (j := 0) (.inr (by omega))

theorem not_covers_front (h : ¬ p.Covers dataOff q) (hi : i + n ≤ dataOff) : ¬ (p + i).Covers n q := by
  rintro ⟨hobj, hlo, hhi⟩
  rw [Ptr.add_off] at hlo hhi
  exact h ⟨hobj, by omega, by omega⟩

/-- What the Linux header reads as after it was written over the FreeBSD one. -/
theorem freebsd2linuxHeader_inPlace (b : Contents Obj) (p : Ptr Obj) :
    cmsgLen .linux (freebsd2linuxHeader b p p) p = cmsgLen .freebsd b p ∧
      cmsgLevel .linux (freebsd2linuxHeader b p p) p = cmsgLevel .freebsd b p ∧
      cmsgType .linux (freebsd2linuxHeader b p p) p = cmsgType .freebsd b p := by
  have hlen : number b p 4 < 2 ^ 32 := number_lt b p 4
  have hlevel : number b (p + 4) 4 < 2 ^ 32 := number_lt b (p + 4) 4
  have htype : number b (p + 8) 4 < 2 ^ 32 := number_lt b (p + 8) 4
  -- the level is read behind the write of the type, the length behind both
  have hlevel₁ : number (put b (p + 12) 4 (number b (p + 8) 4)) (p + 4) 4 = number b (p + 4) 4 :=
    number_put_beside (by omega)
  have hlen₁ : number (put b (p + 12) 4 (number b (p + 8) 4)) p 4 = number b p 4 :=
    number_put_later (by omega)
  have hlen₂ : number (put (put b (p + 12) 4 (number b (p + 8) 4)) (p + 8) 4 (number b (p + 4) 4))
      p 4 = number b p 4 := (number_put_later (by omega)).trans hlen₁
  have hheader : freebsd2linuxHeader b p p =
      put (put (put b (p + 12) 4 (number b (p + 8) 4)) (p + 8) 4 (number b (p + 4) 4)) p 8
        (number b p 4) := by
    simp only [freebsd2linuxHeader, setCmsgType, setCmsgLevel, setCmsgLen, cmsgType, cmsgLevel,
      cmsgLen, Layout.lenSize, Nat.reduceAdd]
    rw [hlevel₁, hlen₂, cmsgLenOf_eq (by omega)]
  simp only [hheader, cmsgType, cmsgLevel, cmsgLen, Layout.lenSize, Nat.reduceAdd]
  refine ⟨?_, ?_, ?_⟩
  · rw [number_put, Nat.mod_eq_of_lt (by omega)]
  · rw [number_put_first (by omega), number_put, Nat.mod_eq_of_lt (by omega)]
  · rw [number_put_first (by omega), number_put_beside (by omega), number_put,
      Nat.mod_eq_of_lt (by omega)]

theorem freebsd2linuxHeader_other (h : ¬ linux.Covers dataOff q) :
    freebsd2linuxHeader b freebsd linux q = b q := by
  have hlen : ¬ linux.Covers 8 q := not_covers_front (i := 0) h (by decide)
  have hlevel : ¬ (linux + 8).Covers 4 q := not_covers_front h (by decide)
  have htype : ¬ (linux + 12).Covers 4 q := not_covers_front h (by decide)
  exact (put_other hlen).trans ((put_other hlevel).trans (put_other htype))

-- The fields of a header, each apart from the others and from the data behind.
section Fields

theorem cmsgLen_setCmsgLen :
    cmsgLen lay (setCmsgLen lay b p v) p = v % 256 ^ lay.lenSize := number_put

theorem cmsgType_setCmsgType : cmsgType lay (setCmsgType lay b p v) p = v % 256 ^ 4 := number_put

@[simp] theorem cmsgLevel_setCmsgLen : cmsgLevel lay (setCmsgLen lay b p v) p = cmsgLevel lay b p :=
  number_put_first le_rfl

@[simp] theorem cmsgType_setCmsgLen : cmsgType lay (setCmsgLen lay b p v) p = cmsgType lay b p :=
  number_put_first (Nat.le_add_right _ _)

theorem cmsgLevel_setCmsgLevel : cmsgLevel lay (setCmsgLevel lay b p v) p = v % 256 ^ 4 :=
  number_put

@[simp] theorem cmsgType_setCmsgLevel :
    cmsgType lay (setCmsgLevel lay b p v) p = cmsgType lay b p :=
  number_put_beside (.inl le_rfl)

@[simp] theorem cmsgLen_setCmsgType : cmsgLen lay (setCmsgType lay b p v) p = cmsgLen lay b p :=
  number_put_later (Nat.le_add_right _ _)

@[simp] theorem cmsgLevel_setCmsgType :
    cmsgLevel lay (setCmsgType lay b p v) p = cmsgLevel lay b p :=
  number_put_beside (.inr (by simp))

theorem header_lt_dataOff (lay : Layout) : lay.lenSize + 8 ≤ dataOff := by cases lay <;> decide

variable (lay) in
/-- Bytes from the data on are no part of the header. -/
theorem header_congr (h : ∀ i < dataOff, b' (p + i) = b (p + i)) :
    cmsgLen lay b' p = cmsgLen lay b p ∧ cmsgLevel lay b' p = cmsgLevel lay b p ∧
      cmsgType lay b' p = cmsgType lay b p := by
  have hsize := header_lt_dataOff lay
  refine ⟨number_congr ?_, number_congr ?_, number_congr ?_⟩
  · intro i hi
    exact h i (by omega)
  · intro i hi
    rw [Ptr.add_add]
    exact h _ (by omega)
  · intro i hi
    rw [Ptr.add_add]
    exact h _ (by omega)

theorem not_covers_data_of_lt (n : Nat) (hi : i < dataOff) : ¬ (p + dataOff).Covers n (p + i) := by
  rintro ⟨-, hlo, -⟩
  rw [Ptr.add_off, Ptr.add_off] at hlo
  omega

end Fields

theorem not_covers_payload (i : Nat) : ¬ p.Covers dataOff (p + dataOff + i) := by
  rintro ⟨-, -, hhi⟩
  simp only [Ptr.add_off] at hhi
  omega

/-! ## One turn in place -/

/-- A turn wrote the message `msg` at `p`, in `lay` and within the `n` bytes that the message there
had. -/
structure Rewritten (lay : Layout) (b b' : Contents Obj) (p : Ptr Obj) (n : Nat) (msg : Cmsg) :
    Prop where
  message : messageAt lay b' p = msg
  len : cmsgLen lay b' p = dataOff + msg.payload.length
  space : align (cmsgLen lay b' p) = n
  frame : ∀ q, ¬ p.Covers n q → b' q = b q

/-- What lies before a message is as it was. -/
theorem Rewritten.before {msg : Cmsg} (h : Rewritten lay b b' p n msg)
    (hq : q.obj = p.obj → q.off < p.off) : b' q = b q := by
  apply h.frame
  rintro ⟨hobj, hlo, -⟩
  exact absurd (hq hobj) (Nat.not_lt.mpr hlo)

theorem bytesAt_of_frame (h : ∀ q, ¬ p.Covers dataOff q → b' q = b q) (n : Nat) :
    bytesAt b' (p + dataOff) n = bytesAt b (p + dataOff) n :=
  bytesAt_congr fun i _ => h _ (not_covers_payload i)

theorem covers_mono (h : n ≤ m) (hq : ¬ p.Covers m q) : ¬ p.Covers n q :=
  fun ⟨hobj, hlo, hhi⟩ => hq ⟨hobj, hlo, by omega⟩

theorem payload_messageAt :
    (messageAt lay b p).payload = bytesAt b (p + dataOff) (cmsgLen lay b p - dataOff) := by
  rw [messageAt]

theorem length_payload_messageAt :
    (messageAt lay b p).payload.length = cmsgLen lay b p - dataOff := length_bytesAt

theorem Rewritten.of_fields {msg : Cmsg} (hlevel : cmsgLevel lay b' p = msg.level)
    (htype : cmsgType lay b' p = msg.type)
    (hlen : cmsgLen lay b' p = dataOff + msg.payload.length)
    (hbytes : bytesAt b' (p + dataOff) msg.payload.length = msg.payload)
    (hspace : align (dataOff + msg.payload.length) = n)
    (hframe : ∀ q, ¬ p.Covers n q → b' q = b q) : Rewritten lay b b' p n msg := by
  refine ⟨?_, hlen, ?_, hframe⟩
  · rw [messageAt, hlevel, htype, hlen, Nat.add_sub_cancel_left, hbytes]
  · rw [hlen, hspace]

/-- A byte stored as an `int`. -/
theorem bytesAt_put_int (x : UInt8) : bytesAt (put b p 4 x.toNat) p 4 = [x, 0, 0, 0] := by
  have hx := x.toNat_lt
  have hat (i : Nat) (hi : i < 4) : put b p 4 x.toNat (p + i) = .ofNat (x.toNat / 256 ^ i) :=
    put_at hi
  have hhigh (i : Nat) (hi : 1 ≤ i) : x.toNat / 256 ^ i = 0 := by
    apply Nat.div_eq_of_lt
    exact hx.trans_le (Nat.pow_le_pow_right (n := 256) (Nat.succ_pos _) hi)
  have hlist : bytesAt (put b p 4 x.toNat) p 4 = [put b p 4 x.toNat (p + 0),
      put b p 4 x.toNat (p + 1), put b p 4 x.toNat (p + 2), put b p 4 x.toNat (p + 3)] := rfl
  rw [hlist, hat 0 (by decide), hat 1 (by decide), hat 2 (by decide), hat 3 (by decide),
    hhigh 1 (by decide), hhigh 2 (by decide), hhigh 3 (by decide), Nat.pow_zero, Nat.div_one,
    UInt8.ofNat_toNat]
  rfl

/-- The header of an `IP_RECVTTL` message with its new length and type, before the data is stored. -/
def ttlHeader (b : Contents Obj) (p : Ptr Obj) : Contents Obj :=
  setCmsgType .linux (setCmsgLen .linux (freebsd2linuxHeader b p p) p (dataOff + 4)) p linuxIpTtl

variable (b p) in
theorem ttlHeader_fields :
    cmsgLen .linux (ttlHeader b p) p = dataOff + 4 ∧
      cmsgLevel .linux (ttlHeader b p) p = cmsgLevel .freebsd b p ∧
      cmsgType .linux (ttlHeader b p) p = linuxIpTtl := by
  obtain ⟨-, hlevel, -⟩ := freebsd2linuxHeader_inPlace b p
  refine ⟨?_, ?_, ?_⟩
  · rw [ttlHeader, cmsgLen_setCmsgType, cmsgLen_setCmsgLen]
    rfl
  · rw [ttlHeader, cmsgLevel_setCmsgType, cmsgLevel_setCmsgLen, hlevel]
  · rw [ttlHeader, cmsgType_setCmsgType]
    rfl

theorem ttlHeader_other {q : Ptr Obj} (hq : ¬ p.Covers dataOff q) : ttlHeader b p q = b q := by
  have htype : ¬ (p + 12).Covers 4 q := not_covers_front hq (by decide)
  have hlen : ¬ p.Covers 8 q := covers_mono (by decide) hq
  exact (put_other htype).trans ((put_other hlen).trans (freebsd2linuxHeader_other hq))

section InPlace

variable (b p) (hlen : dataOff ≤ cmsgLen .freebsd b p)
include hlen

/-- Only the header is rewritten. -/
theorem Rewritten.of_header {b' : Contents Obj} {msg : Cmsg} (hlevel : cmsgLevel .linux b' p = msg.level)
    (htype : cmsgType .linux b' p = msg.type) (hlen' : cmsgLen .linux b' p = cmsgLen .freebsd b p)
    (hpayload : msg.payload = (messageAt .freebsd b p).payload)
    (hframe : ∀ q, ¬ p.Covers dataOff q → b' q = b q) :
    Rewritten .linux b b' p (align (cmsgLen .freebsd b p)) msg := by
  have hwhole : dataOff + msg.payload.length = cmsgLen .freebsd b p := by
    rw [hpayload, length_payload_messageAt, Nat.add_sub_cancel' hlen]
  apply Rewritten.of_fields hlevel htype
  · rw [hlen', hwhole]
  · rw [bytesAt_of_frame hframe, hpayload, length_payload_messageAt]
    rfl
  · rw [hwhole]
  · intro q hq
    exact hframe q (covers_mono (dataOff_le_align hlen) hq)

/-- `IP_RECVTOS`: only the type changes. -/
theorem freebsd2linuxTurn_tos
    (htos : cmsgLevel .freebsd b p = ipprotoIp ∧ cmsgType .freebsd b p = ipRecvtos) :
    Rewritten .linux b (freebsd2linuxTurn b p p) p (align (cmsgLen .freebsd b p))
      { messageAt .freebsd b p with type := linuxIpTos } := by
  obtain ⟨hlen₁, hlevel₁, htype₁⟩ := freebsd2linuxHeader_inPlace b p
  have hturn : freebsd2linuxTurn b p p =
      setCmsgType .linux (freebsd2linuxHeader b p p) p linuxIpTos := by
    rw [freebsd2linuxTurn, hlevel₁, htype₁, if_pos htos]
    exact put_byte_self
  have hframe : ∀ q, ¬ p.Covers dataOff q → freebsd2linuxTurn b p p q = b q := by
    intro q hq
    have htype : ¬ (p + 12).Covers 4 q := not_covers_front hq (by decide)
    rw [hturn]
    exact (put_other htype).trans (freebsd2linuxHeader_other hq)
  refine Rewritten.of_header b p hlen ?_ ?_ ?_ rfl hframe
  · rw [hturn, cmsgLevel_setCmsgType, hlevel₁]
    rfl
  · rw [hturn, cmsgType_setCmsgType]
    rfl
  · rw [hturn, cmsgLen_setCmsgType, hlen₁]

/-- `IP_RECVTTL`: the byte becomes an `int`, in the padding behind it. -/
theorem freebsd2linuxTurn_ttl (hfrom : (messageAt .freebsd b p).FromKernel)
    (httl : cmsgLevel .freebsd b p = ipprotoIp ∧ cmsgType .freebsd b p = ipRecvttl) :
    Rewritten .linux b (freebsd2linuxTurn b p p) p (align (cmsgLen .freebsd b p))
      { messageAt .freebsd b p with
        type := linuxIpTtl, payload := (messageAt .freebsd b p).payload.take 1 ++ [0, 0, 0] } := by
  obtain ⟨hlen₁, hlevel₁, htype₁⟩ := freebsd2linuxHeader_inPlace b p
  have hntos : ¬ (cmsgLevel .freebsd b p = ipprotoIp ∧ cmsgType .freebsd b p = ipRecvtos) := by
    rintro ⟨-, htos⟩
    rw [httl.2] at htos
    exact absurd htos (by decide)
  obtain ⟨hone, height⟩ := hfrom httl.1 httl.2
  rw [length_payload_messageAt] at hone height
  have hspace : align (cmsgLen .freebsd b p) = 24 := by
    unfold align
    unfold dataOff at hone height hlen
    omega
  have htake : (messageAt .freebsd b p).payload.take 1 = [b (p + dataOff)] := by
    obtain ⟨k, hk⟩ : ∃ k, cmsgLen .freebsd b p - dataOff = k + 1 := ⟨_, (Nat.sub_add_cancel hone).symm⟩
    rw [messageAt, hk, bytesAt_succ]
    rfl
  have hbyte : number (ttlHeader b p) (p + dataOff) 1 = (b (p + dataOff)).toNat := by
    rw [number_one]
    exact congrArg UInt8.toNat (ttlHeader_other (not_covers_payload 0))
  have hturn : freebsd2linuxTurn b p p = put (ttlHeader b p) (p + dataOff) 4 (b (p + dataOff)).toNat := by
    rw [freebsd2linuxTurn, hlevel₁, htype₁, if_neg hntos, if_pos httl, ← hbyte, ttlHeader]
  have hfront : ∀ i < dataOff, freebsd2linuxTurn b p p (p + i) = ttlHeader b p (p + i) := by
    intro i hi
    rw [hturn, put_other (not_covers_data_of_lt 4 hi)]
  obtain ⟨hlen', hlevel', htype'⟩ := header_congr .linux hfront
  obtain ⟨hlen₃, hlevel₃, htype₃⟩ := ttlHeader_fields b p
  rw [htake]
  apply Rewritten.of_fields
  · rw [hlevel', hlevel₃]
    rfl
  · rw [htype', htype₃]
  · rw [hlen', hlen₃]
    rfl
  · rw [hturn]
    exact bytesAt_put_int _
  · rw [hspace]
    show align (dataOff + 4) = 24
    decide
  · intro q hq
    rw [hspace] at hq
    have hdata : ¬ (p + dataOff).Covers 4 q := by
      rintro ⟨hobj, hlo, hhi⟩
      rw [Ptr.add_off] at hlo hhi
      unfold dataOff at hlo hhi
      exact hq ⟨hobj, by omega, by omega⟩
    rw [hturn, put_other hdata, ttlHeader_other (covers_mono (by decide) hq)]

/-- Any other message keeps type and data. -/
theorem freebsd2linuxTurn_other
    (hntos : ¬ (cmsgLevel .freebsd b p = ipprotoIp ∧ cmsgType .freebsd b p = ipRecvtos))
    (hnttl : ¬ (cmsgLevel .freebsd b p = ipprotoIp ∧ cmsgType .freebsd b p = ipRecvttl)) :
    Rewritten .linux b (freebsd2linuxTurn b p p) p (align (cmsgLen .freebsd b p))
      (messageAt .freebsd b p) := by
  obtain ⟨hlen₁, hlevel₁, htype₁⟩ := freebsd2linuxHeader_inPlace b p
  have hturn : freebsd2linuxTurn b p p = freebsd2linuxHeader b p p := by
    rw [freebsd2linuxTurn, hlevel₁, htype₁, if_neg hntos, if_neg hnttl]
    exact copied_self
  have hframe : ∀ q, ¬ p.Covers dataOff q → freebsd2linuxTurn b p p q = b q := by
    intro q hq
    rw [hturn, freebsd2linuxHeader_other hq]
  refine Rewritten.of_header b p hlen ?_ ?_ ?_ rfl hframe
  · rw [hturn, hlevel₁]
    rfl
  · rw [hturn, htype₁]
    rfl
  · rw [hturn, hlen₁]

theorem freebsd2linuxTurn_inPlace (hfrom : (messageAt .freebsd b p).FromKernel) :
    Rewritten .linux b (freebsd2linuxTurn b p p) p (align (cmsgLen .freebsd b p))
      (messageAt .freebsd b p).toLinux := by
  by_cases htos : cmsgLevel .freebsd b p = ipprotoIp ∧ cmsgType .freebsd b p = ipRecvtos
  · have hmap : (messageAt .freebsd b p).toLinux = _ := if_pos htos
    rw [hmap]
    exact freebsd2linuxTurn_tos b p hlen htos
  · by_cases httl : cmsgLevel .freebsd b p = ipprotoIp ∧ cmsgType .freebsd b p = ipRecvttl
    · have hmap : (messageAt .freebsd b p).toLinux = _ := (if_neg htos).trans (if_pos httl)
      rw [hmap]
      exact freebsd2linuxTurn_ttl b p hlen hfrom httl
    · have hmap : (messageAt .freebsd b p).toLinux = _ := (if_neg htos).trans (if_neg httl)
      rw [hmap]
      exact freebsd2linuxTurn_other b p hlen htos httl

/-- The FreeBSD walk reads the length that the turn has written for Linux: its low half. -/
theorem freebsd2linuxTurn_cmsgLen (hfrom : (messageAt .freebsd b p).FromKernel) :
    cmsgLen .freebsd (freebsd2linuxTurn b p p) p = cmsgLen .linux (freebsd2linuxTurn b p p) p := by
  have hturn := freebsd2linuxTurn_inPlace b p hlen hfrom
  have hold : cmsgLen .freebsd b p < 2 ^ 32 := number_lt b p 4
  apply number_low (m := 4) (k := 4)
  show cmsgLen .linux (freebsd2linuxTurn b p p) p < 256 ^ 4
  rw [hturn.len, Cmsg.toLinux]
  unfold dataOff
  split
  · rw [length_payload_messageAt]
    unfold dataOff at hlen ⊢
    omega
  · split
    · simp only [List.length_append, List.length_take, List.length_cons, List.length_nil]
      omega
    · rw [length_payload_messageAt]
      unfold dataOff at hlen ⊢
      omega

end InPlace

/-! ## Rows of messages -/

/-- The bytes from `p` on are the same. -/
def AgreeFrom (b b' : Contents Obj) (p : Ptr Obj) : Prop :=
  ∀ q : Ptr Obj, q.obj = p.obj → p.off ≤ q.off → b' q = b q

theorem AgreeFrom.mono (h : AgreeFrom b b' p) (n : Nat) : AgreeFrom b b' (p + n) := by
  intro q hobj hlo
  rw [Ptr.add_off] at hlo
  exact h q hobj (by omega)

theorem AgreeFrom.at (h : AgreeFrom b b' p) (i : Nat) : b' (p + i) = b (p + i) :=
  h _ rfl (Nat.le_add_right _ _)

variable (lay) in
theorem messageAt_congr (hfront : ∀ i < dataOff, b' (p + i) = b (p + i))
    (hdata : ∀ i < cmsgLen lay b p - dataOff, b' (p + dataOff + i) = b (p + dataOff + i)) :
    cmsgLen lay b' p = cmsgLen lay b p ∧ messageAt lay b' p = messageAt lay b p := by
  obtain ⟨hlen, hlevel, htype⟩ := header_congr lay hfront
  refine ⟨hlen, ?_⟩
  rw [messageAt, messageAt, hlen, hlevel, htype, bytesAt_congr hdata]

theorem AgreeFrom.message (h : AgreeFrom b b' p) (lay : Layout) :
    cmsgLen lay b' p = cmsgLen lay b p ∧ messageAt lay b' p = messageAt lay b p :=
  messageAt_congr lay (fun i _ => h.at i) fun i _ => (h.mono dataOff).at i

theorem Padded.congr {stop : Nat} {ms : List Cmsg} (h : Padded lay b stop p ms)
    (hagree : AgreeFrom b b' p) : Padded lay b' stop p ms := by
  induction h with
  | nil hend => exact .nil hend
  | cons hlen hrest ih =>
      obtain ⟨hlen', hmsg⟩ := hagree.message lay
      rw [← hmsg]
      apply Padded.cons
      · rwa [hlen']
      · rw [hlen']
        exact ih (hagree.mono _)

theorem Padded.room {stop : Nat} {ms : List Cmsg} (h : Padded lay b stop p ms) :
    p.off + dataOff * ms.length ≤ stop := by
  induction h with
  | nil hend => exact hend.le
  | cons hlen hrest ih =>
      have hspace := dataOff_le_align hlen
      rw [Ptr.add_off] at ih
      rw [List.length_cons, Nat.mul_succ]
      omega

/-- The walk over a row of padded messages visits them all. -/
theorem Padded.holds {stop : Nat} {ms : List Cmsg} (h : Padded lay b stop p ms) (hne : ms ≠ []) :
    Holds lay b stop p ms := by
  induction h with
  | nil hend => exact absurd rfl hne
  | @cons p ms hlen hrest ih =>
      have hspace := align_spec (cmsgLen lay b p)
      cases ms with
      | nil =>
          cases hrest with
          | nil hend =>
              rw [Ptr.add_off] at hend
              apply Holds.last hlen
              · omega
              · unfold dataOff
                omega
      | cons m ms =>
          have hroom := hrest.room
          rw [Ptr.add_off, List.length_cons, Nat.mul_succ] at hroom
          exact .more hlen (by omega) (ih (List.cons_ne_nil m ms))

/-- The macros visit the messages that a buffer holds. -/
theorem Holds.walk {c : Control} {ms : List Cmsg} (h : Holds lay b c.stop p ms) {turns : Nat}
    (hturns : ms.length ≤ turns) : cmsgWalk lay c b turns (some p) = some ms := by
  induction h generalizing turns with
  | last hlen hin hend =>
      obtain ⟨turns, rfl⟩ : ∃ k, turns = k + 1 := ⟨_, (Nat.sub_add_cancel hturns).symm⟩
      rw [cmsgWalk, cmsgNxthdr, if_pos hend, cmsgWalk]
      rfl
  | more hlen hnext hrest ih =>
      rw [List.length_cons] at hturns
      obtain ⟨turns, rfl⟩ : ∃ k, turns = k + 1 := ⟨_, (Nat.sub_add_cancel (by omega)).symm⟩
      rw [cmsgWalk, cmsgNxthdr, if_neg (by omega), ih (by omega)]
      rfl

/-! ## `freebsd2linux_cmsghdr`, in place -/

section RunInPlace

variable {linuxMsg freebsdMsg : Control}

theorem freebsd2linuxLoop_none (turns : Nat) (l : Option (Ptr Obj)) :
    freebsd2linuxLoop linuxMsg freebsdMsg turns none l b = some b := by
  cases turns <;> rfl

/-- A rewritten message that later turns leave alone is there in the end. -/
theorem Rewritten.keep {b₁ : Contents Obj} {msg : Cmsg} (h : Rewritten lay b b₁ p n msg)
    (hkeep : ∀ i < n, b' (p + i) = b₁ (p + i)) :
    cmsgLen lay b' p = cmsgLen lay b₁ p ∧ messageAt lay b' p = messageAt lay b₁ p := by
  have hspace := (align_spec (cmsgLen lay b₁ p)).1
  have hlen := h.len
  rw [h.space] at hspace
  apply messageAt_congr
  · intro i hi
    exact hkeep i (by omega)
  · intro i hi
    rw [Ptr.add_add]
    exact hkeep _ (by omega)

theorem Rewritten.padded {b₁ : Contents Obj} {stop : Nat} {msg : Cmsg} {ms : List Cmsg}
    (h : Rewritten lay b b₁ p n msg) (hkeep : ∀ i < n, b' (p + i) = b₁ (p + i))
    (hrest : Padded lay b' stop (p + n) ms) : Padded lay b' stop p (msg :: ms) := by
  obtain ⟨hlen, hmsg⟩ := h.keep hkeep
  rw [← h.message, ← hmsg]
  apply Padded.cons
  · rw [hlen, h.len]
    exact Nat.le_add_right _ _
  · rw [hlen, h.space]
    exact hrest

/-- After the last message the loop is through: the buffer ends behind it. -/
theorem freebsd2linuxLoop_last {msg : Cmsg} (hpad : Padded .freebsd b freebsdMsg.stop p [msg])
    (hfrom : msg.FromKernel) (turns : Nat) :
    freebsd2linuxLoop linuxMsg freebsdMsg (turns + 1) (some p) (some p) b =
      some (freebsd2linuxTurn b p p) := by
  cases hpad with
  | cons hlen hrest =>
      cases hrest with
      | nil hend =>
          have hturn := freebsd2linuxTurn_inPlace b p hlen hfrom
          have hnext : cmsgNxthdr .freebsd freebsdMsg (freebsd2linuxTurn b p p) p = none := by
            rw [cmsgNxthdr, freebsd2linuxTurn_cmsgLen b p hlen hfrom, hturn.space]
            apply if_pos
            rw [Ptr.add_off] at hend
            unfold dataOff
            omega
          rw [freebsd2linuxLoop, hnext]
          exact freebsd2linuxLoop_none turns _

/-- Before another message both walks step over the space of this one, and what is behind it is as it
was. -/
theorem freebsd2linuxLoop_more (hstop : freebsdMsg.stop ≤ linuxMsg.stop) {msg m : Cmsg} {ms : List Cmsg}
    (hpad : Padded .freebsd b freebsdMsg.stop p (msg :: m :: ms)) (hfrom : msg.FromKernel) :
    (∀ turns, freebsd2linuxLoop linuxMsg freebsdMsg (turns + 1) (some p) (some p) b =
      freebsd2linuxLoop linuxMsg freebsdMsg turns (some (p + align (cmsgLen .freebsd b p)))
        (some (p + align (cmsgLen .freebsd b p))) (freebsd2linuxTurn b p p)) ∧
    Padded .freebsd (freebsd2linuxTurn b p p) freebsdMsg.stop (p + align (cmsgLen .freebsd b p))
      (m :: ms) := by
  cases hpad with
  | cons hlen hrest =>
      have hturn := freebsd2linuxTurn_inPlace b p hlen hfrom
      have hroom := hrest.room
      rw [Ptr.add_off, List.length_cons, Nat.mul_succ] at hroom
      refine ⟨fun turns => ?_, hrest.congr ?_⟩
      · have hfreebsd : cmsgNxthdr .freebsd freebsdMsg (freebsd2linuxTurn b p p) p =
            some (p + align (cmsgLen .freebsd b p)) := by
          rw [cmsgNxthdr, freebsd2linuxTurn_cmsgLen b p hlen hfrom, hturn.space]
          exact if_neg (by omega)
        have hlinux : cmsgNxthdr .linux linuxMsg (freebsd2linuxTurn b p p) p =
            some (p + align (cmsgLen .freebsd b p)) := by
          rw [cmsgNxthdr, hturn.space]
          exact if_neg (by omega)
        rw [freebsd2linuxLoop, hfreebsd, hlinux]
      · intro q hobj hlo
        apply hturn.frame
        rintro ⟨-, -, hhi⟩
        rw [Ptr.add_off] at hlo
        omega

/-- The messages from `p` on become Linux messages where they are; nothing before `p` changes. -/
theorem freebsd2linuxLoop_inPlace (hctl : linuxMsg.msgControl = freebsdMsg.msgControl)
    (hle : freebsdMsg.msgControllen ≤ linuxMsg.msgControllen) {msg : Cmsg} {ms : List Cmsg}
    (hpad : Padded .freebsd b freebsdMsg.stop p (msg :: ms))
    (hfrom : ∀ m ∈ msg :: ms, m.FromKernel) :
    ∃ b', (∀ turns, ms.length < turns →
        freebsd2linuxLoop linuxMsg freebsdMsg turns (some p) (some p) b = some b') ∧
      Padded .linux b' freebsdMsg.stop p ((msg :: ms).map Cmsg.toLinux) ∧
      ∀ q, (q.obj = p.obj → q.off < p.off) → b' q = b q := by
  have hstop : freebsdMsg.stop ≤ linuxMsg.stop := by
    rw [Control.stop, Control.stop, hctl]
    omega
  induction ms generalizing b p msg with
  | nil =>
      have hmine := hfrom _ List.mem_cons_self
      have hlast (turns : Nat) : freebsd2linuxLoop linuxMsg freebsdMsg (turns + 1) (some p) (some p) b =
          some (freebsd2linuxTurn b p p) := freebsd2linuxLoop_last hpad hmine turns
      cases hpad with
      | cons hlen hrest =>
          cases hrest with
          | nil hend =>
              have hturn := freebsd2linuxTurn_inPlace b p hlen hmine
              refine ⟨freebsd2linuxTurn b p p, ?_, ?_, ?_⟩
              · intro turns hturns
                obtain ⟨turns, rfl⟩ : ∃ k, turns = k + 1 := ⟨_, (Nat.sub_add_cancel hturns).symm⟩
                exact hlast turns
              · exact hturn.padded (fun _ _ => rfl) (.nil hend)
              · exact fun q hq => hturn.before hq
  | cons m ms ih =>
      have hmine := hfrom _ List.mem_cons_self
      obtain ⟨hstep, hrest⟩ := freebsd2linuxLoop_more hstop hpad hmine
      cases hpad with
      | cons hlen _ =>
          have hturn := freebsd2linuxTurn_inPlace b p hlen hmine
          obtain ⟨b', hloop, hpadded, hframe⟩ := ih hrest fun m hm => hfrom m (List.mem_cons_of_mem _ hm)
          refine ⟨b', ?_, ?_, ?_⟩
          · intro turns hturns
            rw [List.length_cons] at hturns
            obtain ⟨turns, rfl⟩ : ∃ k, turns = k + 1 := ⟨_, (Nat.sub_add_cancel (by omega)).symm⟩
            rw [hstep]
            exact hloop turns (by omega)
          · apply hturn.padded _ hpadded
            intro i hi
            apply hframe
            intro _
            exact Nat.add_lt_add_left hi _
          · intro q hq
            -- what comes later is written behind this message
            have hbefore : b' q = freebsd2linuxTurn b p p q := by
              apply hframe
              intro hobj
              have hlt := hq hobj
              rw [Ptr.add_off]
              omega
            rw [hbefore]
            exact hturn.before hq

/-- In place on the buffer that the kernel filled, `freebsd2linux_cmsghdr` returns and leaves the same
messages for Linux' macros to find over the reported length. -/
theorem freebsd2linuxCmsghdr_inPlace (hctl : linuxMsg.msgControl = freebsdMsg.msgControl)
    (hle : freebsdMsg.msgControllen ≤ linuxMsg.msgControllen) {ms : List Cmsg}
    (hpad : Padded .freebsd b freebsdMsg.stop freebsdMsg.msgControl ms)
    (hfrom : ∀ m ∈ ms, m.FromKernel) :
    ∃ b', ∀ turns, ms.length ≤ turns →
      freebsd2linuxCmsghdr linuxMsg freebsdMsg turns b = some b' ∧
        cmsgs .linux freebsdMsg b' turns = some (ms.map Cmsg.toLinux) := by
  have hroom := hpad.room
  rw [Control.stop] at hroom
  cases ms with
  | nil =>
      have hzero : freebsdMsg.msgControllen = 0 := by
        cases hpad with
        | nil hend =>
            rw [Control.stop] at hend
            omega
      have hfirst (lay : Layout) : cmsgFirsthdr lay freebsdMsg = none := by
        rw [cmsgFirsthdr, hzero]
        cases lay <;> rfl
      refine ⟨b, fun turns _ => ⟨?_, ?_⟩⟩
      · rw [freebsd2linuxCmsghdr, hfirst]
        exact freebsd2linuxLoop_none turns _
      · rw [cmsgs, hfirst, cmsgWalk]
        rfl
  | cons msg ms =>
      rw [List.length_cons, Nat.mul_succ] at hroom
      have hsize (lay : Layout) := header_lt_dataOff lay
      have hfirst (lay : Layout) : cmsgFirsthdr lay freebsdMsg = some freebsdMsg.msgControl := by
        apply if_pos
        rw [Layout.hdrSize]
        have hlay := hsize lay
        omega
      have hlinux : cmsgFirsthdr .linux linuxMsg = some freebsdMsg.msgControl := by
        rw [← hctl]
        apply if_pos
        rw [Layout.hdrSize]
        have hlay := hsize .linux
        omega
      obtain ⟨b', hloop, hpadded, -⟩ := freebsd2linuxLoop_inPlace hctl hle hpad hfrom
      refine ⟨b', fun turns hturns => ⟨?_, ?_⟩⟩
      · rw [freebsd2linuxCmsghdr, hfirst, hlinux]
        exact hloop turns hturns
      · rw [cmsgs, hfirst]
        apply (hpadded.holds (by simp)).walk
        rwa [List.length_map]

end RunInPlace

end LazyBsd.Socket
