/-
# LazyBsd.Filter.Extension — the upper-layer header behind IPv6 extension headers.

`ExtChain` is the chain of extension headers as RFC 8200 and RFC 4302 define it: an option header has
`(x + 1) * 8` bytes for the length byte `x`, an authentication header `(x + 2) * 4`, a fragment header 8.
`get_ipv6_hdr_len` counts `x + 1` bytes for an option header, so from the first option header on it reads
in the wrong place. A chain without option headers is followed to its end. With one, some packet with
the same headers is misread: the walk then ends inside the headers, and the bytes there decide where.
-/
import LazyBsd.Filter.Headers

namespace LazyBsd.Filter

open Lib Lib.Traced

/-! ## The chain -/

/-- `IPPROTO_NONE`. -/
def ipprotoNone : UInt8 := 59

/-- An extension header: its kind, and its length byte if it has one. -/
structure ExtHdr where
  proto : UInt8
  hdrLen : UInt8
  deriving DecidableEq, Repr

/-- The kinds of extension headers. -/
def IsExt (proto : UInt8) : Prop :=
  proto ∈ optionProtos ∨ proto = ipprotoFragment ∨ proto = ipprotoAh

instance (proto : UInt8) : Decidable (IsExt proto) := inferInstanceAs (Decidable (_ ∨ _))

/-- The length of a header. -/
def ExtHdr.bytes (h : ExtHdr) : Nat :=
  if h.proto ∈ optionProtos then (h.hdrLen.toNat + 1) * 8
  else if h.proto = ipprotoAh then (h.hdrLen.toNat + 2) * 4
  else 8

/-- The 13 bits of the fragment offset. -/
def fragOffset (data : Bytes) (off : Nat) : UInt16 := be16 data (off + 2) >>> 3

/-- At `off` starts a header of kind `proto`, with `room` bytes of the packet left: the extension headers
`hs`, `n` bytes altogether, then a header of kind `upper`. Only the first fragment has one. -/
inductive ExtChain (data : Bytes) : UInt8 → Nat → Nat → List ExtHdr → UInt8 → Nat → Prop
  | upper {proto : UInt8} {off room : Nat} (hno : ¬ IsExt proto) (hroom : 0 < room) :
      ExtChain data proto off room [] proto 0
  | ext {h : ExtHdr} {off room : Nat} {hs : List ExtHdr} {upper : UInt8} {n : Nat}
      (hext : IsExt h.proto) (hbyte : HasLenByte h.proto → data (off + 1) = h.hdrLen)
      (hfirst : h.proto = ipprotoFragment → fragOffset data off = 0) (hroom : h.bytes < room)
      (hrest : ExtChain data (data off) (off + h.bytes) (room - h.bytes) hs upper n) :
      ExtChain data h.proto off room (h :: hs) upper (h.bytes + n)

/-- An IPv6 packet with these extension headers. The payload length counts them, and the frame may be
longer than the packet. -/
structure Ipv6Packet (data : Bytes) (p : IpPos) (hs : List ExtHdr) (upper : UInt8) (n : Nat) : Prop where
  etherType : p.etherType = etherTypeIpv6
  version : data p.off >>> 4 = 6
  payload : 40 + (be16 data (p.off + 4)).toNat ≤ p.len.toNat
  chain : ExtChain data (data (p.off + 6)) (p.off + 40) (be16 data (p.off + 4)).toNat hs upper n

/-- `protocol_filter_ip` finds the upper-layer header: it goes on with the protocol `upper` at the byte
behind `n` bytes of extension headers. And so it classifies the packet as it does any packet without
extension headers that has the same upper-layer bytes. -/
structure FindsUpper (data : Bytes) (p : IpPos) (upper : UInt8) (n : Nat) : Prop where
  header : (ipHeader data p).res = some (some (upper, 40 + n))
  classified : ∀ cfg data₀ p₀, Ipv6Packet data₀ p₀ [] upper 0 → p₀.len.toNat + n = p.len.toNat →
    (∀ i, data₀ (p₀.off + 40 + i) = data (p.off + 40 + n + i)) →
    upper = ipprotoTcp ∨ upper = ipprotoUdp ∨ upper = ipprotoIcmpv6 →
    ∀ fuel, (protocolFilterIp cfg data (fuel + 1) p).res = (protocolFilterIp cfg data₀ (fuel + 1) p₀).res

section Chain

variable {data data' : Bytes} {e : ExtPos} {proto upper : UInt8} {off room n : Nat} {hs : List ExtHdr}
  {h : ExtHdr}

/-- An extension header has at least eight bytes. -/
theorem ExtHdr.eight_le (h : ExtHdr) : 8 ≤ h.bytes := by
  unfold ExtHdr.bytes
  split
  · omega
  · split
    · omega
    · exact Nat.le_refl 8

theorem ExtChain.lt_room (h : ExtChain data proto off room hs upper n) : n < room := by
  induction h with
  | upper _ hroom => exact hroom
  | ext _ _ _ hroom _ ih => omega

/-- The chain lies where it starts or behind. -/
theorem ExtChain.congr (h : ExtChain data proto off room hs upper n)
    (hsame : ∀ a, off ≤ a → data' a = data a) : ExtChain data' proto off room hs upper n := by
  induction h with
  | upper hno hroom => exact .upper hno hroom
  | @ext h off room hs upper n hext hbyte hfirst hroom _ ih =>
      have hrest := ih fun a ha => hsame a (by omega)
      rw [← hsame off (Nat.le_refl _)] at hrest
      refine .ext hext ?_ ?_ hroom hrest
      · rw [hsame (off + 1) (by omega)]
        exact hbyte
      · rw [fragOffset, be16, hsame (off + 2) (by omega), hsame (off + 2 + 1) (by omega)]
        exact hfirst

/-- What the code counts for a header that is no option header. -/
theorem extLen_of_not_option (hext : IsExt h.proto) (hno : h.proto ∉ optionProtos)
    (hbyte : HasLenByte h.proto → data (off + 1) = h.hdrLen) (len : UInt16) :
    extLen data ⟨h.proto, off, len⟩ = some h.bytes := by
  unfold extLen ExtHdr.bytes
  rw [if_neg hno, if_neg hno]
  by_cases hfrag : h.proto = ipprotoFragment
  · have hah : ¬ h.proto = ipprotoAh := by
      rw [hfrag]
      decide
    rw [if_pos hfrag, if_neg hah]
  · have hah : h.proto = ipprotoAh := (hext.resolve_left hno).resolve_left hfrag
    rw [if_neg hfrag, if_pos hah, if_pos hah, ← hbyte (.inr hah)]

/-- What it counts for an option header. -/
theorem extLen_of_option (data : Nat → UInt8) (off : Nat) (hopt : proto ∈ optionProtos) (len : UInt16) :
    extLen data ⟨proto, off, len⟩ = some ((data (off + 1)).toNat + 1) := if_pos hopt

theorem extLen_of_not_ext (hno : ¬ IsExt proto) (len : UInt16) :
    extLen data ⟨proto, off, len⟩ = none := by
  rw [IsExt, not_or, not_or] at hno
  rw [extLen, if_neg hno.1, if_neg hno.2.1, if_neg hno.2.2]

/-- **Without option headers** the walk of the code ends at the upper-layer header. -/
theorem ExtChain.ends (h : ExtChain data proto off room hs upper n)
    (hno : ∀ h ∈ hs, h.proto ∉ optionProtos) {len : UInt16} (hlen : room ≤ len.toNat) :
    ExtEnds data ⟨proto, off, len⟩ upper n := by
  induction h generalizing len with
  | upper hup hroom => exact .upper (extLen_of_not_ext hup len)
  | @ext h off room hs upper n hext hbyte _ hroom _ ih =>
      have hone := extLen_of_not_option hext (hno h List.mem_cons_self) hbyte len
      have hin : h.bytes < len.toNat := by omega
      refine .next hone hin (ih (fun h' hh' => hno h' (List.mem_cons_of_mem _ hh')) ?_)
      rw [sub_ofNat_toNat (Nat.le_of_lt hin)]
      omega

end Chain

/-! ## Misread packets -/

section Misread

variable {data : Bytes} {proto upper : UInt8} {off room n m k : Nat} {hs : List ExtHdr} {h : ExtHdr}
  {len : UInt16}

/-- Some bytes of the memory replaced. -/
theorem exists_patch (data : Bytes) (l : List (Nat × UInt8)) (hnodup : (l.map Prod.fst).Nodup) :
    ∃ data' : Bytes, (∀ x ∈ l, data' x.1 = x.2) ∧ ∀ a, a ∉ l.map Prod.fst → data' a = data a := by
  induction l with
  | nil => exact ⟨data, fun x hx => absurd hx List.not_mem_nil, fun a _ => rfl⟩
  | cons x l ih =>
      obtain ⟨hx, hnodup'⟩ := List.nodup_cons.mp hnodup
      obtain ⟨data', hin, hout⟩ := ih hnodup'
      refine ⟨fun a => if a = x.1 then x.2 else data' a, ?_, ?_⟩
      · intro y hy
        rcases List.mem_cons.mp hy with rfl | hmem
        · exact if_pos rfl
        · have hne : y.1 ≠ x.1 := by
            intro heq
            apply hx
            rw [← heq]
            exact List.mem_map_of_mem hmem
          show (if y.1 = x.1 then x.2 else data' y.1) = y.2
          rw [if_neg hne]
          exact hin y hmem
      · intro a ha
        rw [List.map_cons, List.mem_cons, not_or] at ha
        show (if a = x.1 then x.2 else data' a) = data a
        rw [if_neg ha.1]
        exact hout a ha.2

/-- Replacing bytes of the first header that say nothing of the chain. -/
theorem ExtChain.patch {data' : Bytes} (hchain : ExtChain data h.proto off room (h :: hs) upper n)
    (hoff : data' off = data off) (hbyte : HasLenByte h.proto → data' (off + 1) = data (off + 1))
    (hfirst : h.proto = ipprotoFragment → data' (off + 2) = data (off + 2) ∧
      data' (off + 3) = data (off + 3))
    (hbehind : ∀ a, off + h.bytes ≤ a → data' a = data a) :
    ExtChain data' h.proto off room (h :: hs) upper n := by
  generalize hproto : h.proto = proto at hchain
  cases hchain with
  | ext hext hbyte' hfirst' hroom hrest =>
      have hrest' := hrest.congr hbehind
      rw [← hoff] at hrest'
      refine .ext hext ?_ ?_ hroom hrest'
      · intro hlen
        rw [hbyte hlen]
        exact hbyte' hlen
      · intro hfrag
        obtain ⟨h2, h3⟩ := hfirst hfrag
        rw [fragOffset, be16, h2, h3]
        exact hfirst' hfrag

/-- One step of the walk, whatever the way on. -/
theorem ExtEnds.step (hlen : extLen data ⟨proto, off, len⟩ = some m) (hin : m < len.toNat)
    (hrest : ∀ len' : UInt16, len'.toNat = len.toNat - m →
      ExtEnds data ⟨data off, off + m, len'⟩ upper k) :
    ExtEnds data ⟨proto, off, len⟩ upper (m + k) :=
  .next hlen hin (hrest _ (sub_ofNat_toNat (Nat.le_of_lt hin)))

/-- The walk stops where the protocol is none. -/
theorem ExtEnds.stop (hnone : data off = ipprotoNone) (off' : Nat) (len : UInt16) :
    ExtEnds data ⟨data off, off', len⟩ ipprotoNone 0 := by
  rw [hnone]
  exact .upper (extLen_of_not_ext (by decide) len)

/-- A header whose second byte is zero counts as one byte or as eight. -/
theorem extLen_zero (data : Nat → UInt8) (proto : UInt8) (hext : IsExt proto) (hzero : data (off + 1) = 0) :
    ∃ m, m ≤ 8 ∧ ∀ len, extLen data ⟨proto, off, len⟩ = some m := by
  unfold extLen
  by_cases hopt : proto ∈ optionProtos
  · refine ⟨1, by decide, fun len => ?_⟩
    rw [if_pos hopt, hzero]
    rfl
  · refine ⟨8, Nat.le_refl 8, fun len => ?_⟩
    rw [if_neg hopt]
    by_cases hfrag : proto = ipprotoFragment
    · rw [if_pos hfrag]
    · rw [if_neg hfrag, if_pos ((hext.resolve_left hopt).resolve_left hfrag), hzero]
      rfl

/-- The walk ends too early. -/
def EndsEarly (data : Bytes) (proto : UInt8) (off room n : Nat) : Prop :=
  ∀ len : UInt16, room ≤ len.toNat → ∃ upper k, ExtEnds data ⟨proto, off, len⟩ upper k ∧ k < n

/-- A packet with the same headers in which the walk ends too early. -/
def Misread (data : Bytes) (proto : UInt8) (off room : Nat) (hs : List ExtHdr) (upper : UInt8)
    (n : Nat) : Prop :=
  ∃ data', (∀ a < off, data' a = data a) ∧ ExtChain data' proto off room hs upper n ∧
    EndsEarly data' proto off room n

/-- The first header of a chain, and the rest. -/
theorem ExtChain.head_inv (hchain : ExtChain data proto off room (h :: hs) upper n) :
    proto = h.proto ∧ IsExt h.proto ∧ (HasLenByte h.proto → data (off + 1) = h.hdrLen) ∧
      (h.proto = ipprotoFragment → fragOffset data off = 0) ∧ h.bytes < room ∧
      ∃ k, n = h.bytes + k ∧
        ExtChain data (data off) (off + h.bytes) (room - h.bytes) hs upper k := by
  cases hchain with
  | ext hext hbyte hfirst hroom hrest => exact ⟨rfl, hext, hbyte, hfirst, hroom, _, rfl, hrest⟩

/-- An option header is no fragment header. -/
theorem not_fragment_of_option (hopt : proto ∈ optionProtos) : ¬ proto = ipprotoFragment := by
  rintro rfl
  exact absurd hopt (by decide)

/-- An option header keeps its place in the chain when bytes behind its second one change, if the rest
of the chain does not. -/
theorem ExtChain.option_patch {data' : Bytes} (hopt : h.proto ∈ optionProtos)
    (hchain : ExtChain data h.proto off room (h :: hs) upper n) (hoff : data' off = data off)
    (hsecond : data' (off + 1) = data (off + 1))
    (hbehind : ∀ k, ExtChain data (data off) (off + h.bytes) (room - h.bytes) hs upper k →
      ExtChain data' (data off) (off + h.bytes) (room - h.bytes) hs upper k) :
    ExtChain data' h.proto off room (h :: hs) upper n := by
  obtain ⟨-, hext, hbyte, -, hroom, k, rfl, hrest⟩ := hchain.head_inv
  have hrest' := hbehind k hrest
  rw [← hoff] at hrest'
  refine .ext hext ?_ (fun hfrag => absurd hfrag (not_fragment_of_option hopt)) hroom hrest'
  rw [hsecond]
  exact hbyte

/-- An option header before the upper-layer header. -/
theorem misread_upper (hopt : h.proto ∈ optionProtos)
    (hchain : ExtChain data h.proto off room [h] upper n) :
    Misread data h.proto off room [h] upper n := by
  obtain ⟨-, -, hbyte, -, hroom, k, rfl, hrest⟩ := hchain.head_inv
  have hbytes : h.bytes = (h.hdrLen.toNat + 1) * 8 := if_pos hopt
  refine ⟨data, fun _ _ => rfl, hchain, ?_⟩
  intro len hlen
  have hone := extLen_of_option data off hopt len
  rw [hbyte (.inl hopt)] at hone
  have hno : ¬ IsExt (data off) := by
    generalize data off = next at hrest
    cases hrest with
    | upper hno _ => exact hno
  refine ⟨data off, _, .step hone (by omega) fun len' _ => .upper (extLen_of_not_ext hno len'), ?_⟩
  omega

/-- An option header of more than eight bytes before another extension header: the walk goes on inside
it, where the bytes can stand for a header of at most eight bytes and the end. -/
theorem misread_long {g : ExtHdr} (hopt : h.proto ∈ optionProtos) (hlong : 1 ≤ h.hdrLen.toNat)
    (hchain : ExtChain data h.proto off room (h :: g :: hs) upper n) :
    Misread data h.proto off room (h :: g :: hs) upper n := by
  have hbytes : h.bytes = (h.hdrLen.toNat + 1) * 8 := if_pos hopt
  obtain ⟨-, -, hbyte, -, -, k, hn, hrest⟩ := hchain.head_inv
  obtain ⟨hnext, hext, -, -, -, k', hk, -⟩ := hrest.head_inv
  have hg := g.eight_le
  have hlt := hchain.lt_room
  obtain ⟨data', hin, hout⟩ := exists_patch data
    [(off + (h.hdrLen.toNat + 1), ipprotoNone), (off + (h.hdrLen.toNat + 1) + 1, 0)] (by simp)
  simp only [List.mem_cons, List.not_mem_nil, or_false, forall_eq_or_imp, forall_eq, List.map_cons,
    List.map_nil, not_or, and_imp] at hin hout
  obtain ⟨hstop, hzero⟩ := hin
  have hoff : data' off = data off := hout off (by omega) (by omega)
  have hsecond : data' (off + 1) = data (off + 1) := hout (off + 1) (by omega) (by omega)
  refine ⟨data', fun a ha => hout a (by omega) (by omega), ?_, ?_⟩
  · refine hchain.option_patch hopt hoff hsecond fun k hrest => hrest.congr fun a ha => ?_
    exact hout a (by omega) (by omega)
  · intro len hlen
    have hone := extLen_of_option data' off hopt len
    rw [hsecond, hbyte (.inl hopt)] at hone
    obtain ⟨m, hm, htwo⟩ := extLen_zero data' (data' off)
      (by rw [hoff, hnext]; exact hext) hzero
    refine ⟨ipprotoNone, h.hdrLen.toNat + 1 + (m + 0), .step hone (by omega) fun len' hlen' => ?_, ?_⟩
    · exact .step (htwo len') (by omega) fun len'' _ => .stop hstop _ len''
    · omega

/-- An option header of eight bytes before another extension header: the walk takes the length byte for
the start of that header and comes to a hop-by-hop header of its own making, one byte long. -/
theorem endsEarly_short (hopt : proto ∈ optionProtos) (hzero : data (off + 1) = 0)
    (htwo : ∀ len, extLen data ⟨data off, off + 1, len⟩ = some m)
    (hstop : data (off + 1 + m) = ipprotoNone) (hsecond : data (off + 1 + m + 1) = 0)
    (hearly : m + 2 < n) (hlt : n < room) : EndsEarly data proto off room n := by
  intro len hlen
  have hone := extLen_of_option data off hopt len
  rw [hzero] at hone
  have hthree (len : UInt16) : extLen data ⟨data (off + 1), off + 1 + m, len⟩ = some 1 := by
    rw [hzero, extLen_of_option _ _ (by decide), hsecond]
    rfl
  refine ⟨ipprotoNone, 1 + (m + (1 + 0)), ?_, by omega⟩
  refine .step hone (by show 1 < len.toNat; omega) fun len₁ hlen₁ => ?_
  refine .step (htwo len₁) (by omega) fun len₂ hlen₂ => ?_
  exact .step (hthree len₂) (by omega) fun len₃ _ => .stop hstop _ len₃

/-- Where the second step takes `m` bytes because of the byte `x`, three bytes are enough to end the walk
early. -/
theorem exists_early (hopt : proto ∈ optionProtos) (hzero : data (off + 1) = 0) (x : UInt8) (hm : 2 ≤ m)
    (htwo : ∀ data' : Bytes, data' off = data off → data' (off + 2) = x →
      ∀ len, extLen data' ⟨data' off, off + 1, len⟩ = some m)
    (hearly : m + 2 < n) (hlt : n < room) :
    ∃ data' : Bytes,
      (∀ a, a ≠ off + 2 → a ≠ off + 1 + m → a ≠ off + 1 + m + 1 → data' a = data a) ∧
        EndsEarly data' proto off room n := by
  obtain ⟨data', hin, hout⟩ := exists_patch data
    [(off + 2, x), (off + 1 + m, ipprotoNone), (off + 1 + m + 1, 0)] (by simp; omega)
  simp only [List.mem_cons, List.not_mem_nil, or_false, forall_eq_or_imp, forall_eq, List.map_cons,
    List.map_nil, not_or, and_imp] at hin hout
  obtain ⟨hx, hstop, hsecond⟩ := hin
  have hoff : data' off = data off := hout off (by omega) (by omega) (by omega)
  have hone : data' (off + 1) = data (off + 1) := hout (off + 1) (by omega) (by omega) (by omega)
  exact ⟨data', hout, endsEarly_short hopt (hone.trans hzero) (htwo data' hoff hx) hstop hsecond hearly hlt⟩

/-- The fragment offset of a first fragment starts with a zero byte. -/
theorem fragOffset_high (hfirst : fragOffset data off = 0) : data (off + 2) = 0 := by
  have hhi := (data (off + 2)).toNat_lt
  have hlo := (data (off + 2 + 1)).toNat_lt
  have hnat := congrArg UInt16.toNat hfirst
  rw [fragOffset, be16, UInt16.toNat_shiftRight, UInt16.toNat_or, UInt16.toNat_shiftLeft,
    UInt8.toNat_toUInt16, UInt8.toNat_toUInt16] at hnat
  apply UInt8.toNat.inj
  simp only [UInt16.toNat_ofNat, Nat.reduceMod, Nat.reducePow] at hnat
  rw [Nat.mod_eq_of_lt (by rw [Nat.shiftLeft_eq]; omega), ← Nat.shiftLeft_add_eq_or_of_lt hlo,
    Nat.shiftLeft_eq, Nat.shiftRight_eq_div_pow] at hnat
  rw [UInt8.toNat_zero]
  omega

/-- An option header of eight bytes before another extension header. -/
theorem misread_short {g : ExtHdr} (hopt : h.proto ∈ optionProtos) (hshort : h.hdrLen.toNat = 0)
    (hchain : ExtChain data h.proto off room (h :: g :: hs) upper n) :
    Misread data h.proto off room (h :: g :: hs) upper n := by
  have hbytes : h.bytes = 8 := by
    rw [ExtHdr.bytes, if_pos hopt, hshort]
  have hzero : h.hdrLen = 0 := UInt8.toNat.inj hshort
  obtain ⟨-, -, hbyte, -, -, k, hn, hrest⟩ := hchain.head_inv
  have hlen := hbyte (.inl hopt)
  rw [hzero] at hlen
  obtain ⟨hnext, hext, -, hfirst, -, k', hk, -⟩ := hrest.head_inv
  have hg := g.eight_le
  have hlt := hchain.lt_room
  -- one case for each kind of the next header
  by_cases hgopt : g.proto ∈ optionProtos
  · have hmid (data' : Bytes) (hoff : data' off = data off) (htwo : data' (off + 2) = 2) (len : UInt16) :
        extLen data' ⟨data' off, off + 1, len⟩ = some 3 := by
      rw [hoff, hnext, extLen_of_option _ _ hgopt, htwo]
      rfl
    obtain ⟨data', hout, hearly⟩ := exists_early hopt hlen 2 (by omega) hmid (by omega) hlt
    refine ⟨data', fun a ha => hout a (by omega) (by omega) (by omega), ?_, hearly⟩
    refine hchain.option_patch hopt ?_ ?_ fun k hrest => hrest.congr fun a ha => ?_
    · exact hout off (by omega) (by omega) (by omega)
    · exact hout (off + 1) (by omega) (by omega) (by omega)
    · exact hout a (by omega) (by omega) (by omega)
  · by_cases hfrag : g.proto = ipprotoFragment
    · have hhigh := fragOffset_high (hfirst hfrag)
      rw [hbytes] at hhigh
      obtain ⟨data', hin, hout⟩ := exists_patch data [(off + 9, ipprotoNone)] (by simp)
      simp only [List.mem_cons, List.not_mem_nil, or_false, forall_eq, List.map_cons, List.map_nil] at hin hout
      have hoff : data' off = data off := hout off (by omega)
      have hone : data' (off + 1) = data (off + 1) := hout (off + 1) (by omega)
      have hmid (len : UInt16) : extLen data' ⟨data' off, off + 1, len⟩ = some 8 := by
        rw [hoff, hnext, extLen, if_neg hgopt, if_pos hfrag]
      refine ⟨data', fun a ha => hout a (by omega), ?_, ?_⟩
      · refine hchain.option_patch hopt hoff hone fun k hrest => ?_
        -- the reserved byte of the fragment header is free
        rw [hnext] at hrest ⊢
        rw [hbytes] at hrest ⊢
        refine hrest.patch (hout _ (by omega)) ?_ ?_ fun a ha => hout a (by omega)
        · intro hbyte
          rcases hbyte with hbyte | hbyte
          · exact absurd hbyte hgopt
          · rw [hfrag] at hbyte
            exact absurd hbyte (by decide)
        · exact fun _ => ⟨hout _ (by omega), hout _ (by omega)⟩
      · refine endsEarly_short hopt (hone.trans hlen) hmid hin ?_ (by omega) hlt
        exact (hout _ (by omega)).trans hhigh
    · have hah : g.proto = ipprotoAh := (hext.resolve_left hgopt).resolve_left hfrag
      have hmid (data' : Bytes) (hoff : data' off = data off) (htwo : data' (off + 2) = 1) (len : UInt16) :
          extLen data' ⟨data' off, off + 1, len⟩ = some 12 := by
        rw [hoff, hnext, extLen, if_neg hgopt, if_neg hfrag, if_pos hah, htwo]
        rfl
      obtain ⟨data', hout, hearly⟩ := exists_early hopt hlen 1 (by omega) hmid (by omega) hlt
      refine ⟨data', fun a ha => hout a (by omega) (by omega) (by omega), ?_, hearly⟩
      refine hchain.option_patch hopt ?_ ?_ fun k hrest => ?_
      · exact hout off (by omega) (by omega) (by omega)
      · exact hout (off + 1) (by omega) (by omega) (by omega)
      · -- the security parameters index of the authentication header is free
        rw [hnext] at hrest ⊢
        rw [hbytes] at hrest ⊢
        refine hrest.patch (hout _ (by omega) (by omega) (by omega)) ?_ ?_ ?_
        · exact fun _ => hout _ (by omega) (by omega) (by omega)
        · exact fun hfrag' => absurd hfrag' hfrag
        · exact fun a ha => hout a (by omega) (by omega) (by omega)

/-- **With an option header** some packet with the same headers is misread. -/
theorem misread_of_option (hchain : ExtChain data proto off room hs upper n)
    (hopt : ∃ h ∈ hs, h.proto ∈ optionProtos) : Misread data proto off room hs upper n := by
  induction hs generalizing proto off room n with
  | nil =>
      obtain ⟨h, hh, -⟩ := hopt
      exact absurd hh List.not_mem_nil
  | cons h hs ih =>
      obtain ⟨rfl, hext, hbyte, hfirst, hroom, k, rfl, hrest⟩ := hchain.head_inv
      by_cases hhere : h.proto ∈ optionProtos
      · cases hs with
        | nil => exact misread_upper hhere hchain
        | cons g hs =>
            rcases Nat.eq_zero_or_pos h.hdrLen.toNat with hshort | hlong
            · exact misread_short hhere hshort hchain
            · exact misread_long hhere hlong hchain
      · -- the walk comes to the next header, and the rest is misread
        obtain ⟨g, hg, hgopt⟩ := hopt
        have hmem : g ∈ hs := by
          rcases List.mem_cons.mp hg with rfl | hmem
          · exact absurd hgopt hhere
          · exact hmem
        have hbytes := h.eight_le
        obtain ⟨data', hsame, hchain', hearly⟩ := ih hrest ⟨g, hmem, hgopt⟩
        have hoff : data' off = data off := hsame off (by omega)
        have hbyte' : HasLenByte h.proto → data' (off + 1) = h.hdrLen := by
          rw [hsame (off + 1) (by omega)]
          exact hbyte
        have hfirst' : h.proto = ipprotoFragment → fragOffset data' off = 0 := by
          rw [fragOffset, be16, hsame (off + 2) (by omega), hsame (off + 2 + 1) (by omega)]
          exact hfirst
        rw [← hoff] at hchain' hearly
        refine ⟨data', fun a ha => hsame a (by omega), .ext hext hbyte' hfirst' hroom hchain', ?_⟩
        intro len hlen
        have hone := extLen_of_not_option hext hhere hbyte' len
        have hin : h.bytes < len.toNat := by omega
        have hlen' := sub_ofNat_toNat (Nat.le_of_lt hin)
        obtain ⟨up, m, hends, hlt⟩ := hearly (len - UInt16.ofNat h.bytes) (by omega)
        exact ⟨up, h.bytes + m, .next hone hin hends, by omega⟩

end Misread

/-! ## Classification -/

section Classify

variable {data data₀ : Bytes} {p p₀ : IpPos} {upper : UInt8} {n : Nat} {hs : List ExtHdr}
  {cfg : FilterConfig}

/-- The leaf for a TCP, UDP or ICMPv6 header. -/
def upperLeaf (cfg : FilterConfig) (data : Bytes) (upper : UInt8) (off : Nat) (len : UInt16) :
    Option FilterReturn :=
  if upper = ipprotoTcp then
    if cfg.enableKni then (protocolFilterTcp cfg data off len).res else some .unknown
  else if upper = ipprotoUdp then
    if cfg.enableKni then (protocolFilterUdp cfg data off len).res else some .unknown
  else (protocolFilterIcmp6 data off len).res

theorem returnLeaf_res (leaf : Nat → UInt16 → Traced Event FilterReturn) (off : Nat) (len : UInt16) :
    (returnLeaf leaf off len).res = (leaf off len).res.map .inl := by
  simp only [returnLeaf, res_bind, res_emit, res_pure, Option.bind_some]
  cases (leaf off len).res <;> rfl

/-- A leaf that is asked only with a kernel interface. -/
theorem kniLeaf_res (leaf : Nat → UInt16 → Traced Event FilterReturn) (off : Nat) (len : UInt16) :
    (if cfg.enableKni then returnLeaf leaf off len else pure (.inl .unknown)).res =
      (if cfg.enableKni then (leaf off len).res else some .unknown).map .inl := by
  by_cases hkni : cfg.enableKni = true
  · rw [if_pos hkni, if_pos hkni]
    exact returnLeaf_res leaf off len
  · rw [if_neg hkni, if_neg hkni]
    rfl

/-- Behind an accepted header the leaf decides. -/
theorem protocolFilterIp_res (hheader : (ipHeader data p).res = some (some (upper, n)))
    (hupper : upper = ipprotoTcp ∨ upper = ipprotoUdp ∨ upper = ipprotoIcmpv6) (fuel : Nat) :
    (protocolFilterIp cfg data (fuel + 1) p).res =
      upperLeaf cfg data upper (p.off + n) (p.len - UInt16.ofNat n) := by
  have hbody : (protocolFilterIpBody cfg data p).res =
      (upperLeaf cfg data upper (p.off + n) (p.len - UInt16.ofNat n)).map .inl := by
    simp only [protocolFilterIpBody, res_bind, hheader, Option.bind_some, lenSub, res_emit, res_pure]
    rcases hupper with rfl | rfl | rfl
    · rw [if_pos rfl, upperLeaf, if_pos rfl]
      exact kniLeaf_res _ _ _
    · have hne : ¬ ipprotoUdp = ipprotoTcp := by decide
      rw [if_neg hne, if_pos rfl, upperLeaf, if_neg hne, if_pos rfl]
      exact kniLeaf_res _ _ _
    · have hne : ¬ ipprotoIcmpv6 = ipprotoTcp ∧ ¬ ipprotoIcmpv6 = ipprotoUdp ∧
          ¬ ipprotoIcmpv6 = ipprotoIpip ∧ ¬ ipprotoIcmpv6 = ipprotoIpv6 := by decide
      rw [if_neg hne.1, if_neg hne.2.1, if_neg hne.2.2.1, if_neg hne.2.2.2, if_pos rfl, upperLeaf,
        if_neg hne.1, if_neg hne.2.1]
      exact returnLeaf_res _ _ _
  show (loop (protocolFilterIpBody cfg data) (fuel + 1) p).res = _
  rw [loop, res_bind, hbody]
  cases upperLeaf cfg data upper (p.off + n) (p.len - UInt16.ofNat n) <;> rfl

theorem filterPort_congr {size : UInt16} {bitmap : Nat → UInt8} {off off₀ : Nat} (len : UInt16)
    (hsame : ∀ i, data₀ (off₀ + i) = data (off + i)) :
    (filterPort size bitmap data₀ off₀ len).res = (filterPort size bitmap data off len).res := by
  unfold filterPort
  split
  · rfl
  · simp only [readRaw16, read, res_bind, res_emit, res_pure, Option.bind_some, hsame, Nat.add_assoc]

/-- A leaf sees the bytes from its header on. -/
theorem upperLeaf_congr {off off₀ : Nat} (len : UInt16)
    (hsame : ∀ i, data₀ (off₀ + i) = data (off + i)) :
    upperLeaf cfg data₀ upper off₀ len = upperLeaf cfg data upper off len := by
  have hfirst : data₀ off₀ = data off := hsame 0
  have hicmp : (protocolFilterIcmp6 data₀ off₀ len).res = (protocolFilterIcmp6 data off len).res := by
    unfold protocolFilterIcmp6
    split
    · rfl
    · simp only [read, res_bind, res_emit, res_pure, Option.bind_some, hfirst]
  rw [upperLeaf, upperLeaf, protocolFilterTcp, protocolFilterUdp, filterPort_congr len hsame,
    filterPort_congr len hsame, hicmp]

/-- The header is found where the walk ends. -/
theorem header_iff (htype : p.etherType = etherTypeIpv6) (hroom : 40 ≤ p.len.toNat) :
    (ipHeader data p).res = some (some (upper, 40 + n)) ↔ ExtEnds data (extStart data p) upper n := by
  obtain ⟨r, hres, hends⟩ := ipHeader_res data p
  rw [hres, Option.some.injEq, hends]
  constructor
  · intro h
    generalize hn : 40 + n = m at h
    cases h with
    | ipv4 htype' _ _ => exact absurd (htype'.symm.trans htype) (by decide)
    | ipv6 _ _ hrest =>
        obtain rfl := Nat.add_left_cancel hn
        exact hrest
  · exact .ipv6 htype hroom

/-- The header decides the classification. -/
theorem FindsUpper.of_header (hheader : (ipHeader data p).res = some (some (upper, 40 + n)))
    (hn : 40 + n ≤ p.len.toNat) : FindsUpper data p upper n := by
  refine ⟨hheader, ?_⟩
  intro cfg data₀ p₀ hpacket hlen hsame hupper fuel
  have hroom : 40 ≤ p₀.len.toNat := by omega
  have hplain : ExtEnds data₀ (extStart data₀ p₀) upper 0 := by
    refine hpacket.chain.ends (fun h hh => absurd hh List.not_mem_nil) ?_
    rw [sub_ofNat_toNat hroom]
    have hpayload := hpacket.payload
    omega
  have hheader₀ := (header_iff hpacket.etherType hroom).mpr hplain
  have hlens : p₀.len - UInt16.ofNat (40 + 0) = p.len - UInt16.ofNat (40 + n) := by
    apply UInt16.toNat.inj
    rw [sub_ofNat_toNat hroom, sub_ofNat_toNat hn]
    omega
  rw [protocolFilterIp_res hheader hupper, protocolFilterIp_res hheader₀ hupper, hlens]
  refine (upperLeaf_congr _ ?_).symm
  intro i
  rw [← Nat.add_assoc p.off]
  exact hsame i

end Classify

/-- **The upper-layer header behind extension headers.** The classifier finds it in every packet with
these headers if and only if none of them is an option header. -/
theorem upper_layer_is_found_iff {data : Bytes} {p : IpPos} {hs : List ExtHdr} {upper : UInt8} {n : Nat}
    (h : Ipv6Packet data p hs upper n) :
    (∀ data', Ipv6Packet data' p hs upper n → FindsUpper data' p upper n) ↔
      ∀ h ∈ hs, h.proto ∉ optionProtos := by
  have hpayload := h.payload
  have hroom : 40 ≤ p.len.toNat := by omega
  have hstart := sub_ofNat_toNat hroom
  constructor
  · intro hall
    by_contra hno
    have hopt : ∃ h ∈ hs, h.proto ∈ optionProtos := by simpa using hno
    obtain ⟨data', hsame, hchain, hearly⟩ := misread_of_option h.chain hopt
    -- the IPv6 header lies before the chain
    have hnext : data' (p.off + 6) = data (p.off + 6) := hsame _ (by omega)
    have hpayload' : be16 data' (p.off + 4) = be16 data (p.off + 4) := by
      rw [be16, be16, hsame _ (by omega), hsame _ (by omega)]
    have hpacket : Ipv6Packet data' p hs upper n := by
      refine ⟨h.etherType, ?_, ?_, ?_⟩
      · rw [hsame _ (by omega)]
        exact h.version
      · rw [hpayload']
        exact hpayload
      · rw [hpayload', hnext]
        exact hchain
    have hends := (header_iff h.etherType hroom).mp (hall data' hpacket).header
    obtain ⟨up, k, hends', hlt⟩ := hearly (p.len - UInt16.ofNat 40) (by omega)
    rw [extStart, hnext] at hends
    have heq := (hends.unique hends').2
    omega
  · intro hno data' hpacket
    have hends : ExtEnds data' (extStart data' p) upper n := by
      refine hpacket.chain.ends hno ?_
      have := hpacket.payload
      omega
    apply FindsUpper.of_header ((header_iff h.etherType hroom).mpr hends)
    have hlt := hpacket.chain.lt_room
    have := hpacket.payload
    omega

/-! ### Neighbour discovery -/

namespace Sample

/-- A neighbour solicitation behind the extension header `ext` of eight bytes of kind `kind`, from
offset 14 on. -/
def solicitation (kind : UInt8) : Bytes := fun off =>
  if off = 14 then 0x60 else if off = 19 then 16 else if off = 20 then kind
  else if off = 54 then ipprotoIcmpv6 else if off = 62 then 135 else 0

/-- Its IPv6 packet. -/
def solicitationPos : IpPos := ⟨14, 56, etherTypeIpv6⟩

/-- The extension header as `ExtChain` has it. -/
def extHdr (kind : UInt8) : ExtHdr := ⟨kind, 0⟩

theorem solicitation_packet {kind : UInt8} (hkind : kind = 0 ∨ kind = ipprotoFragment) :
    Ipv6Packet (solicitation kind) solicitationPos [extHdr kind] ipprotoIcmpv6 8 := by
  have hext : IsExt (extHdr kind).proto := by
    rcases hkind with rfl | rfl <;> decide
  have hroom : (extHdr kind).bytes < 16 := by
    rcases hkind with rfl | rfl <;> decide
  have hupper : ExtChain (solicitation kind) (solicitation kind 54) (54 + (extHdr kind).bytes)
      (16 - (extHdr kind).bytes) [] ipprotoIcmpv6 0 := by
    rcases hkind with rfl | rfl
    · exact .upper (by decide) (by decide)
    · exact .upper (by decide) (by decide)
  have hfirst : fragOffset (solicitation kind) 54 = 0 := by
    rcases hkind with rfl | rfl <;> decide
  have hchain := ExtChain.ext hext (fun _ => rfl) (fun _ => hfirst) hroom hupper
  rcases hkind with rfl | rfl
  · exact ⟨rfl, by decide, by decide, hchain⟩
  · exact ⟨rfl, by decide, by decide, hchain⟩

end Sample

/-- Behind a fragment header every solicitation is found. -/
theorem upper_layer_is_found_fragment :
    (∀ data, Ipv6Packet data Sample.solicitationPos [Sample.extHdr ipprotoFragment] ipprotoIcmpv6 8 →
        FindsUpper data Sample.solicitationPos ipprotoIcmpv6 8) ↔
      ∀ h ∈ [Sample.extHdr ipprotoFragment], h.proto ∉ optionProtos :=
  upper_layer_is_found_iff (Sample.solicitation_packet (.inr rfl))

/-- Behind a hop-by-hop header the second byte of that header is taken for the ICMPv6 type: the
solicitation is not found, and not recognised as neighbour discovery. -/
theorem hop_by_hop_hides_solicitation :
    Ipv6Packet (Sample.solicitation 0) Sample.solicitationPos [Sample.extHdr 0] ipprotoIcmpv6 8 ∧
      (ipHeader (Sample.solicitation 0) Sample.solicitationPos).res =
        some (some (ipprotoIcmpv6, 41)) ∧
      (∀ cfg fuel, (protocolFilterIp cfg (Sample.solicitation 0) (fuel + 1) Sample.solicitationPos).res =
        some .unknown) ∧
      ¬ FindsUpper (Sample.solicitation 0) Sample.solicitationPos ipprotoIcmpv6 8 := by
  have hheader : (ipHeader (Sample.solicitation 0) Sample.solicitationPos).res =
      some (some (ipprotoIcmpv6, 41)) := by decide
  refine ⟨Sample.solicitation_packet (.inl rfl), hheader, ?_, ?_⟩
  · intro cfg fuel
    rw [protocolFilterIp_res hheader (.inr (.inr rfl))]
    rfl
  · intro hfinds
    have hfound := hfinds.header
    rw [hheader] at hfound
    exact absurd hfound (by decide)

end LazyBsd.Filter
