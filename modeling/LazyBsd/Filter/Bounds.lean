/-
# LazyBsd.Filter.Bounds — when the classifier stays inside the frame.

Every function tests the remaining length before it reads, but three tests are too weak.
`protocol_filter` asks for `RTE_ETHER_ADDR_LEN` bytes before it reads the 14-byte Ethernet header and
takes 14 off the length, and for nothing before it reads the VLAN tag. `get_ipv6_hdr_len` reads the
length byte of an extension header without looking at the length at all. With the three tests in place
(`FrameFits`) every read is in the frame, no subtraction wraps and every length passed is what is left of
the frame; without one of them some event is out of bounds.
-/
import LazyBsd.Filter.Headers

namespace LazyBsd.Filter

open Lib Lib.Traced

/-- In a frame of `frameLen` bytes: reads are inside, subtractions do not wrap, and a pointer is passed
with the number of bytes behind it. -/
def Event.InFrame (frameLen : Nat) : Event → Prop
  | .read off => off < frameLen
  | .sub len n => n ≤ len.toNat
  | .call off len => off + len.toNat = frameLen
  | .recurse _ _ => True

/-- Every extension header at or behind `e` whose length is in its second byte has that byte. -/
def ExtFits (data : Bytes) (e : ExtPos) : Prop :=
  ∀ e', Relation.ReflTransGen (ExtNext data) e e' → HasLenByte e'.proto → 2 ≤ e'.len.toNat

/-- Every IPv6 header at or behind `p` that is long enough to be looked at has such extension headers. -/
def TunnelsFit (data : Bytes) (p : IpPos) : Prop :=
  ∀ q, Relation.ReflTransGen (Tunnel data) p q → q.etherType = etherTypeIpv6 → 40 ≤ q.len.toNat →
    ExtFits data (extStart data q)

/-- The condition on a frame: it is shorter than the first test asks for, or it holds its Ethernet
header, its VLAN tag if it has one, and the length bytes of its extension headers. -/
def FrameFits (cfg : FilterConfig) (data : Bytes) (len : UInt16) : Prop :=
  len.toNat < 6 ∨
    14 ≤ len.toNat ∧ (be16 data 12 = etherTypeVlan → 18 ≤ len.toNat) ∧
      ∀ p, FrameIp cfg data len p → TunnelsFit data p

variable {cfg : FilterConfig} {data : Bytes} {frameLen : Nat} {p q : IpPos}

/-! ## Extension headers -/

/-- The position and the length add up to the frame. -/
theorem ExtNext.sum {e e' : ExtPos} (h : ExtNext data e e') (hsum : e.off + e.len.toNat = frameLen) :
    e'.off + e'.len.toNat = frameLen := by
  obtain ⟨hlen, hin⟩ := h
  rw [skip_len hin]
  show e.off + _ + _ = frameLen
  omega

theorem extReaches_sum {e e' : ExtPos} (h : Relation.ReflTransGen (ExtNext data) e e')
    (hsum : e.off + e.len.toNat = frameLen) : e'.off + e'.len.toNat = frameLen := by
  induction h with
  | refl => exact hsum
  | tail _ hnext ih => exact hnext.sum ih

/-- One call stays inside exactly when the length byte, if it is read, is there. -/
theorem extEvents_inFrame_iff {e : ExtPos} (hsum : e.off + e.len.toNat = frameLen) :
    ExtEvents (Event.InFrame frameLen) data e ↔ (HasLenByte e.proto → 2 ≤ e.len.toNat) := by
  constructor
  · rintro ⟨hbyte, _⟩ hhas
    have hread : e.off + 1 < frameLen := hbyte hhas
    omega
  · intro h
    refine ⟨fun hhas => ?_, fun n hlen hin => ⟨?_, Nat.le_of_lt hin, ?_, trivial⟩⟩
    · have := h hhas
      show e.off + 1 < frameLen
      omega
    · show e.off < frameLen
      omega
    · exact (ExtNext.step hlen hin).sum hsum

theorem extFits_iff {e : ExtPos} (hsum : e.off + e.len.toNat = frameLen) :
    (∀ e', Relation.ReflTransGen (ExtNext data) e e' →
      ExtEvents (Event.InFrame frameLen) data e') ↔ ExtFits data e :=
  forall₂_congr fun _ hreach => extEvents_inFrame_iff (extReaches_sum hreach hsum)

/-! ## IP headers -/

theorem Tunnel.sum (h : Tunnel data p q) (hsum : p.off + p.len.toNat = frameLen) :
    q.off + q.len.toNat = frameLen := by
  obtain ⟨hends, _⟩ := h
  have hle := hends.le
  show p.off + _ + (p.len - UInt16.ofNat _).toNat = frameLen
  rw [sub_ofNat_toNat hle]
  omega

theorem tunnels_sum (h : Relation.ReflTransGen (Tunnel data) p q)
    (hsum : p.off + p.len.toNat = frameLen) : q.off + q.len.toNat = frameLen := by
  induction h with
  | refl => exact hsum
  | tail _ hnext ih => exact hnext.sum ih

/-- The leaves test the length of the header they read. -/
theorem leafEvents_inFrame (proto : UInt8) {off : Nat} {len : UInt16}
    (hsum : off + len.toNat = frameLen) :
    LeafEvents (Event.InFrame frameLen) cfg data proto off len := by
  have hport : ∀ (size : UInt16) (bitmap : Nat → UInt8), 4 ≤ size.toNat →
      (filterPort size bitmap data off len).All (Event.InFrame frameLen) := by
    intro size bitmap hsize
    unfold filterPort
    by_cases hlt : len < size
    · simp [hlt]
    · have hge : size.toNat ≤ len.toNat := Nat.le_of_not_lt hlt
      have hlo : off + 2 < frameLen := by omega
      have hhi : off + 2 + 1 < frameLen := by omega
      simp [hlt, readRaw16, read, Event.InFrame, hlo, hhi]
  have hicmp : (protocolFilterIcmp6 data off len).All (Event.InFrame frameLen) := by
    unfold protocolFilterIcmp6
    by_cases hlt : len < 8
    · simp [hlt]
    · have hge : 8 ≤ len.toNat := Nat.le_of_not_lt hlt
      simp only [if_neg hlt, read, all_bind, all_emit, all_pure, and_true, implies_true, Event.InFrame]
      omega
  exact ⟨fun _ _ => ⟨hsum, hport _ _ (by decide)⟩, fun _ _ => ⟨hsum, hport _ _ (by decide)⟩,
    fun _ => ⟨hsum, hicmp⟩⟩

/-- **The step lemma.** One call of `protocol_filter_ip` stays inside exactly when its extension
headers have their length bytes. -/
theorem body_inFrame_iff (hsum : p.off + p.len.toNat = frameLen) :
    (protocolFilterIpBody cfg data p).All (Event.InFrame frameLen) ↔
      (p.etherType = etherTypeIpv6 → 40 ≤ p.len.toNat → ExtFits data (extStart data p)) := by
  have hstart : 40 ≤ p.len.toNat →
      (extStart data p).off + (extStart data p).len.toNat = frameLen := by
    intro hroom
    rw [extStart_len hroom]
    show p.off + 40 + _ = frameLen
    omega
  rw [protocolFilterIpBody_all]
  constructor
  · rintro ⟨⟨_, h6⟩, _⟩ htype hroom
    exact (extFits_iff (hstart hroom)).mp (h6 htype hroom).2.2.2
  · intro h
    refine ⟨⟨fun htype hroom => ⟨?_, fun _ => ?_⟩, fun htype hroom => ⟨?_, hroom, ?_, ?_⟩⟩, ?_⟩
    · show p.off < frameLen
      omega
    · show p.off + 9 < frameLen
      omega
    · show p.off + 6 < frameLen
      omega
    · exact hstart hroom
    · exact (extFits_iff (hstart hroom)).mpr (h htype hroom)
    · intro proto n hends
      have hnext : p.off + n + (p.len - UInt16.ofNat n).toNat = frameLen := by
        have hle := hends.le
        rw [sub_ofNat_toNat hle]
        omega
      exact ⟨hends.le, leafEvents_inFrame proto hnext, fun ty _ => ⟨hnext, trivial⟩⟩

/-- `protocol_filter_ip` stays inside, in any number of calls, exactly when its headers fit. -/
theorem protocolFilterIp_inFrame_iff (hsum : p.off + p.len.toNat = frameLen) :
    (∀ fuel, (protocolFilterIp cfg data fuel p).All (Event.InFrame frameLen)) ↔ TunnelsFit data p := by
  refine loop_all_iff.trans ?_
  simp only [reaches_iff_tunnels]
  exact forall₂_congr fun q hreach => body_inFrame_iff (tunnels_sum hreach hsum)

/-! ## Frames -/

/-- The IP packet ends where the frame ends. -/
theorem FrameIp.sum {len : UInt16} (h : FrameIp cfg data len p) (hroom : 14 ≤ len.toNat)
    (hvlan : be16 data 12 = etherTypeVlan → 18 ≤ len.toNat) : p.off + p.len.toNat = len.toNat := by
  have h14 := sub_ofNat_toNat hroom
  cases h with
  | plain _ _ _ =>
      show 14 + (len - UInt16.ofNat 14).toNat = len.toNat
      omega
  | vlan _ hv _ =>
      have h18 := hvlan hv
      show 18 + (len - UInt16.ofNat 14 - UInt16.ofNat 4).toNat = len.toNat
      rw [sub_ofNat_toNat (by omega)]
      omega

/-- The reads of the Ethernet header and the VLAN tag are inside exactly when these are. -/
theorem ether_inFrame_iff (cfg : FilterConfig) (data : Bytes) {len : UInt16} (hlen : 6 ≤ len.toNat) :
    (protocolFilterEther cfg data len).All (Event.InFrame len.toNat) ↔
      14 ≤ len.toNat ∧ (be16 data 12 = etherTypeVlan → 18 ≤ len.toNat) := by
  rw [(protocolFilterEther_spec cfg data len).2]
  constructor
  · intro h
    obtain ⟨_, _, h14, hvlan, _⟩ := h hlen
    refine ⟨h14, fun hv => ?_⟩
    have h4 : 4 ≤ (len - UInt16.ofNat 14).toNat := (hvlan hv).2.2
    rw [sub_ofNat_toNat h14] at h4
    have h14' : 14 ≤ len.toNat := h14
    omega
  · rintro ⟨h14, hvlan⟩ _
    refine ⟨?_, ?_, h14, fun hv => ⟨?_, ?_, ?_⟩, fun p hframe => hframe.sum h14 hvlan⟩
    · show 12 < len.toNat
      omega
    · show 13 < len.toNat
      omega
    · have := hvlan hv
      show 16 < len.toNat
      omega
    · have := hvlan hv
      show 17 < len.toNat
      omega
    · have := hvlan hv
      show 4 ≤ (len - UInt16.ofNat 14).toNat
      rw [sub_ofNat_toNat h14]
      omega

/-- **The classifier reads only the frame, and its lengths are right, exactly when the frame is too
short for the first test, or holds the headers that the weak tests let through.** -/
theorem classifier_inFrame_iff (cfg : FilterConfig) (data : Bytes) (len : UInt16) :
    (∀ fuel, (protocolFilter cfg data fuel len).All (Event.InFrame len.toNat)) ↔
      FrameFits cfg data len := by
  obtain ⟨⟨x, hx, hp⟩, hall⟩ := protocolFilterEther_spec cfg data len
  have hlog : ∀ fuel, (protocolFilter cfg data fuel len).All (Event.InFrame len.toNat) ↔
      (protocolFilterEther cfg data len).All (Event.InFrame len.toNat) ∧
        ∀ p, FrameIp cfg data len p →
          (protocolFilterIp cfg data fuel p).All (Event.InFrame len.toNat) := by
    intro fuel
    simp only [protocolFilter, all_bind, hx, Option.some.injEq, forall_eq']
    refine and_congr_right fun _ => ?_
    cases x with
    | inl r => exact iff_of_true (all_pure.mpr trivial) fun p h => absurd ((hp p).mpr h) (by simp)
    | inr p =>
        refine ⟨fun h p' hframe => ?_, fun h => h p ((hp p).mp rfl)⟩
        obtain rfl := Sum.inr.inj ((hp p').mpr hframe)
        exact h
  simp only [hlog]
  by_cases hlen : 6 ≤ len.toNat
  · rw [forall_and, forall_const, ether_inFrame_iff cfg data hlen]
    unfold FrameFits
    constructor
    · rintro ⟨⟨h14, hvlan⟩, hip⟩
      refine .inr ⟨h14, hvlan, fun p hframe => ?_⟩
      exact (protocolFilterIp_inFrame_iff (hframe.sum h14 hvlan)).mp fun fuel => hip fuel p hframe
    · rintro (hlt | ⟨h14, hvlan, hfits⟩)
      · omega
      · refine ⟨⟨h14, hvlan⟩, fun fuel p hframe => ?_⟩
        exact (protocolFilterIp_inFrame_iff (hframe.sum h14 hvlan)).mpr (hfits p hframe) fuel
  · -- the first test returns
    exact iff_of_true (fun fuel => ⟨(hall _).mpr fun h => absurd h hlen,
      fun p hframe => absurd hframe.six_le hlen⟩) (.inl (Nat.lt_of_not_le hlen))

/-! ### A frame of 12 bytes -/

/-- A frame of 12 bytes passes the first test, and the type is read behind its end. -/
theorem shortFrame_read_outside :
    ¬ ∀ fuel, (protocolFilter ⟨true, fun _ => 0, fun _ => 0⟩ (fun _ => 0) fuel 12).All
      (Event.InFrame 12) := by
  intro h
  have hread : Event.InFrame 12 (.read 12) := h 0 _ (by decide)
  exact absurd hread (by simp [Event.InFrame])

end LazyBsd.Filter
