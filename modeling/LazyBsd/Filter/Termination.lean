/-
# LazyBsd.Filter.Termination — when the classifier ends.

`get_ipv6_hdr_len` always ends: every extension header it skips is nonempty and leaves bytes behind.
`protocol_filter_ip` takes an IPv4 header of `4 * IHL` bytes off the length and tests only that the
length is large enough. A header with IHL 0 that carries another IP header is skipped by no bytes at all:
with `IPPROTO_IPIP` the function calls itself with the same arguments for ever. That is the only way not
to shrink.
-/
import LazyBsd.Filter.Headers

namespace LazyBsd.Filter

open Lib Lib.Traced

/-- A recursive call gets a strictly smaller remaining length. -/
def Event.Shrinks : Event → Prop
  | .recurse len len' => len'.toNat < len.toNat
  | _ => True

/-- The computation ends, and its recursive calls shrink. -/
def Ends {α : Type} (f : Nat → Traced Event α) : Prop :=
  (∃ fuel, (f fuel).res.isSome = true) ∧ ∀ fuel, (f fuel).All Event.Shrinks

/-- The header at `p` is an IPv4 header with IHL 0 that carries an IP header. -/
structure ZeroIhlTunnel (data : Bytes) (p : IpPos) : Prop where
  etherType : p.etherType = etherTypeIpv4
  room : 20 ≤ p.len.toNat
  ihl : ihlBytes (data p.off) = 0
  carries : (tunnelType (data (p.off + 9))).isSome = true

variable {cfg : FilterConfig} {data : Bytes} {p q : IpPos}

/-! ## One call -/

/-- The leaves call nothing. -/
theorem leafEvents_shrink (proto : UInt8) (off : Nat) (len : UInt16) :
    LeafEvents Event.Shrinks cfg data proto off len := by
  have hport : ∀ size bitmap, (filterPort size bitmap data off len).All Event.Shrinks := by
    intro size bitmap
    unfold filterPort
    split
    · simp
    · simp [readRaw16, read, Event.Shrinks]
  have hicmp : (protocolFilterIcmp6 data off len).All Event.Shrinks := by
    unfold protocolFilterIcmp6
    split
    · simp
    · simp [read, Event.Shrinks]
  exact ⟨fun _ _ => ⟨trivial, hport _ _⟩, fun _ _ => ⟨trivial, hport _ _⟩, fun _ => ⟨trivial, hicmp⟩⟩

/-- Each extension header that is skipped has bytes and leaves bytes. -/
theorem extEvents_shrink (e : ExtPos) : ExtEvents Event.Shrinks data e := by
  refine ⟨fun _ => trivial, fun n hlen hin => ⟨trivial, trivial, trivial, ?_⟩⟩
  have hpos := extLen_pos hlen
  show (e.len - UInt16.ofNat n).toNat < e.len.toNat
  rw [sub_ofNat_toNat (Nat.le_of_lt hin)]
  omega

theorem ipEvents_shrink (p : IpPos) : IpEvents Event.Shrinks data p :=
  ⟨fun _ _ => ⟨trivial, fun _ => trivial⟩,
    fun _ _ => ⟨trivial, trivial, trivial, fun e _ => extEvents_shrink e⟩⟩

/-- Taking an accepted header off the length shrinks it unless the header has no bytes. -/
theorem IpEnds.shrinks_iff {proto : UInt8} {n : Nat} (h : IpEnds data p proto n) :
    (p.len - UInt16.ofNat n).toNat < p.len.toNat ↔ 0 < n := by
  rw [sub_ofNat_toNat h.le]
  have := h.le
  have hroom : 20 ≤ p.len.toNat := by
    cases h with
    | ipv4 _ hroom _ => exact hroom
    | ipv6 _ hroom _ => omega
  omega

/-- **The step lemma.** The recursive call of the body shrinks exactly when the header is not an IPv4
tunnel with IHL 0. -/
theorem body_shrinks_iff :
    (protocolFilterIpBody cfg data p).All Event.Shrinks ↔ ¬ ZeroIhlTunnel data p := by
  rw [protocolFilterIpBody_all]
  constructor
  · rintro ⟨_, hswitch⟩ hzero
    obtain ⟨ty, hty⟩ := Option.isSome_iff_exists.mp hzero.carries
    have hends : IpEnds data p (data (p.off + 9)) (ihlBytes (data p.off)) :=
      .ipv4 hzero.etherType hzero.room (by rw [hzero.ihl]; omega)
    have hrec := ((hswitch _ _ hends).2.2 ty hty).2
    have hpos : 0 < ihlBytes (data p.off) := hends.shrinks_iff.mp hrec
    rw [hzero.ihl] at hpos
    omega
  · intro hno
    refine ⟨ipEvents_shrink p, fun proto n hends => ?_⟩
    refine ⟨trivial, leafEvents_shrink _ _ _, fun ty hty => ⟨trivial, ?_⟩⟩
    refine hends.shrinks_iff.mpr ?_
    cases hends with
    | ipv4 htype hroom _ =>
        refine Nat.pos_of_ne_zero fun hihl => hno ⟨htype, hroom, hihl, ?_⟩
        rw [hty]
        rfl
    | ipv6 _ _ _ => omega

/-- A tunnel that is entered by a shrinking call is shorter. -/
theorem Tunnel.len_lt (h : Tunnel data p q) (hno : ¬ ZeroIhlTunnel data p) :
    q.len.toNat < p.len.toNat := by
  obtain ⟨hends, htype⟩ := h
  refine hends.shrinks_iff.mpr ?_
  cases hends with
  | ipv4 hty hroom _ =>
      refine Nat.pos_of_ne_zero fun hihl => hno ⟨hty, hroom, hihl, ?_⟩
      rw [htype]
      rfl
  | ipv6 _ _ _ => omega

/-! ## Runs -/

/-- `protocol_filter_ip` ends, with shrinking calls, exactly when it reaches no such header. -/
theorem protocolFilterIp_ends_iff (cfg : FilterConfig) (data : Bytes) (p : IpPos) :
    Ends (fun fuel => protocolFilterIp cfg data fuel p) ↔
      ∀ q, Relation.ReflTransGen (Tunnel data) p q → ¬ ZeroIhlTunnel data q := by
  have hall : (∀ fuel, (protocolFilterIp cfg data fuel p).All Event.Shrinks) ↔
      ∀ q, Relation.ReflTransGen (Tunnel data) p q → ¬ ZeroIhlTunnel data q := by
    refine loop_all_iff.trans ?_
    simp only [reaches_iff_tunnels, body_shrinks_iff]
  refine ⟨fun h => hall.mp h.2, fun h => ⟨?_, hall.mpr h⟩⟩
  refine loop_returns (fun q => q.len.toNat) fun q hreach => ?_
  obtain ⟨r, hres, hr⟩ := protocolFilterIpBody_res cfg data q
  refine ⟨r, hres, fun q' hq' => ?_⟩
  exact ((hr q').mp hq').len_lt (h q (reaches_iff_tunnels.mp hreach))

/-- `protocol_filter` adds no call of its own. -/
theorem protocolFilter_ends_iff (cfg : FilterConfig) (data : Bytes) (len : UInt16) :
    Ends (fun fuel => protocolFilter cfg data fuel len) ↔
      ∀ p, FrameIp cfg data len p → Ends fun fuel => protocolFilterIp cfg data fuel p := by
  obtain ⟨⟨x, hx, hp⟩, hall⟩ := protocolFilterEther_spec cfg data len
  have hether : (protocolFilterEther cfg data len).All Event.Shrinks :=
    (hall _).mpr fun _ => ⟨trivial, trivial, trivial, fun _ => ⟨trivial, trivial, trivial⟩,
      fun _ _ => trivial⟩
  cases x with
  | inl r =>
      refine iff_of_true ⟨⟨0, by simp [protocolFilter, hx]⟩, fun fuel => ?_⟩ fun p hframe => ?_
      · simp only [protocolFilter, all_bind, hx]
        refine ⟨hether, ?_⟩
        rintro a ha
        obtain rfl := Option.some.inj ha
        exact all_pure.mpr trivial
      · exact absurd ((hp p).mpr hframe) (by simp)
  | inr p =>
      have hframe := (hp p).mp rfl
      have hres : ∀ fuel, (protocolFilter cfg data fuel len).res =
          (protocolFilterIp cfg data fuel p).res := fun fuel => by simp [protocolFilter, hx]
      have hlog : ∀ fuel, (protocolFilter cfg data fuel len).All Event.Shrinks ↔
          (protocolFilterIp cfg data fuel p).All Event.Shrinks := fun fuel => by
        simp [protocolFilter, hx, hether]
      have hsame : Ends (fun fuel => protocolFilter cfg data fuel len) ↔
          Ends fun fuel => protocolFilterIp cfg data fuel p := by
        simp only [Ends, hres, hlog]
      rw [hsame]
      refine ⟨fun h p' hframe' => ?_, fun h => h p hframe⟩
      obtain rfl := Sum.inr.inj ((hp p').mpr hframe')
      exact h

/-- **The classifier ends exactly when it comes to no IPv4 tunnel header with IHL 0.** For the IP
classifier from any position, and for whole frames; the recursive calls shrink under the same
condition, and those of `get_ipv6_hdr_len` always do. -/
theorem classifier_ends_iff (cfg : FilterConfig) (data : Bytes) :
    (∀ p, Ends (fun fuel => protocolFilterIp cfg data fuel p) ↔
      ∀ q, Relation.ReflTransGen (Tunnel data) p q → ¬ ZeroIhlTunnel data q) ∧
    (∀ len, Ends (fun fuel => protocolFilter cfg data fuel len) ↔
      ∀ p, FrameIp cfg data len p →
        ∀ q, Relation.ReflTransGen (Tunnel data) p q → ¬ ZeroIhlTunnel data q) ∧
    ∀ proto off len fuel, len.toNat < fuel →
      (getIpv6HdrLen data fuel proto off len).res.isSome = true ∧
        (getIpv6HdrLen data fuel proto off len).All Event.Shrinks := by
  refine ⟨protocolFilterIp_ends_iff cfg data, fun len => ?_, fun proto off len fuel hfuel => ?_⟩
  · simp only [protocolFilter_ends_iff, protocolFilterIp_ends_iff]
  · obtain ⟨proto', n, hres, -⟩ : ∃ proto' n,
        (getIpv6HdrLen data fuel proto off len).res = some (proto', n) ∧
          ExtEnds data ⟨proto, off, len⟩ proto' n :=
      getIpv6HdrLen_res ⟨proto, off, len⟩ hfuel
    refine ⟨by rw [hres]; rfl, ?_⟩
    exact (getIpv6HdrLen_all ⟨proto, off, len⟩ hfuel).mpr fun e _ => extEvents_shrink e

/-! ### A frame without end -/

namespace Sample

/-- The classifier with KNI enabled and no port selected. -/
def config : FilterConfig := ⟨true, fun _ => 0, fun _ => 0⟩

/-- An Ethernet frame of 34 bytes with an IPv4 header whose IHL is 0 and whose protocol is IPIP. -/
def loopingFrame : Bytes := fun off =>
  if off = 12 then 0x08 else if off = 14 then 0x40 else if off = 23 then 4 else 0

end Sample

/-- The classifier never returns on it, however many calls it is given. -/
theorem loopingFrame_never_ends :
    ¬ ∃ fuel, (protocolFilter Sample.config Sample.loopingFrame fuel 34).res.isSome = true := by
  have hself : (protocolFilterIpBody Sample.config Sample.loopingFrame ⟨14, 20, etherTypeIpv4⟩).res =
      some (.inr ⟨14, 20, etherTypeIpv4⟩) := by decide
  have hloop : ∀ fuel, (protocolFilterIp Sample.config Sample.loopingFrame fuel
      ⟨14, 20, etherTypeIpv4⟩).res = none := by
    intro fuel
    induction fuel with
    | zero => rfl
    | succ fuel ih =>
        have hstep : (loop (protocolFilterIpBody Sample.config Sample.loopingFrame) (fuel + 1)
            ⟨14, 20, etherTypeIpv4⟩).res = (protocolFilterIp Sample.config Sample.loopingFrame fuel
            ⟨14, 20, etherTypeIpv4⟩).res := by
          simp [loop, hself, protocolFilterIp]
        exact hstep.trans ih
  have hframe : (protocolFilterEther Sample.config Sample.loopingFrame 34).res =
      some (.inr ⟨14, 20, etherTypeIpv4⟩) := by decide
  rintro ⟨fuel, h⟩
  have hnone : (protocolFilter Sample.config Sample.loopingFrame fuel 34).res = none := by
    simp [protocolFilter, hframe, hloop]
  rw [hnone] at h
  exact absurd h (by decide)

end LazyBsd.Filter
