/-
# LazyBsd.Filter.Result — what `protocol_filter` returns, if it returns.

`protocol_filter_ip` does not return exactly if it comes to an IPv4 header with IHL 0 whose protocol is
IPIP: the header is skipped by no bytes, and the call is made again with the same arguments. Every other
tunnel shrinks the length, or is entered with the length unchanged but as IPv6, which shrinks it next. So
there is a number of calls that is enough for every frame, and `classify` is `protocol_filter` with it.
-/
import LazyBsd.Filter.Termination

namespace LazyBsd.Filter

open Lib Lib.Traced

variable {cfg : FilterConfig} {data : Bytes} {len : UInt16} {p q : IpPos}

/-- The header at `p` is an IPv4 header with IHL 0 that carries an IPv4 packet: it carries itself. -/
structure EndlessTunnel (data : Bytes) (p : IpPos) : Prop where
  etherType : p.etherType = etherTypeIpv4
  room : 20 ≤ p.len.toNat
  ihl : ihlBytes (data p.off) = 0
  carries : data (p.off + 9) = ipprotoIpip

/-- The calls of `protocol_filter_ip` that can follow, unless it calls itself without end. -/
def IpPos.rank (p : IpPos) : Nat := 2 * p.len.toNat + if p.etherType = etherTypeIpv4 then 1 else 0

theorem EndlessTunnel.next (h : EndlessTunnel data p) : Next (protocolFilterIpBody cfg data) p p := by
  have hends : IpEnds data p (data (p.off + 9)) (ihlBytes (data p.off)) :=
    .ipv4 h.etherType h.room (by rw [h.ihl]; exact Nat.zero_le _)
  have hsame : p.skip (ihlBytes (data p.off)) etherTypeIpv4 = p := by
    rw [h.ihl, IpPos.skip, ← h.etherType]
    simp
  have htunnel : Tunnel data p (p.skip (ihlBytes (data p.off)) etherTypeIpv4) :=
    .step hends (by rw [h.carries]; rfl)
  rw [hsame] at htunnel
  exact next_iff_tunnel.mpr htunnel

/-- Every other tunnel is followed by fewer. -/
theorem Tunnel.rank_lt (h : Tunnel data p q) (hno : ¬ EndlessTunnel data p) : q.rank < p.rank := by
  by_cases hzero : ZeroIhlTunnel data p
  · obtain ⟨hends, htype⟩ := h
    cases hends with
    | ipv6 htype6 _ _ =>
        have hfour := hzero.etherType
        rw [htype6] at hfour
        exact absurd hfour (by decide)
    | ipv4 htype4 hroom _ =>
        -- no byte is skipped, and what is carried is IPv6
        unfold tunnelType at htype
        split at htype
        · rename_i hipip
          exact absurd ⟨htype4, hroom, hzero.ihl, hipip⟩ hno
        · split at htype
          · obtain rfl := Option.some.inj htype
            have hsix : etherTypeIpv6 ≠ etherTypeIpv4 := by decide
            simp [IpPos.rank, IpPos.skip, hzero.ihl, htype4, hsix]
          · cases htype
  · have hlt := h.len_lt hzero
    unfold IpPos.rank
    split <;> split <;> omega

/-- **`protocol_filter_ip` does not return** exactly if it comes to a header that carries itself. -/
theorem protocolFilterIp_eq_none (cfg : FilterConfig) (data : Bytes) (p : IpPos) {fuel : Nat}
    (hfuel : p.rank < fuel) :
    (protocolFilterIp cfg data fuel p).res = none ↔
      ∃ q, Relation.ReflTransGen (Tunnel data) p q ∧ EndlessTunnel data q := by
  constructor
  · intro hnone
    by_contra hno
    have hsome : (protocolFilterIp cfg data fuel p).res.isSome = true := by
      refine loop_returns_within IpPos.rank (fun q hreach => ?_) hfuel
      obtain ⟨r, hres, hr⟩ := protocolFilterIpBody_res cfg data q
      refine ⟨r, hres, fun q' hq' => ((hr q').mp hq').rank_lt fun hendless => ?_⟩
      exact hno ⟨q, reaches_iff_tunnels.mp hreach, hendless⟩
    rw [hnone] at hsome
    exact absurd hsome Bool.false_ne_true
  · rintro ⟨q, hreach, hendless⟩
    exact loop_endless (reaches_iff_tunnels.mpr hreach) hendless.next

/-- `protocol_filter`, with more calls of `protocol_filter_ip` than any frame that ends can lead to. -/
def classify (cfg : FilterConfig) (data : Bytes) (len : UInt16) : Option FilterReturn :=
  (protocolFilter cfg data 131072 len).res

theorem IpPos.rank_lt_fuel (p : IpPos) : p.rank < 131072 := by
  have hlen := p.len.toNat_lt
  unfold IpPos.rank
  split <;> omega

/-- **When `protocol_filter` returns**: unless the frame leads to a header that carries itself. -/
theorem classify_eq_none (cfg : FilterConfig) (data : Bytes) (len : UInt16) :
    classify cfg data len = none ↔
      ∃ p q, FrameIp cfg data len p ∧ Relation.ReflTransGen (Tunnel data) p q ∧ EndlessTunnel data q := by
  obtain ⟨⟨x, hx, hp⟩, -⟩ := protocolFilterEther_spec cfg data len
  cases x with
  | inl r =>
      apply iff_of_false
      · simp [classify, protocolFilter, hx]
      · rintro ⟨p, -, hframe, -⟩
        exact absurd ((hp p).mpr hframe) (by simp)
  | inr p =>
      have hip : classify cfg data len = (protocolFilterIp cfg data 131072 p).res := by
        simp [classify, protocolFilter, hx]
      rw [hip, protocolFilterIp_eq_none cfg data p p.rank_lt_fuel]
      constructor
      · rintro ⟨q, hreach, hendless⟩
        exact ⟨p, q, (hp p).mp rfl, hreach, hendless⟩
      · rintro ⟨p', q, hframe, hreach, hendless⟩
        obtain rfl := Sum.inr.inj ((hp p').mpr hframe)
        exact ⟨q, hreach, hendless⟩

/-- The result does not depend on the number of calls. -/
theorem classify_eq_some (cfg : FilterConfig) (data : Bytes) (len : UInt16) (r : FilterReturn) :
    classify cfg data len = some r ↔ ∃ fuel, (protocolFilter cfg data fuel len).res = some r := by
  refine ⟨fun h => ⟨131072, h⟩, ?_⟩
  rintro ⟨fuel, h⟩
  obtain ⟨⟨x, hx, -⟩, -⟩ := protocolFilterEther_spec cfg data len
  cases x with
  | inl r' => simpa [classify, protocolFilter, hx] using h
  | inr p =>
      have hip (fuel : Nat) : (protocolFilter cfg data fuel len).res =
          (protocolFilterIp cfg data fuel p).res := by simp [protocolFilter, hx]
      rw [hip] at h
      show (protocolFilter cfg data 131072 len).res = some r
      rw [hip]
      rcases Nat.le_total fuel 131072 with hle | hge
      · exact loop_res_le h hle
      · -- with fewer calls the loop has returned already, or it never does
        cases hres : (protocolFilterIp cfg data 131072 p).res with
        | some r' =>
            have hmore : (protocolFilterIp cfg data fuel p).res = some r' := loop_res_le hres hge
            exact hmore.symm.trans h
        | none =>
            have hnone := (protocolFilterIp_eq_none cfg data p
              (Nat.lt_of_lt_of_le p.rank_lt_fuel hge)).mpr ((protocolFilterIp_eq_none cfg data p p.rank_lt_fuel).mp hres)
            rw [hnone] at h
            exact absurd h.symm (Option.some_ne_none r)

/-- On the frame of 34 bytes whose header carries itself. -/
theorem classify_loopingFrame : classify Sample.config Sample.loopingFrame 34 = none := by
  rw [classify_eq_none]
  have hframe : FrameIp Sample.config Sample.loopingFrame 34 ⟨14, 20, etherTypeIpv4⟩ :=
    .plain (by decide) (by decide) (.inr ⟨rfl, by decide⟩)
  exact ⟨_, _, hframe, .refl, ⟨rfl, by decide, by decide, by decide⟩⟩

end LazyBsd.Filter
