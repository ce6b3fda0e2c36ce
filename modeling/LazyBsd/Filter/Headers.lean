/-
# LazyBsd.Filter.Headers — the headers that the classifier walks, without the walking.

`ExtNext` leads from one IPv6 extension header to the next, `ExtEnds` to the end of the chain, `Tunnel`
from one IP header to the one it carries. All three are stated over the header fields as the classifier
counts them (an option header has `byte + 1` bytes there). The results of `get_ipv6_hdr_len` and the
tail calls of `protocol_filter_ip` are these relations.
-/
import LazyBsd.Filter.Classifier

namespace LazyBsd.Filter

open Lib Lib.Traced

/-! ## Lengths -/

/-- A subtraction that does not wrap. -/
theorem sub_ofNat_toNat {len : UInt16} {n : Nat} (h : n ≤ len.toNat) :
    (len - UInt16.ofNat n).toNat = len.toNat - n := by
  have hlt := len.toNat_lt
  have hn : (UInt16.ofNat n).toNat = n := by
    rw [UInt16.toNat_ofNat', Nat.mod_eq_of_lt (by omega)]
  rw [UInt16.toNat_sub_of_le _ _ (UInt16.le_iff_toNat_le.mpr (by omega)), hn]

/-! ## Extension headers -/

/-- An extension header, or what follows the last one: its protocol, offset and remaining length. -/
structure ExtPos where
  proto : UInt8
  off : Nat
  len : UInt16
  deriving DecidableEq, Repr

/-- Does the length of this header come from its second byte? -/
def HasLenByte (proto : UInt8) : Prop := proto ∈ optionProtos ∨ proto = ipprotoAh

instance (proto : UInt8) : Decidable (HasLenByte proto) :=
  inferInstanceAs (Decidable (_ ∨ _))

/-- The length that the `switch` computes. -/
def extLen (data : Bytes) (e : ExtPos) : Option Nat :=
  if e.proto ∈ optionProtos then some ((data (e.off + 1)).toNat + 1)
  else if e.proto = ipprotoFragment then some 8
  else if e.proto = ipprotoAh then some (((data (e.off + 1)).toNat + 2) * 4)
  else none

/-- The position `n` bytes further, where the header at `e` names the protocol. -/
def ExtPos.skip (data : Bytes) (e : ExtPos) (n : Nat) : ExtPos :=
  ⟨data e.off, e.off + n, e.len - UInt16.ofNat n⟩

/-- The next header of the chain. -/
inductive ExtNext (data : Bytes) : ExtPos → ExtPos → Prop
  | step {e : ExtPos} {n : Nat} (hlen : extLen data e = some n) (hin : n < e.len.toNat) :
      ExtNext data e (e.skip data n)

/-- The chain from `e` ends with protocol `proto` after `n` bytes. A header that fills the rest, or
claims more than that, is the last one. -/
inductive ExtEnds (data : Bytes) : ExtPos → UInt8 → Nat → Prop
  | upper {e : ExtPos} (hlen : extLen data e = none) : ExtEnds data e e.proto 0
  | rest {e : ExtPos} {n : Nat} (hlen : extLen data e = some n) (hout : e.len.toNat ≤ n) :
      ExtEnds data e e.proto e.len.toNat
  | next {e : ExtPos} {n k : Nat} {proto : UInt8} (hlen : extLen data e = some n)
      (hin : n < e.len.toNat) (hrest : ExtEnds data (e.skip data n) proto k) :
      ExtEnds data e proto (n + k)

variable {data : Bytes}

theorem extLen_pos {e : ExtPos} {n : Nat} (h : extLen data e = some n) : 0 < n := by
  unfold extLen at h
  split at h
  · simp only [Option.some.injEq] at h
    omega
  · split at h
    · simp only [Option.some.injEq] at h
      omega
    · split at h
      · simp only [Option.some.injEq] at h
        omega
      · exact absurd h (by simp)

theorem skip_len {e : ExtPos} {n : Nat} (h : n < e.len.toNat) :
    (e.skip data n).len.toNat = e.len.toNat - n :=
  sub_ofNat_toNat (Nat.le_of_lt h)

/-- The chain has one end. -/
theorem ExtEnds.unique {e : ExtPos} {p p' : UInt8} {n n' : Nat} (h : ExtEnds data e p n)
    (h' : ExtEnds data e p' n') : p = p' ∧ n = n' := by
  induction h generalizing n' with
  | upper hlen =>
      cases h' with
      | upper _ => exact ⟨rfl, rfl⟩
      | rest hlen' _ => exact absurd (hlen.symm.trans hlen') (by simp)
      | next hlen' _ _ => exact absurd (hlen.symm.trans hlen') (by simp)
  | rest hlen hout =>
      cases h' with
      | upper hlen' => exact absurd (hlen'.symm.trans hlen) (by simp)
      | rest _ _ => exact ⟨rfl, rfl⟩
      | next hlen' hin _ =>
          obtain rfl := Option.some.inj (hlen.symm.trans hlen')
          omega
  | next hlen hin _ ih =>
      cases h' with
      | upper hlen' => exact absurd (hlen'.symm.trans hlen) (by simp)
      | rest hlen' hout =>
          obtain rfl := Option.some.inj (hlen.symm.trans hlen')
          omega
      | next hlen' _ hrest' =>
          obtain rfl := Option.some.inj (hlen.symm.trans hlen')
          obtain ⟨rfl, rfl⟩ := ih hrest'
          exact ⟨rfl, rfl⟩

/-- The chain ends within the remaining length. -/
theorem ExtEnds.le {e : ExtPos} {p : UInt8} {n : Nat} (h : ExtEnds data e p n) : n ≤ e.len.toNat := by
  induction h with
  | upper _ => exact Nat.zero_le _
  | rest _ _ => exact Nat.le_refl _
  | next _ hin _ ih =>
      rw [skip_len hin] at ih
      omega

/-! ## `get_ipv6_hdr_len` -/

section ExtHdr

theorem extHdrLen_res (e : ExtPos) : (extHdrLen data e.proto e.off).res = some (extLen data e) := by
  unfold extHdrLen extLen
  split
  · simp [read]
  · split
    · rfl
    · split
      · simp [read]
      · rfl

/-- The `switch` reads the second byte of a header that has a length there, and nothing else. -/
theorem extHdrLen_all {P : Event → Prop} (e : ExtPos) :
    (extHdrLen data e.proto e.off).All P ↔ (HasLenByte e.proto → P (.read (e.off + 1))) := by
  have hfrag : ¬ ipprotoFragment = ipprotoAh := by decide
  unfold extHdrLen HasLenByte
  by_cases hopt : e.proto ∈ optionProtos
  · simp [hopt, read]
  · by_cases hf : e.proto = ipprotoFragment
    · rw [if_neg hopt, if_pos hf]
      have hno : ¬ ipprotoFragment ∈ optionProtos := by decide
      simp [hf, hfrag, hno]
    · by_cases hah : e.proto = ipprotoAh
      · rw [if_neg hopt, if_neg hf, if_pos hah]
        simp [hah, read]
      · rw [if_neg hopt, if_neg hf, if_neg hah]
        simp [hopt, hah]

/-- The events of one call. -/
def ExtEvents (P : Event → Prop) (data : Bytes) (e : ExtPos) : Prop :=
  (HasLenByte e.proto → P (.read (e.off + 1))) ∧
    ∀ n, extLen data e = some n → n < e.len.toNat →
      P (.read e.off) ∧ P (.sub e.len n) ∧ P (.call (e.off + n) (e.len - UInt16.ofNat n)) ∧
        P (.recurse e.len (e.len - UInt16.ofNat n))

/-- A call logs its own events, then those of the call for the next header. -/
theorem getIpv6HdrLen_succ_all {P : Event → Prop} {fuel : Nat} (e : ExtPos) :
    (getIpv6HdrLen data (fuel + 1) e.proto e.off e.len).All P ↔
      ExtEvents P data e ∧ ∀ e', ExtNext data e e' →
        (getIpv6HdrLen data fuel e'.proto e'.off e'.len).All P := by
  simp only [getIpv6HdrLen, all_bind, extHdrLen_all, extHdrLen_res, Option.some.injEq, ExtEvents,
    and_assoc]
  refine and_congr_right fun _ => ?_
  cases hlen : extLen data e with
  | none =>
      refine iff_of_true (by rintro _ rfl; simp) ⟨by simp, fun e' hnext => ?_⟩
      cases hnext with
      | step hlen' _ => exact absurd (hlen.symm.trans hlen') (by simp)
  | some n =>
      by_cases hout : e.len.toNat ≤ n
      · refine iff_of_true (by rintro _ rfl; simp [hout]) ⟨?_, fun e' hnext => ?_⟩
        · rintro _ hn hin
          obtain rfl := Option.some.inj hn
          omega
        · cases hnext with
          | step hlen' hin =>
              obtain rfl := Option.some.inj (hlen.symm.trans hlen')
              omega
      · constructor
        · intro h
          have hbody := h _ rfl
          simp only [if_neg hout, read, lenSub, all_bind, all_emit, all_pure, res_bind, res_emit,
            res_pure, Option.bind_some, Option.some.injEq, forall_eq', and_true, implies_true, forall_const] at hbody
          obtain ⟨hread, hsub, hcall, hrec, hrest⟩ := hbody
          refine ⟨?_, fun e' hnext => ?_⟩
          · rintro _ hn _
            obtain rfl := Option.some.inj hn
            exact ⟨hread, hsub, hcall, hrec⟩
          · cases hnext with
            | step hlen' hin =>
                obtain rfl := Option.some.inj (hlen.symm.trans hlen')
                exact hrest
        · rintro ⟨hown, hrest⟩ _ rfl
          have hin : n < e.len.toNat := by omega
          obtain ⟨hread, hsub, hcall, hrec⟩ := hown n rfl hin
          have hnext := hrest _ (.step hlen hin)
          simp only [if_neg hout, read, lenSub, all_bind, all_emit, all_pure, res_bind, res_emit,
            res_pure, Option.bind_some, Option.some.injEq, forall_eq', and_true, implies_true, forall_const]
          exact ⟨hread, hsub, hcall, hrec, hnext⟩

/-- **`get_ipv6_hdr_len` returns**, with the end of the chain, and it never needs more calls than
there are bytes. -/
theorem getIpv6HdrLen_res {fuel : Nat} (e : ExtPos) (hfuel : e.len.toNat < fuel) :
    ∃ proto n, (getIpv6HdrLen data fuel e.proto e.off e.len).res = some (proto, n) ∧
      ExtEnds data e proto n := by
  induction fuel generalizing e with
  | zero => omega
  | succ fuel ih =>
      simp only [getIpv6HdrLen, res_bind, extHdrLen_res, Option.bind_some]
      cases hlen : extLen data e with
      | none => exact ⟨_, _, rfl, .upper hlen⟩
      | some n =>
          by_cases hout : e.len.toNat ≤ n
          · simp only [if_pos hout]
            exact ⟨_, _, rfl, .rest hlen hout⟩
          · have hin : n < e.len.toNat := by omega
            have hpos := extLen_pos hlen
            obtain ⟨proto, k, hres, hends⟩ := ih (e.skip data n) (by rw [skip_len hin]; omega)
            simp only [ExtPos.skip] at hres
            simp only [if_neg hout, read, lenSub, res_bind, res_emit, res_pure, Option.bind_some, hres]
            exact ⟨_, _, rfl, .next hlen hin hends⟩

/-- The events of `get_ipv6_hdr_len` are those of the headers of the chain. -/
theorem getIpv6HdrLen_all {P : Event → Prop} {fuel : Nat} (e : ExtPos) (hfuel : e.len.toNat < fuel) :
    (getIpv6HdrLen data fuel e.proto e.off e.len).All P ↔
      ∀ e', Relation.ReflTransGen (ExtNext data) e e' → ExtEvents P data e' := by
  induction fuel generalizing e with
  | zero => omega
  | succ fuel ih =>
      have hrec : ∀ e', ExtNext data e e' →
          ((getIpv6HdrLen data fuel e'.proto e'.off e'.len).All P ↔
            ∀ e'', Relation.ReflTransGen (ExtNext data) e' e'' → ExtEvents P data e'') := by
        rintro _ ⟨hlen, hin⟩
        have hpos := extLen_pos hlen
        exact ih _ (by rw [skip_len hin]; omega)
      rw [getIpv6HdrLen_succ_all]
      constructor
      · rintro ⟨hown, hrest⟩ e' hreach
        rcases hreach.cases_head with rfl | ⟨e₁, hnext, htail⟩
        · exact hown
        · exact (hrec e₁ hnext).mp (hrest e₁ hnext) e' htail
      · intro h
        exact ⟨h e .refl, fun e' hnext => (hrec e' hnext).mpr fun e'' htail => h e'' (htail.head hnext)⟩

end ExtHdr

/-! ## IP headers -/

/-- The first extension header of the IPv6 header at `p`. -/
def extStart (data : Bytes) (p : IpPos) : ExtPos :=
  ⟨data (p.off + 6), p.off + 40, p.len - UInt16.ofNat 40⟩

/-- The header at `p` is accepted, has `n` bytes with its extension headers, and carries `proto`. -/
inductive IpEnds (data : Bytes) (p : IpPos) : UInt8 → Nat → Prop
  | ipv4 (htype : p.etherType = etherTypeIpv4) (hroom : 20 ≤ p.len.toNat)
      (hihl : ihlBytes (data p.off) ≤ p.len.toNat) :
      IpEnds data p (data (p.off + 9)) (ihlBytes (data p.off))
  | ipv6 {proto : UInt8} {n : Nat} (htype : p.etherType = etherTypeIpv6) (hroom : 40 ≤ p.len.toNat)
      (hends : ExtEnds data (extStart data p) proto n) :
      IpEnds data p proto (40 + n)

/-- The type of the header that `IPPROTO_IPIP` and `IPPROTO_IPV6` announce. -/
def tunnelType (proto : UInt8) : Option UInt16 :=
  if proto = ipprotoIpip then some etherTypeIpv4
  else if proto = ipprotoIpv6 then some etherTypeIpv6
  else none

/-- The position behind `n` bytes of header. -/
def IpPos.skip (p : IpPos) (n : Nat) (etherType : UInt16) : IpPos :=
  ⟨p.off + n, p.len - UInt16.ofNat n, etherType⟩

/-- The header at `p` carries an IP header. -/
inductive Tunnel (data : Bytes) : IpPos → IpPos → Prop
  | step {p : IpPos} {proto : UInt8} {n : Nat} {ty : UInt16} (hends : IpEnds data p proto n)
      (htype : tunnelType proto = some ty) : Tunnel data p (p.skip n ty)

section Ip

variable {p : IpPos} {cfg : FilterConfig}

theorem extStart_len (h : 40 ≤ p.len.toNat) : (extStart data p).len.toNat = p.len.toNat - 40 :=
  sub_ofNat_toNat h

/-- The accepted header lies within the remaining length. -/
theorem IpEnds.le {proto : UInt8} {n : Nat} (h : IpEnds data p proto n) : n ≤ p.len.toNat := by
  cases h with
  | ipv4 _ _ hihl => exact hihl
  | ipv6 _ hroom hends =>
      have := hends.le
      rw [extStart_len hroom] at this
      omega

theorem IpEnds.unique {proto proto' : UInt8} {n n' : Nat} (h : IpEnds data p proto n)
    (h' : IpEnds data p proto' n') : proto = proto' ∧ n = n' := by
  have hne : ¬ etherTypeIpv4 = etherTypeIpv6 := by decide
  cases h with
  | ipv4 htype _ _ =>
      cases h' with
      | ipv4 _ _ _ => exact ⟨rfl, rfl⟩
      | ipv6 htype' _ _ => exact absurd (htype.symm.trans htype') hne
  | ipv6 htype _ hends =>
      cases h' with
      | ipv4 htype' _ _ => exact absurd (htype'.symm.trans htype) hne
      | ipv6 _ _ hends' =>
          obtain ⟨rfl, rfl⟩ := hends.unique hends'
          exact ⟨rfl, rfl⟩

/-- So naming one end names all of them. -/
theorem IpEnds.some_iff {proto : UInt8} {n : Nat} (h : IpEnds data p proto n) (proto' : UInt8)
    (n' : Nat) : some (proto, n) = some (proto', n') ↔ IpEnds data p proto' n' := by
  constructor
  · intro heq
    simp only [Option.some.injEq, Prod.mk.injEq] at heq
    obtain ⟨rfl, rfl⟩ := heq
    exact h
  · intro h'
    obtain ⟨rfl, rfl⟩ := h.unique h'
    rfl

/-- **The first half of `protocol_filter_ip`** accepts exactly these headers. -/
theorem ipHeader_res (data : Bytes) (p : IpPos) :
    ∃ r, (ipHeader data p).res = some r ∧ ∀ proto n, r = some (proto, n) ↔ IpEnds data p proto n := by
  have hne : ¬ etherTypeIpv6 = etherTypeIpv4 := by decide
  have hno : ¬ (∃ proto n, IpEnds data p proto n) →
      ∀ proto n, (none : Option (UInt8 × Nat)) = some (proto, n) ↔ IpEnds data p proto n :=
    fun h proto n => iff_of_false (by simp) fun hends => h ⟨proto, n, hends⟩
  unfold ipHeader
  by_cases h4 : p.etherType = etherTypeIpv4
  · rw [if_pos h4]
    have h6 : ¬ p.etherType = etherTypeIpv6 := fun h => hne (h.symm.trans h4)
    by_cases hroom : p.len < 20
    · rw [if_pos hroom]
      have hlt : p.len.toNat < 20 := hroom
      refine ⟨none, rfl, hno ?_⟩
      rintro ⟨proto, n, ⟨_, hroom', _⟩ | ⟨htype, _, _⟩⟩
      · omega
      · exact h6 htype
    · rw [if_neg hroom]
      have hge : 20 ≤ p.len.toNat := Nat.le_of_not_lt hroom
      -- the length that the header itself gives
      by_cases hihl : p.len.toNat < ihlBytes (data p.off)
      · refine ⟨none, by simp [read, hihl], hno ?_⟩
        rintro ⟨proto, n, ⟨_, _, hihl'⟩ | ⟨htype, _, _⟩⟩
        · omega
        · exact h6 htype
      · have hends : IpEnds data p _ _ := .ipv4 h4 hge (Nat.le_of_not_lt hihl)
        exact ⟨some (data (p.off + 9), ihlBytes (data p.off)), by simp [read, hihl], hends.some_iff⟩
  · rw [if_neg h4]
    by_cases h6 : p.etherType = etherTypeIpv6
    · rw [if_pos h6]
      by_cases hroom : p.len < 40
      · rw [if_pos hroom]
        have hlt : p.len.toNat < 40 := hroom
        refine ⟨none, rfl, hno ?_⟩
        rintro ⟨proto, n, ⟨htype, _, _⟩ | ⟨_, hroom', _⟩⟩
        · exact h4 htype
        · omega
      · rw [if_neg hroom]
        have hge : 40 ≤ p.len.toNat := Nat.le_of_not_lt hroom
        -- as much fuel as there are bytes left is enough for the extension headers
        obtain ⟨proto, n, hres, hends⟩ :=
          getIpv6HdrLen_res (extStart data p) (Nat.lt_succ_self (extStart data p).len.toNat)
        have hip : IpEnds data p _ _ := .ipv6 h6 hge hends
        have hle := hip.le
        simp only [extStart, Nat.succ_eq_add_one] at hres
        refine ⟨some (proto, 40 + n), ?_, hip.some_iff⟩
        simp only [read, lenSub, res_bind, res_emit, res_pure, Option.bind_some, hres,
          if_neg (Nat.not_lt.mpr hle)]
    · rw [if_neg h6]
      refine ⟨none, rfl, hno ?_⟩
      rintro ⟨proto, n, ⟨htype, _, _⟩ | ⟨htype, _, _⟩⟩
      · exact h4 htype
      · exact h6 htype

/-- The events of the first half. -/
def IpEvents (P : Event → Prop) (data : Bytes) (p : IpPos) : Prop :=
  (p.etherType = etherTypeIpv4 → 20 ≤ p.len.toNat →
    P (.read p.off) ∧ (ihlBytes (data p.off) ≤ p.len.toNat → P (.read (p.off + 9)))) ∧
  (p.etherType = etherTypeIpv6 → 40 ≤ p.len.toNat →
    P (.read (p.off + 6)) ∧ P (.sub p.len 40) ∧ P (.call (p.off + 40) (p.len - UInt16.ofNat 40)) ∧
      ∀ e, Relation.ReflTransGen (ExtNext data) (extStart data p) e → ExtEvents P data e)

theorem ipHeader_all {P : Event → Prop} : (ipHeader data p).All P ↔ IpEvents P data p := by
  have hne : ¬ etherTypeIpv4 = etherTypeIpv6 := by decide
  unfold ipHeader IpEvents
  by_cases h4 : p.etherType = etherTypeIpv4
  · rw [if_pos h4]
    simp only [h4, hne, true_implies, false_implies, and_true]
    by_cases hroom : p.len < 20
    · have hlt : p.len.toNat < 20 := hroom
      rw [if_pos hroom]
      exact iff_of_true (all_pure.mpr trivial) fun h => absurd h (by omega)
    · have hge : 20 ≤ p.len.toNat := Nat.le_of_not_lt hroom
      rw [if_neg hroom]
      by_cases hihl : p.len.toNat < ihlBytes (data p.off)
      · have hnle : ¬ ihlBytes (data p.off) ≤ p.len.toNat := Nat.not_le.mpr hihl
        simp [read, hihl, hge, hnle]
      · have hle : ihlBytes (data p.off) ≤ p.len.toNat := Nat.le_of_not_lt hihl
        simp [read, hihl, hge, hle]
  · rw [if_neg h4]
    simp only [h4, false_implies, true_and]
    by_cases h6 : p.etherType = etherTypeIpv6
    · rw [if_pos h6]
      simp only [h6, true_implies]
      by_cases hroom : p.len < 40
      · have hlt : p.len.toNat < 40 := hroom
        rw [if_pos hroom]
        exact iff_of_true (all_pure.mpr trivial) fun h => absurd h (by omega)
      · have hge : 40 ≤ p.len.toNat := Nat.le_of_not_lt hroom
        rw [if_neg hroom]
        rw [← getIpv6HdrLen_all (extStart data p) (Nat.lt_succ_self (extStart data p).len.toNat)]
        have hlast : ∀ r : UInt8 × Nat, ((if p.len.toNat < 40 + r.2 then pure none
            else pure (some (r.1, 40 + r.2)) : Traced Event (Option (UInt8 × Nat)))).All P := by
          intro r
          split <;> exact all_pure.mpr trivial
        simp only [read, lenSub, all_bind, all_emit, all_pure, res_bind, res_emit, res_pure,
          Option.bind_some, Option.some.injEq, forall_eq', and_true, implies_true, forall_const,
          hlast, hge, extStart, Nat.succ_eq_add_one]
    · rw [if_neg h6]
      exact iff_of_true (all_pure.mpr trivial) fun h => absurd h h6

/-- The events of the call of a leaf. -/
def LeafEvents (P : Event → Prop) (cfg : FilterConfig) (data : Bytes) (proto : UInt8) (off : Nat)
    (len : UInt16) : Prop :=
  (proto = ipprotoTcp → cfg.enableKni = true →
    P (.call off len) ∧ (protocolFilterTcp cfg data off len).All P) ∧
  (proto = ipprotoUdp → cfg.enableKni = true →
    P (.call off len) ∧ (protocolFilterUdp cfg data off len).All P) ∧
  (proto = ipprotoIcmpv6 → P (.call off len) ∧ (protocolFilterIcmp6 data off len).All P)

/-- The second half: the length behind the header, then a leaf or a tail call. -/
def SwitchEvents (P : Event → Prop) (cfg : FilterConfig) (data : Bytes) (p : IpPos) (proto : UInt8)
    (n : Nat) : Prop :=
  P (.sub p.len n) ∧ LeafEvents P cfg data proto (p.off + n) (p.len - UInt16.ofNat n) ∧
    ∀ ty, tunnelType proto = some ty →
      P (.call (p.off + n) (p.len - UInt16.ofNat n)) ∧
        P (.recurse p.len (p.len - UInt16.ofNat n))

theorem protocolFilterIpBody_all {P : Event → Prop} :
    (protocolFilterIpBody cfg data p).All P ↔
      IpEvents P data p ∧ ∀ proto n, IpEnds data p proto n → SwitchEvents P cfg data p proto n := by
  obtain ⟨r, hres, hends⟩ := ipHeader_res data p
  simp only [protocolFilterIpBody, all_bind, ipHeader_all, hres, Option.some.injEq, forall_eq']
  refine and_congr_right fun _ => ?_
  cases r with
  | none =>
      refine iff_of_true (all_pure.mpr trivial) fun proto n h => ?_
      exact absurd ((hends proto n).mpr h) (by simp)
  | some r =>
      obtain ⟨proto, n⟩ := r
      have hone : (∀ proto' n', IpEnds data p proto' n' → SwitchEvents P cfg data p proto' n') ↔
          SwitchEvents P cfg data p proto n := by
        refine ⟨fun h => h _ _ ((hends proto n).mp rfl), ?_⟩
        intro h proto' n' hends'
        obtain ⟨rfl, rfl⟩ := ((hends proto n).mp rfl).unique hends'
        exact h
      rw [hone]
      unfold SwitchEvents LeafEvents tunnelType
      simp only [lenSub, all_bind, all_emit, all_pure, res_bind, res_emit, res_pure, Option.bind_some,
        Option.some.injEq, forall_eq', and_true, implies_true]
      refine and_congr_right fun _ => ?_
      -- one case for each label of the switch
      by_cases htcp : proto = ipprotoTcp
      · subst htcp
        cases cfg.enableKni <;> simp [returnLeaf, ipprotoTcp, ipprotoUdp, ipprotoIcmpv6, ipprotoIpip, ipprotoIpv6]
      · by_cases hudp : proto = ipprotoUdp
        · subst hudp
          cases cfg.enableKni <;> simp [returnLeaf, ipprotoTcp, ipprotoUdp, ipprotoIcmpv6, ipprotoIpip, ipprotoIpv6]
        · by_cases hipip : proto = ipprotoIpip
          · subst hipip
            simp [tailCall, ipprotoTcp, ipprotoUdp, ipprotoIcmpv6, ipprotoIpip]
          · by_cases hipv6 : proto = ipprotoIpv6
            · subst hipv6
              simp [tailCall, ipprotoTcp, ipprotoUdp, ipprotoIcmpv6, ipprotoIpip, ipprotoIpv6]
            · by_cases hicmp : proto = ipprotoIcmpv6
              · subst hicmp
                simp [returnLeaf, ipprotoTcp, ipprotoUdp, ipprotoIcmpv6, ipprotoIpip, ipprotoIpv6]
              · simp [htcp, hudp, hipip, hipv6, hicmp]

/-- Behind an accepted header lies the header that its protocol announces, if it announces one. -/
theorem IpEnds.tunnel_iff {proto : UInt8} {n : Nat} (h : IpEnds data p proto n) (q : IpPos) :
    Tunnel data p q ↔ ∃ ty, tunnelType proto = some ty ∧ q = p.skip n ty := by
  constructor
  · rintro ⟨hends, htype⟩
    obtain ⟨rfl, rfl⟩ := h.unique hends
    exact ⟨_, htype, rfl⟩
  · rintro ⟨ty, htype, rfl⟩
    exact .step h htype

/-- The leaves return. -/
theorem filterPort_returns (size : UInt16) (bitmap : Nat → UInt8) (data : Bytes) (off : Nat)
    (len : UInt16) : ∃ r, (filterPort size bitmap data off len).res = some r := by
  unfold filterPort
  split
  · exact ⟨_, rfl⟩
  · exact ⟨_, rfl⟩

theorem protocolFilterIcmp6_returns (data : Bytes) (off : Nat) (len : UInt16) :
    ∃ r, (protocolFilterIcmp6 data off len).res = some r := by
  unfold protocolFilterIcmp6
  split
  · exact ⟨_, rfl⟩
  · exact ⟨_, rfl⟩

theorem returnLeaf_returns {leaf : Nat → UInt16 → Traced Event FilterReturn} {off : Nat} {len : UInt16}
    (h : ∃ r, (leaf off len).res = some r) : ∃ r, (returnLeaf leaf off len).res = some (.inl r) := by
  obtain ⟨r, hr⟩ := h
  exact ⟨r, by simp [returnLeaf, hr]⟩

/-- **The tail calls of `protocol_filter_ip`** are the tunnels. -/
theorem protocolFilterIpBody_res (cfg : FilterConfig) (data : Bytes) (p : IpPos) :
    ∃ r, (protocolFilterIpBody cfg data p).res = some r ∧ ∀ q, r = .inr q ↔ Tunnel data p q := by
  obtain ⟨r, hres, hends⟩ := ipHeader_res data p
  simp only [protocolFilterIpBody, res_bind, hres, Option.bind_some]
  cases r with
  | none =>
      refine ⟨.inl .unknown, rfl, fun q => iff_of_false (by simp) ?_⟩
      rintro ⟨hends', _⟩
      exact absurd ((hends _ _).mpr hends') (by simp)
  | some r =>
      obtain ⟨proto, n⟩ := r
      have hone := (hends proto n).mp rfl
      simp only [hone.tunnel_iff, lenSub, res_bind, res_emit, res_pure, Option.bind_some]
      -- a protocol that is no tunnel: whatever is returned, nothing is carried
      have hleaf (hno : tunnelType proto = none) (r : FilterReturn) (q : IpPos) :
          (Sum.inl r : FilterReturn ⊕ IpPos) = .inr q ↔
            ∃ ty, tunnelType proto = some ty ∧ q = p.skip n ty := by
        simp [hno]
      have htunnel (ty : UInt16) (hty : tunnelType proto = some ty) (q : IpPos) :
          (Sum.inr (p.skip n ty) : FilterReturn ⊕ IpPos) = .inr q ↔
            ∃ ty, tunnelType proto = some ty ∧ q = p.skip n ty := by
        simp [hty, eq_comm]
      by_cases htcp : proto = ipprotoTcp
      · rw [if_pos htcp]
        have hno : tunnelType proto = none := by rw [htcp]; decide
        split
        · obtain ⟨r, hr⟩ := returnLeaf_returns (filterPort_returns 20 cfg.tcpPortBitmap data _ _)
          exact ⟨_, hr, hleaf hno r⟩
        · exact ⟨_, rfl, hleaf hno _⟩
      · rw [if_neg htcp]
        by_cases hudp : proto = ipprotoUdp
        · rw [if_pos hudp]
          have hno : tunnelType proto = none := by rw [hudp]; decide
          split
          · obtain ⟨r, hr⟩ := returnLeaf_returns (filterPort_returns 8 cfg.udpPortBitmap data _ _)
            exact ⟨_, hr, hleaf hno r⟩
          · exact ⟨_, rfl, hleaf hno _⟩
        · rw [if_neg hudp]
          by_cases hipip : proto = ipprotoIpip
          · rw [if_pos hipip]
            exact ⟨_, rfl, htunnel etherTypeIpv4 (by rw [hipip]; decide)⟩
          · rw [if_neg hipip]
            by_cases hipv6 : proto = ipprotoIpv6
            · rw [if_pos hipv6]
              exact ⟨_, rfl, htunnel etherTypeIpv6 (by rw [hipv6]; decide)⟩
            · rw [if_neg hipv6]
              have hno : tunnelType proto = none := by simp [tunnelType, hipip, hipv6]
              by_cases hic : proto = ipprotoIcmpv6
              · rw [if_pos hic]
                obtain ⟨r, hr⟩ := returnLeaf_returns (protocolFilterIcmp6_returns data _ _)
                exact ⟨_, hr, hleaf hno r⟩
              · rw [if_neg hic]
                exact ⟨_, rfl, hleaf hno _⟩

theorem next_iff_tunnel {q : IpPos} : Next (protocolFilterIpBody cfg data) p q ↔ Tunnel data p q := by
  obtain ⟨r, hres, hr⟩ := protocolFilterIpBody_res cfg data p
  rw [Next, hres, Option.some.injEq]
  exact hr q

/-- The calls of `protocol_filter_ip` are the headers reached through tunnels. -/
theorem reaches_iff_tunnels {q : IpPos} :
    Reaches (protocolFilterIpBody cfg data) p q ↔ Relation.ReflTransGen (Tunnel data) p q := by
  have heq : Next (protocolFilterIpBody cfg data) = Tunnel data := by
    funext p q
    exact propext next_iff_tunnel
  rw [Reaches, heq]

end Ip

/-! ## The frame -/

/-- A field in network order. -/
def be16 (data : Bytes) (off : Nat) : UInt16 :=
  (data off).toUInt16 <<< 8 ||| (data (off + 1)).toUInt16

/-- Is a packet of this type given to `protocol_filter_ip`? -/
def Classified (cfg : FilterConfig) (etherType : UInt16) : Prop :=
  etherType = etherTypeIpv6 ∨ cfg.enableKni = true ∧ etherType = etherTypeIpv4

/-- The IP packet in a frame, with or without a VLAN tag. The lengths are the code's: they wrap. -/
inductive FrameIp (cfg : FilterConfig) (data : Bytes) (len : UInt16) : IpPos → Prop
  | plain (hlen : 6 ≤ len.toNat) (hplain : be16 data 12 ≠ etherTypeVlan)
      (htype : Classified cfg (be16 data 12)) :
      FrameIp cfg data len ⟨14, len - UInt16.ofNat 14, be16 data 12⟩
  | vlan (hlen : 6 ≤ len.toNat) (hvlan : be16 data 12 = etherTypeVlan)
      (htype : Classified cfg (be16 data 16)) :
      FrameIp cfg data len ⟨18, len - UInt16.ofNat 14 - UInt16.ofNat 4, be16 data 16⟩

section Ether

variable {cfg : FilterConfig} {len : UInt16}

/-- A frame that the first test turns away has no packet. -/
theorem FrameIp.six_le {data : Bytes} {p : IpPos} (h : FrameIp cfg data len p) : 6 ≤ len.toNat := by
  cases h with
  | plain hlen _ _ => exact hlen
  | vlan hlen _ _ => exact hlen

/-- Behind a VLAN tag, the packet of the tag's type. -/
theorem frameIp_iff_vlan (cfg : FilterConfig) {data : Bytes} (hlen : 6 ≤ len.toNat)
    (hvlan : be16 data 12 = etherTypeVlan) (p : IpPos) :
    FrameIp cfg data len p ↔ Classified cfg (be16 data 16) ∧
      p = ⟨18, len - UInt16.ofNat 14 - UInt16.ofNat 4, be16 data 16⟩ := by
  constructor
  · rintro (⟨_, hno, _⟩ | ⟨_, _, htype⟩)
    · exact absurd hvlan hno
    · exact ⟨htype, rfl⟩
  · rintro ⟨htype, rfl⟩
    exact .vlan hlen hvlan htype

/-- Without a tag, the packet of the frame's type. -/
theorem frameIp_iff_plain (cfg : FilterConfig) {data : Bytes} (hlen : 6 ≤ len.toNat)
    (hplain : be16 data 12 ≠ etherTypeVlan) (p : IpPos) :
    FrameIp cfg data len p ↔ Classified cfg (be16 data 12) ∧
      p = ⟨14, len - UInt16.ofNat 14, be16 data 12⟩ := by
  constructor
  · rintro (⟨_, _, htype⟩ | ⟨_, hyes, _⟩)
    · exact ⟨htype, rfl⟩
    · exact absurd hyes hplain
  · rintro ⟨htype, rfl⟩
    exact .plain hlen hplain htype

/-- The tests let through exactly the classified types. -/
theorem etherSwitch_spec (cfg : FilterConfig) (r : UInt16 × Nat × UInt16) :
    (∃ x, (etherSwitch cfg r).res = some x ∧
      ∀ q, x = .inr q ↔ Classified cfg r.1 ∧ q = ⟨r.2.1, r.2.2, r.1⟩) ∧
    ∀ P, (etherSwitch cfg r).All P ↔ (Classified cfg r.1 → P (.call r.2.1 r.2.2)) := by
  have hne : ¬ etherTypeArp = etherTypeIpv6 := by decide
  have hne' : ¬ etherTypeArp = etherTypeIpv4 := by decide
  have hthrough : ∀ {x : Traced Event (FilterReturn ⊕ IpPos)}, Classified cfg r.1 →
      x = (do emit (.call r.2.1 r.2.2); pure (.inr ⟨r.2.1, r.2.2, r.1⟩)) →
      (∃ y, x.res = some y ∧ ∀ q, y = .inr q ↔ Classified cfg r.1 ∧ q = ⟨r.2.1, r.2.2, r.1⟩) ∧
        ∀ P, x.All P ↔ (Classified cfg r.1 → P (.call r.2.1 r.2.2)) := by
    rintro x hcl rfl
    refine ⟨⟨_, rfl, fun q => ⟨fun heq => ⟨hcl, (Sum.inr.inj heq).symm⟩, ?_⟩⟩, fun P => by simp [hcl]⟩
    rintro ⟨_, rfl⟩
    rfl
  have hstop : ∀ {x : Traced Event (FilterReturn ⊕ IpPos)} (y : FilterReturn), ¬ Classified cfg r.1 →
      x = pure (.inl y) →
      (∃ y, x.res = some y ∧ ∀ q, y = .inr q ↔ Classified cfg r.1 ∧ q = ⟨r.2.1, r.2.2, r.1⟩) ∧
        ∀ P, x.All P ↔ (Classified cfg r.1 → P (.call r.2.1 r.2.2)) := by
    rintro x y hcl rfl
    exact ⟨⟨_, rfl, fun q => iff_of_false (by simp) fun h => hcl h.1⟩,
      fun P => iff_of_true (all_pure.mpr trivial) fun h => absurd h hcl⟩
  by_cases harp : r.1 = etherTypeArp
  · refine hstop .arp ?_ (if_pos harp)
    rintro (h | ⟨_, h⟩)
    · exact hne (harp.symm.trans h)
    · exact hne' (harp.symm.trans h)
  · by_cases h6 : r.1 = etherTypeIpv6
    · exact hthrough (.inl h6) (by rw [etherSwitch, if_neg harp, if_pos h6])
    · cases hkni : cfg.enableKni with
      | false =>
          refine hstop .unknown ?_ (by rw [etherSwitch, if_neg harp, if_neg h6, hkni]; rfl)
          rintro (h | ⟨h, _⟩)
          · exact h6 h
          · exact absurd (hkni.symm.trans h) (by decide)
      | true =>
          by_cases h4 : r.1 = etherTypeIpv4
          · refine hthrough (.inr ⟨hkni, h4⟩) ?_
            rw [etherSwitch, if_neg harp, if_neg h6, hkni, if_neg (by decide), if_neg (by simp [h4])]
          · refine hstop .unknown ?_ ?_
            · rintro (h | ⟨_, h⟩)
              · exact h6 h
              · exact h4 h
            · rw [etherSwitch, if_neg harp, if_neg h6, hkni, if_neg (by decide), if_pos h4]

theorem readBe16_res (data : Bytes) (off : Nat) : (readBe16 data off).res = some (be16 data off) := by
  simp only [readBe16, read, res_bind, res_emit, res_pure, Option.bind_some]
  rfl

theorem readBe16_all (data : Bytes) (off : Nat) (P : Event → Prop) :
    (readBe16 data off).All P ↔ P (.read off) ∧ P (.read (off + 1)) := by
  simp [readBe16, read]

/-- What `etherSwitch` gets: the type behind a tag, or that of the frame. -/
def taggedAs (data : Bytes) (len : UInt16) : UInt16 × Nat × UInt16 :=
  if be16 data 12 = etherTypeVlan then (be16 data 16, 18, len - UInt16.ofNat 14 - UInt16.ofNat 4)
  else (be16 data 12, 14, len - UInt16.ofNat 14)

theorem vlanTag_res (data : Bytes) (len : UInt16) :
    (vlanTag data (be16 data 12) (len - UInt16.ofNat 14)).res = some (taggedAs data len) := by
  rw [vlanTag, taggedAs]
  split
  · simp only [lenSub, res_bind, res_emit, res_pure, readBe16_res, Option.bind_some]
  · rfl

theorem vlanTag_all (data : Bytes) (len : UInt16) (P : Event → Prop) :
    (vlanTag data (be16 data 12) len).All P ↔
      (be16 data 12 = etherTypeVlan → P (.read 16) ∧ P (.read 17) ∧ P (.sub len 4)) := by
  rw [vlanTag]
  split
  · rename_i hvlan
    rw [all_bind_of_res (readBe16_res data 16), readBe16_all, and_assoc]
    simp [hvlan, lenSub]
  · rename_i hplain
    exact iff_of_true (all_pure.mpr trivial) fun h => absurd h hplain

theorem frameIp_iff {data : Bytes} (hlen : 6 ≤ len.toNat) (p : IpPos) :
    FrameIp cfg data len p ↔ Classified cfg (taggedAs data len).1 ∧
      p = ⟨(taggedAs data len).2.1, (taggedAs data len).2.2, (taggedAs data len).1⟩ := by
  by_cases hvlan : be16 data 12 = etherTypeVlan
  · rw [frameIp_iff_vlan cfg hlen hvlan, taggedAs, if_pos hvlan]
  · rw [frameIp_iff_plain cfg hlen hvlan, taggedAs, if_neg hvlan]

/-- What `protocol_filter` gives to `protocol_filter_ip`, and the events before that. -/
theorem protocolFilterEther_spec (cfg : FilterConfig) (data : Bytes) (len : UInt16) :
    (∃ x, (protocolFilterEther cfg data len).res = some x ∧
      ∀ p, x = .inr p ↔ FrameIp cfg data len p) ∧
    ∀ P, (protocolFilterEther cfg data len).All P ↔
      (6 ≤ len.toNat → P (.read 12) ∧ P (.read 13) ∧ P (.sub len 14) ∧
        (be16 data 12 = etherTypeVlan →
          P (.read 16) ∧ P (.read 17) ∧ P (.sub (len - UInt16.ofNat 14) 4)) ∧
        ∀ p, FrameIp cfg data len p → P (.call p.off p.len)) := by
  by_cases hlen : 6 ≤ len.toNat
  · have hge : ¬ len < 6 := Nat.not_lt.mpr hlen
    obtain ⟨⟨x, hx, hq⟩, hall⟩ := etherSwitch_spec cfg (taggedAs data len)
    have hsub : (lenSub len 14).res = some (len - UInt16.ofNat 14) := rfl
    rw [protocolFilterEther, if_neg hge]
    refine ⟨⟨x, ?_, fun p => (hq p).trans (frameIp_iff hlen p).symm⟩, fun P => ?_⟩
    · rw [res_bind, readBe16_res, Option.bind_some, res_bind, hsub, Option.bind_some, res_bind,
        vlanTag_res]
      exact hx
    · have hcalls : (∀ p, FrameIp cfg data len p → P (.call p.off p.len)) ↔
          (Classified cfg (taggedAs data len).1 →
            P (.call (taggedAs data len).2.1 (taggedAs data len).2.2)) := by
        simp only [frameIp_iff hlen, and_imp, forall_comm (α := IpPos), forall_eq]
      have hlens : (lenSub len 14).All P ↔ P (.sub len 14) := by simp [lenSub]
      rw [all_bind_of_res (readBe16_res data 12), readBe16_all, all_bind_of_res hsub, hlens,
        all_bind_of_res (vlanTag_res data len), vlanTag_all, hall, hcalls, and_assoc]
      exact ⟨fun h _ => h, fun h => h hlen⟩
  · have hlt : len < 6 := Nat.lt_of_not_le hlen
    rw [protocolFilterEther, if_pos hlt]
    exact ⟨⟨_, rfl, fun p => iff_of_false (by simp) fun h => hlen h.six_le⟩,
      fun P => iff_of_true (all_pure.mpr trivial) fun h => absurd h hlen⟩

end Ether

end LazyBsd.Filter
