/-
# LazyBsd.Route.Walk — the sockaddrs of a message by their lengths, and what `rt_xaddrs` touches.

The length of a sockaddr says where the next one begins, so the message as it was sent determines where
its sockaddrs lie (`walk`). `rt_xaddrs` goes the same way (`rtXaddrs_walk`) as long as no sockaddr_in6 is
cut short: the scope that it embeds there would overwrite what follows. It stays inside the message
exactly for the messages whose heads fit (`rtXaddrs_inBounds_iff`).
-/
import LazyBsd.Route.Access
import LazyBsd.Route.Parse

namespace LazyBsd.Route

open Lib Lib.Traced

/-! ## The sockaddrs of a message -/

/-- The sockaddrs of a message with their slots, and whether the last one ends before the message. -/
structure Walk where
  fits : Bool
  found : List (Nat × SaRef)

/-- From `cp` to `cplim` along the lengths, for the slots `is`. -/
def walk (cplim : Nat) (b : Bytes) : List Nat → Nat → Walk
  | [], _ => ⟨true, []⟩
  | i :: is, cp =>
      if cplim ≤ cp then ⟨true, []⟩
      else if cplim < cp + (b cp).toNat then ⟨false, []⟩
      else if b cp = 0 then ⟨true, [(i, saZero)]⟩
      else
        let rest := walk cplim b is (cp + saSize (b cp))
        ⟨rest.fits, (i, .msg cp) :: rest.found⟩

/-- The slots that `addrs` names. -/
def named (addrs : UInt32) (is : List Nat) : List Nat := is.filter (hasAddr addrs)

/-- The sockaddrs of the message. -/
def addresses (len : Nat) (b : Bytes) : Walk :=
  walk len b (named (rtmAddrs b) (List.range rtaxMax)) rtMsghdrSize

/-- A sockaddr has its family, and a sockaddr_in6 is complete. -/
def HeadFits (b : Bytes) (sa : SaRef) : Prop :=
  2 ≤ (sa.len b).toNat ∧ (sa.family b = afInet6 → 28 ≤ (sa.len b).toNat)

section Walk

variable {cplim : Nat} {b b' : Bytes}

theorem walk_end {cp : Nat} (hend : cplim ≤ cp) (b : Bytes) (is : List Nat) :
    walk cplim b is cp = ⟨true, []⟩ := by
  cases is with
  | nil => rfl
  | cons i is => rw [walk, if_pos hend]

/-- What is found lies at or behind the start and ends before the message does. -/
theorem walk_mem : ∀ (is : List Nat) (cp : Nat), ∀ x ∈ (walk cplim b is cp).found,
    x.1 ∈ is ∧ (x.2 = saZero ∨
      ∃ p, x.2 = .msg p ∧ cp ≤ p ∧ p + (b p).toNat ≤ cplim) := by
  intro is
  induction is with
  | nil => intro cp x hx; exact absurd hx List.not_mem_nil
  | cons i is ih =>
    intro cp x hx
    rw [walk] at hx
    split at hx
    · exact absurd hx List.not_mem_nil
    · split at hx
      · exact absurd hx List.not_mem_nil
      · split at hx
        · rw [List.mem_singleton] at hx
          subst hx
          exact ⟨List.mem_cons_self, .inl rfl⟩
        · rcases List.mem_cons.mp hx with rfl | hx'
          · exact ⟨List.mem_cons_self, .inr ⟨cp, rfl, Nat.le_refl cp, by omega⟩⟩
          · obtain ⟨hmem, hwhere⟩ := ih _ x hx'
            refine ⟨List.mem_cons_of_mem i hmem, hwhere.imp_right ?_⟩
            rintro ⟨p, hp, hle, hend⟩
            exact ⟨p, hp, by omega, hend⟩

/-- Only the bytes from the start on matter. -/
theorem walk_congr : ∀ (is : List Nat) (cp : Nat), (∀ k, cp ≤ k → b' k = b k) →
    walk cplim b' is cp = walk cplim b is cp := by
  intro is
  induction is with
  | nil => intro cp _; rfl
  | cons i is ih =>
    intro cp h
    rw [walk, walk, h cp (Nat.le_refl cp), ih _ fun k hk => h k (by omega)]

/-- Two sockaddrs of the message do not overlap. -/
def Apart (b : Bytes) (sa sa' : SaRef) : Prop :=
  ∀ p q, sa = .msg p → sa' = .msg q → p + (b p).toNat ≤ q ∨ q + (b q).toNat ≤ p

theorem walk_apart : ∀ (is : List Nat) (cp : Nat),
    (walk cplim b is cp).found.Pairwise fun x y => Apart b x.2 y.2 := by
  intro is
  induction is with
  | nil => intro cp; exact .nil
  | cons i is ih =>
    intro cp
    rw [walk]
    split
    · exact .nil
    · split
      · exact .nil
      · split
        · exact List.pairwise_singleton _ _
        · refine List.pairwise_cons.mpr ⟨fun y hy p q hp hq => .inl ?_, ih _⟩
          cases hp
          have hsize := (saSize_spec (b cp)).1
          obtain ⟨_, hzero | ⟨_, hq', hle, _⟩⟩ := walk_mem is _ y hy
          · rw [hq] at hzero
            exact absurd hzero (by simp [saZero])
          · rw [hq] at hq'
            cases hq'
            omega

end Walk

/-! ## The parse -/

section Parse

variable {sc : Scope6} {cplim : Nat} {addrs : UInt32}

/-- The touches of an accepted sockaddr. -/
theorem accept_inBounds_iff {cp : Nat} {b : Bytes} (hend : cp + (b cp).toNat ≤ cplim) :
    (Access.accept sc cp b).All (Touch.InBounds cplim) ↔ HeadFits b (.msg cp) := by
  have hfield : ∀ off n, (Touch.field (.msg cp) (b cp) off n).InBounds cplim ↔
      off + n ≤ (b cp).toNat := by
    intro off n
    show off + n ≤ (b cp).toNat ∧ cp + (off + n) ≤ cplim ↔ _
    omega
  rw [Access.accept, all_bind_of_res (Access.readByte_res 1), Access.readByte_all]
  refine and_congr (hfield 1 1) ?_
  show (if b (cp + 1) = afInet6 then _ else _ : Traced Touch Bytes).All _ ↔
    (b (cp + 1) = afInet6 → 28 ≤ (b cp).toNat)
  split
  case _ hfamily => simpa [hfamily] using hfield 8 20
  case _ hfamily => simp [hfamily]

theorem headFits_saZero (b : Bytes) : HeadFits b saZero := by
  have hlen : saZero.len b = 16 := rfl
  have hfamily : saZero.family b = afInet := rfl
  rw [HeadFits, hlen, hfamily]
  decide

theorem headFits_congr {b b' : Bytes} {sa : SaRef}
    (h : ∀ p, sa = .msg p → b' p = b p ∧ b' (p + 1) = b (p + 1)) : HeadFits b' sa ↔ HeadFits b sa := by
  cases sa with
  | ext f => exact Iff.rfl
  | msg p =>
    obtain ⟨hlen, hfamily⟩ := h p rfl
    show 2 ≤ (b' p).toNat ∧ (b' (p + 1) = afInet6 → 28 ≤ (b' p).toNat) ↔ _
    rw [hlen, hfamily]
    exact Iff.rfl

/-- The sockaddr at `cp` is accepted: what lies behind it stays, and so do its length and its family. -/
theorem accept_keeps {cp k : Nat} {b : Bytes} (h : HeadFits b (.msg cp))
    (hk : k < cp + 2 ∨ cp + (b cp).toNat ≤ k) : accept sc cp b k = b k := by
  by_contra hne
  obtain ⟨hfamily, hlo, hhi⟩ := accept_changes hne
  have hsize : 28 ≤ (b cp).toNat := h.2 hfamily
  omega

theorem accept_next {cp k : Nat} {b : Bytes} (h : HeadFits b (.msg cp))
    (hk : cp + saSize (b cp) ≤ k) : accept sc cp b k = b k := by
  have hsize := (saSize_spec (b cp)).1
  exact accept_keeps h (.inr (by omega))

variable (sc cplim) in
/-- Then the sockaddrs behind it keep their lengths and families. -/
theorem accept_heads {cp : Nat} {b : Bytes} (h : HeadFits b (.msg cp)) (is : List Nat) :
    ∀ x ∈ (walk cplim b is (cp + saSize (b cp))).found, ∀ p, x.2 = .msg p →
      accept sc cp b p = b p ∧ accept sc cp b (p + 1) = b (p + 1) := by
  intro x hx p hp
  obtain ⟨_, hzero | ⟨_, hp', hle, _⟩⟩ := walk_mem _ _ x hx
  · rw [hp] at hzero
    exact absurd hzero (by simp [saZero])
  · rw [hp] at hp'
    cases hp'
    exact ⟨accept_next h hle, accept_next h (by omega)⟩

/-- **The parse stays inside exactly when the heads fit.** -/
theorem rtXaddrs_inBounds_iff : ∀ (is : List Nat) (cp : Nat) (info : RtInfo) (b : Bytes),
    (Access.rtXaddrs sc cplim addrs is cp info b).All (Touch.InBounds cplim) ↔
      ∀ x ∈ (walk cplim b (named addrs is) cp).found, HeadFits b x.2 := by
  intro is
  induction is with
  | nil => intro cp info b; simp [Access.rtXaddrs, named, walk]
  | cons i is ih =>
    intro cp info b
    rw [Access.rtXaddrs]
    split
    case _ hend => simp [walk_end hend]
    case _ hin =>
      split
      case _ hbit =>
        rw [named, List.filter_cons, if_neg (by simp [hbit])]
        exact ih cp info b
      case _ hbit =>
        rw [named, List.filter_cons, if_pos (by simpa using hbit), walk, if_neg hin,
          all_bind_of_res Access.readLen_res, Access.readLen_all]
        have hlength : (Touch.length (.msg cp)).InBounds cplim := Nat.lt_of_not_le hin
        rw [and_iff_right hlength]
        show (if cplim < cp + (b cp).toNat then _ else _ : Traced Touch _).All _ ↔ _
        split
        · -- it ends behind the message, and only its length was read
          simp
        · show (if b cp = 0 then _ else _ : Traced Touch _).All _ ↔ _
          split
          · simpa using headFits_saZero b
          · -- the rest of the loop runs on what `accept` leaves, the walk on the message as it was
            rw [all_bind_of_res (Access.accept_res sc cp), accept_inBounds_iff (by omega),
              all_bind_of_res Access.readLen_res, Access.readLen_all, and_iff_right hlength,
              List.forall_mem_cons]
            refine and_congr_right fun hhead => ?_
            have hlen : (SaRef.msg cp).len (accept sc cp b) = b cp :=
              accept_keeps hhead (.inl (by omega))
            rw [hlen, ih, walk_congr _ _ fun k hk => accept_next hhead hk]
            exact forall₂_congr fun x hx => headFits_congr (accept_heads sc cplim hhead _ x hx)

/-- The outcome of a parse that finds the sockaddrs of `w`: it changes the addresses and the scope ids of
those that are a sockaddr_in6. -/
structure Parsed (b : Bytes) (info : RtInfo) (w : Walk) (r : Bool × RtInfo × Bytes) : Prop where
  fits : r.1 = w.fits
  slots : ∀ j, r.2.1 j = (w.found.lookup j).or (info j)
  changes : ∀ k, r.2.2 k ≠ b k → ∃ x ∈ w.found, ∃ q, x.2 = .msg q ∧ b (q + 1) = afInet6 ∧
    q + 2 ≤ k ∧ k < q + 28

theorem Parsed.nothing (b : Bytes) (info : RtInfo) (fits : Bool) :
    Parsed b info ⟨fits, []⟩ (fits, info, b) :=
  ⟨rfl, fun _ => rfl, fun _ hk => absurd rfl hk⟩

theorem lookup_cons_or {i : Nat} {sa : SaRef} {found : List (Nat × SaRef)} {info : RtInfo}
    (hfresh : ∀ x ∈ found, x.1 ≠ i) (j : Nat) :
    (found.lookup j).or (Function.update info i (some sa) j) =
      (((i, sa) :: found).lookup j).or (info j) := by
  rcases eq_or_ne j i with rfl | hne
  · have hnone : found.lookup j = none :=
      List.lookup_eq_none_iff.mpr fun x hx => by simpa using (hfresh x hx).symm
    rw [hnone, List.lookup_cons_self, Function.update_self]
    rfl
  · have hbeq : (j == i) = false := by simpa using hne
    rw [List.lookup_cons, hbeq, Function.update_of_ne hne]

/-- A turn that accepts the sockaddr at `cp`, and the rest of the parse. -/
theorem Parsed.cons {i cp : Nat} {b : Bytes} {info : RtInfo} {w : Walk} {r : Bool × RtInfo × Bytes}
    (h : Parsed (accept sc cp b) (Function.update info i (some (.msg cp))) w r)
    (hfresh : ∀ x ∈ w.found, x.1 ≠ i)
    (hfamily : ∀ x ∈ w.found, ∀ p, x.2 = .msg p → accept sc cp b (p + 1) = b (p + 1)) :
    Parsed b info ⟨w.fits, (i, .msg cp) :: w.found⟩ r := by
  refine ⟨h.fits, fun j => (h.slots j).trans (lookup_cons_or hfresh j), fun k hk => ?_⟩
  by_cases hmoved : accept sc cp b k = b k
  · -- a later turn has changed the byte
    rw [← hmoved] at hk
    obtain ⟨x, hx, q, hq, h6, hin6⟩ := h.changes k hk
    rw [hfamily x hx q hq] at h6
    exact ⟨x, List.mem_cons_of_mem _ hx, q, hq, h6, hin6⟩
  · exact ⟨_, List.mem_cons_self, cp, rfl, accept_changes hmoved⟩

/-- **The parse of a message whose heads fit** finds what its lengths say. -/
theorem rtXaddrs_walk : ∀ (is : List Nat) (cp : Nat) (info : RtInfo) (b : Bytes), is.Nodup →
    (∀ x ∈ (walk cplim b (named addrs is) cp).found, HeadFits b x.2) →
      Parsed b info (walk cplim b (named addrs is) cp) (rtXaddrs sc cplim addrs is cp info b) := by
  intro is
  induction is with
  | nil => intro cp info b _ _; exact .nothing b info true
  | cons i is ih =>
    intro cp info b hnodup hheads
    obtain ⟨hi, hnodup'⟩ := List.nodup_cons.mp hnodup
    rcases Nat.lt_or_ge cp cplim with hin | hend
    · cases hbit : hasAddr addrs i with
      | false =>
        rw [rtXaddrs_skip hbit]
        rw [named, List.filter_cons, if_neg (by simp [hbit])] at hheads ⊢
        exact ih cp info b hnodup' hheads
      | true =>
        have hnot : ¬ cplim ≤ cp := by omega
        rw [named, List.filter_cons, if_pos hbit, walk, if_neg hnot] at hheads ⊢
        rw [rtXaddrs, if_neg hnot, if_neg (show ¬ hasAddr addrs i = false by simp [hbit])]
        split at hheads
        case _ hfar =>
          rw [if_pos hfar, if_pos hfar]
          exact .nothing b info false
        case _ hfits =>
          rw [if_neg hfits, if_neg hfits]
          split at hheads
          case _ hzero =>
            -- the placeholder, and the end
            rw [if_pos hzero, if_pos hzero]
            refine ⟨rfl, fun j => ?_, fun k hk => absurd rfl hk⟩
            exact lookup_cons_or (fun x hx => absurd hx List.not_mem_nil) j
          case _ hlen =>
            rw [if_neg hlen, if_neg hlen]
            obtain ⟨hhead, hrest⟩ := List.forall_mem_cons.mp hheads
            have hlen' : accept sc cp b cp = b cp := accept_keeps hhead (.inl (by omega))
            have hsame := accept_heads sc cplim hhead (named addrs is)
            have hwalk : walk cplim (accept sc cp b) (named addrs is) (cp + saSize (b cp)) =
                walk cplim b (named addrs is) (cp + saSize (b cp)) :=
              walk_congr _ _ fun k hk => accept_next hhead hk
            have hparsed := ih (cp + saSize (b cp)) (Function.update info i (some (.msg cp)))
              (accept sc cp b) hnodup' (by
                rw [hwalk]
                exact fun x hx => (headFits_congr (hsame x hx)).mpr (hrest x hx))
            rw [hwalk] at hparsed
            simp only [hlen']
            refine hparsed.cons (fun x hx => ?_) fun x hx p hp => (hsame x hx p hp).2
            rintro rfl
            exact hi (List.mem_of_mem_filter (walk_mem _ _ x hx).1)
    · rw [walk_end hend, rtXaddrs_end hend]
      exact .nothing b info true

end Parse

end LazyBsd.Route
