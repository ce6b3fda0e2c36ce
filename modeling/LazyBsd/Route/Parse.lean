/-
# LazyBsd.Route.Parse — `rt_xaddrs` on sockaddrs that lie one behind the other.

A `Piece` is a sockaddr with its padding. `rt_xaddrs` goes from piece to piece by the lengths that it
reads (`rtXaddrs_piece`), so that it finds every one of them (`rtXaddrs_laid`), unless it meets a length
of 0. A sockaddr_in6 has its scope embedded where it lies; the pieces behind it stay what they are when
it is not shorter than that, or when there is no scope to embed (`Piece.Stands`).
-/
import LazyBsd.Route.Layout

namespace LazyBsd.Route

open Lib

/-- A sockaddr and its padding, of one slot. -/
structure Piece where
  slot : Nat
  bytes : List UInt8

namespace Piece

def len (x : Piece) : UInt8 := x.bytes.getD 0 0
def family (x : Piece) : UInt8 := x.bytes.getD 1 0

/-- The piece as `rt_xaddrs` leaves it, if it has the 28 bytes of a sockaddr_in6. -/
def embedded (sc : Scope6) (x : Piece) : List UInt8 :=
  if x.family = afInet6 ∧ 28 ≤ x.bytes.length then sc.embedscope (x.bytes.take 28) ++ x.bytes.drop 28
  else x.bytes

/-- What `rt_xaddrs` finds: as much of that as the length of the piece says. -/
def parsed (sc : Scope6) (x : Piece) : List UInt8 := (x.embedded sc).take x.len.toNat

/-- The piece is as long as its length says, with the padding; a sockaddr_in6 at `cp` is complete, or
`sa6_embedscope` leaves the 28 bytes there alone. -/
structure Stands (sc : Scope6) (b : Bytes) (cp : Nat) (x : Piece) : Prop where
  size : x.bytes.length = saSize x.len
  sin6 : x.family = afInet6 →
    28 ≤ x.bytes.length ∨ sc.embedscope (Block.read b cp 28) = Block.read b cp 28

end Piece

/-- The pieces one behind the other. -/
def lay (xs : List Piece) : List UInt8 := xs.flatMap Piece.bytes

theorem lay_cons (x : Piece) (xs : List Piece) : lay (x :: xs) = x.bytes ++ lay xs := List.flatMap_cons

theorem lay_append (xs ys : List Piece) : lay (xs ++ ys) = lay xs ++ lay ys := List.flatMap_append

/-- All the pieces from `cp` on do. -/
def Stand (sc : Scope6) (b : Bytes) : Nat → List Piece → Prop
  | _, [] => True
  | cp, x :: xs => x.Stands sc b cp ∧ Stand sc b (cp + x.bytes.length) xs

theorem Stand.congr {sc : Scope6} {b b' : Bytes} : ∀ (xs : List Piece) (cp : Nat),
    (∀ k, cp ≤ k → b' k = b k) → Stand sc b cp xs → Stand sc b' cp xs := by
  intro xs
  induction xs with
  | nil => exact fun _ _ _ => trivial
  | cons x xs ih =>
    rintro cp hsame ⟨hx, hrest⟩
    have hread : Block.read b' cp 28 = Block.read b cp 28 :=
      Block.read_congr fun i _ => hsame _ (Nat.le_add_right cp i)
    refine ⟨⟨hx.size, fun hfamily => ?_⟩, ih _ (fun k hk => hsame k (by omega)) hrest⟩
    rw [hread]
    exact hx.sin6 hfamily

/-- The bytes `bs` lie at `p`. -/
def LiesAt (b : Bytes) (p : Nat) (bs : List UInt8) : Prop := Block.read b p bs.length = bs

namespace LiesAt

variable {b b' : Bytes} {p : Nat} {bs cs : List UInt8}

theorem append_iff : LiesAt b p (bs ++ cs) ↔ LiesAt b p bs ∧ LiesAt b (p + bs.length) cs := by
  rw [LiesAt, List.length_append, Block.read_append]
  constructor
  · intro h
    exact List.append_inj h Block.length_read
  · rintro ⟨hbs, hcs⟩
    rw [hbs, hcs]

theorem congr (h : ∀ k, p ≤ k → k < p + bs.length → b' k = b k) (hbs : LiesAt b p bs) :
    LiesAt b' p bs := by
  rw [LiesAt, ← hbs, Block.length_read]
  apply Block.read_congr
  intro i hi
  exact h _ (Nat.le_add_right p i) (Nat.add_lt_add_left hi p)

theorem getD {k : Nat} (hbs : LiesAt b p bs) (hk : k < bs.length) : bs.getD k 0 = b (p + k) := by
  rw [List.getD_eq_getElem?_getD, ← hbs, Block.getElem?_read hk]
  rfl

end LiesAt

/-! ## One piece -/

section Accept

variable {sc : Scope6} {b : Bytes} {cp : Nat} {x : Piece}

/-- `sa6_embedscope` changes the address and the scope id. -/
theorem accept_changes {k : Nat} (h : accept sc cp b k ≠ b k) :
    b (cp + 1) = afInet6 ∧ cp + 2 ≤ k ∧ k < cp + 28 := by
  unfold accept at h
  split at h
  case _ hfamily =>
    have hlen : (sc.embedscope (Block.read b cp 28)).length = 28 := sc.embed_length Block.length_read
    refine ⟨hfamily, Nat.le_of_not_lt fun hlt => h ?_, Nat.lt_of_not_le fun hge => h ?_⟩
    · rcases Nat.lt_or_ge k cp with hbefore | hge
      · exact Block.write_before hbefore
      · -- the first two bytes stay
        obtain ⟨i, rfl⟩ := Nat.exists_eq_add_of_le hge
        have hi : i < 2 := by omega
        have hhead := congrArg (·[i]?) (sc.embed_head (s := Block.read b cp 28) Block.length_read)
        simp only [List.getElem?_take_of_lt hi] at hhead
        rw [Block.getElem?_read (by omega), List.getElem?_eq_getElem (by omega)] at hhead
        exact (Block.write_at b cp _ (by omega)).trans (Option.some.inj hhead)
    · exact Block.write_after (by omega)
  case _ => exact absurd rfl h

theorem accept_before {k : Nat} (hk : k < cp + 2) : accept sc cp b k = b k := by
  by_contra hne
  have hlow := (accept_changes hne).2.1
  omega

/-- A scope that is not there is not embedded. -/
theorem accept_of_alone (h : sc.embedscope (Block.read b cp 28) = Block.read b cp 28) :
    accept sc cp b = b := by
  rw [accept, h, Block.write_read, ite_self]

theorem Piece.Stands.two_le (h : x.Stands sc b cp) : 2 ≤ x.bytes.length := by
  have hsize := (saSize_spec x.len).2.1
  rw [h.size]
  omega

theorem LiesAt.len_eq (hat : LiesAt b cp x.bytes) (h : 2 ≤ x.bytes.length) : b cp = x.len :=
  (hat.getD (k := 0) (by omega)).symm

theorem LiesAt.family_eq (hat : LiesAt b cp x.bytes) (h : 2 ≤ x.bytes.length) : b (cp + 1) = x.family :=
  (hat.getD (by omega)).symm

theorem accept_behind (hat : LiesAt b cp x.bytes) (h : x.Stands sc b cp) {k : Nat}
    (hk : cp + x.bytes.length ≤ k) : accept sc cp b k = b k := by
  by_contra hne
  obtain ⟨hfamily, _, hup⟩ := accept_changes hne
  rcases h.sin6 (by rw [← hat.family_eq h.two_le, hfamily]) with hsin6 | halone
  · omega
  · exact hne (congrFun (accept_of_alone halone) k)

/-- The piece after it was accepted. -/
theorem read_accept (hat : LiesAt b cp x.bytes) (h : x.Stands sc b cp) :
    Block.read (accept sc cp b) cp x.bytes.length = x.embedded sc := by
  rw [Piece.embedded]
  split
  case _ hcomplete =>
    obtain ⟨hfamily, hsin6⟩ := hcomplete
    have hhead : Block.read b cp 28 = x.bytes.take 28 := by
      rw [← Block.read_take hsin6, hat]
    have hlen : (sc.embedscope (x.bytes.take 28)).length = 28 :=
      sc.embed_length (by rw [List.length_take]; omega)
    have hsplit : LiesAt b cp (x.bytes.take 28 ++ x.bytes.drop 28) := by
      rw [List.take_append_drop]
      exact hat
    have hrest := (LiesAt.append_iff.mp hsplit).2
    have hcount : x.bytes.length = 28 + (x.bytes.drop 28).length := by
      rw [List.length_drop]
      omega
    rw [List.length_take, Nat.min_eq_left hsin6] at hrest
    have hwritten := Block.read_write b cp (sc.embedscope (x.bytes.take 28))
    rw [hlen] at hwritten
    rw [accept, hat.family_eq h.two_le, if_pos hfamily, hhead, hcount, Block.read_append, hwritten,
      Block.read_write_of_disjoint (.inr (Nat.le_of_eq (congrArg (cp + ·) hlen)))]
    exact congrArg _ hrest
  case _ hnot =>
    -- another family, or a sockaddr_in6 that is left alone
    have hsame : accept sc cp b = b := by
      by_cases hfamily : x.family = afInet6
      · rcases h.sin6 hfamily with hsin6 | halone
        · exact absurd ⟨hfamily, hsin6⟩ hnot
        · exact accept_of_alone halone
      · rw [accept, hat.family_eq h.two_le, if_neg hfamily]
    rw [hsame]
    exact hat

theorem accept_len (hat : LiesAt b cp x.bytes) (h : 2 ≤ x.bytes.length) : accept sc cp b cp = x.len := by
  rw [accept_before (by omega), hat.len_eq h]

/-- The sockaddr that a reference into the message names. -/
theorem contents_msg : (SaRef.msg cp).contents b = Block.read b cp (b cp).toNat := by
  change Block.read (fun k => b (cp + k)) 0 (b cp).toNat = _
  simp only [Block.read, Nat.zero_add]

/-- What the accepted piece is read as, in a block that keeps it. -/
theorem contents_accept {b' : Bytes} (hat : LiesAt b cp x.bytes) (h : x.Stands sc b cp)
    (hkept : ∀ k, cp ≤ k → k < cp + x.bytes.length → b' k = accept sc cp b k) :
    (SaRef.msg cp).contents b' = x.parsed sc := by
  have hsize := (saSize_spec x.len).1
  have htwo := h.two_le
  rw [← h.size] at hsize
  have hread : Block.read b' cp x.len.toNat = Block.read (accept sc cp b) cp x.len.toNat := by
    apply Block.read_congr
    intro i hi
    exact hkept _ (Nat.le_add_right cp i) (by omega)
  rw [contents_msg, hkept cp (Nat.le_refl cp) (by omega), accept_len hat htwo, hread,
    ← Block.read_take hsize, read_accept hat h, Piece.parsed]

end Accept

/-! ## The loop -/

section Loop

variable {sc : Scope6} {cplim : Nat} {addrs : UInt32}

theorem rtXaddrs_end {cp : Nat} (hend : cplim ≤ cp) (is : List Nat) (info : RtInfo) (b : Bytes) :
    rtXaddrs sc cplim addrs is cp info b = (true, info, b) := by
  cases is with
  | nil => rfl
  | cons i is =>
    rw [rtXaddrs]
    exact if_pos hend

theorem rtXaddrs_skip {i : Nat} (hbit : hasAddr addrs i = false) (is : List Nat) (cp : Nat)
    (info : RtInfo) (b : Bytes) :
    rtXaddrs sc cplim addrs (i :: is) cp info b = rtXaddrs sc cplim addrs is cp info b := by
  rcases Nat.lt_or_ge cp cplim with hin | hend
  · rw [rtXaddrs, if_neg (by omega), if_pos hbit]
  · rw [rtXaddrs_end hend, rtXaddrs_end hend]

/-- A turn that meets a piece. -/
theorem rtXaddrs_piece {i cp : Nat} {b : Bytes} {x : Piece} (hbit : hasAddr addrs i = true)
    (hat : LiesAt b cp x.bytes) (hsize : x.bytes.length = saSize x.len)
    (hin : cp + x.bytes.length ≤ cplim) (is : List Nat) (info : RtInfo) :
    rtXaddrs sc cplim addrs (i :: is) cp info b =
      if x.len = 0 then (true, Function.update info i (some saZero), b)
      else rtXaddrs sc cplim addrs is (cp + x.bytes.length)
        (Function.update info i (some (.msg cp))) (accept sc cp b) := by
  have hspec := saSize_spec x.len
  have htwo : 2 ≤ x.bytes.length := by omega
  rw [rtXaddrs, if_neg (by omega), if_neg (by simp [hbit]), hat.len_eq htwo, if_neg (by omega)]
  simp only [accept_len hat htwo, hsize]

/-- The first of the pieces that lie at `cp`, and those behind it in the block that keeps it. -/
theorem laid_cons {i cp : Nat} {is : List Nat} {xs : List Piece} {b : Bytes} (hbit : hasAddr addrs i = true)
    (hslots : xs.map Piece.slot = (i :: is).filter (hasAddr addrs)) (hat : LiesAt b cp (lay xs))
    (hstand : Stand sc b cp xs) (hend : cplim = cp + (lay xs).length) :
    ∃ x ys, xs = x :: ys ∧ x.slot = i ∧ ys.map Piece.slot = is.filter (hasAddr addrs) ∧
      LiesAt b cp x.bytes ∧ x.Stands sc b cp ∧ LiesAt (accept sc cp b) (cp + x.bytes.length) (lay ys) ∧
      Stand sc (accept sc cp b) (cp + x.bytes.length) ys ∧
      cplim = cp + x.bytes.length + (lay ys).length := by
  rw [List.filter_cons, hbit] at hslots
  cases xs with
  | nil => exact absurd hslots (by simp)
  | cons x ys =>
    obtain ⟨hslot, hslots'⟩ := List.cons.inj hslots
    obtain ⟨hx, hys⟩ := hstand
    rw [lay_cons, LiesAt.append_iff] at hat
    rw [lay_cons, List.length_append, ← Nat.add_assoc] at hend
    exact ⟨x, ys, rfl, hslot, hslots', hat.1, hx, hat.2.congr fun k hk _ => accept_behind hat.1 hx hk,
      hys.congr _ _ fun k hk => accept_behind hat.1 hx hk, hend⟩

/-- **The pieces that lie at `cp` are what `rt_xaddrs` finds**, slot by slot. -/
theorem rtXaddrs_laid : ∀ (is : List Nat) (xs : List Piece) (cp : Nat) (info : RtInfo) (b : Bytes),
    is.Nodup → xs.map Piece.slot = is.filter (hasAddr addrs) → LiesAt b cp (lay xs) →
    Stand sc b cp xs → (∀ x ∈ xs, x.len ≠ 0) → cplim = cp + (lay xs).length →
    let r := rtXaddrs sc cplim addrs is cp info b
    r.1 = true ∧ (∀ k < cp, r.2.2 k = b k) ∧ (∀ j, j ∉ xs.map Piece.slot → r.2.1 j = info j) ∧
      ∀ x ∈ xs, ∃ off, r.2.1 x.slot = some (.msg off) ∧
        (SaRef.msg off).contents r.2.2 = x.parsed sc := by
  intro is
  induction is with
  | nil =>
    intro xs cp info b _ hslots _ _ _ _
    rw [List.filter_nil, List.map_eq_nil_iff] at hslots
    subst hslots
    exact ⟨rfl, fun _ _ => rfl, fun _ _ => rfl, fun x hx => absurd hx List.not_mem_nil⟩
  | cons i is ih =>
    intro xs cp info b hnodup hslots hat hstand hlen hend
    obtain ⟨hi, hnodup'⟩ := List.nodup_cons.mp hnodup
    cases hbit : hasAddr addrs i with
    | false =>
      rw [List.filter_cons, hbit] at hslots
      rw [rtXaddrs_skip hbit]
      exact ih xs cp info b hnodup' hslots hat hstand hlen hend
    | true =>
      obtain ⟨x, ys, rfl, hslot, hslots', hfirst, hx, hbehind, hstand', hend'⟩ :=
        laid_cons hbit hslots hat hstand hend
      rw [rtXaddrs_piece hbit hfirst hx.size (by omega), if_neg (hlen x List.mem_cons_self)]
      obtain ⟨hok, hbefore, hother, hfound⟩ := ih ys (cp + x.bytes.length)
        (Function.update info i (some (.msg cp))) (accept sc cp b) hnodup' hslots' hbehind hstand'
        (fun y hy => hlen y (List.mem_cons_of_mem _ hy)) hend'
      have hfresh : i ∉ ys.map Piece.slot := by
        intro hmem
        rw [hslots'] at hmem
        exact hi (List.mem_of_mem_filter hmem)
      have htwo := hx.two_le
      refine ⟨hok, fun k hk => ?_, fun j hj => ?_, fun y hy => ?_⟩
      · rw [hbefore k (by omega), accept_before (by omega)]
      · rw [List.map_cons, List.mem_cons, not_or] at hj
        rw [hother j hj.2, Function.update_of_ne (by rw [← hslot]; exact hj.1)]
      · rcases List.mem_cons.mp hy with rfl | hy'
        · refine ⟨cp, ?_, ?_⟩
          · rw [hslot, hother i hfresh, Function.update_self]
          · exact contents_accept hfirst hx fun k _ hk => hbefore k hk
        · exact hfound y hy'

variable (sc cplim addrs) in
/-- Whatever lies behind, the loop leaves what is before its place. -/
theorem rtXaddrs_before : ∀ (is : List Nat) (cp : Nat) (info : RtInfo) (b : Bytes),
    (∀ k < cp + 2, (rtXaddrs sc cplim addrs is cp info b).2.2 k = b k) ∧
      ∀ j, j ∉ is → (rtXaddrs sc cplim addrs is cp info b).2.1 j = info j := by
  intro is
  induction is with
  | nil => exact fun _ _ _ => ⟨fun _ _ => rfl, fun _ _ => rfl⟩
  | cons i is ih =>
    intro cp info b
    have hsize := (saSize_spec (accept sc cp b cp)).2.1
    have hfresh {j : Nat} (hj : j ∉ i :: is) (sa : SaRef) :
        Function.update info i (some sa) j = info j :=
      Function.update_of_ne (List.ne_of_not_mem_cons hj) _ _
    have hin {j : Nat} (hj : j ∉ i :: is) : j ∉ is := fun hmem => hj (List.mem_cons_of_mem i hmem)
    rw [rtXaddrs]
    split
    · exact ⟨fun _ _ => rfl, fun _ _ => rfl⟩
    · split
      · exact ⟨(ih cp info b).1, fun j hj => (ih cp info b).2 j (hin hj)⟩
      · split
        · exact ⟨fun _ _ => rfl, fun _ _ => rfl⟩
        · split
          · exact ⟨fun _ _ => rfl, fun j hj => hfresh hj _⟩
          · obtain ⟨hblock, hother⟩ := ih (cp + saSize (accept sc cp b cp))
              (Function.update info i (some (.msg cp))) (accept sc cp b)
            refine ⟨fun k hk => ?_, fun j hj => ?_⟩
            · exact (hblock k (by omega)).trans (accept_before hk)
            · exact (hother j (hin hj)).trans (hfresh hj _)

/-- A slot that comes out as a place in the message is a piece with a length, and what is found is the
piece as it has been accepted. -/
theorem rtXaddrs_found {i cp : Nat} {is : List Nat} {info : RtInfo} {b : Bytes} {x : Piece} {c : List UInt8}
    (hbit : hasAddr addrs i = true) (hi : i ∉ is) (hat : LiesAt b cp x.bytes)
    (hsize : x.bytes.length = saSize x.len) (hin : cp + x.bytes.length ≤ cplim)
    (hfound : ∃ off, (rtXaddrs sc cplim addrs (i :: is) cp info b).2.1 i = some (.msg off) ∧
      (SaRef.msg off).contents (rtXaddrs sc cplim addrs (i :: is) cp info b).2.2 = c) :
    Block.read (accept sc cp b) cp x.len.toNat = c ∧
      rtXaddrs sc cplim addrs (i :: is) cp info b =
        rtXaddrs sc cplim addrs is (cp + x.bytes.length) (Function.update info i (some (.msg cp)))
          (accept sc cp b) := by
  have hspec := saSize_spec x.len
  have hturn : rtXaddrs sc cplim addrs (i :: is) cp info b = _ := rtXaddrs_piece hbit hat hsize hin is info
  obtain ⟨off, hoff, hcontents⟩ := hfound
  by_cases hzero : x.len = 0
  · -- the loop has ended here, at the placeholder
    rw [hturn, if_pos hzero] at hoff
    dsimp only at hoff
    rw [Function.update_self] at hoff
    exact absurd hoff (by simp [saZero])
  · rw [if_neg hzero] at hturn
    refine ⟨?_, hturn⟩
    obtain ⟨hblock, hother⟩ := rtXaddrs_before sc cplim addrs is (cp + x.bytes.length)
      (Function.update info i (some (.msg cp))) (accept sc cp b)
    rw [hturn, hother i hi, Function.update_self] at hoff
    obtain rfl := SaRef.msg.inj (Option.some.inj hoff)
    rw [hturn, contents_msg, hblock cp (by omega), accept_len hat (by omega)] at hcontents
    rw [← hcontents]
    exact Block.read_congr fun k hk => (hblock _ (by omega)).symm

end Loop

end LazyBsd.Route
