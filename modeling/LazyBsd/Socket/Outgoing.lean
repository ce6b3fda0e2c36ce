/-
# LazyBsd.Socket.Outgoing — the translation of outgoing control messages, and both directions together.

`linux2freebsd_cmsg` reads one buffer and fills another: what it reads stays as it was, and a turn
leaves in the second buffer the message of the first, in no more space.
-/
import LazyBsd.Socket.Ancillary

namespace LazyBsd.Socket

open Lib.Object

variable {b b' : Contents Obj} {p q l f : Ptr Obj} {n v i : Nat}

/-! ## One turn between two buffers -/

/-- `c` is `b` except in the `n` bytes at `f`. -/
def SameBut (b c : Contents Obj) (f : Ptr Obj) (n : Nat) : Prop := ∀ q, ¬ f.Covers n q → c q = b q

theorem SameBut.put (h : SameBut b b' f n) {k m : Nat} (hk : k + m ≤ n) :
    SameBut b (put b' (f + k) m v) f n := by
  intro q hq
  rw [put_other, h q hq]
  rintro ⟨hobj, hlo, hhi⟩
  rw [Ptr.add_off] at hlo hhi
  exact hq ⟨hobj, by omega, by omega⟩

theorem SameBut.refl (b : Contents Obj) (f : Ptr Obj) (n : Nat) : SameBut b b f n := fun _ _ => rfl

/-- Writes to a buffer apart leave the message at `l` alone. -/
theorem SameBut.linux (h : SameBut b b' f n) (hlen : dataOff ≤ cmsgLen .linux b l)
    (hapart : l.Apart (cmsgLen .linux b l) f n) :
    (∀ i < cmsgLen .linux b l, b' (l + i) = b (l + i)) ∧
      cmsgLen .linux b' l = cmsgLen .linux b l ∧ cmsgLevel .linux b' l = cmsgLevel .linux b l ∧
      cmsgType .linux b' l = cmsgType .linux b l := by
  have hkeep : ∀ i < cmsgLen .linux b l, b' (l + i) = b (l + i) := by
    intro i hi
    apply h
    rintro ⟨hobj, hlo, hhi⟩
    rw [Ptr.add_obj] at hobj
    rw [Ptr.add_off] at hlo hhi
    rcases hapart hobj with h | h <;> omega
  exact ⟨hkeep, header_congr .linux fun i hi => hkeep i (by omega)⟩

section Turn

variable (b l f) (hlen : dataOff ≤ cmsgLen .linux b l) (hmax : cmsgLen .linux b l < 2 ^ 32)
  (hapart : l.Apart (cmsgLen .linux b l) f (cmsgLen .linux b l))
include hlen hmax hapart

/-- The header: length, level and type of the message, written in front of the data only. -/
theorem linux2freebsdHeader_fields :
    cmsgLen .freebsd (linux2freebsdHeader b l f) f = cmsgLen .linux b l ∧
      cmsgLevel .freebsd (linux2freebsdHeader b l f) f = cmsgLevel .linux b l ∧
      cmsgType .freebsd (linux2freebsdHeader b l f) f = cmsgType .linux b l ∧
      SameBut b (linux2freebsdHeader b l f) f dataOff := by
  have hlevel : cmsgLevel .linux b l < 2 ^ 32 := number_lt b _ 4
  have htype : cmsgType .linux b l < 2 ^ 32 := number_lt b _ 4
  have hfront : l.Apart (cmsgLen .linux b l) f dataOff := hapart.mono le_rfl hlen
  -- neither write changes what is read from the other buffer
  have hsame₁ : SameBut b (setCmsgType .freebsd b f (cmsgType .linux b l)) f dataOff :=
    (SameBut.refl b f dataOff).put (by decide)
  obtain ⟨-, -, hlevel₁, -⟩ := hsame₁.linux hlen hfront
  have hsame₂ : SameBut b (setCmsgLevel .freebsd (setCmsgType .freebsd b f (cmsgType .linux b l)) f
      (cmsgLevel .linux b l)) f dataOff := hsame₁.put (by decide)
  obtain ⟨-, hlen₂, -, -⟩ := hsame₂.linux hlen hfront
  have hheader : linux2freebsdHeader b l f = setCmsgLen .freebsd (setCmsgLevel .freebsd
      (setCmsgType .freebsd b f (cmsgType .linux b l)) f (cmsgLevel .linux b l)) f
      (cmsgLen .linux b l) := by
    rw [linux2freebsdHeader, hlevel₁, hlen₂, cmsgLenOf_eq (by omega)]
  rw [hheader]
  refine ⟨?_, ?_, ?_, hsame₂.put (k := 0) (by decide)⟩
  · rw [cmsgLen_setCmsgLen]
    exact Nat.mod_eq_of_lt hmax
  · rw [cmsgLevel_setCmsgLen, cmsgLevel_setCmsgLevel]
    exact Nat.mod_eq_of_lt hlevel
  · rw [cmsgType_setCmsgLen, cmsgType_setCmsgLevel, cmsgType_setCmsgType]
    exact Nat.mod_eq_of_lt htype

/-- A byte under a type of its own: the length becomes that of a `char`. -/
theorem linux2freebsdTurn_byte {t : Nat} (ht : t < 2 ^ 32)
    (hv : UInt8.ofNat v = b (l + dataOff)) (hone : 1 ≤ (messageAt .linux b l).payload.length)
    (height : (messageAt .linux b l).payload.length ≤ 8) :
    Rewritten .freebsd b (put (setCmsgLen .freebsd (setCmsgType .freebsd
        (linux2freebsdHeader b l f) f t) f (dataOff + 1)) (f + dataOff) 1 v) f
      (align (cmsgLen .linux b l))
      { messageAt .linux b l with type := t, payload := (messageAt .linux b l).payload.take 1 } := by
  obtain ⟨-, hlevel₁, -, hsame⟩ := linux2freebsdHeader_fields b l f hlen hmax hapart
  rw [length_payload_messageAt] at hone height
  have hspace : align (cmsgLen .linux b l) = 24 := by
    unfold align
    unfold dataOff at hone height hlen
    omega
  have htake : (messageAt .linux b l).payload.take 1 = [b (l + dataOff)] := by
    obtain ⟨k, hk⟩ : ∃ k, cmsgLen .linux b l - dataOff = k + 1 := ⟨_, (Nat.sub_add_cancel hone).symm⟩
    rw [messageAt, hk, bytesAt_succ]
    rfl
  obtain ⟨c, hc⟩ : ∃ c, c = setCmsgLen .freebsd (setCmsgType .freebsd
      (linux2freebsdHeader b l f) f t) f (dataOff + 1) := ⟨_, rfl⟩
  rw [← hc, htake]
  have hfront : ∀ i < dataOff, put c (f + dataOff) 1 v (f + i) = c (f + i) := by
    intro i hi
    exact put_other (not_covers_data_of_lt 1 hi)
  obtain ⟨hlen', hlevel', htype'⟩ := header_congr .freebsd hfront
  apply Rewritten.of_fields
  · rw [hlevel', hc, cmsgLevel_setCmsgLen, cmsgLevel_setCmsgType, hlevel₁]
    rfl
  · rw [htype', hc, cmsgType_setCmsgLen, cmsgType_setCmsgType]
    exact Nat.mod_eq_of_lt ht
  · rw [hlen', hc, cmsgLen_setCmsgLen]
    rfl
  · have hat : put c (f + dataOff) 1 v (f + dataOff + 0) = _ := put_at Nat.one_pos
    show [put c (f + dataOff) 1 v (f + dataOff + 0)] = [b (l + dataOff)]
    rw [hat, Nat.pow_zero, Nat.div_one, hv]
  · rw [hspace]
    show align (dataOff + 1) = 24
    decide
  · have hsame' : SameBut b c f 24 := by
      have hmono : SameBut b (linux2freebsdHeader b l f) f 24 := fun q hq =>
        hsame q (covers_mono (by decide) hq)
      rw [hc]
      exact (hmono.put (k := 8) (by decide)).put (k := 0) (by decide)
    rw [hspace]
    exact hsame'.put (by decide)

/-- Any other message: the data is copied. -/
theorem linux2freebsdTurn_data :
    Rewritten .freebsd b (copied (linux2freebsdHeader b l f) (l + dataOff) (f + dataOff)
        (payloadLen (cmsgLen .linux (linux2freebsdHeader b l f) l))) f
      (align (cmsgLen .linux b l)) (messageAt .linux b l) := by
  obtain ⟨hlen₁, hlevel₁, htype₁, hsame⟩ := linux2freebsdHeader_fields b l f hlen hmax hapart
  have hfront : l.Apart (cmsgLen .linux b l) f dataOff := hapart.mono le_rfl hlen
  obtain ⟨hkeep, hlinux, -, -⟩ := hsame.linux hlen hfront
  rw [hlinux, payloadLen_eq hlen (by omega)]
  have hhead : ∀ i < dataOff, copied (linux2freebsdHeader b l f) (l + dataOff) (f + dataOff)
      (cmsgLen .linux b l - dataOff) (f + i) = linux2freebsdHeader b l f (f + i) := by
    intro i hi
    exact copied_other (not_covers_data_of_lt _ hi)
  obtain ⟨hlen', hlevel', htype'⟩ := header_congr .freebsd hhead
  apply Rewritten.of_fields
  · rw [hlevel', hlevel₁]
    rfl
  · rw [htype', htype₁]
    rfl
  · rw [hlen', hlen₁, length_payload_messageAt, Nat.add_sub_cancel' hlen]
  · rw [length_payload_messageAt, payload_messageAt]
    apply bytesAt_congr
    intro i hi
    rw [copied_at hi, Ptr.add_add]
    exact hkeep _ (by omega)
  · rw [length_payload_messageAt, Nat.add_sub_cancel' hlen]
  · intro q hq
    have hspace := (align_spec (cmsgLen .linux b l)).1
    rw [copied_other, hsame q (covers_mono (hlen.trans hspace) hq)]
    rintro ⟨hobj, hlo, hhi⟩
    rw [Ptr.add_off] at hlo hhi
    exact hq ⟨hobj, by omega, by omega⟩

theorem linux2freebsdTurn_rewrites (hfrom : (messageAt .linux b l).FromLinux) :
    Rewritten .freebsd b (linux2freebsdTurn b l f) f (align (cmsgLen .linux b l))
      (messageAt .linux b l).toFreebsd := by
  obtain ⟨hlen₁, hlevel₁, htype₁, hsame⟩ := linux2freebsdHeader_fields b l f hlen hmax hapart
  have hfront : l.Apart (cmsgLen .linux b l) f dataOff := hapart.mono le_rfl hlen
  obtain ⟨-, -, hlevel, htype⟩ := hsame.linux hlen hfront
  -- a header that is changed again is still read from the other buffer
  have hagain (t : Nat) : SameBut b (setCmsgLen .freebsd (setCmsgType .freebsd
      (linux2freebsdHeader b l f) f t) f (dataOff + 1)) f dataOff :=
    (hsame.put (k := 8) (by decide)).put (k := 0) (by decide)
  by_cases htos : cmsgLevel .linux b l = ipprotoIp ∧ cmsgType .linux b l = linuxIpTos
  · have hmap : (messageAt .linux b l).toFreebsd = _ := if_pos htos
    obtain ⟨hkeep, hlen₃, -, -⟩ := (hagain ipTos).linux hlen hfront
    have hpayload := (hfrom htos.1).1 htos.2
    rw [length_payload_messageAt] at hpayload
    rw [hmap, linux2freebsdTurn, hlevel, htype, if_pos htos]
    simp only [hlen₃]
    split
    · next hint =>
        apply linux2freebsdTurn_byte b l f hlen hmax hapart (by decide) _
        · rw [length_payload_messageAt, hint]
          decide
        · rw [length_payload_messageAt, hint]
          decide
        · rw [ofNat_number_succ]
          exact hkeep dataOff (by rw [hint]; decide)
    · next hnint =>
        have hchar : cmsgLen .linux b l = dataOff + 1 := by omega
        rw [if_pos hchar]
        apply linux2freebsdTurn_byte b l f hlen hmax hapart (by decide) _
        · rw [length_payload_messageAt, hchar]
          decide
        · rw [length_payload_messageAt, hchar]
          decide
        · rw [ofNat_number_succ]
          exact hkeep dataOff (by rw [hchar]; decide)
  · by_cases httl : cmsgLevel .linux b l = ipprotoIp ∧ cmsgType .linux b l = linuxIpTtl
    · have hmap : (messageAt .linux b l).toFreebsd = _ := (if_neg htos).trans (if_pos httl)
      obtain ⟨hkeep, -, -, -⟩ := (hagain ipTtl).linux hlen hfront
      have hpayload := (hfrom httl.1).2 httl.2
      rw [hmap, linux2freebsdTurn, hlevel, htype, if_neg htos, if_pos httl]
      apply linux2freebsdTurn_byte b l f hlen hmax hapart (by decide) _
      · omega
      · omega
      · rw [ofNat_number_succ]
        rw [length_payload_messageAt] at hpayload
        exact hkeep dataOff (by omega)
    · have hmap : (messageAt .linux b l).toFreebsd = _ := (if_neg htos).trans (if_neg httl)
      rw [hmap, linux2freebsdTurn, hlevel, htype, if_neg htos, if_neg httl]
      exact linux2freebsdTurn_data b l f hlen hmax hapart

end Turn

/-! ## `linux2freebsd_cmsg` -/

theorem length_toFreebsd_le (msg : Cmsg) : msg.toFreebsd.payload.length ≤ msg.payload.length := by
  unfold Cmsg.toFreebsd
  split
  · exact List.length_take_le' _ _
  · split
    · exact List.length_take_le' _ _
    · exact le_rfl

/-- A message that ends before `stop` lies in the bytes before `stop`. -/
theorem messageAt_congr_upto {lay : Layout} {stop : Nat} (hlen : dataOff ≤ cmsgLen lay b p)
    (hin : p.off + cmsgLen lay b p ≤ stop)
    (hagree : ∀ q : Ptr Obj, q.obj = p.obj → p.off ≤ q.off → q.off < stop → b' q = b q) :
    cmsgLen lay b' p = cmsgLen lay b p ∧ messageAt lay b' p = messageAt lay b p := by
  apply messageAt_congr
  · intro i hi
    exact hagree _ rfl (Nat.le_add_right _ _) (by rw [Ptr.add_off]; omega)
  · intro i hi
    rw [Ptr.add_add]
    exact hagree _ rfl (Nat.le_add_right _ _) (by rw [Ptr.add_off]; omega)

theorem Holds.congr {lay : Layout} {stop : Nat} {ms : List Cmsg} (h : Holds lay b stop p ms)
    (hagree : ∀ q : Ptr Obj, q.obj = p.obj → p.off ≤ q.off → q.off < stop → b' q = b q) :
    Holds lay b' stop p ms := by
  induction h with
  | @last p hlen hin hend =>
      obtain ⟨hlen', hmsg⟩ := messageAt_congr_upto hlen hin hagree
      rw [← hmsg]
      apply Holds.last <;> rwa [hlen']
  | @more p ms hlen hnext hrest ih =>
      have hspace := (align_spec (cmsgLen lay b p)).1
      obtain ⟨hlen', hmsg⟩ := messageAt_congr_upto hlen (by omega) hagree
      rw [← hmsg]
      apply Holds.more
      · rwa [hlen']
      · rwa [hlen']
      · rw [hlen']
        apply ih
        intro q hobj hlo hhi
        rw [Ptr.add_off] at hlo
        exact hagree q hobj (by omega) hhi

theorem Holds.len_le {lay : Layout} {stop : Nat} {msg : Cmsg} {ms : List Cmsg}
    (h : Holds lay b stop p (msg :: ms)) :
    dataOff ≤ cmsgLen lay b p ∧ p.off + cmsgLen lay b p ≤ stop ∧ messageAt lay b p = msg := by
  have hspace := (align_spec (cmsgLen lay b p)).1
  cases h with
  | last hlen hin hend => exact ⟨hlen, hin, rfl⟩
  | more hlen hnext hrest => exact ⟨hlen, by omega, rfl⟩

/-- Pieces at the same offset of two buffers apart. -/
theorem apart_inside {m k : Nat} (h : p.Apart m q m) (hk : k + n ≤ m) :
    (p + k).Apart n (q + k) n := by
  intro hobj
  have hor := h hobj
  simp only [Ptr.add_off]
  omega

theorem Rewritten.holds_last {lay : Layout} {b₁ : Contents Obj} {stop : Nat} {msg : Cmsg}
    (h : Rewritten lay b b₁ p n msg) (hin : p.off + cmsgLen lay b₁ p ≤ stop)
    (hend : stop < p.off + n + dataOff) : Holds lay b₁ stop p [msg] := by
  rw [← h.message]
  apply Holds.last
  · rw [h.len]
    exact Nat.le_add_right _ _
  · exact hin
  · rwa [h.space]

theorem Rewritten.holds_more {lay : Layout} {b₁ : Contents Obj} {stop : Nat} {msg : Cmsg}
    {ms : List Cmsg} (h : Rewritten lay b b₁ p n msg) (hkeep : ∀ i < n, b' (p + i) = b₁ (p + i))
    (hnext : p.off + n + dataOff ≤ stop) (hrest : Holds lay b' stop (p + n) ms) :
    Holds lay b' stop p (msg :: ms) := by
  obtain ⟨hlen, hmsg⟩ := h.keep hkeep
  rw [← h.message, ← hmsg]
  apply Holds.more
  · rw [hlen, h.len]
    exact Nat.le_add_right _ _
  · rwa [hlen, h.space]
  · rw [hlen, h.space]
    exact hrest

section Run

variable {linuxMsg freebsdMsg : Control}

theorem linux2freebsdLoop_none (turns : Nat) (x : Option (Ptr Obj)) :
    linux2freebsdLoop linuxMsg freebsdMsg turns none x b = some b := by
  cases turns <;> rfl

variable (hsize : linuxMsg.msgControllen = freebsdMsg.msgControllen)
  (hmax : freebsdMsg.msgControllen < 2 ^ 32)
  (hapart : linuxMsg.msgControl.Apart linuxMsg.msgControllen freebsdMsg.msgControl
    freebsdMsg.msgControllen)
include hsize hmax hapart

/-- The turn at offset `k` of both buffers. -/
theorem linux2freebsdTurn_inside {k : Nat} {msg : Cmsg} {ms : List Cmsg}
    (hholds : Holds .linux b linuxMsg.stop (linuxMsg.msgControl + k) (msg :: ms))
    (hfrom : msg.FromLinux) :
    Rewritten .freebsd b
      (linux2freebsdTurn b (linuxMsg.msgControl + k) (freebsdMsg.msgControl + k))
      (freebsdMsg.msgControl + k) (align (cmsgLen .linux b (linuxMsg.msgControl + k)))
      msg.toFreebsd := by
  obtain ⟨hlen, hin, hmsg⟩ := hholds.len_le
  rw [Ptr.add_off, Control.stop] at hin
  rw [← hmsg]
  apply linux2freebsdTurn_rewrites b _ _ hlen (by omega)
  · exact apart_inside (m := freebsdMsg.msgControllen) (by rwa [hsize] at hapart) (by omega)
  · rwa [hmsg]

/-- After the last message the loop is through, as the FreeBSD walk finds no further header either. -/
theorem linux2freebsdLoop_last {k : Nat} {msg : Cmsg}
    (hholds : Holds .linux b linuxMsg.stop (linuxMsg.msgControl + k) [msg]) (hfrom : msg.FromLinux)
    (turns : Nat) :
    linux2freebsdLoop linuxMsg freebsdMsg (turns + 1) (some (freebsdMsg.msgControl + k))
        (some (linuxMsg.msgControl + k)) b =
      some (linux2freebsdTurn b (linuxMsg.msgControl + k) (freebsdMsg.msgControl + k)) := by
  have hturn := linux2freebsdTurn_inside hsize hmax hapart hholds hfrom
  have hend : linuxMsg.stop < linuxMsg.msgControl.off + k +
      align (cmsgLen .linux b (linuxMsg.msgControl + k)) + dataOff := by
    cases hholds with
    | last _ _ hend => exact hend
    | more _ _ hrest => cases hrest
  have hnext : cmsgNxthdr .freebsd freebsdMsg
      (linux2freebsdTurn b (linuxMsg.msgControl + k) (freebsdMsg.msgControl + k))
      (freebsdMsg.msgControl + k) = none := by
    rw [Control.stop] at hend
    rw [cmsgNxthdr, hturn.space, Ptr.add_off, Control.stop]
    exact if_pos (by omega)
  rw [linux2freebsdLoop, hnext]
  exact linux2freebsdLoop_none turns _

/-- Before another message both walks go on at one offset, and the rest of the caller's buffer is as it
was: it lies in the other buffer. -/
theorem linux2freebsdLoop_more {k : Nat} {msg m : Cmsg} {ms : List Cmsg}
    (hholds : Holds .linux b linuxMsg.stop (linuxMsg.msgControl + k) (msg :: m :: ms))
    (hfrom : msg.FromLinux) :
    (∀ turns, linux2freebsdLoop linuxMsg freebsdMsg (turns + 1) (some (freebsdMsg.msgControl + k))
        (some (linuxMsg.msgControl + k)) b =
      linux2freebsdLoop linuxMsg freebsdMsg turns
        (some (freebsdMsg.msgControl + (k + align (cmsgLen .linux b (linuxMsg.msgControl + k)))))
        (some (linuxMsg.msgControl + (k + align (cmsgLen .linux b (linuxMsg.msgControl + k)))))
        (linux2freebsdTurn b (linuxMsg.msgControl + k) (freebsdMsg.msgControl + k))) ∧
    Holds .linux (linux2freebsdTurn b (linuxMsg.msgControl + k) (freebsdMsg.msgControl + k))
      linuxMsg.stop (linuxMsg.msgControl + (k + align (cmsgLen .linux b (linuxMsg.msgControl + k))))
      (m :: ms) := by
  have hstop : linuxMsg.stop = linuxMsg.msgControl.off + linuxMsg.msgControllen := rfl
  have hstop' : freebsdMsg.stop = freebsdMsg.msgControl.off + freebsdMsg.msgControllen := rfl
  have hturn := linux2freebsdTurn_inside hsize hmax hapart hholds hfrom
  obtain ⟨hlen, -, -⟩ := hholds.len_le
  cases hholds with
  | more _ hnext hrest =>
      rw [Ptr.add_off] at hnext
      have happ : (linuxMsg.msgControl + k).Apart
          (cmsgLen .linux b (linuxMsg.msgControl + k)) (freebsdMsg.msgControl + k)
          (align (cmsgLen .linux b (linuxMsg.msgControl + k))) := by
        intro hobj
        have hor := hapart hobj
        have hspace := (align_spec (cmsgLen .linux b (linuxMsg.msgControl + k))).1
        simp only [Ptr.add_off]
        omega
      obtain ⟨-, hlen₁, -, -⟩ := SameBut.linux hturn.frame hlen happ
      refine ⟨fun turns => ?_, ?_⟩
      · have hfreebsd : cmsgNxthdr .freebsd freebsdMsg
            (linux2freebsdTurn b (linuxMsg.msgControl + k) (freebsdMsg.msgControl + k))
            (freebsdMsg.msgControl + k) = some (freebsdMsg.msgControl +
            (k + align (cmsgLen .linux b (linuxMsg.msgControl + k)))) := by
          rw [cmsgNxthdr, hturn.space, Ptr.add_off, Ptr.add_add]
          exact if_neg (by omega)
        have hlinux : cmsgNxthdr .linux linuxMsg
            (linux2freebsdTurn b (linuxMsg.msgControl + k) (freebsdMsg.msgControl + k))
            (linuxMsg.msgControl + k) = some (linuxMsg.msgControl +
            (k + align (cmsgLen .linux b (linuxMsg.msgControl + k)))) := by
          rw [cmsgNxthdr, hlen₁, Ptr.add_off, Ptr.add_add]
          exact if_neg (by omega)
        rw [linux2freebsdLoop, hfreebsd, hlinux]
      · rw [← Ptr.add_add]
        apply hrest.congr
        intro q hobj hlo hhi
        apply hturn.frame
        rintro ⟨hobj', hlo', hhi'⟩
        simp only [Ptr.add_obj, Ptr.add_off] at hobj hobj' hlo hlo' hhi'
        have hor := hapart (hobj.symm.trans hobj')
        omega

/-- The messages from offset `k` on become FreeBSD messages at the same offset of the other buffer;
nothing before it changes there. -/
theorem linux2freebsdLoop_run {k : Nat} {msg : Cmsg} {ms : List Cmsg}
    (hholds : Holds .linux b linuxMsg.stop (linuxMsg.msgControl + k) (msg :: ms))
    (hfrom : ∀ m ∈ msg :: ms, m.FromLinux) :
    ∃ b', (∀ turns, ms.length < turns →
        linux2freebsdLoop linuxMsg freebsdMsg turns (some (freebsdMsg.msgControl + k))
          (some (linuxMsg.msgControl + k)) b = some b') ∧
      Holds .freebsd b' freebsdMsg.stop (freebsdMsg.msgControl + k)
        ((msg :: ms).map Cmsg.toFreebsd) ∧
      ∀ q, (q.obj = freebsdMsg.msgControl.obj → q.off < freebsdMsg.msgControl.off + k) →
        b' q = b q := by
  have hstop : linuxMsg.stop = linuxMsg.msgControl.off + linuxMsg.msgControllen := rfl
  have hstop' : freebsdMsg.stop = freebsdMsg.msgControl.off + freebsdMsg.msgControllen := rfl
  induction ms generalizing b k msg with
  | nil =>
      have hmine := hfrom msg List.mem_cons_self
      have hturn := linux2freebsdTurn_inside hsize hmax hapart hholds hmine
      obtain ⟨hlen, hin, hmsg⟩ := hholds.len_le
      rw [Ptr.add_off] at hin
      refine ⟨linux2freebsdTurn b (linuxMsg.msgControl + k) (freebsdMsg.msgControl + k), ?_, ?_, ?_⟩
      · intro turns hturns
        obtain ⟨turns, rfl⟩ : ∃ j, turns = j + 1 := ⟨_, (Nat.sub_add_cancel hturns).symm⟩
        exact linux2freebsdLoop_last hsize hmax hapart hholds hmine turns
      · apply hturn.holds_last
        · have hshort := length_toFreebsd_le msg
          rw [hturn.len, Ptr.add_off]
          rw [← hmsg, length_payload_messageAt, hmsg] at hshort
          omega
        · cases hholds with
          | last _ _ hend =>
              rw [Ptr.add_off] at hend ⊢
              omega
          | more _ _ hrest => cases hrest
      · exact fun q hq => hturn.before hq
  | cons m ms ih =>
      have hmine := hfrom msg List.mem_cons_self
      have hturn := linux2freebsdTurn_inside hsize hmax hapart hholds hmine
      obtain ⟨hstep, hrest⟩ := linux2freebsdLoop_more hsize hmax hapart hholds hmine
      obtain ⟨b', hloop, hholds', hframe⟩ := ih hrest fun m hm => hfrom m (List.mem_cons_of_mem _ hm)
      refine ⟨b', ?_, ?_, ?_⟩
      · intro turns hturns
        rw [List.length_cons] at hturns
        obtain ⟨turns, rfl⟩ : ∃ j, turns = j + 1 := ⟨_, (Nat.sub_add_cancel (by omega)).symm⟩
        rw [hstep]
        exact hloop turns (by omega)
      · apply hturn.holds_more
        · intro i hi
          apply hframe
          intro _
          simp only [Ptr.add_off]
          omega
        · have hnext := (hrest.len_le).2.1
          have hheader := (hrest.len_le).1
          simp only [Ptr.add_off] at hnext ⊢
          omega
        · rw [Ptr.add_add]
          exact hholds'
      · intro q hq
        -- what comes later is written behind this message
        have hbefore : b' q = linux2freebsdTurn b (linuxMsg.msgControl + k)
            (freebsdMsg.msgControl + k) q := by
          apply hframe
          intro hobj
          have hlt := hq hobj
          omega
        rw [hbefore]
        exact hturn.before hq

/-- Into a buffer of the same size, `linux2freebsd_cmsg` returns and leaves the same messages for
FreeBSD's macros to find. -/
theorem linux2freebsdCmsg_apart {msg : Cmsg} {ms : List Cmsg}
    (hholds : Holds .linux b linuxMsg.stop linuxMsg.msgControl (msg :: ms))
    (hfrom : ∀ m ∈ msg :: ms, m.FromLinux) :
    ∃ b', ∀ turns, (msg :: ms).length ≤ turns →
      linux2freebsdCmsg linuxMsg freebsdMsg turns b = some b' ∧
        cmsgs .freebsd freebsdMsg b' turns = some ((msg :: ms).map Cmsg.toFreebsd) := by
  obtain ⟨hlen, hin, -⟩ := hholds.len_le
  rw [Control.stop] at hin
  have hfirst (lay : Layout) {c : Control} (hc : c.msgControllen = freebsdMsg.msgControllen) :
      cmsgFirsthdr lay c = some c.msgControl := by
    apply if_pos
    have hlay := header_lt_dataOff lay
    rw [Layout.hdrSize]
    omega
  obtain ⟨b', hloop, hholds', -⟩ := linux2freebsdLoop_run hsize hmax hapart (k := 0) hholds hfrom
  refine ⟨b', fun turns hturns => ⟨?_, ?_⟩⟩
  · rw [linux2freebsdCmsg, hfirst .freebsd rfl, hfirst .linux hsize]
    exact hloop turns hturns
  · rw [cmsgs, hfirst .freebsd rfl]
    apply Holds.walk hholds'
    rwa [List.length_map]

end Run

/-! ## Both directions -/

/-- Translating ancillary data keeps every message: received data in place, under the length the kernel
reports, and sent data into a buffer of the same size, whose length is a `socklen_t`. -/
theorem cmsg_translation :
    (∀ (b : Contents Obj) (linuxMsg freebsdMsg : Control) (ms : List Cmsg),
      linuxMsg.msgControl = freebsdMsg.msgControl →
      freebsdMsg.msgControllen ≤ linuxMsg.msgControllen →
      Padded .freebsd b freebsdMsg.stop freebsdMsg.msgControl ms → (∀ m ∈ ms, m.FromKernel) →
      ∃ b', ∀ turns, ms.length ≤ turns →
        freebsd2linuxCmsghdr linuxMsg freebsdMsg turns b = some b' ∧
          cmsgs .linux freebsdMsg b' turns = some (ms.map Cmsg.toLinux)) ∧
    (∀ (b : Contents Obj) (linuxMsg freebsdMsg : Control) (msg : Cmsg) (ms : List Cmsg),
      linuxMsg.msgControllen = freebsdMsg.msgControllen → freebsdMsg.msgControllen < 2 ^ 32 →
      linuxMsg.msgControl.Apart linuxMsg.msgControllen freebsdMsg.msgControl
        freebsdMsg.msgControllen →
      Holds .linux b linuxMsg.stop linuxMsg.msgControl (msg :: ms) →
      (∀ m ∈ msg :: ms, m.FromLinux) →
      ∃ b', ∀ turns, (msg :: ms).length ≤ turns →
        linux2freebsdCmsg linuxMsg freebsdMsg turns b = some b' ∧
          cmsgs .freebsd freebsdMsg b' turns = some ((msg :: ms).map Cmsg.toFreebsd)) :=
  ⟨fun _ _ _ _ hctl hle hpad hfrom => freebsd2linuxCmsghdr_inPlace hctl hle hpad hfrom,
    fun _ _ _ _ _ hsize hmax hapart hholds hfrom =>
      linux2freebsdCmsg_apart hsize hmax hapart hholds hfrom⟩

/-- A received `IP_RECVTTL` of 64, padded, and an `IP_TOS` of 16 to be sent, as an `int`. -/
def Sample.recvttl : Contents Obj :=
  fun p => [17, 0, 0, 0, 0, 0, 0, 0, 65, 0, 0, 0, 0, 0, 0, 0, 64].getD p.off 0
def Sample.tos : Contents Obj :=
  fun p => [20, 0, 0, 0, 0, 0, 0, 0, 0, 0, 0, 0, 1, 0, 0, 0, 16].getD p.off 0

theorem cmsg_translation_ttl_tos :
    (∃ b', freebsd2linuxCmsghdr ⟨⟨.caller 0, 0⟩, 64⟩ ⟨⟨.caller 0, 0⟩, 24⟩ 1 Sample.recvttl = some b' ∧
      cmsgs .linux ⟨⟨.caller 0, 0⟩, 24⟩ b' 1 = some [⟨ipprotoIp, linuxIpTtl, [64, 0, 0, 0]⟩]) ∧
    ∃ b', linux2freebsdCmsg ⟨⟨.caller 0, 0⟩, 24⟩ ⟨⟨.control, 0⟩, 24⟩ 1 Sample.tos = some b' ∧
      cmsgs .freebsd ⟨⟨.control, 0⟩, 24⟩ b' 1 = some [⟨ipprotoIp, ipTos, [16]⟩] := by
  constructor
  · obtain ⟨b', hb'⟩ := cmsg_translation.1 Sample.recvttl ⟨⟨.caller 0, 0⟩, 64⟩
      ⟨⟨.caller 0, 0⟩, 24⟩ [messageAt .freebsd Sample.recvttl ⟨.caller 0, 0⟩] rfl (by decide)
      (.cons (by decide) (.nil (by decide))) (by
        intro m hm _ _
        rw [List.mem_singleton] at hm
        rw [hm]
        decide)
    exact ⟨b', hb' 1 le_rfl⟩
  · obtain ⟨b', hb'⟩ := cmsg_translation.2 Sample.tos ⟨⟨.caller 0, 0⟩, 24⟩ ⟨⟨.control, 0⟩, 24⟩
      (messageAt .linux Sample.tos ⟨.caller 0, 0⟩) [] rfl (by decide)
      (fun h => absurd h (by decide)) (.last (by decide) (by decide) (by decide)) (by
        intro m hm _
        rw [List.mem_singleton] at hm
        rw [hm]
        exact ⟨fun _ => .inr (by decide), fun h => absurd h (by decide)⟩)
    exact ⟨b', hb' 1 le_rfl⟩

end LazyBsd.Socket
