/-
# LazyBsd.Socket.Sockaddr — socket addresses between the Linux and the FreeBSD layout.

A Linux address begins with a 16 bit family, a FreeBSD one with an 8 bit length and an 8 bit family;
the data of both begins at byte 2. `linux2freebsd_sockaddr` and `freebsd2linux_sockaddr` translate
between two buffers and also, for `recvmsg`, in one: there the order in which the two head bytes are
read and written decides.
-/
import Mathlib.Tactic.IntervalCases
import LazyBsd.Lib.Object

namespace LazyBsd.Socket

open Lib.Object

/-- The memory objects of a call: the `struct sockaddr_storage` among its locals, the control buffer
it allocates, what the stack allocated, and the objects of the caller. -/
inductive Obj
  | storage
  | control
  | stack (n : Nat)
  | caller (n : Nat)
deriving DecidableEq, Repr

/-- `LINUX_AF_INET6` and FreeBSD's `AF_INET6`. -/
def linuxAfInet6 : Nat := 10
def afInet6 : Nat := 28

/-- `sizeof(struct sockaddr_storage)`. -/
def sockaddrStorageSize : Nat := 128

/-- `addrlen - sizeof(linux_addr->sa_family)`, computed as a `size_t`. -/
def dataLen (addrlen : Nat) : Nat := (UInt64.ofNat addrlen - 2).toNat

/-- The two conditional expressions over `sa_family`. -/
def toFreebsd (family : Nat) : Nat := if family = linuxAfInet6 then afInet6 else family
def toLinux (family : Nat) : Nat := if family = afInet6 then linuxAfInet6 else family

def linux2freebsdSockaddr (linuxAddr : Option (Ptr Obj)) (addrlen : UInt32)
    (freebsdAddr : Option (Ptr Obj)) : Code Obj Unit :=
  match linuxAddr, freebsdAddr with
  | some linux, some freebsd => do
      -- `sa_family` is a `short` here; the assignment keeps its low byte
      let family ← load linux 2
      store (freebsd + 1) 1 (toFreebsd family)
      store freebsd 1 addrlen.toNat
      if linux + 2 ≠ freebsd + 2 then
        bcopy (linux + 2) (freebsd + 2) (dataLen addrlen.toNat)
  | _, _ => pure ()

def freebsd2linuxSockaddr (linuxAddr freebsdAddr : Option (Ptr Obj)) : Code Obj Unit :=
  match linuxAddr, freebsdAddr with
  | some linux, some freebsd => do
      if linux + 2 ≠ freebsd + 2 then
        let len ← load freebsd 1
        bcopy (freebsd + 2) (linux + 2) (dataLen len)
      let family ← load (freebsd + 1) 1
      store linux 2 (toLinux family)
  | _, _ => pure ()

/-- `sa_family` of a Linux address, `sa_len` and `sa_family` of a FreeBSD one. -/
def linuxFamily (b : Contents Obj) (p : Ptr Obj) : Nat := number b p 2
def saLen (b : Contents Obj) (p : Ptr Obj) : Nat := (b p).toNat
def saFamily (b : Contents Obj) (p : Ptr Obj) : Nat := (b (p + 1)).toNat

theorem dataLen_of_two_le {n : Nat} (hlo : 2 ≤ n) (hhi : n < 2 ^ 64) : dataLen n = n - 2 := by
  rw [dataLen, UInt64.toNat_sub_of_le, UInt64.toNat_ofNat_of_lt' (by simpa using hhi)]
  · rfl
  · rw [UInt64.le_iff_toNat_le, UInt64.toNat_ofNat_of_lt' (by simpa using hhi)]
    exact hlo

/-! ## Two buffers, or one -/

/-- Both pointers name the same `n` bytes, or `n` bytes each of their own. -/
def SameOrApart (p q : Ptr Obj) (n : Nat) : Prop := p = q ∨ p.Apart n q n

variable {b : Contents Obj} {linux freebsd back p : Ptr Obj} {addrlen : UInt32} {n i v : Nat}

theorem add_data (p : Ptr Obj) (hi : 2 ≤ i) : p + 2 + (i - 2) = p + i := by
  rw [Ptr.add_add, Nat.add_sub_cancel' hi]

theorem not_covers_data (m : Nat) (hi : i < 2) : ¬ (p + 2).Covers m (p + i) := by
  rintro ⟨-, hlo, -⟩
  rw [Ptr.add_off, Ptr.add_off] at hlo
  omega

theorem not_covers_of_apart {q : Ptr Obj} {m o : Nat} (h : p.Apart n q n) (hi : i < n)
    (ho : o + m ≤ n) : ¬ (q + o).Covers m (p + i) := by
  rintro ⟨hobj, hlo, hhi⟩
  rw [Ptr.add_obj, Ptr.add_obj] at hobj
  rw [Ptr.add_off, Ptr.add_off] at hlo hhi
  rcases h hobj with h | h <;> omega

/-- The head that `linux2freebsd_sockaddr` writes. -/
def freebsdHead (b : Contents Obj) (linux freebsd : Ptr Obj) (addrlen : UInt32) : Contents Obj :=
  put (put b (freebsd + 1) 1 (toFreebsd (linuxFamily b linux))) freebsd 1 addrlen.toNat

theorem after_linux2freebsdSockaddr :
    after (linux2freebsdSockaddr (some linux) addrlen (some freebsd)) b =
      if linux = freebsd then freebsdHead b linux freebsd addrlen
      else copied (freebsdHead b linux freebsd addrlen) (linux + 2) (freebsd + 2)
        (dataLen addrlen.toNat) := by
  by_cases hsame : linux = freebsd
  · rw [if_pos hsame]
    simp [after, linux2freebsdSockaddr, hsame, freebsdHead, linuxFamily]
  · rw [if_neg hsame]
    simp [after, linux2freebsdSockaddr, Ptr.add_inj, hsame, freebsdHead, linuxFamily]

theorem freebsdHead_saLen :
    saLen (freebsdHead b linux freebsd addrlen) freebsd = addrlen.toNat % 256 := by
  have hput : freebsdHead b linux freebsd addrlen (freebsd + 0) = _ := put_at Nat.one_pos
  rw [Nat.pow_zero, Nat.div_one, Ptr.add_zero] at hput
  rw [saLen, hput, UInt8.toNat_ofNat']

theorem freebsdHead_saFamily :
    saFamily (freebsdHead b linux freebsd addrlen) freebsd =
      toFreebsd (linuxFamily b linux) % 256 := by
  have hput : put b (freebsd + 1) 1 (toFreebsd (linuxFamily b linux)) (freebsd + 1 + 0) = _ :=
    put_at Nat.one_pos
  rw [Nat.pow_zero, Nat.div_one, Ptr.add_zero] at hput
  rw [saFamily, freebsdHead, put_other, hput, UInt8.toNat_ofNat']
  rintro ⟨-, -, hhi⟩
  rw [Ptr.add_off] at hhi
  omega

theorem freebsdHead_other (hp : ¬ freebsd.Covers 2 p) :
    freebsdHead b linux freebsd addrlen p = b p := by
  have hlen : ¬ freebsd.Covers 1 p := by
    rintro ⟨hobj, hlo, hhi⟩
    exact hp ⟨hobj, hlo, by omega⟩
  have hfamily : ¬ (freebsd + 1).Covers 1 p := by
    rintro ⟨hobj, hlo, hhi⟩
    rw [Ptr.add_obj] at hobj
    rw [Ptr.add_off] at hlo hhi
    exact hp ⟨hobj, by omega, by omega⟩
  rw [freebsdHead, put_other hlen, put_other hfamily]

/-- The head that `freebsd2linux_sockaddr` writes, after the data. -/
def linuxHead (b : Contents Obj) (linux freebsd : Ptr Obj) : Contents Obj :=
  put b linux 2 (toLinux (saFamily b freebsd))

theorem after_freebsd2linuxSockaddr :
    after (freebsd2linuxSockaddr (some linux) (some freebsd)) b =
      if linux = freebsd then linuxHead b linux freebsd
      else linuxHead (copied b (freebsd + 2) (linux + 2) (dataLen (saLen b freebsd))) linux
        freebsd := by
  by_cases hsame : linux = freebsd
  · rw [if_pos hsame]
    simp [after, freebsd2linuxSockaddr, hsame, linuxHead, saFamily, number]
  · rw [if_neg hsame]
    simp [after, freebsd2linuxSockaddr, Ptr.add_inj, hsame, linuxHead, saFamily, saLen, number]

theorem linuxHead_linuxFamily :
    linuxFamily (linuxHead b linux freebsd) linux = toLinux (saFamily b freebsd) % 65536 :=
  number_put

theorem linuxHead_other (hp : ¬ linux.Covers 2 p) : linuxHead b linux freebsd p = b p := put_other hp

theorem not_covers_head (hi : 2 ≤ i) : ¬ p.Covers 2 (p + i) := by
  rintro ⟨-, -, hhi⟩
  rw [Ptr.add_off] at hhi
  omega

/-! ## What a translation leaves -/

section There

/-- The two head bytes. -/
theorem linux2freebsd_head (hi : i < 2) :
    after (linux2freebsdSockaddr (some linux) addrlen (some freebsd)) b (freebsd + i) =
      freebsdHead b linux freebsd addrlen (freebsd + i) := by
  rw [after_linux2freebsdSockaddr]
  split
  · rfl
  · exact copied_other (not_covers_data _ hi)

theorem linux2freebsd_saLen (hmax : addrlen.toNat < 256) :
    saLen (after (linux2freebsdSockaddr (some linux) addrlen (some freebsd)) b) freebsd =
      addrlen.toNat := by
  have hhead : after (linux2freebsdSockaddr (some linux) addrlen (some freebsd)) b freebsd = _ :=
    linux2freebsd_head Nat.two_pos
  have hlen : saLen (freebsdHead b linux freebsd addrlen) freebsd = _ := freebsdHead_saLen
  rw [saLen, hhead, Ptr.add_zero]
  rwa [Nat.mod_eq_of_lt hmax] at hlen

theorem linux2freebsd_saFamily :
    saFamily (after (linux2freebsdSockaddr (some linux) addrlen (some freebsd)) b) freebsd =
      toFreebsd (linuxFamily b linux) % 256 := by
  rw [saFamily, linux2freebsd_head Nat.one_lt_two]
  exact freebsdHead_saFamily

/-- The data bytes, whether the buffers are one or two. -/
theorem linux2freebsd_data (halias : SameOrApart linux freebsd addrlen.toNat)
    (hi : 2 ≤ i) (hin : i < addrlen.toNat) :
    after (linux2freebsdSockaddr (some linux) addrlen (some freebsd)) b (freebsd + i) =
      b (linux + i) := by
  have hlt := addrlen.toNat_lt
  rw [after_linux2freebsdSockaddr]
  split
  · next hsame =>
      subst hsame
      exact freebsdHead_other (not_covers_head hi)
  · next hsame =>
      have hapart := halias.resolve_left hsame
      rw [← add_data freebsd hi, copied_at, add_data linux hi]
      · -- the head bytes were written into the other buffer
        exact freebsdHead_other (not_covers_of_apart (o := 0) hapart hin (by omega))
      · rw [dataLen_of_two_le (by omega) (by omega)]
        omega

end There

section Back

/-- The data bytes of a length that covers them. -/
theorem freebsd2linux_data (halias : SameOrApart freebsd linux (saLen b freebsd))
    (hi : 2 ≤ i) (hin : i < saLen b freebsd) :
    after (freebsd2linuxSockaddr (some linux) (some freebsd)) b (linux + i) = b (freebsd + i) := by
  have hlt : saLen b freebsd < 256 := (b freebsd).toNat_lt
  rw [after_freebsd2linuxSockaddr]
  split
  · next hsame =>
      subst hsame
      exact linuxHead_other (not_covers_head hi)
  · rw [linuxHead_other (not_covers_head hi), ← add_data linux hi, copied_at, add_data freebsd hi]
    rw [dataLen_of_two_le (by omega) (by omega)]
    omega

/-- The family is read before the head is overwritten, and the data before it does not reach the head
of a buffer of its own. -/
theorem freebsd2linux_linuxFamily (hlen : 2 ≤ saLen b freebsd)
    (halias : SameOrApart freebsd linux (saLen b freebsd)) :
    linuxFamily (after (freebsd2linuxSockaddr (some linux) (some freebsd)) b) linux =
      toLinux (saFamily b freebsd) % 65536 := by
  have hlt : saLen b freebsd < 256 := (b freebsd).toNat_lt
  rw [after_freebsd2linuxSockaddr]
  split
  · exact linuxHead_linuxFamily
  · next hsame =>
      have hapart := halias.resolve_left (Ne.symm hsame)
      rw [linuxHead_linuxFamily, saFamily, copied_other, saFamily]
      apply not_covers_of_apart hapart hlen
      rw [dataLen_of_two_le hlen (by omega)]
      omega

end Back

/-! ## In place -/

/-- In place or not, `linux2freebsd_sockaddr` leaves the same bytes. -/
theorem linux2freebsd_inPlace {src dst : Ptr Obj} (hmax : addrlen.toNat < 256)
    (hapart : src.Apart addrlen.toNat dst addrlen.toNat) (hi : i < addrlen.toNat) :
    after (linux2freebsdSockaddr (some src) addrlen (some src)) b (src + i) =
      after (linux2freebsdSockaddr (some src) addrlen (some dst)) b (dst + i) := by
  rcases Nat.lt_or_ge i 2 with hhead | hdata
  · interval_cases i
    · apply UInt8.toNat.inj
      exact (linux2freebsd_saLen hmax).trans (linux2freebsd_saLen hmax).symm
    · apply UInt8.toNat.inj
      exact linux2freebsd_saFamily.trans linux2freebsd_saFamily.symm
  · rw [linux2freebsd_data (.inl rfl) hdata hi, linux2freebsd_data (.inr hapart) hdata hi]

theorem freebsd2linux_head {src dst : Ptr Obj} (hlen : 2 ≤ saLen b src)
    (halias : SameOrApart src dst (saLen b src)) (hi : i < 2) :
    after (freebsd2linuxSockaddr (some dst) (some src)) b (dst + i) =
      .ofNat (toLinux (saFamily b src) / 256 ^ i) := by
  have hlt : saLen b src < 256 := (b src).toNat_lt
  rw [after_freebsd2linuxSockaddr]
  split
  · next hsame =>
      subst hsame
      exact put_at hi
  · next hsame =>
      have hapart := halias.resolve_left (Ne.symm hsame)
      have hfamily : saFamily (copied b (src + 2) (dst + 2) (dataLen (saLen b src))) src =
          saFamily b src := by
        rw [saFamily, copied_other, saFamily]
        apply not_covers_of_apart hapart hlen
        rw [dataLen_of_two_le hlen (by omega)]
        omega
      rw [linuxHead, put_at hi, hfamily]

theorem freebsd2linux_inPlace {src dst : Ptr Obj} (hlen : 2 ≤ saLen b src)
    (hapart : src.Apart (saLen b src) dst (saLen b src)) (hi : i < saLen b src) :
    after (freebsd2linuxSockaddr (some src) (some src)) b (src + i) =
      after (freebsd2linuxSockaddr (some dst) (some src)) b (dst + i) := by
  rcases Nat.lt_or_ge i 2 with hhead | hdata
  · rw [freebsd2linux_head hlen (.inl rfl) hhead, freebsd2linux_head hlen (.inr hapart) hhead]
  · rw [freebsd2linux_data (.inl rfl) hdata hi, freebsd2linux_data (.inr hapart) hdata hi]

/-! ## There and back -/

theorem toLinux_toFreebsd {family : Nat} (h : family < 256) (hne : family ≠ afInet6) :
    toLinux (toFreebsd family % 256) % 65536 = family := by
  unfold toFreebsd
  split
  · next hsix => rw [hsix]; rfl
  · rw [Nat.mod_eq_of_lt h, toLinux, if_neg hne, Nat.mod_eq_of_lt (by omega)]

theorem toFreebsd_toLinux {family : Nat} (h : family < 256) (hne : family ≠ linuxAfInet6) :
    toFreebsd (toLinux family % 65536) % 256 = family := by
  unfold toLinux
  split
  · next hsix => rw [hsix]; rfl
  · have hshort : family < 65536 := by omega
    rw [Nat.mod_eq_of_lt hshort, toFreebsd, if_neg hne, Nat.mod_eq_of_lt h]

/-- The memory after the Linux address at `linux` was converted to `freebsd` and from there to
`back`. -/
def thereAndBack (b : Contents Obj) (linux : Ptr Obj) (addrlen : UInt32) (freebsd back : Ptr Obj) :
    Contents Obj :=
  after (freebsd2linuxSockaddr (some back) (some freebsd))
    (after (linux2freebsdSockaddr (some linux) addrlen (some freebsd)) b)

/-- The memory after the FreeBSD address at `freebsd` was converted to `linux` and from there, under
its length, to `back`. -/
def backAndThere (b : Contents Obj) (freebsd linux back : Ptr Obj) : Contents Obj :=
  after (linux2freebsdSockaddr (some linux) (.ofNat (saLen b freebsd)) (some back))
    (after (freebsd2linuxSockaddr (some linux) (some freebsd)) b)

/-- The translations of socket addresses are inverse to each other, in one buffer as in two, and a
conversion in place gives what a conversion between two buffers gives. -/
theorem sockaddr_translation (b : Contents Obj) (addrlen : UInt32) (hlen : 2 ≤ addrlen.toNat)
    (hmax : addrlen.toNat ≤ sockaddrStorageSize) :
    (∀ linux freebsd back : Ptr Obj, SameOrApart linux freebsd addrlen.toNat →
      SameOrApart freebsd back addrlen.toNat → linuxFamily b linux < 256 →
      linuxFamily b linux ≠ afInet6 →
      saLen (after (linux2freebsdSockaddr (some linux) addrlen (some freebsd)) b) freebsd =
          addrlen.toNat ∧
        linuxFamily (thereAndBack b linux addrlen freebsd back) back = linuxFamily b linux ∧
        ∀ i, 2 ≤ i → i < addrlen.toNat →
          thereAndBack b linux addrlen freebsd back (back + i) = b (linux + i)) ∧
    (∀ freebsd linux back : Ptr Obj, saLen b freebsd = addrlen.toNat →
      SameOrApart freebsd linux addrlen.toNat → SameOrApart linux back addrlen.toNat →
      saFamily b freebsd ≠ linuxAfInet6 →
      ∀ i < addrlen.toNat, backAndThere b freebsd linux back (back + i) = b (freebsd + i)) ∧
    (∀ src dst : Ptr Obj, src.Apart addrlen.toNat dst addrlen.toNat → ∀ i < addrlen.toNat,
      after (linux2freebsdSockaddr (some src) addrlen (some src)) b (src + i) =
        after (linux2freebsdSockaddr (some src) addrlen (some dst)) b (dst + i)) ∧
    (∀ src dst : Ptr Obj, saLen b src = addrlen.toNat →
      src.Apart addrlen.toNat dst addrlen.toNat → ∀ i < addrlen.toNat,
      after (freebsd2linuxSockaddr (some src) (some src)) b (src + i) =
        after (freebsd2linuxSockaddr (some dst) (some src)) b (dst + i)) := by
  have hbyte : addrlen.toNat < 256 := by
    unfold sockaddrStorageSize at hmax
    omega
  refine ⟨?_, ?_, ?_, ?_⟩
  · intro linux freebsd back hthere hback hfamily hne
    have hsa : saLen (after (linux2freebsdSockaddr (some linux) addrlen (some freebsd)) b) freebsd =
        addrlen.toNat := linux2freebsd_saLen hbyte
    refine ⟨hsa, ?_, ?_⟩
    · rw [thereAndBack, freebsd2linux_linuxFamily (by omega) (by rwa [hsa]),
        linux2freebsd_saFamily]
      exact toLinux_toFreebsd hfamily hne
    · intro i hi hin
      rw [thereAndBack, freebsd2linux_data (by rwa [hsa]) hi (by omega)]
      exact linux2freebsd_data hthere hi hin
  · intro freebsd linux back hsa hthere hback hne i hin
    have hround : UInt32.ofNat (saLen b freebsd) = addrlen := by
      rw [hsa, UInt32.ofNat_toNat]
    have hfamily : saFamily b freebsd < 256 := (b (freebsd + 1)).toNat_lt
    rw [backAndThere, hround]
    rcases Nat.lt_or_ge i 2 with hhead | hdata
    · interval_cases i
      · apply UInt8.toNat.inj
        exact (linux2freebsd_saLen hbyte).trans hsa.symm
      · apply UInt8.toNat.inj
        have hlinux : linuxFamily (after (freebsd2linuxSockaddr (some linux) (some freebsd)) b)
            linux = _ := freebsd2linux_linuxFamily (by omega) (by rwa [hsa])
        refine linux2freebsd_saFamily.trans ?_
        rw [hlinux]
        exact toFreebsd_toLinux hfamily hne
    · rw [linux2freebsd_data hback hdata hin]
      exact freebsd2linux_data (by rwa [hsa]) hdata (by omega)
  · intro src dst hapart i hin
    exact linux2freebsd_inPlace hbyte hapart hin
  · intro src dst hsa hapart i hin
    exact freebsd2linux_inPlace (by omega) (by rwa [hsa]) (by omega)

/-- The Linux address 127.0.0.1, port 8080. -/
def Sample.inet : Contents Obj :=
  fun p => if p.obj = .caller 0 then [2, 0, 31, 144, 127, 0, 0, 1].getD p.off 0 else 0

theorem sockaddr_translation_inet :
    linuxFamily (thereAndBack Sample.inet ⟨.caller 0, 0⟩ 16 ⟨.storage, 0⟩ ⟨.caller 1, 0⟩)
        ⟨.caller 1, 0⟩ = 2 ∧
      after (freebsd2linuxSockaddr (some ⟨.storage, 0⟩) (some ⟨.storage, 0⟩))
          (after (linux2freebsdSockaddr (some ⟨.caller 0, 0⟩) 16 (some ⟨.storage, 0⟩)) Sample.inet)
          ⟨.storage, 2⟩ =
        after (freebsd2linuxSockaddr (some ⟨.caller 1, 0⟩) (some ⟨.storage, 0⟩))
          (after (linux2freebsdSockaddr (some ⟨.caller 0, 0⟩) 16 (some ⟨.storage, 0⟩)) Sample.inet)
          ⟨.caller 1, 2⟩ := by
  have hapart {p q : Ptr Obj} (h : p.obj ≠ q.obj) : p.Apart 16 q 16 := fun heq => absurd heq h
  obtain ⟨hthere, -⟩ := sockaddr_translation Sample.inet 16 (by decide) (by decide)
  obtain ⟨hsa, hfamily, -⟩ := hthere ⟨.caller 0, 0⟩ ⟨.storage, 0⟩ ⟨.caller 1, 0⟩
    (.inr (hapart (by decide))) (.inr (hapart (by decide))) (by decide) (by decide)
  obtain ⟨-, -, -, hplace⟩ := sockaddr_translation
    (after (linux2freebsdSockaddr (some ⟨.caller 0, 0⟩) 16 (some ⟨.storage, 0⟩)) Sample.inet) 16
    (by decide) (by decide)
  exact ⟨hfamily, hplace ⟨.storage, 0⟩ ⟨.caller 1, 0⟩ hsa (hapart (by decide)) 2 (by decide)⟩

end LazyBsd.Socket
