/-
# LazyBsd.Route.Access — `fill_addrinfo` with a record of what it touches.

The functions of `Route.Request` once more, as computations that log every access to the message: to a
field of its header, to the length of a sockaddr, to other bytes of a sockaddr with the length that it
has at that moment. Each of them is shown to return what its namesake returns (`…_res`), so the log is
the log of that code. What a touch inside the message is says `Touch.InBounds`.
-/
import LazyBsd.Lib.Trace
import LazyBsd.Route.Request

namespace LazyBsd.Route

open Lib Lib.Traced

/-- An access: through NULL, to `n` bytes at `off` of the header, to the length of a sockaddr, or to `n`
bytes at `off` of a sockaddr whose length is `saLen`. -/
inductive Touch
  | null
  | header (off n : Nat)
  | length (sa : SaRef)
  | field (sa : SaRef) (saLen : UInt8) (off n : Nat)

/-- A touch is inside a message of `len` bytes: a field of a sockaddr is covered by the length of the
sockaddr and ends before the message does. What lies outside the message is `sa_zero`, of 16 bytes. -/
def Touch.InBounds (len : Nat) : Touch → Prop
  | .null => False
  | .header off n => off + n ≤ len
  | .length (.msg p) => p < len
  | .length (.ext _) => True
  | .field (.msg p) saLen off n => off + n ≤ saLen.toNat ∧ p + (off + n) ≤ len
  | .field (.ext _) _ off n => off + n ≤ 16

namespace Access

/-! ## Reads and writes -/

/-- `sa_len`. -/
def readLen (b : Bytes) (sa : SaRef) : Traced Touch UInt8 := do
  emit (.length sa)
  pure (sa.len b)

/-- One byte of a sockaddr. -/
def readByte (b : Bytes) (sa : SaRef) (off : Nat) : Traced Touch UInt8 := do
  emit (.field sa (sa.len b) off 1)
  pure (sa.byte b off)

/-- The `n` bytes at `off` of a sockaddr. -/
def readField (r : Request) (sa : SaRef) (off n : Nat) : Traced Touch (List UInt8) := do
  emit (.field sa (sa.len r.block) off n)
  pure (r.field sa off n)

/-- `Request.store`. -/
def store (i off : Nat) (bs : List UInt8) (r : Request) : Traced Touch Request :=
  match r.slots i with
  | none => do
      emit .null
      pure r
  | some sa => do
      emit (.field sa (sa.len r.block) off bs.length)
      pure (r.store i off bs)

/-- `sa && sa->sa_len < size`. -/
def shorter (b : Bytes) (size : UInt8) : Option SaRef → Traced Touch Bool
  | none => pure false
  | some sa => do
      let len ← readLen b sa
      pure (decide (len < size))

/-! ## The functions -/

/-- The sockaddr at `cp` is accepted: `sa6_embedscope` reads and writes the address and the scope id. -/
def accept (sc : Scope6) (cp : Nat) (b : Bytes) : Traced Touch Bytes := do
  let family ← readByte b (.msg cp) 1
  if family = afInet6 then
    emit (.field (.msg cp) (b cp) 8 20)
    pure (Block.write b cp (sc.embedscope (Block.read b cp 28)))
  else pure b

/-- The loop of `rt_xaddrs`. -/
def rtXaddrs (sc : Scope6) (cplim : Nat) (addrs : UInt32) :
    List Nat → Nat → RtInfo → Bytes → Traced Touch (Bool × RtInfo × Bytes)
  | [], _, info, b => pure (true, info, b)
  | i :: is, cp, info, b =>
      if cplim ≤ cp then pure (true, info, b)
      else if hasAddr addrs i = false then rtXaddrs sc cplim addrs is cp info b
      else do
        let len ← readLen b (.msg cp)
        if cplim < cp + len.toNat then pure (false, info, b)
        else if len = 0 then pure (true, Function.update info i (some saZero), b)
        else
          let b ← accept sc cp b
          let size ← readLen b (.msg cp)
          rtXaddrs sc cplim addrs is (cp + saSize size) (Function.update info i (some (.msg cp))) b

/-- `fill_sockaddr_inet`. -/
def fillSockaddrInet (i : Nat) (addr : List UInt8) (r : Request) : Traced Touch Request :=
  store i 0 ([sockaddrInSize, afInet, 0, 0] ++ addr ++ List.replicate 8 0) r

/-- `fill_sockaddr_inet6` with a scope id of 0. -/
def fillSockaddrInet6 (i : Nat) (addr6 : List UInt8) (r : Request) : Traced Touch Request :=
  store i 0 ([sockaddrIn6Size, afInet6, 0, 0, 0, 0, 0, 0] ++ addr6 ++ [0, 0, 0, 0]) r

/-- `cleanup_xaddrs_lladdr` on the gateway. -/
def cleanupXaddrsLladdr (sdl : SaRef) (r : Request) : Traced Touch Nat := do
  let family ← readByte r.block sdl 1
  if family ≠ afLink then pure einval
  else
    let index ← readField r sdl 2 2
    if index = [0, 0] then pure einval
    else
      let nlen ← readByte r.block sdl 5
      let alen ← readByte r.block sdl 6
      let len ← readLen r.block sdl
      if len.toNat < 8 + nlen.toNat + alen.toNat then pure einval
      else pure 0

/-- `cleanup_xaddrs_gateway`. -/
def cleanupXaddrsGateway (gw : SaRef) (r : Request) : Traced Touch Outcome :=
  if r.flags &&& rtfLldata ≠ 0 then do
    let error ← cleanupXaddrsLladdr gw r
    pure (error, r)
  else do
    let family ← readByte r.block gw 1
    if family = afInet then
      let short ← shorter r.block sockaddrInSize (some gw)
      if short then pure (einval, r)
      else
        let addr ← readField r gw 4 4
        let r' ← fillSockaddrInet rtaxGateway addr r
        pure (0, r')
    else if family = afInet6 then
      let short ← shorter r.block sockaddrIn6Size (some gw)
      if short then pure (einval, r)
      else
        let addr6 ← readField r gw 8 16
        let r' ← fillSockaddrInet6 rtaxGateway addr6 r
        pure (0, r')
    else if family = afLink then
      let short ← shorter r.block sockaddrDlShortSize (some gw)
      if short then pure (einval, r)
      else
        let index ← readField r gw 2 2
        let r' ← store rtaxGateway 0 ([sockaddrDlShortSize, afLink] ++ index ++ List.replicate 12 0) r
        pure (0, r')
    else pure (0, r)

/-- The check of the gateway that ends `cleanup_xaddrs_inet` and `cleanup_xaddrs_inet6`. -/
def checkGateway (r : Request) : Traced Touch Outcome :=
  match r.slots rtaxGateway with
  | some gw => cleanupXaddrsGateway gw r
  | none => pure (0, r)

/-- The netmask's address, ones without a netmask. -/
def readMask (r : Request) (off n : Nat) : Traced Touch (List UInt8) :=
  match r.slots rtaxNetmask with
  | some sa => readField r sa off n
  | none => pure (List.replicate n 0xff)

/-- `cleanup_xaddrs_inet`. -/
def cleanupXaddrsInet (dstSa : SaRef) (r : Request) : Traced Touch Outcome := do
  let mask ← readMask r 4 4
  let addr ← readField r dstSa 4 4
  let dst := List.zipWith (· &&& ·) addr mask
  let dstShort ← shorter r.block sockaddrInSize (some dstSa)
  if dstShort then pure (einval, r)
  else
    let maskShort ← shorter r.block sockaddrInSize (r.slots rtaxNetmask)
    if maskShort then pure (einval, r)
    else
      let r ← fillSockaddrInet rtaxDst dst r
      if mask ≠ List.replicate 4 0xff then
        let r ← fillSockaddrInet rtaxNetmask mask r
        checkGateway r
      else checkGateway (removeNetmask r)

/-- `cleanup_xaddrs_inet6`. -/
def cleanupXaddrsInet6 (dstSa : SaRef) (r : Request) : Traced Touch Outcome := do
  let mask ← readMask r 8 16
  let addr6 ← readField r dstSa 8 16
  let dst := List.zipWith (· &&& ·) addr6 mask
  let r ← store rtaxDst 8 dst r
  let dstShort ← shorter r.block sockaddrIn6Size (some dstSa)
  if dstShort then pure (einval, r)
  else
    let maskShort ← shorter r.block sockaddrIn6Size (r.slots rtaxNetmask)
    if maskShort then pure (einval, r)
    else
      let _ ← readField r dstSa 8 16
      let r ← fillSockaddrInet6 rtaxDst dst r
      if mask ≠ List.replicate 16 0xff then
        let r ← fillSockaddrInet6 rtaxNetmask mask r
        checkGateway r
      else checkGateway (removeNetmask r)

/-- `cleanup_xaddrs`. -/
def cleanupXaddrs (r : Request) : Traced Touch Outcome :=
  match r.slots rtaxDst with
  | none => pure (einval, r)
  | some dst => do
      let r := if r.flags &&& rtfLldata ≠ 0 then removeNetmask r else r
      let family ← readByte r.block dst 1
      if family = afInet then cleanupXaddrsInet dst r
      else if family = afInet6 then cleanupXaddrsInet6 dst r
      else pure (eafnosupport, r)

/-- The read of `sa_family` through a slot. -/
def readFamily (r : Request) (i : Nat) : Traced Touch UInt8 :=
  match r.slots i with
  | none => do
      emit .null
      pure 0
  | some sa => readByte r.block sa 1

/-- The flags when the gateway turns out to be an address of an interface. -/
def markLocalGateway (caller : Caller) (r : Request) : Traced Touch Request :=
  match r.slots rtaxGateway with
  | some _ => do
      let family ← readFamily r rtaxGateway
      if family ≠ afLink ∧ caller.gatewayIsLocal then
        pure { r with flags := (r.flags &&& ~~~rtfGateway) ||| rtfGwflagCompat }
      else pure r
  | none => pure r

/-- `fill_addrinfo` on the first `len` bytes of `b`. -/
def fillAddrinfo (sc : Scope6) (caller : Caller) (len : Nat) (b : Bytes) : Traced Touch Outcome := do
  -- `rtm_pid`, `rtm_addrs` and `rtm_inits`
  emit (.header 16 4)
  emit (.header 12 4)
  emit (.header 32 8)
  let b := Block.write b 16 (le32 caller.pid)
  let parse ← rtXaddrs sc len (rtmAddrs b) (List.range rtaxMax) rtMsghdrSize (fun _ => none) b
  if parse.1 = false then pure (einval, ⟨rtmAddrs b, 0, parse.2.1, parse.2.2⟩)
  else
    emit (.header 8 4)
    if rtmFlags parse.2.2 &&& rtfRnhLocked ≠ 0 then
      pure (einval, ⟨rtmAddrs b, 0, parse.2.1, parse.2.2⟩)
    else
      let out ← cleanupXaddrs ⟨rtmAddrs b, rtmFlags parse.2.2, parse.2.1, parse.2.2⟩
      if out.1 ≠ 0 then pure out
      else
        let _ ← readFamily out.2 rtaxDst
        emit (.header 3 1)
        if rtmType out.2.block ≠ rtmGet ∧ caller.privCheck ≠ 0 then pure (caller.privCheck, out.2)
        else
          let r ← markLocalGateway caller out.2
          pure (0, r)

/-! ## What they return -/

section Returns

variable {b : Bytes} {r : Request} {sa : SaRef}

@[simp] theorem readLen_res : (readLen b sa).res = some (sa.len b) := rfl

@[simp] theorem readByte_res (off : Nat) : (readByte b sa off).res = some (sa.byte b off) := rfl

@[simp] theorem readField_res (off n : Nat) : (readField r sa off n).res = some (r.field sa off n) := rfl

@[simp] theorem store_res (i off : Nat) (bs : List UInt8) :
    (store i off bs r).res = some (r.store i off bs) := by
  unfold store
  split
  case _ hnone =>
    rw [Request.store, hnone]
    rfl
  case _ => rfl

@[simp] theorem shorter_res (size : UInt8) (sa : Option SaRef) :
    (shorter b size sa).res = some (sa.any fun sa => sa.len b < size) := by
  cases sa <;> rfl

@[simp] theorem readMask_res (off n : Nat) : (readMask r off n).res = some (r.mask off n) := by
  unfold readMask Request.mask
  cases r.slots rtaxNetmask <;> rfl

@[simp] theorem fillSockaddrInet_res (i : Nat) (addr : List UInt8) :
    (fillSockaddrInet i addr r).res = some (Route.fillSockaddrInet i addr r) := store_res _ _ _

@[simp] theorem fillSockaddrInet6_res (i : Nat) (addr6 : List UInt8) :
    (fillSockaddrInet6 i addr6 r).res = some (Route.fillSockaddrInet6 i addr6 r) := store_res _ _ _

@[simp] theorem accept_res (sc : Scope6) (cp : Nat) :
    (accept sc cp b).res = some (Route.accept sc cp b) := by
  unfold accept Route.accept
  simp only [res_bind, readByte_res, res_emit, Option.bind_some, apply_ite Traced.res, res_pure,
    apply_ite some]
  rfl

/-- `rt_xaddrs` with its log returns what it returns without. -/
@[simp] theorem rtXaddrs_res (sc : Scope6) (cplim : Nat) (addrs : UInt32) :
    ∀ (is : List Nat) (cp : Nat) (info : RtInfo) (b : Bytes),
      (rtXaddrs sc cplim addrs is cp info b).res =
        some (Route.rtXaddrs sc cplim addrs is cp info b) := by
  intro is
  induction is with
  | nil => intro cp info b; rfl
  | cons i is ih =>
    intro cp info b
    rw [rtXaddrs, Route.rtXaddrs]
    split
    · rfl
    · split
      · exact ih cp info b
      · rw [res_bind, readLen_res, Option.bind_some]
        show (if cplim < cp + (b cp).toNat then _ else _ : Traced Touch _).res = _
        split
        · rfl
        · show (if b cp = 0 then _ else _ : Traced Touch _).res = _
          split
          · rfl
          · simp only [res_bind, accept_res, readLen_res, Option.bind_some]
            exact ih _ _ _

@[simp] theorem cleanupXaddrsLladdr_res :
    (cleanupXaddrsLladdr sa r).res = some (Route.cleanupXaddrsLladdr sa r) := by
  unfold cleanupXaddrsLladdr Route.cleanupXaddrsLladdr
  simp only [res_bind, readByte_res, readField_res, readLen_res, Option.bind_some,
    apply_ite Traced.res, res_pure, apply_ite some]
  rfl

@[simp] theorem cleanupXaddrsGateway_res :
    (cleanupXaddrsGateway sa r).res = some (Route.cleanupXaddrsGateway sa r) := by
  unfold cleanupXaddrsGateway Route.cleanupXaddrsGateway
  simp only [res_bind, readByte_res, readField_res, shorter_res, store_res, fillSockaddrInet_res,
    fillSockaddrInet6_res, cleanupXaddrsLladdr_res, Option.bind_some, apply_ite Traced.res, res_pure,
    apply_ite some, Option.any_some, decide_eq_true_eq]
  rfl

@[simp] theorem checkGateway_res : (checkGateway r).res = some (Route.checkGateway r) := by
  unfold checkGateway Route.checkGateway
  cases r.slots rtaxGateway with
  | none => rfl
  | some gw => exact cleanupXaddrsGateway_res

@[simp] theorem cleanupXaddrsInet_res :
    (cleanupXaddrsInet sa r).res = some (Route.cleanupXaddrsInet sa r) := by
  unfold cleanupXaddrsInet Route.cleanupXaddrsInet
  simp only [res_bind, readField_res, readMask_res, shorter_res, fillSockaddrInet_res,
    checkGateway_res, Option.bind_some, apply_ite Traced.res, res_pure, apply_ite some,
    Option.any_some, decide_eq_true_eq]

@[simp] theorem cleanupXaddrsInet6_res :
    (cleanupXaddrsInet6 sa r).res = some (Route.cleanupXaddrsInet6 sa r) := by
  have hslots : ∀ bs, (r.store rtaxDst 8 bs).slots rtaxNetmask = r.slots rtaxNetmask := by
    intro bs
    unfold Request.store
    split <;> rfl
  unfold cleanupXaddrsInet6 Route.cleanupXaddrsInet6
  simp only [res_bind, readField_res, readMask_res, shorter_res, store_res, fillSockaddrInet6_res,
    checkGateway_res, Option.bind_some, apply_ite Traced.res, res_pure, apply_ite some,
    Option.any_some, decide_eq_true_eq, hslots]

@[simp] theorem cleanupXaddrs_res : (cleanupXaddrs r).res = some (Route.cleanupXaddrs r) := by
  unfold cleanupXaddrs Route.cleanupXaddrs
  cases r.slots rtaxDst with
  | none => rfl
  | some dst =>
    simp only [res_bind, readByte_res, cleanupXaddrsInet_res, cleanupXaddrsInet6_res,
      Option.bind_some, apply_ite Traced.res, res_pure, apply_ite some]
    rfl

@[simp] theorem readFamily_bind {α : Type} (i : Nat) (o : Option α) :
    ((readFamily r i).res.bind fun _ => o) = o := by
  unfold readFamily
  cases r.slots i <;> rfl

@[simp] theorem markLocalGateway_res (caller : Caller) :
    (markLocalGateway caller r).res = some (Route.markLocalGateway caller r) := by
  unfold markLocalGateway Route.markLocalGateway readFamily
  cases r.slots rtaxGateway with
  | none => rfl
  | some gw =>
    simp only [res_bind, readByte_res, Option.bind_some, apply_ite Traced.res, res_pure,
      apply_ite some]
    rfl

/-- **`fill_addrinfo` with its log returns what it returns without**, for every message. -/
theorem fillAddrinfo_res (sc : Scope6) (caller : Caller) (len : Nat) (b : Bytes) :
    (fillAddrinfo sc caller len b).res = some (Route.fillAddrinfo sc caller len b) := by
  unfold fillAddrinfo Route.fillAddrinfo
  simp only [res_bind, res_emit, rtXaddrs_res, cleanupXaddrs_res, markLocalGateway_res,
    readFamily_bind, Option.bind_some, apply_ite Traced.res, res_pure, apply_ite some]

end Returns

/-! ## What the reads and writes touch -/

section Touches

variable {P : Touch → Prop} {b : Bytes} {r : Request} {sa : SaRef}

@[simp] theorem readLen_all : (readLen b sa).All P ↔ P (.length sa) := by
  simp [readLen]

@[simp] theorem readByte_all {off : Nat} :
    (readByte b sa off).All P ↔ P (.field sa (sa.len b) off 1) := by
  simp [readByte]

@[simp] theorem readField_all {off n : Nat} :
    (readField r sa off n).All P ↔ P (.field sa (sa.len r.block) off n) := by
  simp [readField]

theorem store_all {i off : Nat} {bs : List UInt8} (hi : r.slots i = some sa) :
    (store i off bs r).All P ↔ P (.field sa (sa.len r.block) off bs.length) := by
  simp [store, hi]

theorem shorter_all {size : UInt8} {sa : Option SaRef} :
    (shorter b size sa).All P ↔ ∀ s, sa = some s → P (.length s) := by
  cases sa <;> simp [shorter]

theorem readMask_all {off n : Nat} :
    (readMask r off n).All P ↔
      ∀ sa, r.slots rtaxNetmask = some sa → P (.field sa (sa.len r.block) off n) := by
  unfold readMask
  cases r.slots rtaxNetmask <;> simp

theorem readFamily_all {i : Nat} (hi : r.slots i = some sa) :
    (readFamily r i).All P ↔ P (.field sa (sa.len r.block) 1 1) := by
  simp [readFamily, hi]

end Touches

end Access

end LazyBsd.Route
