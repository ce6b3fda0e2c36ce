/-
# LazyBsd.Rss.Key — which RSS key the software check uses.

`init_port_start` keeps the key and its length in two variables of the process. A port that reports a
52-byte hash key switches both for good, also for the ports that come after it, while the ports that
came before keep the 40-byte key on the NIC. So the variables describe the last port, and they describe
an earlier one exactly if no switch came in between. The invariant of the loop (`Configured`) says what
was placed for each port as a function of the ports up to its last turn.
-/
import LazyBsd.Port.Start

namespace LazyBsd.Rss

open Port

/-! ## The hash reads the first bytes of the key only -/

/-- Two keys with the same bytes from `i + 4` on, as far as `n` data bytes reach. -/
theorem toeplitzLoop_congr {len len' : Nat} {key key' : Nat → UInt8} {m : Nat}
    (hkey : ∀ j < m, key j = key' j) (hm : m ≤ len) (hm' : m ≤ len') (data : List UInt8) :
    ∀ (i : Nat) (st : UInt32 × UInt32), i + data.length + 4 ≤ m →
      toeplitzLoop len key i data st = toeplitzLoop len' key' i data st := by
  induction data with
  | nil =>
      intro i st _
      rfl
  | cons byte data ih =>
      intro i st hlen
      rw [List.length_cons] at hlen
      have hbit : toeplitzBit len key i byte = toeplitzBit len' key' i byte := by
        funext st b
        have hindex : keyIndex i ≤ i + 4 := Nat.mod_le _ _
        have h : keyIndex i < len := by omega
        have h' : keyIndex i < len' := by omega
        simp only [toeplitzBit, hkey (keyIndex i) (by omega), h, h', true_and]
      rw [toeplitzLoop, toeplitzLoop, hbit]
      exact ih (i + 1) _ (by omega)

theorem toeplitzHash_congr {len len' : Nat} {key key' : Nat → UInt8} {data : List UInt8}
    (hkey : ∀ j < data.length + 4, key j = key' j) (hlen : data.length + 4 ≤ len)
    (hlen' : data.length + 4 ≤ len') : toeplitzHash len key data = toeplitzHash len' key' data := by
  unfold toeplitzHash
  rw [hkey 0 (by omega), hkey 1 (by omega), hkey 2 (by omega), hkey 3 (by omega)]
  exact toeplitzLoop_congr hkey hlen hlen' data 0 _ (by omega)

/-! ## Last occurrences -/

section Last

variable {α : Type*}

/-- Every element of a list has a last occurrence. -/
theorem exists_last_occurrence {l : List α} {a : α} (h : a ∈ l) :
    ∃ pre post, l = pre ++ a :: post ∧ a ∉ post := by
  obtain ⟨as, bs, heq, hfirst⟩ := List.eq_append_cons_of_mem (List.mem_reverse.mpr h)
  refine ⟨bs.reverse, as.reverse, ?_, by simpa using hfirst⟩
  rw [← List.reverse_reverse l, heq]
  simp

/-- The last occurrence of `q` in a list that ends in `p` is that end, or lies before it. -/
theorem last_occurrence_concat {done pre post : List α} {p q : α}
    (h : done ++ [p] = pre ++ q :: post) (hq : q ∉ post) :
    (q = p ∧ pre = done) ∨ (q ≠ p ∧ ∃ post', done = pre ++ q :: post' ∧ q ∉ post') := by
  rcases List.eq_nil_or_concat post with rfl | ⟨post', r, rfl⟩
  · obtain ⟨rfl, hone⟩ := List.append_inj' h rfl
    exact .inl ⟨by simpa using hone.symm, rfl⟩
  · rw [List.concat_eq_append, ← List.cons_append, ← List.append_assoc] at h
    obtain ⟨hdone, hone⟩ := List.append_inj' h rfl
    obtain rfl : p = r := by simpa using hone
    simp only [List.concat_eq_append, List.mem_append, List.mem_singleton, not_or] at hq
    exact .inr ⟨hq.2, post', hdone, hq.1⟩

end Last

/-! ## The key as a function of the ports so far -/

section Loop

variable {cfg : DpdkCfg} {dev : EthDev}

/-- Does the device report a hash key of 52 bytes? -/
def wide (dev : EthDev) (p : UInt16) : Bool :=
  match dev.infoGet p with
  | .ok info => info.hashKeySize == 52
  | .error _ => false

/-- The key when some port had its turn, and whether one of them was wide. -/
def keyOf (cfg : DpdkCfg) (anyWide : Bool) : RssKey :=
  if cfg.symmetricRss then .symmetric else if anyWide then .default52 else .default40

/-- Its length. -/
def keyLenOf (anyWide : Bool) : Nat := if anyWide then 52 else 40

/-- The key of a `port_conf` is the one chosen after the ports `done`. -/
def PlacedKey (cfg : DpdkCfg) (dev : EthDev) (done : List UInt16) (conf : PortConf) : Prop :=
  ∃ rss, conf.rss = some rss ∧ rss.rssKey = keyOf cfg (done.any (wide dev)) ∧
    rss.rssKeyLen.toNat = keyLenOf (done.any (wide dev))

/-- **The loop invariant.** The ports `done` have had their turns: the variables are those of the last
turn, and every port still has what was placed in its own last turn. -/
structure Configured (cfg : DpdkCfg) (dev : EthDev) (done : List UInt16) (s : PortState) : Prop where
  key : done ≠ [] ∨ cfg.symmetricRss = false → s.rsskey = keyOf cfg (done.any (wide dev))
  len : s.rsskeyLen = keyLenOf (done.any (wide dev))
  placed : ∀ {pre p post}, done = pre ++ p :: post → p ∉ post →
    ∃ conf, s.placed p = some conf ∧ PlacedKey cfg dev (pre ++ [p]) conf
  unplaced : ∀ {p}, p ∉ done → s.placed p = none

theorem Configured.init : Configured cfg dev [] .init where
  key := by
    rintro (h | hsym)
    · exact absurd rfl h
    · simp [PortState.init, keyOf, hsym]
  len := rfl
  placed := by
    intro pre p post h
    exact absurd h (by simp)
  unplaced := by
    intro p _
    rfl

/-- The choice of the key in one turn. -/
theorem Configured.chooseKey {done : List UInt16} {s : PortState} {p : UInt16} {info : DevInfo}
    (hI : Configured cfg dev done s) (hinfo : dev.infoGet p = .ok info) :
    (chooseKey cfg info s).rsskey = keyOf cfg ((done ++ [p]).any (wide dev)) ∧
      (chooseKey cfg info s).rsskeyLen = keyLenOf ((done ++ [p]).any (wide dev)) := by
  have hany : (done ++ [p]).any (wide dev) = (done.any (wide dev) || info.hashKeySize == 52) := by
    simp [wide, hinfo]
  have hlen := hI.len
  rw [hany]
  unfold Port.chooseKey
  by_cases hwide : info.hashKeySize = 52
  · simp only [hwide, if_true, beq_self_eq_true, Bool.or_true]
    cases hsym : cfg.symmetricRss <;> simp [keyOf, keyLenOf, hsym]
  · have hnot : (info.hashKeySize == 52) = false := by simpa using hwide
    simp only [if_neg hwide, hnot, Bool.or_false]
    cases hsym : cfg.symmetricRss with
    | true => simp [keyOf, hsym, hlen]
    | false => simpa [hlen] using hI.key (.inr hsym)

/-- **One turn keeps the invariant.** -/
theorem Configured.turn {done : List UInt16} {s s' : PortState} {nbQueues uPort p : UInt16}
    (hI : Configured cfg dev done s) (h : initPort cfg dev true nbQueues uPort p s = .ok s') :
    Configured cfg dev (done ++ [p]) s' := by
  obtain ⟨info, hinfo, conf, s₁, nb, hfill, rfl⟩ := initPort_ok h
  obtain ⟨_, hrss, hkey, hlen, _, hplaced⟩ := fillConf_ok hfill
  obtain ⟨hkey', hlen'⟩ := hI.chooseKey hinfo
  have hconf : PlacedKey cfg dev (done ++ [p]) conf := by
    refine ⟨_, hrss, hkey', ?_⟩
    rw [hlen']
    unfold keyLenOf
    split <;> rfl
  refine ⟨fun _ => hkey.trans hkey', hlen.trans hlen', ?_, ?_⟩
  · intro pre q post heq hq
    show ∃ conf, s₁.placed q = some conf ∧ _
    rw [hplaced]
    rcases last_occurrence_concat heq hq with ⟨rfl, rfl⟩ | ⟨hne, post', hdone, hq'⟩
    · exact ⟨conf, Function.update_self _ _ _, hconf⟩
    · rw [Function.update_of_ne hne]
      exact hI.placed hdone hq'
  · intro q hq
    rw [List.mem_append, List.mem_singleton, not_or] at hq
    show s₁.placed q = none
    rw [hplaced, Function.update_of_ne hq.2]
    exact hI.unplaced hq.1

/-- After initialisation every port of the configuration had its turn. -/
theorem Configured.of_initPortStart {s : PortState} (h : initPortStart cfg dev .init = .ok s) :
    Configured cfg dev (confPorts cfg) s := by
  refine initPortStart_induct (fun _ _ hI hturn => hI.turn hturn) ?_ .init h
  intro done s nb hI
  exact ⟨hI.key, hI.len, hI.placed, hI.unplaced⟩

end Loop

/-! ## The key of the check and the key of a port -/

/-- The hash of the software check, with the variables of the process. -/
def softwareHash (s : PortState) (saddr daddr : UInt32) (sport dport : UInt16) : UInt32 :=
  toeplitzHash s.rsskeyLen s.rsskey.byte (tupleBytes saddr daddr sport dport)

/-- The hash of a port, with the key in its `rss_conf`. -/
def portHash (rss : RssConf) (saddr daddr : UInt32) (sport dport : UInt16) : UInt32 :=
  toeplitzHash rss.rssKeyLen.toNat rss.rssKey.byte (tupleBytes saddr daddr sport dport)

/-- The check uses the key of the port: same length, same bytes, and so the same hash of every tuple. -/
structure UsesKeyOf (s : PortState) (rss : RssConf) : Prop where
  len : s.rsskeyLen = rss.rssKeyLen.toNat
  bytes : ∀ i < s.rsskeyLen, s.rsskey.byte i = rss.rssKey.byte i
  hash : ∀ saddr daddr sport dport, softwareHash s saddr daddr sport dport =
    portHash rss saddr daddr sport dport

/-- No port switches to the long key after a port that was configured with the short one: a port that
reports 52 bytes comes after the last turn of a port only if one of them, or the port itself, came
before it. -/
def NoLateSwitch (cfg : DpdkCfg) (dev : EthDev) : Prop :=
  ∀ pre p post, confPorts cfg = pre ++ p :: post → p ∉ post → post.any (wide dev) = true →
    (pre ++ [p]).any (wide dev) = true

/-- Without a late switch the variables still describe every port. -/
theorem UsesKeyOf.of_noLateSwitch {cfg : DpdkCfg} {dev : EthDev} {s : PortState} {p : UInt16}
    (hI : Configured cfg dev (confPorts cfg) s) (hno : NoLateSwitch cfg dev) (hp : p ∈ confPorts cfg) :
    ∃ conf rss, s.placed p = some conf ∧ conf.rss = some rss ∧ UsesKeyOf s rss := by
  obtain ⟨pre, post, heq, hlast⟩ := exists_last_occurrence hp
  obtain ⟨conf, hplaced, rss, hrss, hkey, hlen⟩ := hI.placed heq hlast
  have hany : (confPorts cfg).any (wide dev) = (pre ++ [p]).any (wide dev) := by
    have hback := hno pre p post heq hlast
    rw [heq]
    cases hpost : post.any (wide dev) with
    | true => simpa [hpost] using hback hpost
    | false => simp [hpost]
  have hne : confPorts cfg ≠ [] := by
    rw [heq]
    simp
  have hlen' : s.rsskeyLen = rss.rssKeyLen.toNat := by
    rw [hI.len, hany, hlen]
  have hkey' : s.rsskey = rss.rssKey := by
    rw [hI.key (.inl hne), hany, hkey]
  refine ⟨conf, rss, hplaced, hrss, hlen', fun i _ => by rw [hkey'], ?_⟩
  intro saddr daddr sport dport
  rw [softwareHash, portHash, hlen', hkey']

/-- **The key of the check.** After initialisation the software check uses, for every port, the key that
was placed in the configuration of that port, if and only if no port switched to the long key late. -/
theorem check_uses_key_of_port_iff (cfg : DpdkCfg) (dev : EthDev) {s : PortState}
    (h : initPortStart cfg dev .init = .ok s) :
    (∀ p ∈ confPorts cfg, ∃ conf rss, s.placed p = some conf ∧ conf.rss = some rss ∧ UsesKeyOf s rss) ↔
      NoLateSwitch cfg dev := by
  have hI := Configured.of_initPortStart h
  constructor
  · intro huses pre p post heq hp hlate
    obtain ⟨conf, hplaced, rss, hrss, -, hlen⟩ := hI.placed heq hp
    obtain ⟨conf', rss', hplaced', hrss', hsame⟩ := huses p (by rw [heq]; simp)
    obtain rfl : conf = conf' := Option.some.inj (hplaced.symm.trans hplaced')
    obtain rfl : rss = rss' := Option.some.inj (hrss.symm.trans hrss')
    -- the check reads 52 bytes now, so 52 were placed
    have hnow : s.rsskeyLen = 52 := by
      rw [hI.len, heq]
      simp [keyLenOf, hlate]
    rw [← hsame.len, hnow] at hlen
    unfold keyLenOf at hlen
    split at hlen
    · assumption
    · exact absurd hlen (by decide)
  · intro hno p hp
    exact UsesKeyOf.of_noLateSwitch hI hno hp

/-! ### The hashes alone

A late switch does not show in the hashes of a symmetric key, which repeats two bytes: the short and the
long key agree on all bytes that a tuple reaches. -/

theorem tupleBytes_length (saddr daddr : UInt32) (sport dport : UInt16) :
    (tupleBytes saddr daddr sport dport).length = 12 := rfl

theorem symmetric_hash_eq {len len' : Nat} (hlen : 16 ≤ len) (hlen' : 16 ≤ len')
    (saddr daddr : UInt32) (sport dport : UInt16) :
    toeplitzHash len RssKey.symmetric.byte (tupleBytes saddr daddr sport dport) =
      toeplitzHash len' RssKey.symmetric.byte (tupleBytes saddr daddr sport dport) := by
  apply toeplitzHash_congr
  · intro j _
    rfl
  · rwa [tupleBytes_length]
  · rwa [tupleBytes_length]

/-- The two default keys tell a tuple apart. -/
theorem default_hash_ne :
    toeplitzHash 52 RssKey.default52.byte (tupleBytes 0x0100000a 0x0200000a 80 4660) ≠
      toeplitzHash 40 RssKey.default40.byte (tupleBytes 0x0100000a 0x0200000a 80 4660) := by
  decide +kernel

theorem keyLenOf_ge (anyWide : Bool) : 16 ≤ keyLenOf anyWide := by
  cases anyWide <;> decide

/-- Software and NIC compute the same hash of every tuple on every port exactly when the key is
symmetric or no port switched late. -/
theorem hashes_agree_iff (cfg : DpdkCfg) (dev : EthDev) {s : PortState}
    (h : initPortStart cfg dev .init = .ok s) :
    (∀ p ∈ confPorts cfg, ∃ conf rss, s.placed p = some conf ∧ conf.rss = some rss ∧
        ∀ saddr daddr sport dport, softwareHash s saddr daddr sport dport =
          portHash rss saddr daddr sport dport) ↔
      cfg.symmetricRss = true ∨ NoLateSwitch cfg dev := by
  have hI := Configured.of_initPortStart h
  constructor
  · intro hagree
    cases hsym : cfg.symmetricRss with
    | true => exact .inl rfl
    | false =>
        refine .inr fun pre p post heq hp hlate => ?_
        obtain ⟨conf, hplaced, rss, hrss, hkey, hlen⟩ := hI.placed heq hp
        obtain ⟨conf', rss', hplaced', hrss', hsame⟩ := hagree p (by rw [heq]; simp)
        obtain rfl : conf = conf' := Option.some.inj (hplaced.symm.trans hplaced')
        obtain rfl : rss = rss' := Option.some.inj (hrss.symm.trans hrss')
        have hnow : (confPorts cfg).any (wide dev) = true := by
          rw [heq]
          simp [hlate]
        by_contra hshort
        have hshort' : (pre ++ [p]).any (wide dev) = false := by simpa using hshort
        -- a switched process and a port with the short key
        have hsoft : softwareHash s = fun a b c d =>
            toeplitzHash 52 RssKey.default52.byte (tupleBytes a b c d) := by
          funext a b c d
          rw [softwareHash, hI.len, hI.key (.inr hsym), hnow]
          simp [keyOf, keyLenOf, hsym]
        have hport : portHash rss = fun a b c d =>
            toeplitzHash 40 RssKey.default40.byte (tupleBytes a b c d) := by
          funext a b c d
          rw [portHash, hlen, hkey, hshort']
          simp [keyOf, keyLenOf, hsym]
        refine default_hash_ne ?_
        have hone := hsame 0x0100000a 0x0200000a 80 4660
        rwa [hsoft, hport] at hone
  · rintro (hsym | hno) p hp
    · obtain ⟨pre, post, heq, hlast⟩ := exists_last_occurrence hp
      obtain ⟨conf, hplaced, rss, hrss, hkey, hlen⟩ := hI.placed heq hlast
      have hne : confPorts cfg ≠ [] := by
        rw [heq]
        simp
      refine ⟨conf, rss, hplaced, hrss, fun saddr daddr sport dport => ?_⟩
      rw [softwareHash, portHash, hI.key (.inl hne), hkey, hI.len, hlen]
      simp only [keyOf, hsym, if_true]
      exact symmetric_hash_eq (keyLenOf_ge _) (keyLenOf_ge _) saddr daddr sport dport
    · obtain ⟨conf, rss, hplaced, hrss, hsame⟩ := UsesKeyOf.of_noLateSwitch hI hno hp
      exact ⟨conf, rss, hplaced, hrss, hsame.hash⟩

/-! ### Two ports -/

namespace Sample

/-- A device with one queue and a hash key of `keySize` bytes, no offloads. -/
def info (keySize : UInt8) : DevInfo := ⟨1, 1, keySize, 0, 0, 0, 0⟩

/-- Devices on which every call succeeds; port 0 has a key of `k0` bytes, all others of 52. -/
def dev (k0 : UInt8) : EthDev where
  rssProtoMask := 0
  infoGet p := .ok (info (if p = 0 then k0 else 52))
  configure _ _ _ := 0
  adjustNbDesc _ n := n
  txQueueSetup _ _ _ _ := 0
  rxQueueSetup _ _ _ _ := 0
  start _ := 0
  rssRetaUpdate _ _ _ := 0

/-- Ports 0 and 1, without bonds. -/
def cfg : DpdkCfg := ⟨[0, 1], fun _ => ⟨1, []⟩, false, false, false, false, false, true, 2⟩

end Sample

/-- Two ports with long keys. -/
theorem check_uses_key_of_port_two : ∃ s, initPortStart Sample.cfg (Sample.dev 52) .init = .ok s ∧
    ((∀ p ∈ confPorts Sample.cfg, ∃ conf rss, s.placed p = some conf ∧ conf.rss = some rss ∧
      UsesKeyOf s rss) ↔ NoLateSwitch Sample.cfg (Sample.dev 52)) :=
  ⟨_, rfl, check_uses_key_of_port_iff Sample.cfg (Sample.dev 52) rfl⟩

/-- What is placed for port 0 when it has a short key. -/
def Sample.rss40 : RssConf := ⟨.default40, 40, 0⟩

/-- Port 1 switches to the long key after port 0 was configured with the short one: the check of port 0
reads 52 bytes of another key, and the hash of a tuple differs. -/
theorem late_switch_changes_key : ∃ s, initPortStart Sample.cfg (Sample.dev 40) .init = .ok s ∧
    ¬ (∀ p ∈ confPorts Sample.cfg, ∃ conf rss, s.placed p = some conf ∧ conf.rss = some rss ∧
      UsesKeyOf s rss) ∧
    softwareHash s 0x0100000a 0x0200000a 80 4660 ≠ portHash Sample.rss40 0x0100000a 0x0200000a 80 4660 ∧
    ∃ conf, s.placed 0 = some conf ∧ conf.rss = some Sample.rss40 := by
  refine ⟨_, rfl, ?_, by decide +kernel, _, rfl, rfl⟩
  intro hall
  obtain ⟨conf, rss, hplaced, hrss, hsame⟩ := hall 0 (by decide)
  obtain rfl := Option.some.inj hplaced
  obtain rfl := Option.some.inj hrss
  exact absurd hsame.len (by decide)

end LazyBsd.Rss
