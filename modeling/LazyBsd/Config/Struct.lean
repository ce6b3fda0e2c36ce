/-
# LazyBsd.Config.Struct — `config::ptree2struct` of `lazybsd_cfg.cc`.

A configuration is a property tree that the XML reader made. `ptree2struct` copies elements of the tree to the
global configuration, one statement for each field, and lets the exceptions of `get` pass: `ptree_bad_path`
where no element stands at the path, `ptree_bad_data` where its text is no value of the type. A string field
is a pointer. It takes the buffer of the `std::string` that `get<string>` returns, a temporary that the end
of the statement destroys.

The paths of the first thirteen statements contain the text `lazybsd_global_ptr()->dpdk` where the file has
an element `dpdk`. The reader ends a name at `>`, so no XML text has an element of that name.
-/
import LazyBsd.Lib.Fallible
import LazyBsd.Lib.NamedTree
import LazyBsd.Filter.PortList

namespace LazyBsd.Config

open Lib
open LazyBsd.Filter (CString decimal)

/-! ## Property trees -/

/-- A `ptree`: text and named children. -/
abbrev Ptree := NamedTree CString CString

/-- The names of nodes that stand for something else than elements and attributes. -/
def specialNames : List CString := ["<xmlattr>".toList, "<xmlcomment>".toList, "<xmltext>".toList]

/-- A key of a tree that the reader made: a special name, or the name of an element or attribute, which has
no `>` in it. -/
def isXmlName (name : CString) : Bool := specialNames.contains name || !name.contains '>'

/-- A tree that the XML reader can make. -/
structure XmlTree where
  tree : Ptree
  names : tree.keysAll isXmlName

def XmlTree.empty : XmlTree := ⟨.node [] [], rfl⟩

/-- The keys of a path, `.` between them. -/
def keys (path : String) : List CString := path.toList.splitOn '.'

def isSpace (c : Char) : Bool := c ∈ [' ', '\t', '\n', '\x0b', '\x0c', '\r']

/-- The optional sign of a number, and what follows it. -/
def splitSign : CString → Bool × CString
  | '-' :: s => (true, s)
  | '+' :: s => (false, s)
  | s => (false, s)

/-- `iss >> n` of an `int` and the check that only blanks follow. -/
def streamInt (text : CString) : Option Int :=
  let (negative, s) := splitSign (text.dropWhile isSpace)
  let digits := s.takeWhile Char.isDigit
  let value : Int := if negative then -decimal digits else decimal digits
  if digits = [] ∨ value < -0x80000000 ∨ 0x7fffffff < value then none
  else if (s.dropWhile Char.isDigit).all isSpace then some value
  else none

/-- The text of the element at a path, and its number if the text is one. -/
def textAt (path : String) (cfg : Ptree) : Option CString := (cfg.walk (keys path)).map NamedTree.data

def intAt (path : String) (cfg : Ptree) : Option Int := (textAt path cfg).bind streamInt

/-! ## The global configuration -/

/-- A `const char *`: `NULL`, or the buffer of a string. -/
abbrev CharPtr := Option Nat

/-- The string fields of the first port of `port_cfgs`. -/
structure PortAddrs where
  addr : CharPtr
  broadcast : CharPtr
  gateway : CharPtr
  netmask : CharPtr

structure Dpdk where
  nbChannel : Int
  idleSleep : UInt32
  lcoreMask : CharPtr
  nbBond : Int
  nbVdev : Int
  numaOn : Int
  pktTxDelay : UInt32
  /-- `portid_list[0]`, if the array is allocated. -/
  portidList : Option UInt16
  promiscuous : Int
  symmetricRss : Int
  tso : Int
  txCsumOffoadSkip : Int
  vlanStrip : Int
  /-- `port_cfgs[0]`, if the array is allocated. -/
  portCfgs : Option PortAddrs

structure Freebsd where
  hz : Int
  fdReserve : Int

structure Pcap where
  enable : UInt16
  snapLen : UInt16
  saveLen : UInt32
  savePath : CharPtr

/-- The fields of `lazybsd_global` that `ptree2struct` writes. -/
structure Global where
  dpdk : Dpdk
  freebsd : Freebsd
  pcap : Pcap

/-- The process: the global configuration, and the live strings by the numbers of their buffers. -/
structure Process where
  config : Global
  strings : Nat → Option CString
  fresh : Nat

/-- The exceptions of the property tree library. -/
inductive Exception where
  /-- `ptree_bad_path`, with the path. -/
  | badPath (path : String)
  /-- `ptree_bad_data`, with the text. -/
  | badData (data : CString)
  /-- `xml_parser_error`, with its message. -/
  | xmlParser (message : CString)
  deriving DecidableEq

/-- Why a computation ends before its return. -/
inductive Stop where
  | exception (e : Exception)
  /-- A store through a null pointer. -/
  | fault
  deriving DecidableEq

/-- A computation of the process. A failure keeps what was stored before it. -/
abbrev Exec := EStateM Stop Process

/-! ## `ptree2struct` -/

/-- `cfg.get_child(path)`. -/
def getChild (cfg : Ptree) (path : String) : Exec Ptree :=
  match cfg.walk (keys path) with
  | none => throw (.exception (.badPath path))
  | some c => pure c

/-- `cfg.get<int>(path)`. -/
def getInt (cfg : Ptree) (path : String) : Exec Int := do
  let c ← getChild cfg path
  match streamInt c.data with
  | none => throw (.exception (.badData c.data))
  | some n => pure n

/-- `cfg.get<string>(path)`. -/
def getString (cfg : Ptree) (path : String) : Exec CString := do
  let c ← getChild cfg path
  return c.data

/-- Store to a field; a field of an array that is not allocated has no place. -/
def store (write : Global → Option Global) : Exec Unit := do
  let p ← get
  match write p.config with
  | none => throw .fault
  | some g => set { p with config := g }

/-- A new string, and its buffer. -/
def newString (text : CString) : Exec Nat := do
  let p ← get
  set { p with strings := Function.update p.strings p.fresh (some text), fresh := p.fresh + 1 }
  return p.fresh

/-- The destructor of a string. -/
def deleteString (buffer : Nat) : Exec Unit := do
  let p ← get
  set { p with strings := Function.update p.strings buffer none }

/-- `field = cfg.get<int>(path)`. -/
def assignInt (cfg : Ptree) (path : String) (write : Int → Global → Option Global) : Exec Unit := do
  let n ← getInt cfg path
  store (write n)

/-- `field = cfg.get<string>(path).c_str()`: the temporary lives to the end of the statement. -/
def assignString (cfg : Ptree) (path : String) (write : CharPtr → Global → Option Global) : Exec Unit := do
  let text ← getString cfg path
  let buffer ← newString text
  store (write (some buffer))
  deleteString buffer

def EXIT_SUCCESS : Int := 0

def EXIT_FAILURE : Int := 1

/-- A store to a field of `port_cfgs[0]`. -/
def Global.setPort (write : PortAddrs → PortAddrs) (g : Global) : Option Global :=
  match g.dpdk.portCfgs with
  | none => none
  | some port => some { g with dpdk.portCfgs := some (write port) }

def ptree2struct (cfg : Ptree) : Exec Int := do
  assignInt cfg "lazybsd.lazybsd_global_ptr()->dpdk.channel" fun n g =>
    some { g with dpdk.nbChannel := n }
  assignInt cfg "lazybsd.lazybsd_global_ptr()->dpdk.idle_sleep" fun n g =>
    some { g with dpdk.idleSleep := UInt32.ofInt n }
  assignString cfg "lazybsd.lazybsd_global_ptr()->dpdk.lcore_mask" fun s g =>
    some { g with dpdk.lcoreMask := s }
  assignInt cfg "lazybsd.lazybsd_global_ptr()->dpdk.nb_bond" fun n g =>
    some { g with dpdk.nbBond := n }
  assignInt cfg "lazybsd.lazybsd_global_ptr()->dpdk.nb_vdev" fun n g =>
    some { g with dpdk.nbVdev := n }
  assignInt cfg "lazybsd.lazybsd_global_ptr()->dpdk.numa_on" fun n g =>
    some { g with dpdk.numaOn := n }
  assignInt cfg "lazybsd.lazybsd_global_ptr()->dpdk.pkt_tx_delay" fun n g =>
    some { g with dpdk.pktTxDelay := UInt32.ofInt n }
  assignInt cfg "lazybsd.lazybsd_global_ptr()->dpdk.port_list" fun n g =>
    if g.dpdk.portidList.isSome then some { g with dpdk.portidList := some (UInt16.ofInt n) } else none
  assignInt cfg "lazybsd.lazybsd_global_ptr()->dpdk.promiscuous" fun n g =>
    some { g with dpdk.promiscuous := n }
  assignInt cfg "lazybsd.lazybsd_global_ptr()->dpdk.symmetric_rss" fun n g =>
    some { g with dpdk.symmetricRss := n }
  assignInt cfg "lazybsd.lazybsd_global_ptr()->dpdk.tso" fun n g =>
    some { g with dpdk.tso := n }
  assignInt cfg "lazybsd.lazybsd_global_ptr()->dpdk.tx_csum_offoad_skip" fun n g =>
    some { g with dpdk.txCsumOffoadSkip := n }
  assignInt cfg "lazybsd.lazybsd_global_ptr()->dpdk.vlan_strip" fun n g =>
    some { g with dpdk.vlanStrip := n }
  assignInt cfg "lazybsd.freebsd.hz" fun n g => some { g with freebsd.hz := n }
  assignInt cfg "lazybsd.freebsd.fd_reserve" fun n g => some { g with freebsd.fdReserve := n }
  assignInt cfg "lazybsd.pcap.enable" fun n g => some { g with pcap.enable := UInt16.ofInt n }
  assignInt cfg "lazybsd.pcap.savelen" fun n g => some { g with pcap.saveLen := UInt32.ofInt n }
  assignString cfg "lazybsd.pcap.savepath" fun s g => some { g with pcap.savePath := s }
  assignInt cfg "lazybsd.pcap.snaplen" fun n g => some { g with pcap.snapLen := UInt16.ofInt n }
  assignString cfg "lazybsd.port0.addr" fun s => Global.setPort fun port => { port with addr := s }
  assignString cfg "lazybsd.port0.broadcast" fun s =>
    Global.setPort fun port => { port with broadcast := s }
  assignString cfg "lazybsd.port0.gateway" fun s => Global.setPort fun port => { port with gateway := s }
  assignString cfg "lazybsd.port0.netmask" fun s => Global.setPort fun port => { port with netmask := s }
  return EXIT_SUCCESS

/-! ## The file and the fields -/

/-- A field that holds an integer: the path of its element in the file, and the range of its type. -/
structure IntField where
  path : String
  lo : Int
  hi : Int
  read : Global → Option Int

/-- A field that holds a string. -/
structure StringField where
  path : String
  read : Global → Option CharPtr

def intField (path : String) (read : Global → Int) : IntField :=
  ⟨path, -0x80000000, 0x7fffffff, fun g => some (read g)⟩

def unsignedField (path : String) (read : Global → UInt32) : IntField :=
  ⟨path, 0, 0xffffffff, fun g => some (read g).toNat⟩

def shortField (path : String) (read : Global → Option UInt16) : IntField :=
  ⟨path, 0, 0xffff, fun g => (read g).map fun n => (n.toNat : Int)⟩

def intFields : List IntField :=
  [intField "lazybsd.dpdk.channel" fun g => g.dpdk.nbChannel,
   unsignedField "lazybsd.dpdk.idle_sleep" fun g => g.dpdk.idleSleep,
   intField "lazybsd.dpdk.nb_bond" fun g => g.dpdk.nbBond,
   intField "lazybsd.dpdk.nb_vdev" fun g => g.dpdk.nbVdev,
   intField "lazybsd.dpdk.numa_on" fun g => g.dpdk.numaOn,
   unsignedField "lazybsd.dpdk.pkt_tx_delay" fun g => g.dpdk.pktTxDelay,
   shortField "lazybsd.dpdk.port_list" fun g => g.dpdk.portidList,
   intField "lazybsd.dpdk.promiscuous" fun g => g.dpdk.promiscuous,
   intField "lazybsd.dpdk.symmetric_rss" fun g => g.dpdk.symmetricRss,
   intField "lazybsd.dpdk.tso" fun g => g.dpdk.tso,
   intField "lazybsd.dpdk.tx_csum_offoad_skip" fun g => g.dpdk.txCsumOffoadSkip,
   intField "lazybsd.dpdk.vlan_strip" fun g => g.dpdk.vlanStrip,
   intField "lazybsd.freebsd.hz" fun g => g.freebsd.hz,
   intField "lazybsd.freebsd.fd_reserve" fun g => g.freebsd.fdReserve,
   shortField "lazybsd.pcap.enable" fun g => some g.pcap.enable,
   unsignedField "lazybsd.pcap.savelen" fun g => g.pcap.saveLen,
   shortField "lazybsd.pcap.snaplen" fun g => some g.pcap.snapLen]

def stringFields : List StringField :=
  [⟨"lazybsd.dpdk.lcore_mask", fun g => some g.dpdk.lcoreMask⟩,
   ⟨"lazybsd.pcap.savepath", fun g => some g.pcap.savePath⟩,
   ⟨"lazybsd.port0.addr", fun g => g.dpdk.portCfgs.map PortAddrs.addr⟩,
   ⟨"lazybsd.port0.broadcast", fun g => g.dpdk.portCfgs.map PortAddrs.broadcast⟩,
   ⟨"lazybsd.port0.gateway", fun g => g.dpdk.portCfgs.map PortAddrs.gateway⟩,
   ⟨"lazybsd.port0.netmask", fun g => g.dpdk.portCfgs.map PortAddrs.netmask⟩]

/-- A tree with the elements of the file: each integer in the range of its field, any text for the
strings. -/
structure Complete (cfg : Ptree) : Prop where
  ints : ∀ f ∈ intFields, (intAt f.path cfg).any fun n => f.lo ≤ n ∧ n ≤ f.hi
  strings : ∀ f ∈ stringFields, (textAt f.path cfg).isSome

/-- The two arrays of the ports are allocated. -/
structure PortsAllocated (g : Global) : Prop where
  portidList : g.dpdk.portidList.isSome
  portCfgs : g.dpdk.portCfgs.isSome

/-- Each field holds the value of its element, the strings in live memory. -/
structure Loaded (cfg : Ptree) (p : Process) : Prop where
  ints : ∀ f ∈ intFields, f.read p.config = intAt f.path cfg
  strings : ∀ f ∈ stringFields, ∃ text buffer, textAt f.path cfg = some text ∧
    f.read p.config = some (some buffer) ∧ p.strings buffer = some text

/-- `ptree2struct` returns `EXIT_SUCCESS` with the configuration loaded. -/
def Loads (cfg : Ptree) (p : Process) : Prop :=
  ∃ p', (ptree2struct cfg).run p = .ok EXIT_SUCCESS p' ∧ Loaded cfg p'

/-! ## What the statements do -/

section Statements

variable {cfg : Ptree} {path : String} {p p' : Process}

theorem getChild_run_error (h : cfg.walk (keys path) = none) :
    (getChild cfg path).run p = .error (.exception (.badPath path)) p := by
  rw [getChild, h]
  rfl

theorem getString_run_ok {text : CString} (h : (getString cfg path).run p = .ok text p') :
    textAt path cfg = some text ∧ p' = p := by
  rw [getString] at h
  obtain ⟨c, p₁, hchild, hdata⟩ := run_bind_ok h
  rw [getChild] at hchild
  cases hwalk : cfg.walk (keys path) with
  | none => simp only [hwalk, run_throw, reduceCtorEq] at hchild
  | some t =>
      simp only [hwalk, EStateM.run_pure, EStateM.Result.ok.injEq] at hchild hdata
      obtain ⟨rfl, rfl⟩ := hchild
      obtain ⟨rfl, rfl⟩ := hdata
      exact ⟨by rw [textAt, hwalk]; rfl, rfl⟩

theorem assignInt_run_error {write : Int → Global → Option Global} (h : cfg.walk (keys path) = none) :
    (assignInt cfg path write).run p = .error (.exception (.badPath path)) p :=
  run_bind_of_error (run_bind_of_error (getChild_run_error h))

theorem store_run_ok {write : Global → Option Global} {u : Unit} (h : (store write).run p = .ok u p') :
    ∃ g, write p.config = some g ∧ p' = { p with config := g } := by
  rw [store, run_bind_of_ok (EStateM.run_get p)] at h
  cases hwrite : write p.config with
  | none => simp only [hwrite, run_throw, reduceCtorEq] at h
  | some g =>
      simp only [hwrite, EStateM.run_set, EStateM.Result.ok.injEq, true_and] at h
      exact ⟨g, rfl, h.symm⟩

/-- **A string field outlives its string.** After the statement it points to a buffer that holds no string
any more. -/
theorem assignString_dangles {write : CharPtr → Global → Option Global} {u : Unit}
    (h : (assignString cfg path write).run p = .ok u p') :
    ∃ buffer, write (some buffer) p.config = some p'.config ∧ p'.strings buffer = none := by
  obtain ⟨text, p₁, hget, hrest⟩ := run_bind_ok h
  obtain ⟨-, rfl⟩ := getString_run_ok hget
  let p₂ : Process :=
    { p₁ with strings := Function.update p₁.strings p₁.fresh (some text), fresh := p₁.fresh + 1 }
  have hnew : (newString text).run p₁ = .ok p₁.fresh p₂ := rfl
  rw [run_bind_of_ok hnew] at hrest
  obtain ⟨_, p₃, hstore, hlast⟩ := run_bind_ok hrest
  obtain ⟨g, hwrite, rfl⟩ := store_run_ok hstore
  have hdelete : { p₂ with config := g, strings := Function.update p₂.strings p₁.fresh none } = p' :=
    (EStateM.Result.ok.inj hlast).2
  subst hdelete
  exact ⟨p₁.fresh, hwrite, Function.update_self _ _ _⟩

theorem setPort_eq_some {write : PortAddrs → PortAddrs} {g g' : Global} (h : g.setPort write = some g') :
    ∃ port, g'.dpdk.portCfgs = some (write port) := by
  rw [Global.setPort] at h
  split at h
  · cases h
  · exact ⟨_, by rw [← Option.some.inj h]⟩

end Statements

/-- A tree of the XML reader fails at the first statement, before anything is stored. -/
theorem ptree2struct_xml (cfg : XmlTree) (p : Process) :
    (ptree2struct cfg.tree).run p =
      .error (.exception (.badPath "lazybsd.lazybsd_global_ptr()->dpdk.channel")) p := by
  refine run_bind_of_error (assignInt_run_error ?_)
  have hkey : "lazybsd_global_ptr()->dpdk".toList ∈ keys "lazybsd.lazybsd_global_ptr()->dpdk.channel" := by
    decide
  exact NamedTree.walk_eq_none cfg.names hkey (by decide)

/-- **No configuration loads.** Where a run does return, its last statement has left the `netmask` of the
port without a string. -/
theorem no_configuration_loads (cfg : Ptree) (p : Process) : ¬ Loads cfg p := by
  rintro ⟨p', hrun, hloaded⟩
  rw [ptree2struct] at hrun
  iterate 22 obtain ⟨_, _, -, hrun⟩ := run_bind_ok hrun
  obtain ⟨_, p₁, hlast, hreturn⟩ := run_bind_ok hrun
  obtain ⟨-, rfl⟩ := EStateM.Result.ok.inj hreturn
  obtain ⟨buffer, hport, hdead⟩ := assignString_dangles hlast
  obtain ⟨port, hwritten⟩ := setPort_eq_some hport
  have hmem : (⟨"lazybsd.port0.netmask", fun g => g.dpdk.portCfgs.map PortAddrs.netmask⟩ : StringField) ∈
      stringFields := List.mem_of_getElem? (i := 5) rfl
  obtain ⟨text, buffer', -, hfield, hlive⟩ := hloaded.strings _ hmem
  have hfield : p₁.config.dpdk.portCfgs.map PortAddrs.netmask = some (some buffer') := hfield
  rw [hwritten] at hfield
  obtain rfl : buffer = buffer' := Option.some.inj (Option.some.inj hfield)
  rw [hdead] at hlive
  cases hlive

/-! ## The file of the repository -/

/-- An element with the attribute `type="string"`. -/
def element (name text : String) : CString × Ptree :=
  (name.toList, .node text.toList
    [("<xmlattr>".toList, .node [] [("type".toList, .node "string".toList [])])])

/-- An element with the attribute `class="object"`: elements with texts, and more groups. -/
def group (name : String) (texts : List (String × String)) (groups : List (CString × Ptree)) :
    CString × Ptree :=
  (name.toList, .node []
    (("<xmlattr>".toList, .node [] [("class".toList, .node "object".toList [])]) ::
      texts.map (fun e => element e.1 e.2) ++ groups))

/-- `config.xml`, without the blanks between its elements. -/
def configXml : Ptree :=
  .node [] [("lazybsd".toList, .node [] [
    group "dpdk" [
      ("channel", "4"), ("idle_sleep", "0"), ("lcore_mask", "1"), ("nb_bond", "0"), ("nb_vdev", "0"),
      ("numa_on", "1"), ("pkt_tx_delay", "100"), ("port_list", "0"), ("promiscuous", "1"),
      ("symmetric_rss", "0"), ("tso", "0"), ("tx_csum_offoad_skip", "0"), ("vlan_strip", "1")] [],
    group "freebsd" [
      ("fd_reserve", "1024"), ("hz", "100")] [
      group "boot" [
        ("kern.features.inet6", "1"), ("kern.ipc.maxsockets", "262144"), ("kern.ncallout", "262144"),
        ("net.inet.tcp.syncache.bucketlimit", "100"), ("net.inet.tcp.syncache.hashsize", "4096"),
        ("net.inet.tcp.tcbhashsize", "65536")] [],
      group "sysctl" [
        ("kern.ipc.maxsockbuf", "16777216"), ("kern.ipc.somaxconn", "32768"),
        ("net.add_addr_allfibs", "1"), ("net.inet.ip.forwarding", "0"), ("net.inet.ip.redirect", "0"),
        ("net.inet.tcp.blackhole", "1"), ("net.inet.tcp.cc.algorithm", "cubic"),
        ("net.inet.tcp.delayed_ack", "1"), ("net.inet.tcp.fast_finwait2_recycle", "1"),
        ("net.inet.tcp.functions_default", "freebsd"), ("net.inet.tcp.hpts.maxsleep", "51200"),
        ("net.inet.tcp.hpts.minsleep", "250"), ("net.inet.tcp.hpts.skip_swi", "1"),
        ("net.inet.tcp.msl", "2000"), ("net.inet.tcp.recvbuf_auto", "1"),
        ("net.inet.tcp.recvbuf_max", "16777216"), ("net.inet.tcp.recvspace", "8192"),
        ("net.inet.tcp.rfc1323", "1"), ("net.inet.tcp.sack.enable", "1"),
        ("net.inet.tcp.sendbuf_auto", "1"), ("net.inet.tcp.sendbuf_inc", "16384"),
        ("net.inet.tcp.sendbuf_max", "16777216"), ("net.inet.tcp.sendspace", "16384"),
        ("net.inet.udp.blackhole", "1"), ("net.inet6.icmp6.rediraccept", "1"),
        ("net.inet6.ip6.accept_rtadv", "2"), ("net.inet6.ip6.auto_linklocal", "1"),
        ("net.inet6.ip6.forwarding", "0"), ("net.link.ether.inet.maxhold", "5")] []],
    group "pcap" [
      ("enable", "0"), ("savelen", "16777216"), ("savepath", "."), ("snaplen", "96")] [],
    group "port0" [
      ("addr", "192.168.1.2"), ("broadcast", "192.168.1.255"), ("gateway", "192.168.1.1"),
      ("netmask", "255.255.255.0")] []])]

/-- A process with the arrays of the ports and nothing configured. -/
def emptyProcess : Process where
  config :=
    { dpdk :=
        { nbChannel := 0, idleSleep := 0, lcoreMask := none, nbBond := 0, nbVdev := 0, numaOn := 0,
          pktTxDelay := 0, portidList := some 0, promiscuous := 0, symmetricRss := 0, tso := 0,
          txCsumOffoadSkip := 0, vlanStrip := 0, portCfgs := some ⟨none, none, none, none⟩ }
      freebsd := { hz := 0, fdReserve := 0 }
      pcap := { enable := 0, snapLen := 0, saveLen := 0, savePath := none } }
  strings := fun _ => none
  fresh := 0

theorem complete_configXml : Complete configXml where
  ints := by decide +kernel
  strings := by decide +kernel

/-- The file of the repository is complete, and its load ends in an exception at the first statement. -/
theorem config_xml_not_loaded :
    configXml.keysAll isXmlName ∧ Complete configXml ∧ PortsAllocated emptyProcess.config ∧
      (ptree2struct configXml).run emptyProcess =
        .error (.exception (.badPath "lazybsd.lazybsd_global_ptr()->dpdk.channel")) emptyProcess ∧
      ¬ Loads configXml emptyProcess := by
  have hnames : configXml.keysAll isXmlName := by decide +kernel
  have hrun := ptree2struct_xml ⟨configXml, hnames⟩ emptyProcess
  refine ⟨hnames, complete_configXml, ⟨rfl, rfl⟩, hrun, ?_⟩
  rintro ⟨p', hload, -⟩
  rw [hrun] at hload
  cases hload

end LazyBsd.Config
