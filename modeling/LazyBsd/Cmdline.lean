/-
# LazyBsd.Cmdline — `cmdline::parse` of `lazybsd_cmdline.cc`.

The option library splits the arguments into options with their tokens and stores each option once, in the
type that the description gives it. `parse` then copies the stored options to the fields of a value, one
after the other. The map of the stored options is characterised by membership (`store_eq_some`), so it does
not depend on the order of the options, and neither does anything that is read from it.

The argument of `--script` goes to `config_file`, and no statement writes `script_file`; what is proved about
these two fields is about command lines without that option.
-/
import LazyBsd.Config.Struct

namespace LazyBsd.Cmdline

open LazyBsd.Filter (CString decimal)
open Config (splitSign)

/-! ## Options -/

/-- The options of the description. -/
inductive OptionName where
  | config
  | script
  | procId
  | procType
  | help
  | version
  | debug
  deriving DecidableEq, Repr

/-- The type of an option's argument. -/
abbrev OptionName.Arg : OptionName → Type
  | config | script | procType => CString
  | procId => Int
  | help | version | debug => Unit

/-- An option as the parser leaves it; a positional argument has no name. -/
structure Parsed where
  name : Option OptionName
  tokens : List CString

/-- The exceptions of the option library. -/
inductive OptionError where
  /-- One of `parse_command_line`, with its message. -/
  | parser (message : CString)
  | multipleOccurrences (o : OptionName)
  | multipleValuesNotAllowed (o : OptionName)
  | atLeastOneValueRequired (o : OptionName)
  | invalidOptionValue (o : OptionName) (text : CString)
  deriving DecidableEq

/-- `parse_command_line`, on the arguments behind the name of the program. -/
abbrev Parser := List CString → Except OptionError (List Parsed)

/-- `lexical_cast<int32_t>`. -/
def lexicalCast (text : CString) : Option Int :=
  let (negative, digits) := splitSign text
  let value : Int := if negative then -decimal digits else decimal digits
  if digits = [] ∨ !digits.all Char.isDigit ∨ value < -0x80000000 ∨ 0x7fffffff < value then none
  else some value

/-- The one token of an option that takes an argument. -/
def singleString (o : OptionName) : List CString → Except OptionError CString
  | [] => .error (.atLeastOneValueRequired o)
  | [text] => .ok text
  | _ => .error (.multipleValuesNotAllowed o)

/-- An option that takes none. -/
def noValue (o : OptionName) (tokens : List CString) : Except OptionError Unit :=
  if 1 < tokens.length then .error (.multipleValuesNotAllowed o) else .ok ()

def validateInt (o : OptionName) (text : CString) : Except OptionError Int :=
  match lexicalCast text with
  | none => .error (.invalidOptionValue o text)
  | some n => .ok n

/-- The tokens in the type of the option. -/
def validate (tokens : List CString) : (o : OptionName) → Except OptionError o.Arg
  | .config => singleString .config tokens
  | .script => singleString .script tokens
  | .procId => (singleString .procId tokens).bind (validateInt .procId)
  | .procType => singleString .procType tokens
  | .help => noValue .help tokens
  | .version => noValue .version tokens
  | .debug => noValue .debug tokens

/-- A `variables_map`: the stored options. -/
abbrev VariablesMap := (o : OptionName) → Option o.Arg

def VariablesMap.empty : VariablesMap := fun _ => none

/-- `store`: each option at most once. -/
def store : List Parsed → VariablesMap → Except OptionError VariablesMap
  | [], vm => .ok vm
  | ⟨none, _⟩ :: ps, vm => store ps vm
  | ⟨some o, tokens⟩ :: ps, vm =>
      if (vm o).isSome then .error (.multipleOccurrences o)
      else
        match validate tokens o with
        | .error e => .error e
        | .ok a => store ps (Function.update vm o (some a))

/-! ## `parse` -/

/-- `lazybsd_value`. -/
structure LazybsdValue where
  debug : Bool
  configFile : CString
  scriptFile : CString
  procId : Int
  procType : CString
  deriving DecidableEq

/-- `lazybsd_value value = { false }`. -/
def LazybsdValue.default : LazybsdValue := ⟨false, [], [], 0, []⟩

/-- What `parse` prints where it returns `std::nullopt`. -/
inductive Printed where
  | usage
  | version
  | error (e : OptionError)
  deriving DecidableEq

/-- `if (variables_map.count(...) != 0)`: the assignment from a stored option. -/
def assign {α : Type} (stored : Option α) (write : α → LazybsdValue → LazybsdValue) (value : LazybsdValue) :
    LazybsdValue :=
  match stored with
  | none => value
  | some a => write a value

/-- The rest of `parse` behind `notify`, for `argc` arguments. -/
def readMap (argc : Nat) (vm : VariablesMap) : Except Printed LazybsdValue :=
  if argc = 1 then .error .usage
  else
    let value := LazybsdValue.default
    let value := assign (vm .config) (fun text value => { value with configFile := text }) value
    let value := assign (vm .script) (fun text value => { value with configFile := text }) value
    let value := assign (vm .procId) (fun n value => { value with procId := n }) value
    let value := assign (vm .procType) (fun text value => { value with procType := text }) value
    if (vm .help).isSome then .error .usage
    else if (vm .version).isSome then .error .version
    else .ok (assign (vm .debug) (fun _ value => { value with debug := true }) value)

/-- `parse`, with the arguments behind the name of the program: the value, or what is printed. -/
def parse (parseCommandLine : Parser) (args : List CString) : Except Printed LazybsdValue :=
  match (parseCommandLine args).bind fun options => store options VariablesMap.empty with
  | .error e => .error (.error e)
  | .ok vm => readMap (args.length + 1) vm

/-! ## The stored options -/

section Stored

variable {ps ps' : List Parsed} {vm vm' : VariablesMap} {o : OptionName} {a : o.Arg}

/-- The option is given, with the argument `a`. -/
def Given (ps : List Parsed) (o : OptionName) (a : o.Arg) : Prop :=
  ∃ p ∈ ps, p.name = some o ∧ validate p.tokens o = .ok a

theorem given_cons {name : Option OptionName} {tokens : List CString} :
    Given (⟨name, tokens⟩ :: ps) o a ↔ name = some o ∧ validate tokens o = .ok a ∨ Given ps o a := by
  simp [Given]

/-- What the map holds is what it held before and what was given. -/
theorem store_eq_some (h : store ps vm = .ok vm') : vm' o = some a ↔ vm o = some a ∨ Given ps o a := by
  induction ps generalizing vm with
  | nil =>
      obtain rfl := Except.ok.inj h
      simp [Given]
  | cons p ps ih =>
      obtain ⟨name, tokens⟩ := p
      rw [given_cons]
      cases name with
      | none =>
          rw [store] at h
          simp [ih h]
      | some o' =>
          rw [store] at h
          split at h
          · cases h
          · next hnew =>
              cases hvalid : validate tokens o' with
              | error e => simp only [hvalid, reduceCtorEq] at h
              | ok a' =>
                  simp only [hvalid] at h
                  rw [ih h]
                  by_cases ho : o' = o
                  · subst ho
                    have hnone : vm o' = none := by simpa using hnew
                    rw [Function.update_self, hnone, hvalid]
                    simp
                  · rw [Function.update_of_ne (Ne.symm ho)]
                    simp [ho]

/-- The map of the options that are given. -/
theorem store_empty_eq_some (h : store ps VariablesMap.empty = .ok vm) : vm o = some a ↔ Given ps o a := by
  rw [store_eq_some h]
  exact or_iff_right (by simp [VariablesMap.empty])

theorem store_empty_eq_none (h : store ps VariablesMap.empty = .ok vm) : vm o = none ↔ ¬ ∃ a, Given ps o a := by
  simp only [← store_empty_eq_some h, ← Option.isSome_iff_exists, Option.not_isSome_iff_eq_none]

/-- An option is stored the same way from two lists that give it the same way. -/
theorem store_congr (h : store ps VariablesMap.empty = .ok vm) (h' : store ps' VariablesMap.empty = .ok vm')
    (hsame : ∀ a, Given ps o a ↔ Given ps' o a) : vm o = vm' o := by
  refine Option.ext fun a => ?_
  rw [store_empty_eq_some h, store_empty_eq_some h', hsame]

theorem given_perm (hperm : ps.Perm ps') : Given ps o a ↔ Given ps' o a := by
  simp only [Given, hperm.mem_iff]

end Stored

/-! ## Independent options -/

/-- A command line that the option parser accepts. -/
def Accepted (parseCommandLine : Parser) (args : List CString) (ps : List Parsed) : Prop :=
  parseCommandLine args = .ok ps ∧ ∃ vm, store ps VariablesMap.empty = .ok vm

/-- Without `--help` and `--version`. -/
def Plain (ps : List Parsed) : Prop := ∀ a, ¬ Given ps .help a ∧ ¬ Given ps .version a

/-- A field holds the argument of its option if that is given, and its default otherwise. -/
def Own {β : Type} (ps : List Parsed) (o : OptionName) (ofArg : o.Arg → β) (default field : β) : Prop :=
  (∀ a, Given ps o a → field = ofArg a) ∧ ((¬ ∃ a, Given ps o a) → field = default)

/-- The fields hold their own arguments. Where `--script` is not given, `config_file` does too, and
`script_file` holds its default. -/
structure OwnFields (ps : List Parsed) (value : LazybsdValue) : Prop where
  procId : Own ps .procId id 0 value.procId
  procType : Own ps .procType id [] value.procType
  debug : Own ps .debug (fun _ => true) false value.debug
  configFile : (¬ ∃ text, Given ps .script text) → Own ps .config id [] value.configFile
  scriptFile : (¬ ∃ text, Given ps .script text) → value.scriptFile = LazybsdValue.default.scriptFile

/-- The fields of the options other than `o` are the same. -/
structure SameOthers (o : OptionName) (value value' : LazybsdValue) : Prop where
  procId : o ≠ .procId → value.procId = value'.procId
  procType : o ≠ .procType → value.procType = value'.procType
  debug : o ≠ .debug → value.debug = value'.debug
  /-- `config_file`, apart from what `--script` does to it. -/
  configFile : o ≠ .config → o ≠ .script → value.configFile = value'.configFile
  scriptFile : o ≠ .script → value.scriptFile = value'.scriptFile

section Independent

variable {parseCommandLine : Parser} {args : List CString} {ps ps' : List Parsed} {vm vm' : VariablesMap}
  {o : OptionName}

theorem parse_of_accepted (hparse : parseCommandLine args = .ok ps)
    (hstore : store ps VariablesMap.empty = .ok vm) :
    parse parseCommandLine args = readMap (args.length + 1) vm := by
  simp only [parse, hparse, Except.bind, hstore]

/-- The value that a map without `--help` and `--version` is read to. -/
def valueOf (vm : VariablesMap) : LazybsdValue where
  debug := (vm .debug).isSome
  configFile := ((vm .script).or (vm .config)).getD []
  scriptFile := []
  procId := (vm .procId).getD 0
  procType := (vm .procType).getD []

theorem readMap_plain {argc : Nat} (hargc : argc ≠ 1) (hhelp : vm .help = none) (hversion : vm .version = none) :
    readMap argc vm = .ok (valueOf vm) := by
  rw [readMap, if_neg hargc]
  simp only [hhelp, hversion, Option.isSome_none, Bool.false_eq_true, if_false]
  cases hconfig : vm .config <;> cases hscript : vm .script <;> cases hid : vm .procId <;>
    cases htype : vm .procType <;> cases hdebug : vm .debug <;>
    simp [assign, valueOf, hconfig, hscript, hid, htype, hdebug, LazybsdValue.default]

theorem own_getD {d : o.Arg} (hstore : store ps VariablesMap.empty = .ok vm) :
    Own ps o id d ((vm o).getD d) := by
  refine ⟨fun a ha => ?_, fun hnone => ?_⟩
  · rw [(store_empty_eq_some hstore).mpr ha]
    rfl
  · rw [(store_empty_eq_none hstore).mpr hnone]
    rfl

theorem ownFields_valueOf (hstore : store ps VariablesMap.empty = .ok vm) : OwnFields ps (valueOf vm) where
  procId := own_getD hstore
  procType := own_getD hstore
  debug := by
    refine ⟨fun a ha => ?_, fun hnone => ?_⟩
    · rw [valueOf, (store_empty_eq_some hstore).mpr ha]
      rfl
    · rw [valueOf, (store_empty_eq_none hstore).mpr hnone]
      rfl
  configFile hscript := by
    have hnone : vm .script = none := (store_empty_eq_none hstore).mpr hscript
    have hfield : (valueOf vm).configFile = (vm .config).getD [] := by rw [valueOf, hnone]; rfl
    rw [hfield]
    exact own_getD hstore
  scriptFile _ := rfl

theorem sameOthers_valueOf (h : ∀ o' ≠ o, vm o' = vm' o') : SameOthers o (valueOf vm) (valueOf vm') where
  procId ho := by rw [valueOf, valueOf, h .procId ho.symm]
  procType ho := by rw [valueOf, valueOf, h .procType ho.symm]
  debug ho := by rw [valueOf, valueOf, h .debug ho.symm]
  configFile hconfig hscript := by rw [valueOf, valueOf, h .config hconfig.symm, h .script hscript.symm]
  scriptFile _ := rfl

theorem parse_plain (hparse : parseCommandLine args = .ok ps) (hstore : store ps VariablesMap.empty = .ok vm)
    (hplain : Plain ps) (hargs : args ≠ []) : parse parseCommandLine args = .ok (valueOf vm) := by
  have hargc : args.length + 1 ≠ 1 := by simpa using hargs
  rw [parse_of_accepted hparse hstore]
  refine readMap_plain hargc ?_ ?_
  · exact (store_empty_eq_none hstore).mpr fun ⟨a, ha⟩ => (hplain a).1 ha
  · exact (store_empty_eq_none hstore).mpr fun ⟨a, ha⟩ => (hplain a).2 ha

end Independent

/-- **The options are independent.** With at least one argument, an accepted command line without `--help`
and `--version` gives a value whose fields hold their own arguments; a command line that differs in one
option, or in the order only, gives a value that differs in that option's field, or not at all. Without an
argument the usage is printed. -/
theorem options_independent {parseCommandLine : Parser} {args : List CString} {ps : List Parsed}
    (hacc : Accepted parseCommandLine args ps) (hplain : Plain ps) :
    (args = [] → parse parseCommandLine args = .error .usage) ∧
      (args ≠ [] → ∃ value, parse parseCommandLine args = .ok value ∧ OwnFields ps value ∧
        ∀ args' ps', Accepted parseCommandLine args' ps' → Plain ps' → args' ≠ [] →
          ∃ value', parse parseCommandLine args' = .ok value' ∧ (ps.Perm ps' → value = value') ∧
            ∀ o, (∀ o' ≠ o, ∀ a, Given ps o' a ↔ Given ps' o' a) → SameOthers o value value') := by
  obtain ⟨hparse, vm, hstore⟩ := hacc
  constructor
  · rintro rfl
    rw [parse_of_accepted hparse hstore]
    exact if_pos rfl
  · intro hargs
    refine ⟨_, parse_plain hparse hstore hplain hargs, ownFields_valueOf hstore, ?_⟩
    rintro args' ps' ⟨hparse', vm', hstore'⟩ hplain' hargs'
    refine ⟨_, parse_plain hparse' hstore' hplain' hargs', fun hperm => ?_, fun o hsame => ?_⟩
    · have hmap : vm = vm' := funext fun o => store_congr hstore hstore' fun a => given_perm hperm
      rw [hmap]
    · exact sameOthers_valueOf fun o' ho => store_congr hstore hstore' (hsame o' ho)

/-- Three command lines as the option library splits them: none, `-c a.xml -p 7`, and the other order. -/
def sampleParser : Parser := fun args =>
  let config : Parsed := ⟨some .config, ["a.xml".toList]⟩
  let procId : Parsed := ⟨some .procId, ["7".toList]⟩
  if args = [] then .ok []
  else if args = ["-c".toList, "a.xml".toList, "-p".toList, "7".toList] then .ok [config, procId]
  else if args = ["-p".toList, "7".toList, "-c".toList, "a.xml".toList] then .ok [procId, config]
  else .error (.parser "unrecognised option".toList)

theorem options_independent_config_procId :
    ∃ value, parse sampleParser ["-c".toList, "a.xml".toList, "-p".toList, "7".toList] = .ok value ∧
      OwnFields [⟨some .config, ["a.xml".toList]⟩, ⟨some .procId, ["7".toList]⟩] value := by
  have hacc : Accepted sampleParser ["-c".toList, "a.xml".toList, "-p".toList, "7".toList]
      [⟨some .config, ["a.xml".toList]⟩, ⟨some .procId, ["7".toList]⟩] := ⟨rfl, _, rfl⟩
  have hplain : Plain [⟨some .config, ["a.xml".toList]⟩, ⟨some .procId, ["7".toList]⟩] := by
    intro a
    simp [Given]
  obtain ⟨value, hparse, hown, -⟩ := (options_independent hacc hplain).2 (by simp)
  exact ⟨value, hparse, hown⟩

/-- Without an argument the parser accepts the command line, and `parse` returns no value. -/
theorem no_arguments_no_value :
    Accepted sampleParser [] [] ∧ Plain [] ∧ ¬ ∃ value, parse sampleParser [] = .ok value := by
  refine ⟨⟨rfl, _, rfl⟩, fun a => by simp [Given], ?_⟩
  rintro ⟨value, hvalue⟩
  have husage : parse sampleParser [] = .error .usage := rfl
  rw [husage] at hvalue
  cases hvalue

end LazyBsd.Cmdline
