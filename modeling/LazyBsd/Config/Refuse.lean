/-
# LazyBsd.Config.Refuse — `config::loadFile` and `config::loadString` of `lazybsd_cfg.cc`.

Both read a tree and hand it to `ptree2struct`. `parserString` catches what the reader throws, `parserFile`
does not, and neither caller catches what `ptree2struct` throws. Since no tree of the reader passes
`ptree2struct` (`ptree2struct_xml`), the answer of a load is decided before it: by the reader on a string,
by the suffix of its name on a file.
-/
import LazyBsd.Config.Struct

namespace LazyBsd.Config

open Lib
open LazyBsd.Filter (CString)

/-! ## Reading -/

/-- What is outside: the XML reader on a text, with the message of its exception, and the files that can be
opened. -/
structure Outside where
  readXml : CString → Except CString XmlTree
  files : CString → Option CString

/-- `read_xml` of a stream. -/
def readXmlStream (out : Outside) (text : CString) : Exec XmlTree :=
  match out.readXml text with
  | .error message => throw (.exception (.xmlParser message))
  | .ok cfg => pure cfg

/-- `read_xml` of a file. -/
def readXmlFile (out : Outside) (fileName : CString) : Exec XmlTree :=
  match out.files fileName with
  | none => throw (.exception (.xmlParser "cannot open file".toList))
  | some text => readXmlStream out text

/-- `config::parserString`: its result, and the tree, which stays empty where the reader throws. -/
def parserString (out : Outside) (stream : CString) : Exec (Int × XmlTree) :=
  tryCatch (do
    let cfg ← readXmlStream out stream
    return (EXIT_SUCCESS, cfg))
  fun
    | .exception _ => return (EXIT_FAILURE, XmlTree.empty)
    | .fault => throw .fault

/-- `fileName.substr(fileName.rfind(".") + 1, ...)`: what follows the last dot, the whole name without
one. -/
def fileNameTag (fileName : CString) : CString := (fileName.reverse.takeWhile (· ≠ '.')).reverse

/-- `config::parserFile`. -/
def parserFile (out : Outside) (fileName : CString) : Exec (Int × XmlTree) :=
  if fileNameTag fileName = "xml".toList then do
    let cfg ← readXmlFile out fileName
    return (EXIT_SUCCESS, cfg)
  else return (EXIT_FAILURE, XmlTree.empty)

/-- What both loads do with a parsed tree. -/
def loadParsed (parsed : Int × XmlTree) : Exec Int := do
  if parsed.1 = EXIT_FAILURE then return EXIT_FAILURE
  let result ← ptree2struct parsed.2.tree
  if result = EXIT_FAILURE then return EXIT_FAILURE
  return EXIT_SUCCESS

/-- `config::loadFile`. -/
def loadFile (out : Outside) (fileName : CString) : Exec Int := parserFile out fileName >>= loadParsed

/-- `config::loadString`. -/
def loadString (out : Outside) (cfgString : CString) : Exec Int := parserString out cfgString >>= loadParsed

/-! ## Refusal -/

/-- The input is refused whole: `EXIT_FAILURE`, no exception, and the process as it was. -/
def RefusedWhole (load : Exec Int) (p : Process) : Prop := load.run p = .ok EXIT_FAILURE p

/-- The reader makes a tree of the text. -/
def WellFormed (out : Outside) (text : CString) : Prop := ∃ cfg, out.readXml text = .ok cfg

section Loads

variable {out : Outside} {fileName text : CString} {p : Process}

/-- The failure of every load that reaches `ptree2struct`. -/
def badChannel : Stop := .exception (.badPath "lazybsd.lazybsd_global_ptr()->dpdk.channel")

theorem loadParsed_success (cfg : XmlTree) :
    (loadParsed (EXIT_SUCCESS, cfg)).run p = .error badChannel p := by
  have hskip : loadParsed (EXIT_SUCCESS, cfg) =
      ptree2struct cfg.tree >>= fun result =>
        if result = EXIT_FAILURE then pure EXIT_FAILURE else pure EXIT_SUCCESS := rfl
  rw [hskip]
  exact run_bind_of_error (ptree2struct_xml cfg p)

theorem loadString_of_malformed {message : CString} (h : out.readXml text = .error message) :
    (loadString out text).run p = .ok EXIT_FAILURE p := by
  have hparse : (parserString out text).run p = .ok (EXIT_FAILURE, XmlTree.empty) p := by
    rw [parserString, readXmlStream, h]
    rfl
  exact run_bind_of_ok hparse

theorem loadString_of_wellFormed (h : WellFormed out text) :
    (loadString out text).run p = .error badChannel p := by
  obtain ⟨cfg, hread⟩ := h
  have hparse : (parserString out text).run p = .ok (EXIT_SUCCESS, cfg) p := by
    rw [parserString, readXmlStream, hread]
    rfl
  rw [loadString, run_bind_of_ok hparse]
  exact loadParsed_success cfg

variable (out p) in
/-- A file of another suffix is not even opened. -/
theorem loadFile_of_tag_ne (h : fileNameTag fileName ≠ "xml".toList) :
    (loadFile out fileName).run p = .ok EXIT_FAILURE p := by
  rw [loadFile, parserFile, if_neg h]
  rfl

variable (out p) in
/-- An `xml` file ends in an exception: of the reader, or of `ptree2struct`. -/
theorem loadFile_of_tag_eq (h : fileNameTag fileName = "xml".toList) :
    ∃ e, (loadFile out fileName).run p = .error (.exception e) p ∧
      ∀ text, out.files fileName = some text →
        (WellFormed out text ↔ (.exception e : Stop) = badChannel) := by
  rw [loadFile, parserFile, if_pos h]
  cases hfile : out.files fileName with
  | none =>
      have hread : (readXmlFile out fileName).run p =
          .error (.exception (.xmlParser "cannot open file".toList)) p := by
        rw [readXmlFile, hfile]
        rfl
      refine ⟨_, run_bind_of_error (run_bind_of_error hread), ?_⟩
      intro text htext
      cases htext
  | some text =>
      have hread : (readXmlFile out fileName).run p = (readXmlStream out text).run p := by
        rw [readXmlFile, hfile]
      cases hxml : out.readXml text with
      | error message =>
          have herror : (readXmlFile out fileName).run p = .error (.exception (.xmlParser message)) p := by
            rw [hread, readXmlStream, hxml]
            rfl
          refine ⟨_, run_bind_of_error (run_bind_of_error herror), ?_⟩
          rintro text' ⟨rfl⟩
          have hbad : ¬ WellFormed out text := by
            rintro ⟨cfg, hok⟩
            rw [hxml] at hok
            cases hok
          simp [hbad, badChannel]
      | ok cfg =>
          have hok : (readXmlFile out fileName).run p = .ok cfg p := by
            rw [hread, readXmlStream, hxml]
            rfl
          refine ⟨.badPath "lazybsd.lazybsd_global_ptr()->dpdk.channel", ?_, ?_⟩
          · rw [run_bind_of_ok (a := (EXIT_SUCCESS, cfg)) (by rw [run_bind_of_ok hok]; rfl)]
            exact loadParsed_success cfg
          · rintro text' ⟨rfl⟩
            exact iff_of_true ⟨cfg, hxml⟩ rfl

theorem not_wellFormed_iff : ¬ WellFormed out text ↔ ∃ message, out.readXml text = .error message := by
  rw [WellFormed]
  cases out.readXml text <;> simp

theorem not_refused_of_error {load : Exec Int} {e : Stop} (h : load.run p = .error e p) :
    ¬ RefusedWhole load p := by
  intro hrefused
  rw [RefusedWhole, h] at hrefused
  cases hrefused

end Loads

/-- **When a load refuses.** `loadString` refuses exactly the texts that the reader refuses, `loadFile`
exactly the names that do not end in `xml`, and on a file with that text the two do the same exactly if the
text is well formed and the name ends in `xml`, or neither. -/
theorem refused_whole_iff (out : Outside) (fileName text : CString) (p : Process) :
    (RefusedWhole (loadString out text) p ↔ ¬ WellFormed out text) ∧
      (RefusedWhole (loadFile out fileName) p ↔ fileNameTag fileName ≠ "xml".toList) ∧
      (out.files fileName = some text →
        ((loadFile out fileName).run p = (loadString out text).run p ↔
          (fileNameTag fileName = "xml".toList ↔ WellFormed out text))) := by
  have hstring : RefusedWhole (loadString out text) p ↔ ¬ WellFormed out text := by
    refine ⟨fun h hwell => not_refused_of_error (loadString_of_wellFormed hwell) h, fun h => ?_⟩
    obtain ⟨message, herror⟩ := not_wellFormed_iff.mp h
    exact loadString_of_malformed herror
  by_cases htag : fileNameTag fileName = "xml".toList
  · obtain ⟨e, hfile, hwell⟩ := loadFile_of_tag_eq out p htag
    refine ⟨hstring, iff_of_false (not_refused_of_error hfile) (not_not.mpr htag), fun htext => ?_⟩
    rw [hfile, iff_true_left htag]
    constructor
    · intro hsame
      by_contra hbad
      rw [hstring.mpr hbad] at hsame
      cases hsame
    · intro h
      rw [loadString_of_wellFormed h, (hwell text htext).mp h]
  · have hfile := loadFile_of_tag_ne out p htag
    refine ⟨hstring, iff_of_true hfile htag, fun _ => ?_⟩
    rw [hfile, iff_false_left htag]
    exact eq_comm.trans hstring

/-- A reader that knows one text, and a file with half of it. -/
def sampleOutside : Outside where
  readXml text :=
    if text = "<lazybsd/>".toList then .ok ⟨.node [] [("lazybsd".toList, .node [] [])], rfl⟩
    else .error "expected element name".toList
  files fileName := if fileName = "lazybsd.xml".toList then some "<".toList else none

/-- A text without the keys and an `xml` file without an element: both loads let an exception escape. -/
theorem exceptions_escape :
    ¬ RefusedWhole (loadString sampleOutside "<lazybsd/>".toList) emptyProcess ∧
      ¬ RefusedWhole (loadFile sampleOutside "lazybsd.xml".toList) emptyProcess := by
  have hwell : WellFormed sampleOutside "<lazybsd/>".toList := ⟨_, rfl⟩
  have htag : fileNameTag "lazybsd.xml".toList = "xml".toList := by decide
  obtain ⟨e, hfile, -⟩ := loadFile_of_tag_eq sampleOutside emptyProcess htag
  exact ⟨not_refused_of_error (loadString_of_wellFormed hwell), not_refused_of_error hfile⟩

end LazyBsd.Config
