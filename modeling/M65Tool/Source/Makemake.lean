import Mathlib.Data.List.Sort

/-!
# The makefile generator

Source: scripts/makemake.py:54-428. A render function returns the definitions that it
writes, in their order: assignments of list variables and rules, with the names in them
kept apart from other text. What they come to in the file is in MakefileText, with the
fragments module.mk and project.mk.
-/
namespace M65Tool.Source.Makemake

/-! ## Strings and paths -/

def startswith (s start : String) : Bool := start.toList.isPrefixOf s.toList

def endswith (s ending : String) : Bool := ending.toList.isSuffixOf s.toList

/-- `s.split(' ')`. -/
def splitSpaces (s : String) : List String := (s.toList.splitOn ' ').map String.ofList

/-- `os.path.join` of two paths. -/
def pathJoin (a b : String) : String :=
  if startswith b "/" then b
  else if a = "" ∨ endswith a "/" then a ++ b
  else a ++ "/" ++ b

/-- An f-string's text for a value that may be None. -/
def formatted (value : Option String) : String := value.getD "None"

/-- `sep.join(texts)`. -/
def joined (sep : String) (texts : List String) : String := sep.intercalate texts

/-! ## The modules -/

/-- What `cfg.get('module', option, fallback=None)` returns for the options; the section is
absent only where none of them has a value. -/
structure Cfg where
  program : Option String
  library : Option String
  deps : Option String
  deriving DecidableEq, Repr

inductive CfgFile where
  /-- a `configparser.Error` with this message -/
  | invalid (message : String)
  | parsed (cfg : Cfg)
  deriving DecidableEq, Repr

/-- An entry of the source directory. -/
structure SrcItem where
  name : String
  /-- its module.cfg, if there is one -/
  cfg : Option CfgFile
  /-- the names of its files -/
  items : List String
  deriving DecidableEq, Repr

/-- The files that are read. -/
structure Tree where
  rootDir : String
  src : List SrcItem
  /-- the names of the files in a directory of the tests, if there is one -/
  tests : String → Option (List String)
  distinct : (src.map SrcItem.name).Nodup
  /-- `os.listdir` gives names, not paths -/
  names : ∀ item ∈ src, item.name ≠ "" ∧ '/' ∉ item.name.toList ∧
    ∀ file ∈ item.items, '/' ∉ file.toList
  no_slash : ∀ name items, tests name = some items → ∀ item ∈ items, '/' ∉ item.toList

/-- The message of `file_error`, which exits. -/
structure FileError where
  fname : String
  message : String
  deriving DecidableEq, Repr

def moduleConfigFname : String := "module.cfg"

namespace Tree

def srcDir (tree : Tree) : String := pathJoin tree.rootDir "src"

def testsDir (tree : Tree) : String := pathJoin tree.rootDir "tests"

end Tree

/-- The module that an entry of the source directory is, if it is one. -/
def itemConfig (srcDir : String) (item : SrcItem) : Except FileError (Option (SrcItem × Cfg)) :=
  let pth := pathJoin (pathJoin srcDir item.name) moduleConfigFname
  match item.cfg with
  | none => pure none
  | some (.invalid message) => throw ⟨pth, "Invalid configuration file: " ++ message⟩
  | some (.parsed cfg) =>
    if cfg.program = none ∧ cfg.library = none then
      throw ⟨pth, "Must specify either program or library"⟩
    else pure (some (item, cfg))

/-- `get_module_config`: the entries that are modules, in the order in which they are
listed. -/
def getModuleConfig (srcDir : String) : List SrcItem → Except FileError (List (SrcItem × Cfg))
  | [] => pure []
  | item :: rest => do
    let found ← itemConfig srcDir item
    let others ← getModuleConfig srcDir rest
    pure (found.toList ++ others)

def getModuleSources (items : List String) : List String :=
  items.filter fun item => endswith item ".c" || endswith item ".h"

def getModuleTests (items : Option (List String)) : List String :=
  (items.getD []).filter fun item => startswith item "test_" && endswith item ".c"

structure Module where
  cfgpath : String
  name : String
  deps : List String
  sourceDir : String
  sources : List String
  testsDir : String
  tests : List String
  program : Option String
  library : Option String
  deriving DecidableEq, Repr

/-- makemake.py:207-231. -/
def buildModule (tree : Tree) (found : SrcItem × Cfg) : Module where
  cfgpath := pathJoin (pathJoin tree.srcDir found.1.name) moduleConfigFname
  name := found.1.name
  deps := (found.2.deps.map splitSpaces).getD []
  sourceDir := pathJoin tree.srcDir found.1.name
  sources := getModuleSources found.1.items
  testsDir := pathJoin tree.testsDir found.1.name
  tests := getModuleTests (tree.tests found.1.name)
  program := found.2.program
  library := found.2.library

/-- One round of makemake.py:236-240. The message has the path of the last module. -/
def checkDep (mods : List Module) (cfgpath dep : String) : Except FileError Unit :=
  match mods.find? fun mod => mod.name = dep with
  | none => throw ⟨cfgpath, "dep is not a module: " ++ dep⟩
  | some mod =>
    if mod.library = none then throw ⟨cfgpath, "dep is not a library: " ++ dep⟩ else pure ()

def checkDeps (mods : List Module) (cfgpath : String) : List String → Except FileError Unit
  | [] => pure ()
  | dep :: rest => do
    checkDep mods cfgpath dep
    checkDeps mods cfgpath rest

/-- The dictionary of the modules has them by their names. -/
def buildModules (tree : Tree) (modcfg : List (SrcItem × Cfg)) : Except FileError (List Module) := do
  let mods := modcfg.map (buildModule tree)
  let cfgpath := (mods.getLast?.map Module.cfgpath).getD ""
  checkDeps mods cfgpath (mods.flatMap Module.deps)
  pure mods

/-- What `main` has when it comes to the makefile. -/
def acceptedModules (tree : Tree) : Except FileError (List Module) := do
  let modcfg ← getModuleConfig tree.srcDir tree.src
  buildModules tree modcfg

/-! ## The parts of a makefile -/

/-- What stands in a list or a rule. -/
inductive Entry where
  | plain (text : String)
  /-- `lib{name}.la` -/
  | lib (name : String)
  | mockC (name : String)
  | mockH (name : String)
  /-- `tests/runners/{base}` -/
  | runner (base : String)
  | runnerC (base : String)
  /-- the object file of a test -/
  | object (testsDir base : String)
  deriving DecidableEq, Repr

/-- `path[2:] if path.startswith('./') else path`. -/
def withoutDot (path : String) : String :=
  if startswith path "./" then String.ofList (path.toList.drop 2) else path

def Entry.text : Entry → String
  | .plain text => text
  | .lib name => "lib" ++ name ++ ".la"
  | .mockC name => "tests/mocks/mock_" ++ name ++ ".c"
  | .mockH name => "tests/mocks/mock_" ++ name ++ ".h"
  | .runner base => "tests/runners/" ++ base
  | .runnerC base => "tests/runners/runner_" ++ base ++ ".c"
  | .object testsDir base =>
    withoutDot (testsDir ++ "/runners_" ++ base ++ "-" ++ base ++ ".$(OBJEXT)")

/-- `lib{name}_mock.la`. -/
def Entry.mockLib (name : String) : Entry := .lib (name ++ "_mock")

/-- What a variable belongs to. -/
inductive Stem where
  | program (name : String)
  | lib (name : String)
  | nodistLib (name : String)
  | runner (base : String)
  | nodistRunner (base : String)
  deriving DecidableEq, Repr

def Stem.text : Stem → String
  | .program name => name
  | .lib name => "lib" ++ name ++ "_la"
  | .nodistLib name => "nodist_lib" ++ name ++ "_la"
  | .runner base => "tests_runners_" ++ base
  | .nodistRunner base => "nodist_tests_runners_" ++ base

inductive VarKind where
  | sources
  | ldadd
  | libadd
  | cppflags
  deriving DecidableEq, Repr

def VarKind.text : VarKind → String
  | .sources => "_SOURCES"
  | .ldadd => "_LDADD"
  | .libadd => "_LIBADD"
  | .cppflags => "_CPPFLAGS"

inductive Var where
  | plain (name : String)
  | of (stem : Stem) (kind : VarKind)
  deriving DecidableEq, Repr

def Var.text : Var → String
  | .plain name => name
  | .of stem kind => stem.text ++ kind.text

inductive Part where
  | text (text : String)
  | listvar (name : Var) (vals : List Entry) (isConcat : Bool)
  /-- the prerequisites on the line of the targets, and the commands -/
  | rule (targets prerequisites : List Entry) (commands : String)
  /-- each prerequisite on a line of its own, and no commands -/
  | depends (target : Entry) (prerequisites : List Entry)
  deriving DecidableEq, Repr

def renderListvar (name : String) (vals : List String) (isConcat : Bool) : String :=
  if vals.length = 0 ∧ isConcat then ""
  else
    let op := if isConcat then "+=" else "="
    if vals.length = 0 then name ++ " " ++ op ++ "\n"
    else if vals.length = 1 then name ++ " " ++ op ++ " " ++ vals.headD "" ++ "\n"
    else name ++ " " ++ op ++ " \\\n    " ++ joined " \\\n    " vals ++ "\n"

def Part.toText : Part → String
  | .text written => written
  | .listvar name vals isConcat => renderListvar name.text (vals.map Entry.text) isConcat
  | .rule targets prerequisites commands =>
    joined " " (targets.map Entry.text) ++ ": " ++ joined " " (prerequisites.map Entry.text) ++
      "\n" ++ commands
  | .depends target prerequisites =>
    target.text ++ ": \\\n    " ++ joined " \\\n    " (prerequisites.map Entry.text) ++ "\n"

/-! ## What is the same in every makefile -/

def makefilePreamble : List Part := [
  .text "### GENERATED BY scripts/makemake.py - DO NOT EDIT\n\n",
  .listvar (.plain "ACLOCAL_AMFLAGS") [.plain "-I m4"] false,
  .text "\n",
  .listvar (.plain "AM_CPPFLAGS") [.plain "-I$(top_srcdir)", .plain "-I$(top_srcdir)/src",
    .plain "$(CODE_COVERAGE_CPPFLAGS)"] false,
  .text "\n",
  .listvar (.plain "AM_CFLAGS") [.plain "$(CODE_COVERAGE_CFLAGS)"] false,
  .text "\nif BUILD_LINUX\n",
  .listvar (.plain "AM_CPPFLAGS") [.plain "-DLINUX"] true,
  .text "endif\nif BUILD_WINDOWS\n",
  .listvar (.plain "AM_CPPFLAGS") [.plain "-DWINDOWS"] true,
  .text "endif\nif BUILD_APPLE\n",
  .listvar (.plain "AM_CPPFLAGS") [.plain "-DAPPLE"] true,
  .text "endif\n\n",
  .listvar (.plain "AM_LDFLAGS") [.plain "-pthread"] false,
  .text "\n",
  .listvar (.plain "CMOCK_CPPFLAGS") [
    .plain "-I$(top_srcdir)/third-party/CMock/vendor/unity/src",
    .plain "-I$(top_srcdir)/third-party/CMock/src", .plain "-Itests/mocks"] false,
  .text "\n",
  .listvar (.plain "bin_PROGRAMS") [] false,
  .listvar (.plain "noinst_LTLIBRARIES") [] false,
  .listvar (.plain "check_PROGRAMS") [] false,
  .listvar (.plain "check_LTLIBRARIES") [] false,
  .listvar (.plain "CLEANFILES") [] false,
  .listvar (.plain "BUILT_SOURCES") [] false,
  .text "\n",
  .listvar (.plain "check_LTLIBRARIES") [.lib "cmock"] true,
  .listvar (.of (.lib "cmock") .sources) [.plain "third-party/CMock/src/cmock.c",
    .plain "third-party/CMock/src/cmock.h", .plain "third-party/CMock/src/cmock_internals.h",
    .plain "third-party/CMock/vendor/unity/src/unity.c",
    .plain "third-party/CMock/vendor/unity/src/unity.h",
    .plain "third-party/CMock/vendor/unity/src/unity_internals.h"] false,
  .listvar (.of (.lib "cmock") .cppflags) [.plain "$(CMOCK_CPPFLAGS)"] false,
  .text "\n",
  .listvar (.plain "CLEANFILES") [.plain "tests/runners/runner_test_*.c"] true,
  .text "\n"]

def runnerGenerationCmds : String :=
  "\t@test -n \"$(RUBY)\" || \x7b echo \"\\nPlease install Ruby to run tests.\\n\"; exit 1; \x7d\n" ++
  "\tmkdir -p tests/runners\n" ++
  "\t$(RUBY) $(top_srcdir)/third-party/CMock/vendor/unity/auto/generate_test_runner.rb $< $@\n"

def mockGenerationCmds : String :=
  "\t@test -n \"$(RUBY)\" || \x7b echo \"\\nPlease install Ruby to run tests.\\n\"; exit 1; \x7d\n" ++
  "\tmkdir -p tests/mocks\n" ++
  "\tCMOCK_DIR=$(top_srcdir)/third-party/CMock \\\n" ++
  "\tMOCK_OUT=tests/mocks \\\n" ++
  "\t$(RUBY) $(top_srcdir)/third-party/CMock/scripts/create_mock.rb $<\n"

def makefilePostable : List Part := [
  .listvar (.plain "TESTS") [.plain "$(check_PROGRAMS)"] false,
  .text "\n",
  .listvar (.plain "EXTRA_DIST") [.plain "README.md", .plain "third-party/CMock/LICENSE.txt",
    .plain "third-party/CMock/README.md", .plain "third-party/CMock/config",
    .plain "third-party/CMock/lib", .plain "third-party/CMock/scripts",
    .plain "third-party/CMock/vendor/unity/LICENSE.txt",
    .plain "third-party/CMock/vendor/unity/README.md",
    .plain "third-party/CMock/vendor/unity/auto"] false,
  .text "\n# if CODE_COVERAGE_ENABLED\n",
  .text "include $(top_srcdir)/aminclude_static.am\n",
  .listvar (.plain "CODE_COVERAGE_DIRECTORY") [.plain "src tests"] false,
  .text "# endif # CODE_COVERAGE_ENABLED\n"]

/-! ## The parts of a module -/

/-- `if mod.program:`; an empty name is no program. -/
def Module.isProgram (mod : Module) : Bool := mod.program.any (· != "")

/-- The one error of the render functions: `'lib' + None`. -/
inductive PyError where
  | typeError
  deriving DecidableEq, Repr

/-- What a module's own variables begin with. -/
def ownStem (mod : Module) : Except PyError Stem :=
  if mod.isProgram then pure (.program (formatted mod.program))
  else
    match mod.library with
    | none => throw .typeError
    | some library => pure (.lib library)

def renderModuleSources (mod : Module) : Except PyError (List Part) := do
  let srcPths := mod.sources.map fun src => .plain (pathJoin mod.sourceDir src)
  let stem ← ownStem mod
  pure [.listvar (.of stem .sources) srcPths false]

def renderModuleDeps (mod : Module) : Except PyError (List Part) := do
  let depPths := mod.deps.map .lib
  let stem ← ownStem mod
  pure [.listvar (.of stem (if mod.isProgram then .ldadd else .libadd)) depPths false]

def renderMock (mod : Module) : List Part :=
  if mod.isProgram then []
  else
    let library := formatted mod.library
    [ .rule [.mockC mod.name, .mockH mod.name]
        [.plain (mod.sourceDir ++ "/" ++ mod.name ++ ".h")] mockGenerationCmds,
      .listvar (.plain "check_LTLIBRARIES") [.mockLib library] true,
      .listvar (.of (.nodistLib (library ++ "_mock")) .sources) [.mockC mod.name] false,
      .listvar (.of (.lib (library ++ "_mock")) .cppflags) [.plain "$(CMOCK_CPPFLAGS)",
        .plain "$(AM_CPPFLAGS)", .plain ("-I$(top_srcdir)/src/" ++ mod.name)] false,
      .listvar (.of (.lib (library ++ "_mock")) .libadd) [.lib "cmock"] false,
      .listvar (.plain "CLEANFILES") [.mockC library, .mockH library] true ]

/-- `test_src[:-2]`. -/
def testBase (testSrc : String) : String := String.ofList testSrc.toList.dropLast.dropLast

/-- The body of the loop over the tests. -/
def renderTest (mod : Module) (base : String) : List Part :=
  let library := formatted mod.library
  let testSrc := mod.testsDir ++ "/" ++ base ++ ".c"
  let builtSources := [.runnerC base] ++ mod.deps.map .mockC ++ mod.deps.map .mockH
  let deplibs := [.lib "cmock", .lib library] ++ mod.deps.map .mockLib
  [ .listvar (.plain "check_PROGRAMS") [.runner base] true,
    .rule [.runnerC base] [.plain testSrc] runnerGenerationCmds,
    .listvar (.of (.runner base) .sources) [.plain (withoutDot testSrc),
      .plain (withoutDot (mod.sourceDir ++ "/" ++ library ++ ".h"))] false,
    .listvar (.of (.nodistRunner base) .sources) builtSources false,
    .depends (.object mod.testsDir base) (builtSources ++ deplibs),
    .listvar (.plain "CLEANFILES") [.runnerC base] true,
    .listvar (.of (.runner base) .ldadd) deplibs false,
    .listvar (.of (.runner base) .cppflags) ([.plain "$(CMOCK_CPPFLAGS)", .plain "$(AM_CPPFLAGS)"] ++
      mod.deps.map fun d => .plain ("-I$(top_srcdir)/src/" ++ d)) false ]

def renderTests (mod : Module) : List Part :=
  if mod.isProgram then []
  else (mod.tests.map testBase).flatMap (renderTest mod)

/-- The product of a module, and all that is defined for it. -/
def renderModule (mod : Module) : Except PyError (List Part) := do
  let product : Part :=
    if mod.isProgram then .listvar (.plain "bin_PROGRAMS") [.plain (formatted mod.program)] true
    else .listvar (.plain "noinst_LTLIBRARIES") [.lib (formatted mod.library)] true
  let sources ← renderModuleSources mod
  let deps ← renderModuleDeps mod
  pure ([.text ("### " ++ mod.name ++ "\n"), product] ++ sources ++ deps ++ renderMock mod ++
    renderTests mod)

/-- The parts of the modules, in the order of their names. -/
structure Makefile where
  modules : List (List Part)
  deriving DecidableEq, Repr

namespace Makefile

def parts (makefile : Makefile) : List Part :=
  makefilePreamble ++ makefile.modules.flatten ++ makefilePostable

/-- `'\n'.join(parts)` without the empty ones. -/
def joinParts (texts : List String) : String := joined "\n" (texts.filter (· != ""))

end Makefile

/-- `sorted(mods.keys())`. -/
def sortedModules (mods : List Module) : List Module :=
  mods.insertionSort fun mod mod' => mod.name ≤ mod'.name

end M65Tool.Source.Makemake
