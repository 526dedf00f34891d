import M65Tool.Lib.Effect
import M65Tool.Source.MakemakeNames

/-!
# MAKEFILE-PARTS: what is rendered for a list of modules

A dependency is written `lib{dep}.la` after the directory of the module it names, and the
library is made as `lib{library}.la` after the name in its module.cfg; the runners of all
tests are named after the files of the tests alone. What the rendered parts name and
define, module by module, and the condition on the names that they need.
-/
namespace M65Tool.Guarantees.MakefileParts
open Source.Makemake Lib.Naming Lib.Effect

/-! ## What a makefile names and defines -/

/-- The lists of the libraries that are made. -/
def libraryLists : List String := ["noinst_LTLIBRARIES", "check_LTLIBRARIES"]

/-- The lists of what is made. -/
def productLists : List String := libraryLists ++ ["bin_PROGRAMS", "check_PROGRAMS"]

/-- The variables that list what is linked. -/
def isLinkList (name : String) : Bool := endswith name "_LIBADD" || endswith name "_LDADD"

def partTargets : Part → List Entry
  | .rule targets _ _ => targets
  | .depends target _ => [target]
  | .text _ | .listvar _ _ _ => []

def partPrerequisites : Part → List Entry
  | .rule _ prerequisites _ => prerequisites
  | .depends _ prerequisites => prerequisites
  | .text _ | .listvar _ _ _ => []

/-- What is listed in a variable of some kind. -/
def partValues (kind : String → Bool) : Part → List Entry
  | .listvar name vals _ => if kind name.text then vals else []
  | .text _ | .rule _ _ _ | .depends _ _ => []

/-- What is listed, and the prerequisites. -/
def partMentions : Part → List Entry
  | .text _ => []
  | .listvar _ vals _ => vals
  | .rule _ prerequisites _ => prerequisites
  | .depends _ prerequisites => prerequisites

/-- The variable that a part defines; `+=` adds to one. -/
def partVars : Part → List Var
  | .listvar name _ false => [name]
  | _ => []

section Makefiles
variable (parts : List Part)

def targets : List Entry := parts.flatMap partTargets
def prerequisites : List Entry := parts.flatMap partPrerequisites
def values (kind : String → Bool) : List Entry := parts.flatMap (partValues kind)
def mentions : List Entry := parts.flatMap partMentions
def definedVars : List Var := parts.flatMap partVars

end Makefiles

/-- A name like that of a library's variables, without their endings. -/
def isLibraryStem (name : String) : Bool :=
  ["lib", "nodist_lib"].any fun start =>
    (middle start.toList "_la".toList name.toList).isSome

/-! ## Configurations whose names go together -/

section Names
variable (mods : List Module)

/-- The modules that are rendered as libraries. -/
def libraryModules : List Module := mods.filter fun mod => !mod.isProgram

def libraryNames : List String := (libraryModules mods).map fun mod => formatted mod.library

def programNames : List String :=
  (mods.filter Module.isProgram).map fun mod => formatted mod.program

def testBases : List String := (libraryModules mods).flatMap fun mod => mod.tests.map testBase

structure WellNamed : Prop where
  /-- an empty program name does not stand for a library -/
  named : ∀ mod ∈ libraryModules mods, mod.library ≠ none
  /-- a dependency is the name of a library -/
  deps : ∀ mod ∈ mods, ∀ d ∈ mod.deps,
    d = "cmock" ∨ ∃ l ∈ libraryNames mods, d = l ∨ d = l ++ "_mock"
  /-- a dependency of a tested module is the name of a library with a mock -/
  mockLibs : ∀ mod ∈ libraryModules mods, mod.tests ≠ [] → ∀ d ∈ mod.deps,
    ∃ l ∈ libraryNames mods, d = l ∨ d ++ "_mock" = l
  /-- and of a module that is not a program -/
  mocks : ∀ mod ∈ libraryModules mods, mod.tests ≠ [] → ∀ d ∈ mod.deps,
    ∃ mod' ∈ libraryModules mods, mod'.name = d
  /-- a library has the name of a module that is not a program -/
  cleaned : ∀ l ∈ libraryNames mods, ∃ mod ∈ libraryModules mods, mod.name = l
  once : (libraryNames mods).Nodup
  not_cmock : "cmock" ∉ libraryNames mods
  not_mock : ∀ l ∈ libraryNames mods, ∀ l' ∈ libraryNames mods, l ≠ l' ++ "_mock"
  programs : ∀ p ∈ programNames mods, p ≠ "libcmock_la" ∧ ∀ l ∈ libraryNames mods,
    p ≠ "lib" ++ l ++ "_la" ∧ p ≠ "nodist_lib" ++ (l ++ "_mock") ++ "_la"
  /-- two programs do not share a name that begins and ends like a library's variables -/
  programs_once : ((programNames mods).filter isLibraryStem).Nodup
  runners : ∀ p ∈ programNames mods, ∀ base ∈ testBases mods, p ≠ "tests/runners/" ++ base
  tests : (testBases mods).Nodup

end Names

/-! ## What is rendered -/

/-- The parts of a module whose library has a name. -/
def moduleParts (mod : Module) : List Part :=
  let stem := if mod.isProgram then .program (formatted mod.program)
    else .lib (formatted mod.library)
  let product : Part :=
    if mod.isProgram then .listvar (.plain "bin_PROGRAMS") [.plain (formatted mod.program)] true
    else .listvar (.plain "noinst_LTLIBRARIES") [.lib (formatted mod.library)] true
  [ .text ("### " ++ mod.name ++ "\n"), product,
    .listvar (.of stem .sources) (mod.sources.map fun src => .plain (pathJoin mod.sourceDir src))
      false,
    .listvar (.of stem (if mod.isProgram then .ldadd else .libadd)) (mod.deps.map .lib) false ] ++
    renderMock mod ++ renderTests mod

section Rendered
variable {mod : Module} {mods : List Module}

theorem renderModule_eq (h : mod.isProgram = true ∨ mod.library ≠ none) :
    renderModule mod = .ok (moduleParts mod) := by
  have hstem : ownStem mod = .ok (if mod.isProgram then .program (formatted mod.program)
      else .lib (formatted mod.library)) := by
    unfold ownStem
    by_cases hprogram : mod.isProgram = true
    · rw [if_pos hprogram, if_pos hprogram]
      rfl
    · rw [if_neg hprogram, if_neg hprogram]
      cases hlibrary : mod.library with
      | none => exact absurd hlibrary (h.resolve_left hprogram)
      | some library => rfl
  unfold renderModule renderModuleSources renderModuleDeps
  rw [hstem]
  rfl

theorem renderModule_none (hprogram : mod.isProgram = false) (hlibrary : mod.library = none) :
    renderModule mod = .error .typeError := by
  have hstem : ownStem mod = .error .typeError := by
    unfold ownStem
    rw [hprogram, hlibrary]
    rfl
  unfold renderModule renderModuleSources
  rw [hstem]
  rfl

theorem renderModule_iff {parts : List Part} : renderModule mod = .ok parts ↔
    (mod.isProgram = true ∨ mod.library ≠ none) ∧ parts = moduleParts mod := by
  by_cases h : mod.isProgram = true ∨ mod.library ≠ none
  · rw [renderModule_eq h, Except.ok.injEq]
    exact ⟨fun heq => ⟨h, heq.symm⟩, fun heq => heq.2.symm⟩
  · obtain ⟨hprogram, hlibrary⟩ := not_or.mp h
    rw [renderModule_none (by simpa using hprogram) (by simpa using hlibrary)]
    exact iff_of_false (fun heq => nomatch heq) fun heq => h heq.1

theorem libraryModules_program (h : mod.isProgram = true) :
    libraryModules (mod :: mods) = libraryModules mods :=
  List.filter_cons_of_neg (by simp [h])

theorem libraryModules_library (h : mod.isProgram = false) :
    libraryModules (mod :: mods) = mod :: libraryModules mods :=
  List.filter_cons_of_pos (by simp [h])

theorem named_cons : (∀ mod' ∈ libraryModules (mod :: mods), mod'.library ≠ none) ↔
    (mod.isProgram = true ∨ mod.library ≠ none) ∧
      ∀ mod' ∈ libraryModules mods, mod'.library ≠ none := by
  cases hprogram : mod.isProgram with
  | true => simp [libraryModules_program hprogram]
  | false => simp [libraryModules_library hprogram]

end Rendered

section Collected
variable (mods : List Module)

/-- The makefile of these modules. -/
def makefileOf : Makefile := ⟨mods.map moduleParts⟩

theorem flatMap_libraries {α : Type} (f : Module → List α) :
    (mods.flatMap fun mod => if mod.isProgram then [] else f mod) =
      (libraryModules mods).flatMap f := by
  induction mods with
  | nil => rfl
  | cons mod mods ih =>
    rw [List.flatMap_cons, ih]
    cases hprogram : mod.isProgram with
    | true => rw [libraryModules_program hprogram, if_pos rfl, List.nil_append]
    | false =>
      rw [libraryModules_library hprogram, if_neg Bool.false_ne_true, List.flatMap_cons]

theorem flatMap_parts {α : Type} (f : Part → List α) :
    (makefileOf mods).parts.flatMap f = makefilePreamble.flatMap f ++
      mods.flatMap (fun mod => (moduleParts mod).flatMap f) ++ makefilePostable.flatMap f := by
  unfold Makefile.parts makefileOf
  rw [List.flatMap_append, List.flatMap_append, List.flatten_eq_flatMap, List.flatMap_map,
    List.flatMap_assoc]
  rfl

/-- The targets for a module that is a library. -/
def libraryTargets (mod : Module) : List Entry :=
  [.mockC mod.name, .mockH mod.name] ++
    (mod.tests.map testBase).flatMap fun base => [.runnerC base, .object mod.testsDir base]

theorem targets_module (mod : Module) :
    targets (moduleParts mod) = if mod.isProgram then [] else libraryTargets mod := by
  unfold targets moduleParts renderMock renderTests
  cases hprogram : mod.isProgram with
  | true => rfl
  | false =>
    simp [partTargets, libraryTargets, List.flatMap_assoc, renderTest]

theorem targets_makefile :
    targets (makefileOf mods).parts = (libraryModules mods).flatMap libraryTargets := by
  rw [targets, flatMap_parts, ← flatMap_libraries]
  simp only [← targets_module]
  exact List.append_nil _

/-- A variable of a product is no list of products. -/
theorem of_not_mem_productLists (stem : Stem) (kind : VarKind) :
    (Var.of stem kind).text ∉ productLists := by
  have hends : ∀ name ∈ productLists, ¬ kind.text.toList <:+ name.toList := by
    cases kind <;> decide +kernel
  intro hmem
  refine hends _ hmem ?_
  rw [Var.text, String.toList_append]
  exact List.suffix_append _ _

theorem of_not_mem_libraryLists (stem : Stem) (kind : VarKind) :
    (Var.of stem kind).text ∉ libraryLists :=
  fun hmem => of_not_mem_productLists stem kind (List.mem_append_left _ hmem)

@[simp] theorem plain_text (name : String) : (Var.plain name).text = name := rfl

theorem libraries_module (mod : Module) :
    values (moduleParts mod) (· ∈ libraryLists) = if mod.isProgram then []
      else [.lib (formatted mod.library), .mockLib (formatted mod.library)] := by
  unfold values moduleParts renderMock renderTests
  cases hprogram : mod.isProgram with
  | true =>
    simp [partValues, of_not_mem_libraryLists]
    simp [libraryLists]
  | false =>
    simp [partValues, of_not_mem_libraryLists, renderTest, List.flatMap_assoc]
    simp [libraryLists]

theorem libraries_makefile : values (makefileOf mods).parts (· ∈ libraryLists) =
    .lib "cmock" :: (libraryNames mods).flatMap fun l => [.lib l, .mockLib l] := by
  have hpreamble : makefilePreamble.flatMap (partValues (· ∈ libraryLists)) = [.lib "cmock"] := by
    simp [makefilePreamble, partValues, of_not_mem_libraryLists]
    simp [libraryLists]
  have hpostable : makefilePostable.flatMap (partValues (· ∈ libraryLists)) = [] := by
    simp [makefilePostable, partValues, libraryLists]
  rw [values, flatMap_parts, hpreamble, hpostable, libraryNames, List.flatMap_map,
    ← flatMap_libraries, List.append_nil]
  simp only [← libraries_module]
  rfl

theorem of_ne_productList (name : String) (h : name ∈ productLists) (stem : Stem)
    (kind : VarKind) : (Var.of stem kind).text ≠ name :=
  fun htext => of_not_mem_productLists stem kind (htext ▸ h)

theorem binPrograms_module (mod : Module) : values (moduleParts mod) (· == "bin_PROGRAMS") =
    if mod.isProgram then [.plain (formatted mod.program)] else [] := by
  have hof := of_ne_productList "bin_PROGRAMS" (by simp [productLists])
  unfold values moduleParts renderMock renderTests
  cases hprogram : mod.isProgram with
  | true => simp [partValues, hof]
  | false => simp [partValues, hof, renderTest, List.flatMap_assoc]

theorem checkPrograms_module (mod : Module) : values (moduleParts mod) (· == "check_PROGRAMS") =
    if mod.isProgram then [] else (mod.tests.map testBase).map .runner := by
  have hof := of_ne_productList "check_PROGRAMS" (by simp [productLists])
  unfold values moduleParts renderMock renderTests
  cases hprogram : mod.isProgram with
  | true => simp [partValues, hof]
  | false => simp [partValues, hof, renderTest, List.flatMap_assoc, List.map_eq_flatMap]

theorem programs_makefile : values (makefileOf mods).parts (· == "bin_PROGRAMS") =
    (programNames mods).map .plain := by
  have hof := of_ne_productList "bin_PROGRAMS" (by simp [productLists])
  have hpreamble : makefilePreamble.flatMap (partValues (· == "bin_PROGRAMS")) = [] := by
    simp [makefilePreamble, partValues, hof]
  have hpostable : makefilePostable.flatMap (partValues (· == "bin_PROGRAMS")) = [] := by
    simp [makefilePostable, partValues]
  have hmodules : ∀ mods : List Module, (mods.flatMap fun mod => if mod.isProgram then
      [Entry.plain (formatted mod.program)] else []) = (programNames mods).map .plain := by
    intro mods
    induction mods with
    | nil => rfl
    | cons mod mods ih =>
      rw [List.flatMap_cons, ih, programNames, programNames, List.filter_cons]
      cases mod.isProgram <;> rfl
  rw [values, flatMap_parts, hpreamble, hpostable, List.append_nil, ← hmodules]
  simp only [← binPrograms_module]
  rfl

theorem runners_makefile : values (makefileOf mods).parts (· == "check_PROGRAMS") =
    (testBases mods).map .runner := by
  have hof := of_ne_productList "check_PROGRAMS" (by simp [productLists])
  have hpreamble : makefilePreamble.flatMap (partValues (· == "check_PROGRAMS")) = [] := by
    simp [makefilePreamble, partValues, hof]
  have hpostable : makefilePostable.flatMap (partValues (· == "check_PROGRAMS")) = [] := by
    simp [makefilePostable, partValues]
  rw [values, flatMap_parts, hpreamble, hpostable, List.append_nil, testBases, List.map_flatMap,
    ← flatMap_libraries]
  simp only [← checkPrograms_module]
  rfl

/-- The variables of a library and of its mock. -/
def libraryVars (l : String) : List Var :=
  [.of (.lib l) .sources, .of (.lib l) .libadd, .of (.nodistLib (l ++ "_mock")) .sources,
    .of (.lib (l ++ "_mock")) .cppflags, .of (.lib (l ++ "_mock")) .libadd]

def testVars (base : String) : List Var :=
  [.of (.runner base) .sources, .of (.nodistRunner base) .sources, .of (.runner base) .ldadd,
    .of (.runner base) .cppflags]

def moduleVars (mod : Module) : List Var :=
  if mod.isProgram then
    [.of (.program (formatted mod.program)) .sources, .of (.program (formatted mod.program)) .ldadd]
  else libraryVars (formatted mod.library) ++ (mod.tests.map testBase).flatMap testVars

theorem definedVars_module (mod : Module) : definedVars (moduleParts mod) = moduleVars mod := by
  unfold definedVars moduleParts renderMock renderTests moduleVars
  cases hprogram : mod.isProgram with
  | true => rfl
  | false =>
    simp [partVars, List.flatMap_assoc, renderTest, libraryVars]
    rfl

/-- What is named for one test. -/
theorem mentions_test (mod : Module) (base : String) (P : Entry → Prop) :
    (∀ e ∈ mentions (renderTest mod base), e.isNamed = true → P e) ↔
      P (.runnerC base) ∧ P (.lib "cmock") ∧ P (.lib (formatted mod.library)) ∧
        ∀ d ∈ mod.deps, P (.mockC d) ∧ P (.mockH d) ∧ P (.mockLib d) := by
  unfold mentions renderTest
  simp only [partMentions, List.flatMap_cons, List.flatMap_nil, List.mem_append, List.mem_cons,
    List.mem_map, List.not_mem_nil, or_false, or_imp, forall_and, forall_eq, forall_exists_index,
    and_imp, forall_apply_eq_imp_iff₂, Entry.isNamed, Entry.mockLib, Bool.false_eq_true,
    false_imp_iff, true_and, and_true, imp_true_iff, forall_const]
  tauto

/-- What is named for a program. -/
theorem mentions_program {mod : Module} (h : mod.isProgram = true) (P : Entry → Prop) :
    (∀ e ∈ mentions (moduleParts mod), e.isNamed = true → P e) ↔ ∀ d ∈ mod.deps, P (.lib d) := by
  unfold mentions moduleParts renderMock renderTests
  simp [h, partMentions, Entry.isNamed, or_imp, forall_and]

/-- What is named for a library. -/
theorem mentions_library {mod : Module} (h : mod.isProgram = false) (P : Entry → Prop) :
    (∀ e ∈ mentions (moduleParts mod), e.isNamed = true → P e) ↔
      (P (.lib (formatted mod.library)) ∧ P (.mockLib (formatted mod.library)) ∧
      (∀ d ∈ mod.deps, P (.lib d)) ∧ P (.mockC mod.name) ∧ P (.lib "cmock") ∧
      P (.mockC (formatted mod.library)) ∧ P (.mockH (formatted mod.library))) ∧
      ∀ base ∈ mod.tests.map testBase, ∀ e ∈ mentions (renderTest mod base),
        e.isNamed = true → P e := by
  unfold moduleParts mentions
  rw [List.flatMap_append, List.forall_mem_append]
  refine and_congr ?_ ?_
  · unfold renderMock
    simp [h, partMentions, Entry.isNamed, or_imp, forall_and, Entry.mockLib]
    tauto
  · unfold renderTests
    rw [h, if_neg Bool.false_ne_true, List.flatMap_assoc]
    constructor
    · exact fun hall base hbase e he => hall e (List.mem_flatMap.mpr ⟨base, hbase, he⟩)
    · intro hall e he
      obtain ⟨base, hbase, he⟩ := List.mem_flatMap.mp he
      exact hall base hbase e he

end Collected

end M65Tool.Guarantees.MakefileParts
