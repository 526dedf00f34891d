import M65Tool.Guarantees.MakefileSound

/-!
# MAKEFILE-COLLECTED: the products and what they are made of

What the variables of the makefile hold at its end. The lists of products have the programs,
libraries, mocks and runners of all modules, and where the names of the modules go together
automake finds the sources and the dependencies of each library under the library's name.
-/
namespace M65Tool.Guarantees.MakefileCollected
open Source.Makemake Lib.MakeText Lib.Splitting Lib.Naming
open MakefileParts MakefileUnambiguous MakefileClosed MakefileText MakefileWords MakefileSound

/-! ## What the parts add -/

/-- What a part leaves of the values of a variable. -/
def partUpdate (v : String) (vals : List (List Char)) : Part → List (List Char)
  | .listvar name more isConcat =>
    if name.text = v then (if isConcat then vals ++ entryWords more else entryWords more) else vals
  | .text _ | .rule _ _ _ | .depends _ _ => vals

section Updates
variable {v : String} {vals : List (List Char)} {part : Part} {mod : Module}

theorem collect_part (h : QuietPart part) :
    collect v.toList vals (partStmts part) = partUpdate v vals part := by
  cases part with
  | text text => exact collect_others fun stmt hstmt => Stmt.assigns_of_quiet (h stmt hstmt)
  | rule targets prerequisites commands =>
    have hothers : ∀ stmt ∈ read commands.toList, stmt.assigns v.toList = false :=
      fun stmt hstmt => Stmt.assigns_of_quiet (h stmt hstmt)
    have hcollect : collect v.toList vals (read commands.toList) = vals := collect_others hothers
    exact hcollect
  | depends target prerequisites => rfl
  | listvar name more isConcat =>
    rw [partStmts, partUpdate]
    by_cases hempty : more = [] ∧ isConcat = true
    · obtain ⟨rfl, rfl⟩ := hempty
      rw [if_pos ⟨rfl, rfl⟩, if_pos rfl, entryWords, List.flatMap_nil, List.append_nil, ite_self]
      rfl
    · rw [if_neg hempty, collect, List.foldl_cons, List.foldl_nil, Stmt.update]
      simp only [String.toList_inj]

end Updates

/-! ## Whole makefiles -/

/-- No fragment assigns the variable. -/
structure Leaves (fragments : Fragments) (mods : List Module) (v : String) : Prop where
  modules : ∀ mod ∈ mods, ∀ stmt ∈ moduleMkStmts (fragments.moduleMk mod.sourceDir),
    stmt.assigns v.toList = false
  project : ∀ stmt ∈ projectMkStmts fragments.projectMk, stmt.assigns v.toList = false

section Makefiles
variable {v : String} {vals : List (List Char)} {fragments : Fragments} {mods : List Module}

theorem collect_parts {parts : List Part} (h : ∀ part ∈ parts, QuietPart part) :
    collect v.toList vals (parts.flatMap partStmts) = parts.foldl (partUpdate v) vals :=
  collect_flatMap fun part hpart _ => collect_part (h part hpart)

theorem valueOf_makefile (plain : ∀ mod ∈ mods, PlainModule mod)
    (leaves : Leaves fragments mods v) : valueOf v.toList (makefileStmts fragments mods) =
      (makefileOf mods).parts.foldl (partUpdate v) [] := by
  have hmodule : ∀ mod ∈ mods, ∀ vals, collect v.toList vals (moduleStmts fragments mod) =
      (moduleParts mod).foldl (partUpdate v) vals := by
    intro mod hmod vals
    rw [moduleStmts, collect_append, collect_parts (moduleParts_quiet (plain mod hmod)),
      collect_others (leaves.modules mod hmod)]
  rw [valueOf, makefileStmts, collect_append, collect_append, collect_append,
    collect_others leaves.project, collect_parts preamble_quiet, collect_parts postable_quiet,
    collect_flatMap hmodule, Makefile.parts, List.foldl_append, List.foldl_append]
  have hflatten : (makefileOf mods).modules.flatten = mods.flatMap moduleParts :=
    List.flatMap_def.symm
  rw [hflatten, List.foldl_flatMap]

end Makefiles

/-! ## The lists of products -/

/-- What a part of a module adds to one of the fixed variables. -/
def adds (v : String) : Part → List Entry
  | .listvar (.plain name) more true => if name = v then more else []
  | _ => []

/-- A variable of a fixed name is added to, and one named after the module is set. -/
def addsOrSets : Part → Bool
  | .listvar (.plain _) _ isConcat => isConcat
  | .listvar (.of _ _) _ isConcat => !isConcat
  | .text _ | .rule _ _ _ | .depends _ _ => true

section Products
variable {v : String} {vals : List (List Char)} {mods : List Module} {mod : Module}

theorem addsOrSets_module : ∀ part ∈ moduleParts mod, addsOrSets part = true := by
  have htest : ∀ base, ∀ part ∈ renderTest mod base, addsOrSets part = true := by
    simp [renderTest, addsOrSets]
  rw [moduleParts, List.forall_mem_append, List.forall_mem_append, renderMock, renderTests]
  cases mod.isProgram with
  | true => simp [addsOrSets]
  | false =>
    refine ⟨by simp [addsOrSets], fun part hpart => ?_⟩
    obtain ⟨base, -, hpart⟩ := List.mem_flatMap.mp hpart
    exact htest base part hpart

theorem partUpdate_adds {part : Part} (hv : v ∈ productLists) (h : addsOrSets part = true) :
    partUpdate v vals part = vals ++ entryWords (adds v part) := by
  cases part with
  | text | rule | depends => exact (List.append_nil _).symm
  | listvar name more isConcat =>
    cases name with
    | plain name =>
      obtain rfl : isConcat = true := h
      rw [partUpdate, adds, if_pos rfl, Var.text]
      split
      · rfl
      · exact (List.append_nil _).symm
    | of stem kind =>
      rw [partUpdate, if_neg (of_ne_productList v hv stem kind)]
      exact (List.append_nil _).symm

theorem foldl_adds {parts : List Part} (hv : v ∈ productLists)
    (h : ∀ part ∈ parts, addsOrSets part = true) :
    parts.foldl (partUpdate v) vals = vals ++ entryWords (parts.flatMap (adds v)) := by
  induction parts generalizing vals with
  | nil => exact (List.append_nil _).symm
  | cons part parts ih =>
    rw [List.foldl_cons, partUpdate_adds hv (h part List.mem_cons_self),
      ih fun p hp => h p (List.mem_cons_of_mem part hp), List.flatMap_cons, entryWords, entryWords,
      entryWords, List.flatMap_append, List.append_assoc]

/-- What a module adds to the lists of products. -/
theorem adds_module (mod : Module) :
    (moduleParts mod).flatMap (adds "bin_PROGRAMS") =
      (if mod.isProgram then [.plain (formatted mod.program)] else []) ∧
    (moduleParts mod).flatMap (adds "noinst_LTLIBRARIES") =
      (if mod.isProgram then [] else [.lib (formatted mod.library)]) ∧
    (moduleParts mod).flatMap (adds "check_PROGRAMS") =
      (if mod.isProgram then [] else (mod.tests.map testBase).map .runner) ∧
    (moduleParts mod).flatMap (adds "check_LTLIBRARIES") =
      (if mod.isProgram then [] else [.mockLib (formatted mod.library)]) := by
  unfold moduleParts renderMock renderTests
  cases mod.isProgram with
  | true => simp [adds]
  | false => simp [adds, renderTest, List.flatMap_assoc, List.map_eq_flatMap]

theorem productLists_cases (hv : v ∈ productLists) : v = "noinst_LTLIBRARIES" ∨
    v = "check_LTLIBRARIES" ∨ v = "bin_PROGRAMS" ∨ v = "check_PROGRAMS" := by
  simpa [productLists, libraryLists] using hv

/-- What the preamble has in the lists of products. -/
def fixedProducts (v : String) : List Entry :=
  if v = "check_LTLIBRARIES" then [.lib "cmock"] else []

theorem preamble_products (hv : v ∈ productLists) :
    makefilePreamble.foldl (partUpdate v) [] = entryWords (fixedProducts v) := by
  have hother : ∀ stem kind, (Var.of stem kind).text ≠ v := of_ne_productList v hv
  rcases productLists_cases hv with rfl | rfl | rfl | rfl <;>
    simp [makefilePreamble, partUpdate, fixedProducts, entryWords, hother]

theorem postable_products (hv : v ∈ productLists) :
    makefilePostable.foldl (partUpdate v) vals = vals := by
  rcases productLists_cases hv with rfl | rfl | rfl | rfl <;> simp [makefilePostable, partUpdate, Var.text]

theorem parts_products (hv : v ∈ productLists) :
    (makefileOf mods).parts.foldl (partUpdate v) [] = entryWords (fixedProducts v ++
      mods.flatMap fun mod => (moduleParts mod).flatMap (adds v)) := by
  have hmodules : ∀ part ∈ mods.flatMap moduleParts, addsOrSets part = true := by
    intro part hpart
    obtain ⟨mod, -, hpart⟩ := List.mem_flatMap.mp hpart
    exact addsOrSets_module part hpart
  have hflatten : (makefileOf mods).modules.flatten = mods.flatMap moduleParts :=
    List.flatMap_def.symm
  rw [Makefile.parts, List.foldl_append, List.foldl_append, preamble_products hv, hflatten,
    foldl_adds hv hmodules, postable_products hv, List.flatMap_assoc, entryWords, entryWords,
    entryWords, List.flatMap_append]

end Products

/-! ## The variables of a library -/

def addedNames : List String := productLists ++ ["CLEANFILES", "AM_CPPFLAGS"]

/-- What is added to is a variable of a fixed name. -/
def addsFixed : Part → Bool
  | .listvar (.plain name) _ true => name ∈ addedNames
  | .listvar (.of _ _) _ true => false
  | _ => true

section Libraries
variable {mods : List Module} {mod : Module} {vals : List (List Char)} {var : Var}

theorem addsFixed_module : ∀ part ∈ moduleParts mod, addsFixed part = true := by
  have htest : ∀ base, ∀ part ∈ renderTest mod base, addsFixed part = true := by
    simp [renderTest, addsFixed, addedNames, productLists, libraryLists]
  rw [moduleParts, List.forall_mem_append, List.forall_mem_append, renderMock, renderTests]
  cases mod.isProgram with
  | true => simp [addsFixed, addedNames, productLists, libraryLists]
  | false =>
    refine ⟨by simp [addsFixed, addedNames, productLists, libraryLists], fun part hpart => ?_⟩
    obtain ⟨base, -, hpart⟩ := List.mem_flatMap.mp hpart
    exact htest base part hpart

theorem addsFixed_makefile : ∀ part ∈ (makefileOf mods).parts, addsFixed part = true := by
  have hpreamble : ∀ part ∈ makefilePreamble, addsFixed part = true := by decide +kernel
  have hpostable : ∀ part ∈ makefilePostable, addsFixed part = true := by decide +kernel
  rw [Makefile.parts, List.forall_mem_append, List.forall_mem_append]
  refine ⟨⟨hpreamble, fun part hpart => ?_⟩, hpostable⟩
  obtain ⟨parts, hparts, hpart⟩ := List.mem_flatten.mp hpart
  obtain ⟨mod, -, rfl⟩ := List.mem_map.mp hparts
  exact addsFixed_module part hpart

/-- A library's variable is none of those that are added to. -/
theorem library_ne_added (hvar : var.isLibrary = true) : var.text ∉ addedNames := by
  have hstarts : ∀ name ∈ addedNames, ∀ start ∈ ["lib", "nodist_lib"],
      ¬ start.toList <+: name.toList := by
    decide +kernel
  cases var with
  | plain => cases hvar
  | of stem kind =>
    have hstart : stem.start ∈ ["lib", "nodist_lib"] := by
      cases stem with
      | lib | nodistLib => simp [Stem.start]
      | program | runner | nodistRunner => cases hvar
    obtain ⟨x, hx⟩ := stem.text_starts
    intro hmem
    refine hstarts _ hmem _ hstart ?_
    rw [Var.text, hx, String.append_assoc, String.toList_append]
    exact List.prefix_append _ _

theorem foldl_others {v : String} {parts : List Part}
    (h : ∀ part ∈ parts, ∀ vals, partUpdate v vals part = vals) :
    parts.foldl (partUpdate v) vals = vals := by
  induction parts with
  | nil => rfl
  | cons part parts ih =>
    rw [List.foldl_cons, h part List.mem_cons_self]
    exact ih fun p hp => h p (List.mem_cons_of_mem part hp)

/-- A variable of a library has what the one part that sets it lists. -/
theorem library_collected {entries : List Entry} (hvar : var.isLibrary = true)
    (once : DefinedOnce Var.isLibrary Var.text (definedVars (makefileOf mods).parts))
    (hset : Part.listvar var entries false ∈ (makefileOf mods).parts) :
    (makefileOf mods).parts.foldl (partUpdate var.text) [] = entryWords entries := by
  have hfixed : ∀ part ∈ (makefileOf mods).parts, addsFixed part = true := addsFixed_makefile
  obtain ⟨before, behind, hparts⟩ := List.append_of_mem hset
  rw [hparts] at once hfixed ⊢
  rw [definedVars, List.flatMap_append, List.flatMap_cons] at once
  have hlater : ∀ name ∈ behind.flatMap partVars, var.text ≠ name.text := fun name hname =>
    (List.pairwise_cons.mp (List.pairwise_append.mp once).2.1).1 name hname (Or.inl hvar)
  have hbehind : ∀ part ∈ behind, ∀ vals, partUpdate var.text vals part = vals := by
    intro part hpart vals
    have hpartFixed := hfixed part (List.mem_append_right before (List.mem_cons_of_mem _ hpart))
    cases part with
    | text | rule | depends => rfl
    | listvar name more isConcat =>
      refine if_neg fun hname => ?_
      cases isConcat with
      | false => exact hlater name (List.mem_flatMap.mpr ⟨_, hpart, List.mem_cons_self⟩) hname.symm
      | true =>
        cases name with
        | of => cases hpartFixed
        | plain name => exact library_ne_added hvar (hname ▸ of_decide_eq_true hpartFixed)
  rw [List.foldl_append, List.foldl_cons, partUpdate, if_pos rfl, if_neg Bool.false_ne_true]
  exact foldl_others hbehind

end Libraries

/-! ## The names that automake looks for -/

def isCanonical (c : Char) : Bool := c.isAlphanum || c == '_' || c == '@'

/-- The name under which automake looks for the variables of a product: an underscore for each
character that is not a letter, a digit, an underscore or an at sign. -/
def canonical (name : String) : String :=
  String.ofList (name.toList.map fun c => if isCanonical c then c else '_')

section Canonical
variable {a b l : String}

theorem canonical_append : canonical (a ++ b) = canonical a ++ canonical b := by
  rw [canonical, String.toList_append, List.map_append, String.ofList_append, canonical, canonical]

theorem canonical_lib (h : canonical l = l) : canonical (Entry.lib l).text = (Stem.lib l).text := by
  have hlib : canonical "lib" = "lib" := by decide +kernel
  have hla : canonical ".la" = "_la" := by decide +kernel
  have htext : canonical ("lib" ++ l ++ ".la") = "lib" ++ l ++ "_la" := by
    rw [canonical_append, canonical_append, h, hlib, hla]
  exact htext

end Canonical

/-! ## Trees -/

section Trees
variable {tree : Tree} {fragments : Fragments} {mods : List Module} {text : String}

theorem pathJoin_ne_empty {a b : String} (h : b ≠ "") : pathJoin a b ≠ "" := by
  unfold pathJoin
  split
  · exact h
  · split <;> exact fun hempty => h (String.append_eq_empty_iff.mp hempty).2

theorem accepted_sources (accepted : acceptedModules tree = .ok mods) :
    ∀ mod ∈ mods, ∀ src ∈ mod.sources, src ≠ "" := by
  obtain ⟨found, -, rfl⟩ := acceptedModules_inv accepted
  rintro mod hmod src hsrc rfl
  obtain ⟨pair, -, rfl⟩ := List.mem_map.mp hmod
  exact absurd (List.mem_filter.mp hsrc).2 (by decide)

theorem Leaves.sorted {v : String} (leaves : Leaves fragments mods v) :
    Leaves fragments (sortedModules mods) v :=
  ⟨fun mod hmod => leaves.modules mod (sortedModules_perm.mem_iff.mp hmod), leaves.project⟩

/-- What a variable that the fragments leave alone has in the text. -/
theorem valueOf_text {v : String} (plain : PlainTree tree)
    (accepted : acceptedModules tree = .ok mods) (h : written (tree, fragments) = some text)
    (leaves : Leaves fragments mods v) : valueOf v.toList (read text.toList) =
      (makefileOf (sortedModules mods)).parts.foldl (partUpdate v) [] := by
  obtain ⟨mods', hmods, hrender⟩ := written_iff.mp h
  obtain rfl : mods = mods' := Except.ok.inj (accepted.symm.trans hmods)
  have hplain := accepted_plain plain accepted
  rw [read_makefileText hrender hplain]
  exact valueOf_makefile (fun mod hmod => hplain mod (sortedModules_perm.mem_iff.mp hmod))
    leaves.sorted

theorem adds_modules (mods : List Module) :
    (mods.flatMap fun mod => (moduleParts mod).flatMap (adds "bin_PROGRAMS")) =
      (programNames mods).map .plain ∧
    (mods.flatMap fun mod => (moduleParts mod).flatMap (adds "noinst_LTLIBRARIES")) =
      (libraryNames mods).map .lib ∧
    (mods.flatMap fun mod => (moduleParts mod).flatMap (adds "check_PROGRAMS")) =
      (testBases mods).map .runner ∧
    (mods.flatMap fun mod => (moduleParts mod).flatMap (adds "check_LTLIBRARIES")) =
      (libraryNames mods).map .mockLib := by
  have hadds := fun mod => adds_module mod
  simp only [fun mod => (hadds mod).1, fun mod => (hadds mod).2.1, fun mod => (hadds mod).2.2.1,
    fun mod => (hadds mod).2.2.2, flatMap_libraries]
  refine ⟨?_, ?_, ?_, ?_⟩
  · induction mods with
    | nil => rfl
    | cons mod mods ih =>
      rw [List.flatMap_cons, ih, programNames, programNames, List.filter_cons]
      cases mod.isProgram <;> rfl
  · rw [libraryNames, List.map_map, List.map_eq_flatMap]
    rfl
  · rw [testBases, List.map_flatMap]
  · rw [libraryNames, List.map_map, List.map_eq_flatMap]
    rfl

theorem lib_words {names : List String} (h : ∀ l ∈ names, Ordinary l) :
    entryWords (names.map .lib) = names.map fun l => (Entry.lib l).text.toList := by
  rw [entryWords_eq, List.map_map]
  · rfl
  · intro e he
    obtain ⟨l, hl, rfl⟩ := List.mem_map.mp he
    exact ⟨ordinary_entry (by simpa [entryNames] using h l hl), fun hempty =>
      absurd (String.append_eq_empty_iff.mp hempty).2 (by decide)⟩

/-- The lists of products have the programs, libraries, mocks and runners of the modules. -/
theorem products_collected (plain : PlainTree tree) (accepted : acceptedModules tree = .ok mods)
    (h : written (tree, fragments) = some text)
    (leaves : ∀ v ∈ productLists, Leaves fragments mods v) :
    valueOf "bin_PROGRAMS".toList (read text.toList) =
      (programNames (sortedModules mods)).map String.toList ∧
    valueOf "noinst_LTLIBRARIES".toList (read text.toList) =
      (libraryNames (sortedModules mods)).map (fun l => (Entry.lib l).text.toList) ∧
    valueOf "check_PROGRAMS".toList (read text.toList) =
      (testBases (sortedModules mods)).map (fun base => (Entry.runner base).text.toList) ∧
    valueOf "check_LTLIBRARIES".toList (read text.toList) =
      ("cmock" :: (libraryNames (sortedModules mods)).map (· ++ "_mock")).map
        fun l => (Entry.lib l).text.toList := by
  have hplain : ∀ mod ∈ sortedModules mods, PlainModule mod := fun mod hmod =>
    accepted_plain plain accepted mod (sortedModules_perm.mem_iff.mp hmod)
  have hvalue : ∀ v ∈ productLists, valueOf v.toList (read text.toList) =
      entryWords (fixedProducts v ++
        (sortedModules mods).flatMap fun mod => (moduleParts mod).flatMap (adds v)) :=
    fun v hv => (valueOf_text plain accepted h (leaves v hv)).trans (parts_products hv)
  obtain ⟨hprograms, hlibraries, hrunners, hmocks⟩ := adds_modules (sortedModules mods)
  have hlibs := library_ordinary hplain
  have hmember : "bin_PROGRAMS" ∈ productLists ∧ "noinst_LTLIBRARIES" ∈ productLists ∧
      "check_PROGRAMS" ∈ productLists ∧ "check_LTLIBRARIES" ∈ productLists := by
    simp [productLists, libraryLists]
  have hfixed : fixedProducts "bin_PROGRAMS" = [] ∧ fixedProducts "noinst_LTLIBRARIES" = [] ∧
      fixedProducts "check_PROGRAMS" = [] ∧
      fixedProducts "check_LTLIBRARIES" = [.lib "cmock"] := by
    simp [fixedProducts]
  refine ⟨?_, ?_, ?_, ?_⟩
  · rw [hvalue _ hmember.1, hfixed.1, hprograms, List.nil_append, program_words hplain]
  · rw [hvalue _ hmember.2.1, hfixed.2.1, hlibraries, List.nil_append, lib_words hlibs]
  · rw [hvalue _ hmember.2.2.1, hfixed.2.2.1, hrunners, List.nil_append, runner_words hplain,
      List.map_map]
    rfl
  · have hentries : [Entry.lib "cmock"] ++ (libraryNames (sortedModules mods)).map .mockLib =
        ("cmock" :: (libraryNames (sortedModules mods)).map (· ++ "_mock")).map .lib := by
      rw [List.map_cons, List.map_map]
      rfl
    rw [hvalue _ hmember.2.2.2, hfixed.2.2.2, hmocks, hentries, lib_words]
    intro l hl
    rcases List.mem_cons.mp hl with rfl | hl
    · decide
    · obtain ⟨name, hname, rfl⟩ := List.mem_map.mp hl
      exact ordinary_append (hlibs name hname) (by decide)

/-- Automake finds the sources and the dependencies of a library under its name, if the
names of the modules go together and automake leaves this one as it is. -/
theorem libraries_collected (plain : PlainTree tree) (accepted : acceptedModules tree = .ok mods)
    (h : written (tree, fragments) = some text) (named : WellNamed mods) {mod : Module}
    (hmod : mod ∈ libraryModules mods)
    (hcanon : canonical (formatted mod.library) = formatted mod.library)
    (leaves : ∀ kind : VarKind, Leaves fragments mods
      (canonical (Entry.lib (formatted mod.library)).text ++ kind.text)) :
    valueOf (canonical (Entry.lib (formatted mod.library)).text ++ "_SOURCES").toList
      (read text.toList) = mod.sources.map (fun src => (pathJoin mod.sourceDir src).toList) ∧
    valueOf (canonical (Entry.lib (formatted mod.library)).text ++ "_LIBADD").toList
      (read text.toList) = mod.deps.map fun d => (Entry.lib d).text.toList := by
  obtain ⟨hmem, hprogram⟩ := mem_libraryModules.mp hmod
  have hplain := accepted_plain plain accepted mod hmem
  have hsorted := wellNamed_sorted.mpr named
  have once : DefinedOnce Var.isLibrary Var.text
      (definedVars (makefileOf (sortedModules mods)).parts) :=
    vars_iff.mpr ⟨⟨hsorted.once, hsorted.not_cmock, hsorted.not_mock⟩, hsorted.programs⟩
  have hvalue : ∀ (kind : VarKind) (entries : List Entry),
      Part.listvar (.of (.lib (formatted mod.library)) kind) entries false ∈ moduleParts mod →
      valueOf (canonical (Entry.lib (formatted mod.library)).text ++ kind.text).toList
        (read text.toList) = entryWords entries := by
    intro kind entries hpart
    have hset : Part.listvar (.of (.lib (formatted mod.library)) kind) entries false ∈
        (makefileOf (sortedModules mods)).parts := by
      refine List.mem_append_left _ (List.mem_append_right _ (List.mem_flatten.mpr ⟨_, ?_, hpart⟩))
      exact List.mem_map_of_mem (sortedModules_perm.mem_iff.mpr hmem)
    rw [valueOf_text plain accepted h (leaves kind), canonical_lib hcanon]
    exact library_collected rfl once hset
  constructor
  · refine (hvalue .sources (mod.sources.map fun src => .plain (pathJoin mod.sourceDir src))
      ?_).trans ?_
    · simp [moduleParts, hprogram]
    · rw [entryWords_eq, List.map_map]
      · rfl
      · intro e he
        obtain ⟨src, hsrc, rfl⟩ := List.mem_map.mp he
        exact ⟨hplain.sources src hsrc,
          pathJoin_ne_empty (accepted_sources accepted mod hmem src hsrc)⟩
  · refine (hvalue .libadd (mod.deps.map .lib) ?_).trans (lib_words hplain.deps)
    simp [moduleParts, hprogram]

end Trees

/-! ## The repository's two modules -/

theorem sourceFragments_leaves (mods : List Module) (v : String) :
    Leaves sourceFragments mods v := by
  have hnone : moduleMkStmts none = [] := by decide
  have hproject : projectMkStmts sourceFragments.projectMk =
      [.rule ["clean-local".toList] ["code-coverage-clean".toList],
        .rule ["distclean-local".toList] ["code-coverage-dist-clean".toList]] := by
    have hread : ∀ text, projectMkStmts (some (String.ofList text)) = read text := fun text =>
      congrArg read String.toList_ofList
    exact (hread _).trans (by decide)
  refine ⟨fun mod _ stmt hstmt => ?_, fun stmt hstmt => ?_⟩
  · change stmt ∈ moduleMkStmts none at hstmt
    rw [hnone] at hstmt
    exact absurd hstmt List.not_mem_nil
  · rw [hproject, List.mem_cons, List.mem_singleton] at hstmt
    rcases hstmt with rfl | rfl <;> rfl

theorem source_accepted : acceptedModules sourceTree = .ok sourceModules := by decide +kernel

theorem source_named : Named sourceModules := by
  unfold Named
  decide +kernel

theorem source_written : ∃ text, written (sourceTree, sourceFragments) = some text := by
  obtain ⟨text, hrender⟩ :=
    (@renderMakefile_iff sourceFragments sourceModules).mpr source_named
  exact ⟨text, written_iff.mpr ⟨_, source_accepted, hrender⟩⟩

theorem products_collected_source : ∃ text, written (sourceTree, sourceFragments) = some text ∧
    valueOf "bin_PROGRAMS".toList (read text.toList) = ["m65tool".toList] := by
  obtain ⟨text, htext⟩ := source_written
  obtain ⟨hprograms, -⟩ := products_collected sourceTree_plain source_accepted htext
    fun v _ => sourceFragments_leaves sourceModules v
  refine ⟨text, htext, hprograms.trans ?_⟩
  decide +kernel

theorem libraries_collected_source : ∃ text, written (sourceTree, sourceFragments) = some text ∧
    valueOf "libdatastruct_la_SOURCES".toList (read text.toList) =
      ["./src/datastruct/str.c".toList, "./src/datastruct/str.h".toList] := by
  obtain ⟨text, htext⟩ := source_written
  have hmod : ⟨"./src/datastruct/module.cfg", "datastruct", [], "./src/datastruct",
      ["str.c", "str.h"], "./tests/datastruct", ["test_mem.c", "test_str.c"], none,
      some "datastruct"⟩ ∈ libraryModules sourceModules := by
    decide +kernel
  obtain ⟨hsources, -⟩ := libraries_collected sourceTree_plain source_accepted htext
    sourceModules_named hmod (by decide +kernel) fun kind => sourceFragments_leaves _ _
  have hname : canonical (Entry.lib "datastruct").text ++ "_SOURCES" =
      "libdatastruct_la_SOURCES" := by
    decide +kernel
  rw [← hname]
  refine ⟨text, htext, hsources.trans ?_⟩
  decide +kernel

end M65Tool.Guarantees.MakefileCollected
