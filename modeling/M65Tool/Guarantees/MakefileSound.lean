import M65Tool.Guarantees.MakefileWords

/-!
# MAKEFILE-SOUND: the makefile that is written

The text of the makefile for an accepted tree defines all libraries, mocks and runner
sources that it names, and none of its definitions twice, exactly if the names in the
configurations go together. A name is taken to have no character that make gives a meaning:
the names are written as they are.
-/
namespace M65Tool.Guarantees.MakefileSound
open Source.Makemake Lib.MakeText Lib.Naming Lib.Splitting Lib.Effect
open MakefileParts MakefileUnambiguous MakefileClosed MakefileText MakefileWords

/-! ## Whole makefiles -/

section Makefiles
variable {mods : List Module}

theorem forall_parts {P : Part → Prop} (hpreamble : ∀ part ∈ makefilePreamble, P part)
    (hpostable : ∀ part ∈ makefilePostable, P part)
    (hmodules : ∀ mod ∈ mods, ∀ part ∈ moduleParts mod, P part) :
    ∀ part ∈ (makefileOf mods).parts, P part := by
  rw [Makefile.parts, List.forall_mem_append, List.forall_mem_append]
  refine ⟨⟨hpreamble, fun part hpart => ?_⟩, hpostable⟩
  obtain ⟨parts, hparts, hpart⟩ := List.mem_flatten.mp hpart
  obtain ⟨mod, hmod, rfl⟩ := List.mem_map.mp hparts
  exact hmodules mod hmod part hpart

theorem makefile_quiet (plain : ∀ mod ∈ mods, PlainModule mod) :
    ∀ part ∈ (makefileOf mods).parts, QuietPart part :=
  forall_parts preamble_quiet postable_quiet fun mod hmod => moduleParts_quiet (plain mod hmod)

theorem makefile_told (bare : ∀ mod ∈ mods, BareModule mod) :
    ∀ part ∈ (makefileOf mods).parts, ToldPart part :=
  forall_parts preamble_told postable_told fun mod hmod => moduleParts_told (bare mod hmod)

theorem makefile_plain (plain : ∀ mod ∈ mods, PlainModule mod) :
    ∀ part ∈ (makefileOf mods).parts, PlainPart part :=
  forall_parts preamble_plain postable_plain fun mod hmod => moduleParts_plain (plain mod hmod)

/-- Without fragments the statements are those of the parts. -/
theorem makefileStmts_none :
    makefileStmts noFragments mods = (makefileOf mods).parts.flatMap partStmts := by
  have hmodule : ∀ mod, moduleStmts noFragments mod = (moduleParts mod).flatMap partStmts :=
    fun mod => List.append_nil _
  have hflatten : (makefileOf mods).modules.flatten = mods.flatMap moduleParts :=
    List.flatMap_def.symm
  rw [makefileStmts, Makefile.parts, hflatten, List.flatMap_append, List.flatMap_append,
    List.flatMap_assoc, funext hmodule]
  exact List.append_nil _

/-! ### What is named -/

theorem bases_no_slash (bare : ∀ mod ∈ mods, BareModule mod) :
    ∀ base ∈ testBases mods, '/' ∉ base.toList := by
  intro base hbase
  obtain ⟨mod, hmod, hprogram, hbase⟩ := mem_testBases.mp hbase
  obtain ⟨test, htest, rfl⟩ := List.mem_map.mp hbase
  exact (((bare mod hmod).bareLibrary hprogram).2 test htest).not_mem rfl

theorem target_ordinary (plain : ∀ mod ∈ mods, PlainModule mod) :
    ∀ e ∈ targets (makefileOf mods).parts, Ordinary e.text := by
  intro e he
  obtain ⟨part, hpart, he⟩ := List.mem_flatMap.mp he
  have hplain := makefile_plain plain part hpart
  cases part with
  | text | listvar => cases he
  | rule targets prerequisites commands => exact hplain.1 e he
  | depends target prerequisites =>
    rw [List.mem_singleton.mp he]
    exact hplain.1

theorem library_ordinary (plain : ∀ mod ∈ mods, PlainModule mod) :
    ∀ l ∈ libraryNames mods, Ordinary l := by
  intro l hl
  obtain ⟨mod, hmod, rfl⟩ := List.mem_map.mp hl
  obtain ⟨hmem, hprogram⟩ := mem_libraryModules.mp hmod
  exact ((plain mod hmem).library hprogram).library

theorem lib_ordinary {l : String} (h : Ordinary l) : Ordinary (Entry.lib l).text :=
  ordinary_entry (List.forall_mem_singleton.mpr h)

theorem made_ordinary (plain : ∀ mod ∈ mods, PlainModule mod) :
    ∀ e ∈ made mods, Ordinary e.text := by
  rw [made, List.forall_mem_append, libraries_makefile, List.forall_mem_cons]
  refine ⟨target_ordinary plain, lib_ordinary (by decide), fun e he => ?_⟩
  obtain ⟨l, hl, he⟩ := List.mem_flatMap.mp he
  have hord := library_ordinary plain l hl
  simp only [List.mem_cons, List.not_mem_nil, or_false] at he
  rcases he with rfl | rfl
  · exact lib_ordinary hord
  · exact lib_ordinary (ordinary_append hord (by decide))

theorem closed_makefile (bare : ∀ mod ∈ mods, BareModule mod) :
    Closed (makefileStmts noFragments mods) ↔
      ∀ e ∈ mentions (makefileOf mods).parts, e.isNamed = true → e ∈ made mods := by
  have plain : ∀ mod ∈ mods, PlainModule mod := fun mod hmod => (bare mod hmod).toPlainModule
  rw [makefileStmts_none]
  exact closed_parts (makefile_quiet plain) (makefile_told bare) fun e he =>
    ⟨made_all (bases_no_slash bare) e he, made_ordinary plain e he⟩

/-! ### What is defined -/

theorem rules_makefile (bare : ∀ mod ∈ mods, BareModule mod) :
    ((makefileStmts noFragments mods).flatMap Stmt.targets).Nodup ↔
      ((targets (makefileOf mods).parts).map Entry.text).Nodup := by
  have plain : ∀ mod ∈ mods, PlainModule mod := fun mod hmod => (bare mod hmod).toPlainModule
  have hmade : ∀ e ∈ targets (makefileOf mods).parts, Ordinary e.text ∧ e.text ≠ "" := fun e he =>
    ⟨target_ordinary plain e he, made_ne_empty
      (made_all (bases_no_slash bare) e (List.mem_append_left _ he))⟩
  rw [makefileStmts_none, (parts_lists (makefile_quiet plain) fun _ => true).1, entryWords_eq hmade,
    ← List.nodup_map_iff (f := String.toList) fun _ _ => String.toList_inj.mp, List.map_map]
  rfl

theorem program_ne_empty {mod : Module} (h : mod.isProgram = true) :
    formatted mod.program ≠ "" := by
  rw [Module.isProgram] at h
  cases hprogram : mod.program with
  | none =>
    rw [hprogram] at h
    cases h
  | some p =>
    rw [hprogram] at h
    exact bne_iff_ne.mp h

theorem program_words (plain : ∀ mod ∈ mods, PlainModule mod) :
    entryWords ((programNames mods).map .plain) = (programNames mods).map String.toList := by
  rw [entryWords_eq, List.map_map]
  · rfl
  · intro e he
    obtain ⟨p, hp, rfl⟩ := List.mem_map.mp he
    obtain ⟨mod, hmod, hprogram, rfl⟩ := mem_programNames.mp hp
    exact ⟨(plain mod hmod).program, program_ne_empty hprogram⟩

theorem runner_words (plain : ∀ mod ∈ mods, PlainModule mod) :
    entryWords ((testBases mods).map .runner) =
      ((testBases mods).map fun base => (Entry.runner base).text).map String.toList := by
  rw [entryWords_eq, List.map_map, List.map_map]
  · rfl
  · intro e he
    obtain ⟨base, hbase, rfl⟩ := List.mem_map.mp he
    obtain ⟨mod, hmod, hprogram, hbase⟩ := mem_testBases.mp hbase
    obtain ⟨test, htest, rfl⟩ := List.mem_map.mp hbase
    have hord := ordinary_testBase (((plain mod hmod).library hprogram).tests test htest).1
    refine ⟨ordinary_entry (by simpa [entryNames] using hord), fun hempty => ?_⟩
    exact absurd (String.append_eq_empty_iff.mp hempty).1 (by decide)

/-- The programs and the runners that are listed. -/
theorem programs_listed (plain : ∀ mod ∈ mods, PlainModule mod) :
    assigned (makefileStmts noFragments mods) (· == "bin_PROGRAMS") =
      (programNames mods).map String.toList ∧
    assigned (makefileStmts noFragments mods) (· == "check_PROGRAMS") =
      ((testBases mods).map fun base => (Entry.runner base).text).map String.toList := by
  have hlists := fun kind => (parts_lists (makefile_quiet plain) kind).2.2.1
  rw [makefileStmts_none, hlists, hlists, programs_makefile, runners_makefile,
    program_words plain, runner_words plain]
  exact ⟨rfl, rfl⟩

/-- No runner program is made twice, exactly if the tests have different names and no
program has a runner's. -/
theorem runners_iff (plain : ∀ mod ∈ mods, PlainModule mod) :
    ((assigned (makefileStmts noFragments mods) (· == "check_PROGRAMS")).Nodup ∧
      (assigned (makefileStmts noFragments mods) (· == "check_PROGRAMS")).Disjoint
        (assigned (makefileStmts noFragments mods) (· == "bin_PROGRAMS"))) ↔
    (testBases mods).Nodup ∧
      ∀ p ∈ programNames mods, ∀ base ∈ testBases mods, p ≠ "tests/runners/" ++ base := by
  obtain ⟨hprograms, hrunners⟩ := programs_listed plain
  have hinj : Function.Injective String.toList := fun _ _ => String.toList_inj.mp
  have hrunner : Function.Injective fun base => (Entry.runner base).text :=
    fun _ _ h => (String.append_right_inj "tests/runners/").mp h
  rw [hprograms, hrunners, List.nodup_map_iff hinj, List.nodup_map_iff hrunner]
  refine and_congr_right' ?_
  constructor
  · rintro hapart p hp base hbase rfl
    exact hapart (List.mem_map_of_mem (List.mem_map_of_mem hbase)) (List.mem_map_of_mem hp)
  · intro hapart word hword hword'
    obtain ⟨runner, hmem, rfl⟩ := List.mem_map.mp hword
    obtain ⟨base, hbase, rfl⟩ := List.mem_map.mp hmem
    obtain ⟨p, hp, heq⟩ := List.mem_map.mp hword'
    exact hapart p hp base hbase (hinj heq)

/-! ### The variables of libraries -/

theorem isLibraryStem_iff {name : String} : isLibraryStem name = true ↔
    ∃ stem : Stem, stem.isLibrary = true ∧ stem.text = name := by
  have hmiddle : ∀ start : String, (middle start.toList "_la".toList name.toList).isSome = true ↔
      ∃ x : String, start ++ x ++ "_la" = name := by
    intro start
    rw [Option.isSome_iff_exists]
    constructor
    · rintro ⟨x, hx⟩
      refine ⟨String.ofList x, String.toList_inj.mp ?_⟩
      rw [pasted_toList, String.toList_ofList, middle_eq_some.mp hx]
    · rintro ⟨x, rfl⟩
      exact ⟨x.toList, middle_eq_some.mpr (pasted_toList _ _ _)⟩
  simp only [isLibraryStem, List.any_cons, List.any_nil, Bool.or_false, Bool.or_eq_true, hmiddle]
  constructor
  · rintro (⟨x, hx⟩ | ⟨x, hx⟩)
    · exact ⟨.lib x, rfl, hx⟩
    · exact ⟨.nodistLib x, rfl, hx⟩
  · rintro ⟨stem, hstem, htext⟩
    cases stem with
    | program | runner | nodistRunner => cases hstem
    | lib x => exact Or.inl ⟨x, htext⟩
    | nodistLib x => exact Or.inr ⟨x, htext⟩

theorem isLibraryVar_iff {name : String} : isLibraryVar name.toList = true ↔
    ∃ stem kind, stem.isLibrary = true ∧ (Var.of stem kind).text = name := by
  have hkinds : ∀ kind : VarKind, kind ∈ [VarKind.sources, .ldadd, .libadd, .cppflags] := by
    intro kind
    cases kind <;> simp
  rw [isLibraryVar, List.any_eq_true]
  simp only [Option.any_eq_true, middle_eq_some, List.nil_append, isLibraryStem_iff]
  constructor
  · rintro ⟨kind, -, x, hx, stem, hstem, htext⟩
    refine ⟨stem, kind, hstem, String.toList_inj.mp ?_⟩
    rw [Var.text, String.toList_append, htext, String.toList_ofList, hx]
  · rintro ⟨stem, kind, hstem, rfl⟩
    refine ⟨kind, hkinds kind, stem.text.toList, ?_, stem, hstem, ?_⟩
    · rw [Var.text, String.toList_append]
    · rw [String.ofList_toList]

/-- A variable with an ending has a library's name exactly if the rest is one. -/
theorem isLibraryVar_of (stem : Stem) (kind : VarKind) :
    isLibraryVar (Var.of stem kind).text.toList = isLibraryStem stem.text := by
  rw [Bool.eq_iff_iff, isLibraryVar_iff, isLibraryStem_iff]
  constructor
  · rintro ⟨stem', kind', hstem, htext⟩
    exact ⟨stem', hstem, (var_inj.mp htext).1⟩
  · rintro ⟨stem', hstem, htext⟩
    exact ⟨stem', kind, hstem, var_inj.mpr ⟨htext, rfl⟩⟩

/-- The variables that have a library's name and belong to a program. -/
def strayVars (vars : List Var) : List Var :=
  vars.filter fun var => isLibraryVar var.text.toList && !var.isLibrary

theorem stray_module (mod : Module) : strayVars (moduleVars mod) = if mod.isProgram then
    (if isLibraryStem (formatted mod.program) then
      [.of (.program (formatted mod.program)) .sources,
        .of (.program (formatted mod.program)) .ldadd] else []) else [] := by
  have hrunner : ∀ b, isLibraryStem (Stem.runner b).text = false ∧
      isLibraryStem (Stem.nodistRunner b).text = false := by
    intro b
    constructor
    · refine Bool.eq_false_iff.mpr fun h => ?_
      obtain ⟨stem, hstem, htext⟩ := isLibraryStem_iff.mp h
      exact (library_ne_runner hstem b).1 htext
    · refine Bool.eq_false_iff.mpr fun h => ?_
      obtain ⟨stem, hstem, htext⟩ := isLibraryStem_iff.mp h
      exact (library_ne_runner hstem b).2 htext
  unfold moduleVars
  cases mod.isProgram with
  | true =>
    have hlook : ∀ var ∈ [Var.of (.program (formatted mod.program)) .sources,
        .of (.program (formatted mod.program)) .ldadd],
        (isLibraryVar var.text.toList && !var.isLibrary) =
          isLibraryStem (formatted mod.program) := by
      rw [List.forall_mem_cons, List.forall_mem_singleton, isLibraryVar_of, isLibraryVar_of]
      exact ⟨Bool.and_true _, Bool.and_true _⟩
    rw [if_pos rfl, if_pos rfl, strayVars]
    cases hstem : isLibraryStem (formatted mod.program) with
    | true => exact List.filter_eq_self.mpr fun var hvar => (hlook var hvar).trans hstem
    | false =>
      refine List.filter_eq_nil_iff.mpr fun var hvar => ?_
      rw [hlook var hvar, hstem]
      exact Bool.false_ne_true
  | false =>
    rw [if_neg Bool.false_ne_true, if_neg Bool.false_ne_true, strayVars, List.filter_append]
    have hlibrary : (libraryVars (formatted mod.library)).filter
        (fun var => isLibraryVar var.text.toList && !var.isLibrary) = [] :=
      List.filter_eq_nil_iff.mpr fun var hvar => by
        simp only [libraryVars, List.mem_cons, List.not_mem_nil, or_false] at hvar
        rcases hvar with rfl | rfl | rfl | rfl | rfl <;> simp [Var.isLibrary, Stem.isLibrary]
    have htests : ((mod.tests.map testBase).flatMap testVars).filter
        (fun var => isLibraryVar var.text.toList && !var.isLibrary) = [] :=
      List.filter_eq_nil_iff.mpr fun var hvar => by
        obtain ⟨base, -, hvar⟩ := List.mem_flatMap.mp hvar
        simp only [testVars, List.mem_cons, List.not_mem_nil, or_false] at hvar
        rcases hvar with rfl | rfl | rfl | rfl <;> simp [isLibraryVar_of, hrunner]
    rw [hlibrary, htests, List.nil_append]

theorem stray_fixed : strayVars (definedVars makefilePreamble) = [] ∧
    strayVars (definedVars makefilePostable) = [] := by
  have hnone : ∀ var ∈ definedVars makefilePreamble ++ definedVars makefilePostable,
      ¬ (isLibraryVar var.text.toList && !var.isLibrary) = true := by
    intro var hvar hstray
    obtain ⟨hlook, hother⟩ := Bool.and_eq_true_iff.mp hstray
    obtain ⟨hplain, hlib, hnodist⟩ := fixedVars var hvar (Bool.not_eq_true' _ ▸ hother)
    obtain ⟨stem, kind, hstem, htext⟩ := isLibraryVar_iff.mp hlook
    exact library_ne_plain hstem hlib hnodist htext
  exact ⟨List.filter_eq_nil_iff.mpr fun var hvar => hnone var (List.mem_append_left _ hvar),
    List.filter_eq_nil_iff.mpr fun var hvar => hnone var (List.mem_append_right _ hvar)⟩

theorem stray_makefile (mods : List Module) : strayVars (definedVars (makefileOf mods).parts) =
    ((programNames mods).filter isLibraryStem).flatMap fun p =>
      [.of (.program p) .sources, .of (.program p) .ldadd] := by
  have hmodules : strayVars (mods.flatMap moduleVars) =
      ((programNames mods).filter isLibraryStem).flatMap fun p =>
        [.of (.program p) .sources, .of (.program p) .ldadd] := by
    induction mods with
    | nil => rfl
    | cons mod mods ih =>
      rw [List.flatMap_cons, strayVars, List.filter_append, ← strayVars, ← strayVars, ih,
        stray_module, programNames, programNames, List.filter_cons]
      cases mod.isProgram with
      | false => rfl
      | true =>
        rw [if_pos rfl, if_pos rfl, List.map_cons, List.filter_cons]
        cases isLibraryStem (formatted mod.program) <;> rfl
  rw [definedVars_makefile, strayVars, List.filter_append, List.filter_append, ← strayVars,
    ← strayVars, ← strayVars, stray_fixed.1, stray_fixed.2, hmodules, List.append_nil,
    List.nil_append]

/-- The variables of two programs of one name. -/
theorem programVars_nodup {names : List String} :
    ((names.flatMap fun p => [Var.of (.program p) .sources, .of (.program p) .ldadd]).map
      fun var => var.text.toList).Nodup ↔ names.Nodup := by
  have htext : ∀ kind, Function.Injective fun p => (Var.of (.program p) kind).text.toList :=
    fun kind _ _ h => (var_inj.mp (String.toList_inj.mp h)).1
  have hmap : (names.flatMap fun p => [Var.of (.program p) .sources, .of (.program p) .ldadd]).map
      (fun var => var.text.toList) = names.flatMap fun p =>
        [(Var.of (.program p) .sources).text.toList, (Var.of (.program p) .ldadd).text.toList] := by
    rw [List.map_flatMap]
    rfl
  rw [hmap]
  constructor
  · intro hnodup
    refine (List.nodup_flatMap.mp hnodup).2.imp ?_
    rintro p p' hdisjoint rfl
    exact hdisjoint List.mem_cons_self List.mem_cons_self
  · refine nodup_pairs (htext .sources) (htext .ldadd) fun p p' h => ?_
    exact absurd (var_inj.mp (String.toList_inj.mp h)).2 VarKind.noConfusion

/-- No variable of a library is defined twice, exactly if those of the libraries are defined
once and no two programs share a library's name. -/
theorem vars_makefile (plain : ∀ mod ∈ mods, PlainModule mod) :
    (((makefileStmts noFragments mods).flatMap Stmt.defined).filter isLibraryVar).Nodup ↔
      DefinedOnce Var.isLibrary Var.text (definedVars (makefileOf mods).parts) ∧
        ((programNames mods).filter isLibraryStem).Nodup := by
  have hlook : ∀ var ∈ definedVars (makefileOf mods).parts, var.isLibrary = true →
      isLibraryVar var.text.toList = true := by
    intro var _ hlibrary
    cases var with
    | plain => cases hlibrary
    | of stem kind => exact isLibraryVar_iff.mpr ⟨stem, kind, hlibrary, rfl⟩
  have honce : DefinedOnce Var.isLibrary (fun var => var.text.toList)
      (definedVars (makefileOf mods).parts) ↔
        DefinedOnce Var.isLibrary Var.text (definedVars (makefileOf mods).parts) := by
    unfold DefinedOnce
    simp only [ne_eq, String.toList_inj]
  rw [makefileStmts_none, (parts_lists (makefile_quiet plain) fun _ => true).2.2.2,
    nodup_texts_iff hlook, honce, ← strayVars, stray_makefile, programVars_nodup]

end Makefiles

/-! ## Accepted trees -/

/-- The names that are written for a module have no character that make gives a meaning. A
program's library field and tests are not written. -/
structure BareNames (mod : Module) : Prop where
  name : Bare mod.name
  program : Ordinary (formatted mod.program)
  sources : ∀ src ∈ mod.sources, Ordinary (pathJoin mod.sourceDir src)
  library : mod.isProgram = false → Bare (formatted mod.library) ∧ Ordinary mod.sourceDir ∧
    ∀ test ∈ mod.tests, Bare test ∧ Ordinary mod.testsDir

section Accepted
variable {tree : Tree} {mods : List Module}

theorem bare_testBase {test : String} (h : Bare test) : Bare (testBase test) := by
  intro c hc
  rw [testBase, String.toList_ofList] at hc
  exact h c (List.dropLast_subset _ (List.dropLast_subset _ hc))

theorem testBase_head {test : String} (h : startswith test "test_" = true) :
    (testBase test).toList.head? = some 't' := by
  obtain ⟨rest, rfl⟩ := startswith_iff.mp h
  have hlist : ("test_" ++ String.ofList rest).toList = 't' :: 'e' :: 's' :: 't' :: '_' :: rest := by
    simp
  rw [testBase, String.toList_ofList, hlist]
  rfl

theorem sourceName_last {src : String} (h : (endswith src ".c" || endswith src ".h") = true) :
    src.toList.getLast? ≠ some 'a' ∧ src ≠ "" := by
  have hends : ∃ before c, src.toList = before ++ ['.', c] ∧ c ≠ 'a' := by
    rcases Bool.or_eq_true_iff.mp h with hend | hend
    · rw [endswith, List.isSuffixOf_iff_suffix] at hend
      obtain ⟨before, hbefore⟩ := hend
      exact ⟨before, 'c', hbefore.symm.trans (by simp), by decide⟩
    · rw [endswith, List.isSuffixOf_iff_suffix] at hend
      obtain ⟨before, hbefore⟩ := hend
      exact ⟨before, 'h', hbefore.symm.trans (by simp), by decide⟩
  obtain ⟨before, c, hsrc, hc⟩ := hends
  constructor
  · rw [hsrc]
    simpa using hc
  · rintro rfl
    simp at hsrc

theorem srcDir_ends (tree : Tree) : ∃ root : String, tree.srcDir = root ++ "src" := by
  have hstart : startswith "src" "/" = false := by decide
  rw [Tree.srcDir, pathJoin, hstart, if_neg Bool.false_ne_true]
  split
  · exact ⟨_, rfl⟩
  · exact ⟨_, rfl⟩

theorem sourceDir_below {name : String} (hname : '/' ∉ name.toList) :
    ∃ root : String, pathJoin tree.srcDir name = root ++ "src" ++ "/" ++ name := by
  obtain ⟨root, hroot⟩ := srcDir_ends tree
  refine ⟨root, ?_⟩
  have hstart : startswith name "/" = false := by
    refine Bool.eq_false_iff.mpr fun hstarts => ?_
    obtain ⟨rest, rfl⟩ := startswith_iff.mp hstarts
    exact hname (by simp)
  have hends : ¬ (root ++ "src" = "" ∨ endswith (root ++ "src") "/" = true) := by
    rintro (hempty | hends)
    · have hlist := congrArg String.toList hempty
      simp at hlist
    · rw [endswith, List.isSuffixOf_iff_suffix] at hends
      obtain ⟨before, hbefore⟩ := hends
      have hlast := congrArg List.getLast? hbefore
      simp at hlast
  rw [hroot, pathJoin, hstart, if_neg Bool.false_ne_true, if_neg hends]

theorem accepted_bare (accepted : acceptedModules tree = .ok mods)
    (bare : ∀ mod ∈ mods, BareNames mod) : ∀ mod ∈ mods, BareModule mod := by
  obtain ⟨found, hfound, hmods⟩ := except_bind_ok accepted
  obtain ⟨_, hdeps, hmods⟩ := except_bind_ok hmods
  obtain rfl : found.map (buildModule tree) = mods := Except.ok.inj hmods
  intro mod hmod
  have hbare := bare mod hmod
  have hmodDeps : ∀ d ∈ mod.deps, Bare d := by
    intro d hd
    obtain ⟨mod', hmod', rfl⟩ := checkDeps_modules hdeps d (List.mem_flatMap.mpr ⟨_, hmod, hd⟩)
    exact (bare mod' hmod').name
  obtain ⟨pair, hpair, rfl⟩ := List.mem_map.mp hmod
  obtain ⟨hitem, -⟩ := getModuleConfig_parsed hfound pair hpair
  obtain ⟨hne, -, hfiles⟩ := tree.names _ hitem
  have hplain : PlainModule (buildModule tree pair) := by
    refine ⟨hbare.name.ordinary, fun d hd => (hmodDeps d hd).ordinary, hbare.sources,
      hbare.program, fun hprogram => ?_⟩
    obtain ⟨hlibrary, hdir, htests⟩ := hbare.library hprogram
    exact ⟨hlibrary.ordinary, hdir, fun test htest =>
      ⟨(htests test htest).1.ordinary, (htests test htest).2⟩⟩
  refine ⟨hplain, hbare.name, hmodDeps, fun hprogram => ?_, fun src hsrc => ?_,
    sourceDir_below (hbare.name.not_mem rfl), hne, fun test htest => ?_⟩
  · obtain ⟨hlibrary, -, htests⟩ := hbare.library hprogram
    exact ⟨hlibrary, fun test htest => bare_testBase (htests test htest).1⟩
  · obtain ⟨hmem, hkind⟩ := List.mem_filter.mp hsrc
    exact ⟨hfiles src hmem, sourceName_last hkind⟩
  · obtain ⟨-, hkind⟩ := List.mem_filter.mp htest
    exact testBase_head (Bool.and_eq_true_iff.mp hkind).1

end Accepted

/-- The makefile of named libraries is as it should be exactly if the names go together. -/
theorem wellNamed_iff {mods : List Module} (hnames : (mods.map Module.name).Nodup)
    (bare : ∀ mod ∈ mods, BareModule mod)
    (hnamed : ∀ mod ∈ libraryModules mods, mod.library ≠ none) :
    Closed (makefileStmts noFragments mods) ∧ Unambiguous (makefileStmts noFragments mods) ↔
      WellNamed mods := by
  have plain : ∀ mod ∈ mods, PlainModule mod := fun mod hmod => (bare mod hmod).toPlainModule
  have hrules := (rules_makefile bare).trans (rules_iff hnames (bases_no_slash bare))
  constructor
  · rintro ⟨hclosed, hunambiguous⟩
    obtain ⟨hdeps, hmockLibs, hmocks, hcleaned⟩ := closed_iff.mp ((closed_makefile bare).mp hclosed)
    obtain ⟨hvars, hstray⟩ := (vars_makefile plain).mp hunambiguous.vars
    obtain ⟨⟨honce, hcmock, hmock⟩, hprograms⟩ := vars_iff.mp hvars
    obtain ⟨htests, hrunners⟩ := (runners_iff plain).mp hunambiguous.runners
    exact ⟨hnamed, hdeps, hmockLibs, hmocks, hcleaned, honce, hcmock, hmock, hprograms, hstray,
      hrunners, htests⟩
  · intro h
    refine ⟨(closed_makefile bare).mpr (closed_iff.mpr ⟨h.deps, h.mockLibs, h.mocks, h.cleaned⟩),
      ?_, ?_, ?_⟩
    · exact (runners_iff plain).mpr ⟨h.tests, h.runners⟩
    · exact (vars_makefile plain).mpr
        ⟨vars_iff.mpr ⟨⟨h.once, h.not_cmock, h.not_mock⟩, h.programs⟩, h.programs_once⟩
    · exact hrules.mpr h.tests

theorem sourceModules_bare : ∀ mod ∈ sourceModules, BareNames mod := by
  rw [sourceModules, List.forall_mem_cons, List.forall_mem_singleton]
  constructor
  · exact ⟨by decide +kernel, by decide +kernel, by decide +kernel, by decide +kernel⟩
  · exact ⟨by decide +kernel, by decide +kernel, by decide +kernel, by decide +kernel⟩

theorem boardModules_bare : ∀ mod ∈ boardModules, BareModule mod := by
  have haccepted : acceptedModules boardTree = .ok boardModules := by decide +kernel
  refine accepted_bare haccepted ?_
  rw [boardModules, List.forall_mem_cons, List.forall_mem_singleton]
  constructor
  · exact ⟨by decide +kernel, by decide +kernel, by decide +kernel, by decide +kernel⟩
  · exact ⟨by decide +kernel, by decide +kernel, by decide +kernel, by decide +kernel⟩

end M65Tool.Guarantees.MakefileSound
