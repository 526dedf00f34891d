import M65Tool.Guarantees.MakefileUnambiguous

/-!
# MAKEFILE-CLOSED: what the parts of the generated makefile refer to

The parts for an accepted tree define all libraries, mocks and runner sources that they
name, and none of the definitions twice, exactly if the names in the configurations go
together. What this means for the words of the text is settled elsewhere.
-/
namespace M65Tool.Guarantees.MakefileClosed
open Source.Makemake Lib.Naming Lib.Effect MakefileParts MakefileUnambiguous

/-! ## What is named -/

section Named
variable {mods : List Module}

/-- What is made. -/
def made (mods : List Module) : List Entry :=
  targets (makefileOf mods).parts ++ values (makefileOf mods).parts (· ∈ libraryLists)

theorem mem_made {e : Entry} : e ∈ made mods ↔
    (∃ mod ∈ libraryModules mods, e ∈ libraryTargets mod) ∨ e = .lib "cmock" ∨
      ∃ l ∈ libraryNames mods, e = .lib l ∨ e = .mockLib l := by
  rw [made, targets_makefile, libraries_makefile, List.mem_append, List.mem_flatMap,
    List.mem_cons, List.mem_flatMap]
  simp only [List.mem_cons, List.not_mem_nil, or_false]

theorem mem_libraryTargets {mod : Module} {e : Entry} : e ∈ libraryTargets mod ↔
    (e = .mockC mod.name ∨ e = .mockH mod.name) ∨
      ∃ base ∈ mod.tests.map testBase, e = .runnerC base ∨ e = .object mod.testsDir base := by
  rw [libraryTargets, List.mem_append, List.mem_flatMap]
  simp only [List.mem_cons, List.not_mem_nil, or_false]

theorem lib_made {d : String} : .lib d ∈ made mods ↔
    d = "cmock" ∨ ∃ l ∈ libraryNames mods, d = l ∨ d = l ++ "_mock" := by
  simp [mem_made, mem_libraryTargets, Entry.mockLib]

theorem mockC_made {d : String} :
    .mockC d ∈ made mods ↔ ∃ mod ∈ libraryModules mods, mod.name = d := by
  simp [mem_made, mem_libraryTargets, Entry.mockLib, eq_comm]

theorem mockH_made {d : String} :
    .mockH d ∈ made mods ↔ ∃ mod ∈ libraryModules mods, mod.name = d := by
  simp [mem_made, mem_libraryTargets, Entry.mockLib, eq_comm]

theorem runnerC_made {base : String} : .runnerC base ∈ made mods ↔ base ∈ testBases mods := by
  simp [mem_made, mem_libraryTargets, Entry.mockLib, testBases]

/-- A library of that name has a mock, or is itself named like one. -/
theorem mockLib_made {d : String} : .mockLib d ∈ made mods ↔
    ∃ l ∈ libraryNames mods, d = l ∨ d ++ "_mock" = l := by
  rw [Entry.mockLib, lib_made, or_iff_right (cmock_ne_mock d).symm]
  simp only [String.append_left_inj, or_comm]

theorem made_all (hbases : ∀ base ∈ testBases mods, '/' ∉ base.toList) :
    ∀ e ∈ made mods, e.Made := by
  intro e he
  rcases mem_made.mp he with ⟨mod, hmod, he⟩ | rfl | ⟨l, -, rfl | rfl⟩
  · exact targets_made hbases e (List.mem_flatMap.mpr ⟨mod, hmod, he⟩)
  · exact .lib _
  · exact .lib _
  · exact .lib _

/-- Apart from the modules' parts, only the library of the mocks is named. -/
theorem mentions_makefile (P : Entry → Prop) :
    (∀ e ∈ mentions (makefileOf mods).parts, e.isNamed = true → P e) ↔
      P (.lib "cmock") ∧
        ∀ mod ∈ mods, ∀ e ∈ mentions (moduleParts mod), e.isNamed = true → P e := by
  rw [mentions, flatMap_parts, List.forall_mem_append, List.forall_mem_append]
  have hpreamble : (∀ e ∈ makefilePreamble.flatMap partMentions, e.isNamed = true → P e) ↔
      P (.lib "cmock") := by
    simp [makefilePreamble, partMentions, Entry.isNamed]
  have hpostable : ∀ e ∈ makefilePostable.flatMap partMentions, e.isNamed = true → P e := by
    simp [makefilePostable, partMentions, Entry.isNamed]
  rw [hpreamble, and_iff_left hpostable]
  refine and_congr_right' ?_
  constructor
  · exact fun hall mod hmod e he => hall e (List.mem_flatMap.mpr ⟨mod, hmod, he⟩)
  · intro hall e he
    obtain ⟨mod, hmod, he⟩ := List.mem_flatMap.mp he
    exact hall mod hmod e he

/-- The entries of a program are made exactly if its dependencies are libraries. -/
theorem program_closed {mod : Module} (h : mod.isProgram = true) :
    (∀ e ∈ mentions (moduleParts mod), e.isNamed = true → e ∈ made mods) ↔
      ∀ d ∈ mod.deps, d = "cmock" ∨ ∃ l ∈ libraryNames mods, d = l ∨ d = l ++ "_mock" := by
  rw [mentions_program h (· ∈ made mods)]
  simp only [lib_made]

theorem formatted_mem {mod : Module} (hmod : mod ∈ libraryModules mods) :
    formatted mod.library ∈ libraryNames mods :=
  List.mem_map_of_mem hmod

/-- The entries of a test, given that its library is made. -/
theorem test_closed {mod : Module} (hmod : mod ∈ libraryModules mods) {base : String}
    (hbase : base ∈ mod.tests.map testBase) :
    (∀ e ∈ mentions (renderTest mod base), e.isNamed = true → e ∈ made mods) ↔
      ∀ d ∈ mod.deps, (∃ l ∈ libraryNames mods, d = l ∨ d ++ "_mock" = l) ∧
        ∃ mod' ∈ libraryModules mods, mod'.name = d := by
  have hrunner : base ∈ testBases mods := List.mem_flatMap.mpr ⟨mod, hmod, hbase⟩
  have hlibrary : Entry.lib (formatted mod.library) ∈ made mods :=
    lib_made.mpr (Or.inr ⟨_, formatted_mem hmod, Or.inl rfl⟩)
  rw [mentions_test mod base (· ∈ made mods), and_iff_right (runnerC_made.mpr hrunner),
    and_iff_right (lib_made.mpr (Or.inl rfl)), and_iff_right hlibrary]
  simp only [mockC_made, mockH_made, mockLib_made]
  exact forall₂_congr fun d _ => ⟨fun h => ⟨h.2.2, h.1⟩, fun h => ⟨h.2, h.2, h.1⟩⟩

theorem library_closed {mod : Module} (hmod : mod ∈ libraryModules mods) :
    (∀ e ∈ mentions (moduleParts mod), e.isNamed = true → e ∈ made mods) ↔
      (∀ d ∈ mod.deps, d = "cmock" ∨ ∃ l ∈ libraryNames mods, d = l ∨ d = l ++ "_mock") ∧
      (∃ mod' ∈ libraryModules mods, mod'.name = formatted mod.library) ∧
      (mod.tests ≠ [] → ∀ d ∈ mod.deps, (∃ l ∈ libraryNames mods, d = l ∨ d ++ "_mock" = l) ∧
        ∃ mod' ∈ libraryModules mods, mod'.name = d) := by
  have hname : ∃ mod' ∈ libraryModules mods, mod'.name = mod.name := ⟨mod, hmod, rfl⟩
  have hlibrary := formatted_mem hmod
  have htests : (∀ base ∈ mod.tests.map testBase, ∀ e ∈ mentions (renderTest mod base),
      e.isNamed = true → e ∈ made mods) ↔ (mod.tests ≠ [] → ∀ d ∈ mod.deps,
        (∃ l ∈ libraryNames mods, d = l ∨ d ++ "_mock" = l) ∧
          ∃ mod' ∈ libraryModules mods, mod'.name = d) := by
    constructor
    · intro hall hne
      obtain ⟨test, htest⟩ := List.exists_mem_of_ne_nil _ hne
      have hbase : testBase test ∈ mod.tests.map testBase := List.mem_map_of_mem htest
      exact (test_closed hmod hbase).mp (hall _ hbase)
    · intro hall base hbase
      refine (test_closed hmod hbase).mpr (hall ?_)
      intro hnil
      rw [hnil] at hbase
      cases hbase
  rw [mentions_library (mem_libraryModules.mp hmod).2 (· ∈ made mods), htests]
  simp only [lib_made, mockC_made, mockH_made, mockLib_made, hname, true_or, true_and]
  have hmock : ∃ l ∈ libraryNames mods,
      formatted mod.library = l ∨ formatted mod.library ++ "_mock" = l :=
    ⟨_, hlibrary, Or.inl rfl⟩
  have hlib : formatted mod.library = "cmock" ∨ ∃ l ∈ libraryNames mods,
      formatted mod.library = l ∨ formatted mod.library = l ++ "_mock" :=
    Or.inr ⟨_, hlibrary, Or.inl rfl⟩
  rw [and_iff_right hlib, and_iff_right hmock, and_self, and_assoc]

/-- All that is named is made, exactly if the names in the configurations are those of
the modules. -/
theorem closed_iff :
    (∀ e ∈ mentions (makefileOf mods).parts, e.isNamed = true → e ∈ made mods) ↔
      (∀ mod ∈ mods, ∀ d ∈ mod.deps,
        d = "cmock" ∨ ∃ l ∈ libraryNames mods, d = l ∨ d = l ++ "_mock") ∧
      (∀ mod ∈ libraryModules mods, mod.tests ≠ [] → ∀ d ∈ mod.deps,
        ∃ l ∈ libraryNames mods, d = l ∨ d ++ "_mock" = l) ∧
      (∀ mod ∈ libraryModules mods, mod.tests ≠ [] → ∀ d ∈ mod.deps,
        ∃ mod' ∈ libraryModules mods, mod'.name = d) ∧
      ∀ l ∈ libraryNames mods, ∃ mod ∈ libraryModules mods, mod.name = l := by
  rw [mentions_makefile (· ∈ made mods), and_iff_right (lib_made.mpr (Or.inl rfl))]
  constructor
  · intro hall
    have hlibrary := fun mod hmod =>
      (library_closed hmod).mp (hall mod (mem_libraryModules.mp hmod).1)
    refine ⟨?_, ?_, ?_, ?_⟩
    · intro mod hmod
      cases hprogram : mod.isProgram with
      | true => exact (program_closed hprogram).mp (hall mod hmod)
      | false => exact (hlibrary mod (mem_libraryModules.mpr ⟨hmod, hprogram⟩)).1
    · exact fun mod hmod htests d hd => ((hlibrary mod hmod).2.2 htests d hd).1
    · exact fun mod hmod htests d hd => ((hlibrary mod hmod).2.2 htests d hd).2
    · intro l hl
      obtain ⟨mod, hmod, rfl⟩ := List.mem_map.mp hl
      exact (hlibrary mod hmod).2.1
  · rintro ⟨hdeps, hmockLibs, hmocks, hcleaned⟩ mod hmod
    cases hprogram : mod.isProgram with
    | true => exact (program_closed hprogram).mpr (hdeps mod hmod)
    | false =>
      have hlib := mem_libraryModules.mpr ⟨hmod, hprogram⟩
      exact (library_closed hlib).mpr ⟨hdeps mod hmod, hcleaned _ (formatted_mem hlib),
        fun htests d hd => ⟨hmockLibs mod hlib htests d hd, hmocks mod hlib htests d hd⟩⟩

end Named

/-! ## The accepted modules -/

section Accepted
variable {tree : Tree} {mods : List Module}

theorem getModuleConfig_items {srcDir : String} {items : List SrcItem}
    {found : List (SrcItem × Cfg)} (h : getModuleConfig srcDir items = .ok found) :
    (found.map Prod.fst).Sublist items := by
  induction items generalizing found with
  | nil =>
    cases h
    exact List.Sublist.slnil
  | cons item items ih =>
    obtain ⟨first, hfirst, h⟩ := except_bind_ok h
    obtain ⟨others, hothers, h⟩ := except_bind_ok h
    cases h
    cases first with
    | none => exact (ih hothers).cons item
    | some pair =>
      have hitem : pair.1 = item := by
        unfold itemConfig at hfirst
        split at hfirst
        · cases hfirst
        · cases hfirst
        · split at hfirst
          · cases hfirst
          · cases hfirst
            rfl
      rw [Option.toList_some, List.singleton_append, List.map_cons, hitem]
      exact (ih hothers).cons_cons item

theorem acceptedModules_inv (h : acceptedModules tree = .ok mods) :
    ∃ found : List (SrcItem × Cfg),
      (found.map Prod.fst).Sublist tree.src ∧ mods = found.map (buildModule tree) := by
  obtain ⟨found, hfound, h⟩ := except_bind_ok h
  obtain ⟨-, -, h⟩ := except_bind_ok h
  cases h
  exact ⟨found, getModuleConfig_items hfound, rfl⟩

theorem accepted_names (h : acceptedModules tree = .ok mods) : (mods.map Module.name).Nodup := by
  obtain ⟨found, hitems, rfl⟩ := acceptedModules_inv h
  have hnames := tree.distinct.sublist (hitems.map SrcItem.name)
  rw [List.map_map] at hnames ⊢
  exact hnames

end Accepted

/-! ## The order of the modules -/

section Sorted
variable {mods mods' : List Module}

theorem sortedModules_perm : (sortedModules mods).Perm mods := List.perm_insertionSort _ _

theorem WellNamed.perm (h : mods.Perm mods') (named : WellNamed mods) : WellNamed mods' := by
  have hmods : ∀ mod, mod ∈ mods' ↔ mod ∈ mods := fun mod => h.symm.mem_iff
  have hmodules : (libraryModules mods).Perm (libraryModules mods') := h.filter _
  have hnames : (libraryNames mods).Perm (libraryNames mods') := hmodules.map _
  have hprograms : (programNames mods).Perm (programNames mods') := (h.filter _).map _
  have hbases : (testBases mods).Perm (testBases mods') := hmodules.flatMap_right _
  have hmods' : ∀ mod, mod ∈ libraryModules mods' ↔ mod ∈ libraryModules mods :=
    fun mod => hmodules.symm.mem_iff
  have hnames' : ∀ l, l ∈ libraryNames mods' ↔ l ∈ libraryNames mods :=
    fun l => hnames.symm.mem_iff
  have hprograms' : ∀ p, p ∈ programNames mods' ↔ p ∈ programNames mods :=
    fun p => hprograms.symm.mem_iff
  have hbases' : ∀ base, base ∈ testBases mods' ↔ base ∈ testBases mods :=
    fun base => hbases.symm.mem_iff
  constructor
  · simpa only [hmods'] using named.named
  · simpa only [hmods, hnames'] using named.deps
  · simpa only [hmods', hnames'] using named.mockLibs
  · simpa only [hmods'] using named.mocks
  · simpa only [hmods', hnames'] using named.cleaned
  · exact hnames.nodup_iff.mp named.once
  · simpa only [hnames'] using named.not_cmock
  · simpa only [hnames'] using named.not_mock
  · simpa only [hprograms', hnames'] using named.programs
  · exact (hprograms.filter _).nodup_iff.mp named.programs_once
  · simpa only [hprograms', hbases'] using named.runners
  · exact hbases.nodup_iff.mp named.tests

theorem wellNamed_sorted : WellNamed (sortedModules mods) ↔ WellNamed mods :=
  ⟨WellNamed.perm sortedModules_perm, WellNamed.perm sortedModules_perm.symm⟩

end Sorted

/-- The two modules of the source directory, with two of the tests. -/
def sourceTree : Tree where
  rootDir := "."
  src := [⟨"m65tool", some (.parsed ⟨some "m65tool", none, some "datastruct"⟩), ["m65tool.c"]⟩,
    ⟨"datastruct", some (.parsed ⟨none, some "datastruct", none⟩), ["str.c", "str.h"]⟩]
  tests := fun name => if name = "datastruct" then some ["test_mem.c", "test_str.c"] else none
  distinct := by decide +kernel
  names := by decide +kernel
  no_slash := by
    intro name items htests
    split at htests
    · cases htests
      decide +kernel
    · cases htests

def sourceModules : List Module := [
  ⟨"./src/m65tool/module.cfg", "m65tool", ["datastruct"], "./src/m65tool", ["m65tool.c"],
    "./tests/m65tool", [], some "m65tool", none⟩,
  ⟨"./src/datastruct/module.cfg", "datastruct", [], "./src/datastruct", ["str.c", "str.h"],
    "./tests/datastruct", ["test_mem.c", "test_str.c"], none, some "datastruct"⟩]

theorem sourceModules_named : WellNamed sourceModules where
  named := by decide +kernel
  deps := by decide +kernel
  mockLibs := by decide +kernel
  mocks := by decide +kernel
  cleaned := by decide +kernel
  once := by decide +kernel
  not_cmock := by decide +kernel
  not_mock := by decide +kernel
  programs := by decide +kernel
  programs_once := by decide +kernel
  runners := by decide +kernel
  tests := by decide +kernel

/-- A library that is not named like its directory, and a program that depends on it. -/
def boardTree : Tree where
  rootDir := "."
  src := [⟨"board", some (.parsed ⟨none, some "scoreboard", none⟩), ["board.c", "board.h"]⟩,
    ⟨"game", some (.parsed ⟨some "game", none, some "board"⟩), ["game.c"]⟩]
  tests := fun _ => none
  distinct := by decide +kernel
  names := by decide +kernel
  no_slash := fun _ _ h => nomatch h

def boardModules : List Module := [
  ⟨"./src/board/module.cfg", "board", [], "./src/board", ["board.c", "board.h"],
    "./tests/board", [], none, some "scoreboard"⟩,
  ⟨"./src/game/module.cfg", "game", ["board"], "./src/game", ["game.c"],
    "./tests/game", [], some "game", none⟩]

end M65Tool.Guarantees.MakefileClosed
