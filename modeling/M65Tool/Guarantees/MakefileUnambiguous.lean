import M65Tool.Guarantees.MakefileParts

/-!
# MAKEFILE-UNAMBIGUOUS: what is defined twice

The targets of the rules, the runner programs and the variables of the libraries, each with
the condition on the names of the modules under which none is defined twice.
-/
namespace M65Tool.Guarantees.MakefileUnambiguous
open Source.Makemake Lib.Naming MakefileParts

/-! ## The rules -/

section Rules
variable {mods : List Module}

theorem targets_made (hbases : ∀ base ∈ testBases mods, '/' ∉ base.toList) :
    ∀ e ∈ (libraryModules mods).flatMap libraryTargets, e.Made := by
  intro e he
  obtain ⟨mod, hmod, he⟩ := List.mem_flatMap.mp he
  rcases List.mem_append.mp he with hmock | htest
  · simp only [List.mem_cons, List.not_mem_nil, or_false] at hmock
    rcases hmock with rfl | rfl
    · exact .mockC _
    · exact .mockH _
  · obtain ⟨base, hbase, he⟩ := List.mem_flatMap.mp htest
    simp only [List.mem_cons, List.not_mem_nil, or_false] at he
    rcases he with rfl | rfl
    · exact .runnerC _
    · exact .object _ _ (hbases base (List.mem_flatMap.mpr ⟨mod, hmod, hbase⟩))

/-- The test whose runner is made from a source. -/
def runnerBase : Entry → Option String
  | .runnerC base => some base
  | _ => none

theorem testBases_eq : ((libraryModules mods).flatMap libraryTargets).filterMap runnerBase =
    testBases mods := by
  have hmodule : ∀ mod, (libraryTargets mod).filterMap runnerBase = mod.tests.map testBase := by
    intro mod
    rw [libraryTargets, List.filterMap_append, List.filterMap_flatMap]
    exact List.flatMap_singleton' _
  rw [List.filterMap_flatMap, testBases]
  simp only [hmodule]

/-- What the targets are named after, a rule's two mocks and a test's two files apart. -/
theorem keys_nodup (hnames : (mods.map Module.name).Nodup) (htests : (testBases mods).Nodup) :
    (((libraryModules mods).flatMap libraryTargets).map Entry.key).Nodup := by
  have hkeys : ((libraryModules mods).flatMap libraryTargets).map Entry.key =
      (libraryModules mods).flatMap fun mod => [Entry.mockC mod.name, Entry.mockH mod.name] ++
        (mod.tests.map testBase).flatMap fun base =>
          [Entry.runnerC base, Entry.object "" base] := by
    rw [List.map_flatMap]
    refine congrArg (List.flatMap · _) (funext fun mod => ?_)
    rw [libraryTargets, List.map_append, List.map_flatMap]
    rfl
  have hmocks : ((libraryModules mods).flatMap fun mod =>
      [Entry.mockC mod.name, Entry.mockH mod.name]).Nodup := by
    have hlibraries : ((libraryModules mods).map Module.name).Nodup :=
      hnames.sublist (List.filter_sublist.map Module.name)
    have hpairs := nodup_pairs (fun _ _ h => Entry.mockC.inj h) (fun _ _ h => Entry.mockH.inj h)
      (fun _ _ => Entry.noConfusion) hlibraries
    rw [List.flatMap_map] at hpairs
    exact hpairs
  have hruns : ((libraryModules mods).flatMap fun mod =>
      (mod.tests.map testBase).flatMap fun base =>
        [Entry.runnerC base, Entry.object "" base]).Nodup := by
    rw [← List.flatMap_assoc]
    exact nodup_pairs (fun _ _ h => Entry.runnerC.inj h) (fun _ _ h => (Entry.object.inj h).2)
      (fun _ _ => Entry.noConfusion) htests
  rw [hkeys]
  refine nodup_flatMap_append hmocks hruns ?_
  intro mod _ mod' _ e he e' he'
  obtain ⟨base, -, he'⟩ := List.mem_flatMap.mp he'
  simp only [List.mem_cons, List.not_mem_nil, or_false] at he he'
  rcases he with rfl | rfl <;> rcases he' with rfl | rfl <;> exact Entry.noConfusion

/-- No target is made twice, exactly if no two tests have the same name. -/
theorem rules_iff (hnames : (mods.map Module.name).Nodup)
    (hbases : ∀ base ∈ testBases mods, '/' ∉ base.toList) :
    ((targets (makefileOf mods).parts).map Entry.text).Nodup ↔ (testBases mods).Nodup := by
  rw [targets_makefile]
  constructor
  · intro hnodup
    rw [← testBases_eq]
    refine (List.Nodup.of_map _ hnodup).filterMap ?_
    intro e e' base he he'
    cases e with
    | runnerC b =>
      cases e' with
      | runnerC b' => rw [Option.some.inj he, Option.some.inj he']
      | _ => cases he'
    | _ => cases he
  · intro hnodup
    have hkeys := keys_nodup hnames hnodup
    have hmade := targets_made hbases
    rw [List.Nodup, List.pairwise_map] at hkeys ⊢
    refine hkeys.imp_of_mem ?_
    intro e e' he he' hne htext
    exact hne ((hmade e he).key_eq (hmade e' he') htext)

end Rules

/-! ## The programs and the tests -/

section Programs
variable {mods : List Module}

theorem mem_libraryModules {mod : Module} :
    mod ∈ libraryModules mods ↔ mod ∈ mods ∧ mod.isProgram = false := by
  rw [libraryModules, List.mem_filter, Bool.not_eq_true']

theorem mem_testBases {base : String} : base ∈ testBases mods ↔
    ∃ mod ∈ mods, mod.isProgram = false ∧ base ∈ mod.tests.map testBase := by
  rw [testBases, List.mem_flatMap]
  constructor
  · rintro ⟨mod, hmod, hbase⟩
    obtain ⟨hmem, hprogram⟩ := mem_libraryModules.mp hmod
    exact ⟨mod, hmem, hprogram, hbase⟩
  · rintro ⟨mod, hmem, hprogram, hbase⟩
    exact ⟨mod, mem_libraryModules.mpr ⟨hmem, hprogram⟩, hbase⟩

theorem mem_programNames {name : String} : name ∈ programNames mods ↔
    ∃ mod ∈ mods, mod.isProgram = true ∧ formatted mod.program = name := by
  rw [programNames, List.mem_map]
  constructor
  · rintro ⟨mod, hmod, hname⟩
    exact ⟨mod, (List.mem_filter.mp hmod).1, (List.mem_filter.mp hmod).2, hname⟩
  · rintro ⟨mod, hmem, hprogram, hname⟩
    exact ⟨mod, List.mem_filter.mpr ⟨hmem, hprogram⟩, hname⟩

end Programs

/-! ## The variables -/

section Variables
variable {mods : List Module}

def cmockVars : List Var := [.of (.lib "cmock") .sources, .of (.lib "cmock") .cppflags]

theorem definedVars_makefile : definedVars (makefileOf mods).parts =
    definedVars makefilePreamble ++ mods.flatMap moduleVars ++ definedVars makefilePostable := by
  have hmodules : moduleVars = fun mod => definedVars (moduleParts mod) :=
    funext fun mod => (definedVars_module mod).symm
  rw [definedVars, flatMap_parts, hmodules]
  rfl

theorem libraryVars_moduleVars (mod : Module) : (moduleVars mod).filter Var.isLibrary =
    if mod.isProgram then [] else libraryVars (formatted mod.library) := by
  unfold moduleVars
  cases mod.isProgram with
  | true => rfl
  | false =>
    rw [if_neg Bool.false_ne_true, if_neg Bool.false_ne_true, List.filter_append,
      List.filter_flatMap]
    have htests : (mod.tests.map testBase).flatMap (fun base =>
        (testVars base).filter Var.isLibrary) = [] :=
      List.flatMap_eq_nil_iff.mpr fun _ _ => rfl
    rw [htests, List.append_nil]
    rfl

/-- The variables of libraries. -/
theorem libraryVars_makefile : (definedVars (makefileOf mods).parts).filter Var.isLibrary =
    cmockVars ++ (libraryNames mods).flatMap libraryVars := by
  rw [definedVars_makefile, List.filter_append, List.filter_append, List.filter_flatMap,
    libraryNames, List.flatMap_map, ← flatMap_libraries]
  simp only [← libraryVars_moduleVars]
  exact List.append_nil _

/-- The variables of two libraries have different names if the libraries have, and neither
has the name of the other's mock. -/
theorem libraryVars_disjoint {l l' : String} : (libraryVars l).Disjoint (libraryVars l') ↔
    l ≠ l' ∧ l ≠ l' ++ "_mock" ∧ l' ≠ l ++ "_mock" := by
  constructor
  · intro hdisjoint
    refine ⟨?_, ?_, ?_⟩
    · rintro rfl
      exact hdisjoint List.mem_cons_self List.mem_cons_self
    · rintro rfl
      have hmock : Var.of (.lib (l' ++ "_mock")) .libadd ∈ libraryVars l' := by simp [libraryVars]
      exact hdisjoint (by simp [libraryVars]) hmock
    · rintro rfl
      have hmock : Var.of (.lib (l ++ "_mock")) .libadd ∈ libraryVars l := by simp [libraryVars]
      exact hdisjoint hmock (by simp [libraryVars])
  · rintro ⟨hne, hmock, hmock'⟩ v hv hv'
    simp only [libraryVars, List.mem_cons, List.not_mem_nil, or_false] at hv hv'
    rcases hv with rfl | rfl | rfl | rfl | rfl <;> simp_all

theorem mock_ne (l : String) : l ≠ l ++ "_mock" := by
  intro heq
  have hlength := congrArg String.length heq
  rw [String.length_append] at hlength
  have hmock : "_mock".length = 5 := by decide +kernel
  omega

theorem libraryVars_nodup (l : String) : (libraryVars l).Nodup := by
  simp [libraryVars, mock_ne l]

theorem mem_libraryDefs {v : Var} :
    v ∈ definedVars (makefileOf mods).parts ∧ v.isLibrary = true ↔
      v ∈ cmockVars ∨ ∃ l ∈ libraryNames mods, v ∈ libraryVars l := by
  rw [← List.mem_filter, libraryVars_makefile, List.mem_append, List.mem_flatMap]

theorem cmock_ne_mock (l : String) : "cmock" ≠ l ++ "_mock" := by
  have hends : "" ++ "cmock" ≠ l ++ "_mock" := ends_differ (by decide +kernel) (by decide +kernel)
  rwa [String.empty_append] at hends

theorem cmockVars_disjoint {l : String} : cmockVars.Disjoint (libraryVars l) ↔ "cmock" ≠ l := by
  constructor
  · rintro hdisjoint rfl
    exact hdisjoint List.mem_cons_self List.mem_cons_self
  · intro hne v hv hv'
    simp only [cmockVars, libraryVars, List.mem_cons, List.not_mem_nil, or_false] at hv hv'
    rcases hv with rfl | rfl <;> simp [hne, cmock_ne_mock] at hv'

theorem libraryVars_nodup_iff {names : List String} : (names.flatMap libraryVars).Nodup ↔
    names.Nodup ∧ ∀ l ∈ names, ∀ l' ∈ names, l ≠ l' ++ "_mock" := by
  rw [List.nodup_flatMap, and_iff_right fun l _ => libraryVars_nodup l]
  constructor
  · intro hpairwise
    have hapart := hpairwise.imp fun h => libraryVars_disjoint.mp h
    refine ⟨hapart.imp And.left, ?_⟩
    intro l hl l' hl'
    by_cases heq : l = l'
    · exact heq ▸ mock_ne l
    · have hsymm : Std.Symm fun l l' => l ≠ l' ∧ l ≠ l' ++ "_mock" ∧ l' ≠ l ++ "_mock" :=
        ⟨fun _ _ h => ⟨h.1.symm, h.2.2, h.2.1⟩⟩
      exact (hapart.forall hl hl' heq).2.1
  · rintro ⟨hnodup, hmock⟩
    refine hnodup.imp_of_mem ?_
    intro l l' hl hl' hne
    exact libraryVars_disjoint.mpr ⟨hne, hmock l hl l' hl', hmock l' hl' l hl⟩

/-- The variables of the libraries have different names. -/
theorem libraryTexts_nodup :
    (((definedVars (makefileOf mods).parts).filter Var.isLibrary).map Var.text).Nodup ↔
      (libraryNames mods).Nodup ∧ "cmock" ∉ libraryNames mods ∧
        ∀ l ∈ libraryNames mods, ∀ l' ∈ libraryNames mods, l ≠ l' ++ "_mock" := by
  have htexts : (((definedVars (makefileOf mods).parts).filter Var.isLibrary).map
      Var.text).Nodup ↔ ((definedVars (makefileOf mods).parts).filter Var.isLibrary).Nodup :=
    ⟨List.Nodup.of_map _, List.Nodup.map_on fun v hv w hw =>
      library_var_inj (List.mem_filter.mp hv).2 (List.mem_filter.mp hw).2⟩
  have hcmock : cmockVars.Nodup := by simp [cmockVars]
  have hapart : cmockVars.Disjoint ((libraryNames mods).flatMap libraryVars) ↔
      "cmock" ∉ libraryNames mods := by
    constructor
    · intro hdisjoint hmem
      refine hdisjoint List.mem_cons_self ?_
      exact List.mem_flatMap.mpr ⟨"cmock", hmem, List.mem_cons_self⟩
    · intro hnot v hv hv'
      obtain ⟨l, hl, hv'⟩ := List.mem_flatMap.mp hv'
      have hne : "cmock" ≠ l := fun heq => hnot (heq ▸ hl)
      exact cmockVars_disjoint.mpr hne hv hv'
  rw [htexts, libraryVars_makefile, List.nodup_append', and_iff_right hcmock,
    libraryVars_nodup_iff, hapart, and_assoc, and_comm (a := "cmock" ∉ libraryNames mods)]

/-- The fixed variables that belong to no library. -/
theorem fixedVars : ∀ w ∈ definedVars makefilePreamble ++ definedVars makefilePostable,
    w.isLibrary = false → w = .plain w.text ∧ ¬ "lib".toList <+: w.text.toList ∧
      ¬ "nodist_lib".toList <+: w.text.toList := by
  decide +kernel

/-- A variable that belongs to no library: one of the fixed ones, a program's or a runner's. -/
theorem otherVars {w : Var} (hw : w ∈ definedVars (makefileOf mods).parts)
    (hother : w.isLibrary = false) :
    (w = .plain w.text ∧ ¬ "lib".toList <+: w.text.toList ∧
      ¬ "nodist_lib".toList <+: w.text.toList) ∨
    (∃ p ∈ programNames mods, ∃ kind, w = .of (.program p) kind ∧
      (kind = .sources ∨ kind = .ldadd)) ∨
    ∃ base kind, w = .of (.runner base) kind ∨ w = .of (.nodistRunner base) kind := by
  rw [definedVars_makefile, List.mem_append, List.mem_append, List.mem_flatMap] at hw
  rcases hw with (hw | ⟨mod, hmod, hw⟩) | hw
  · exact Or.inl (fixedVars w (List.mem_append_left _ hw) hother)
  · refine Or.inr ?_
    unfold moduleVars at hw
    cases hprogram : mod.isProgram with
    | true =>
      rw [hprogram, if_pos rfl] at hw
      have hp := mem_programNames.mpr ⟨mod, hmod, hprogram, rfl⟩
      simp only [List.mem_cons, List.not_mem_nil, or_false] at hw
      rcases hw with rfl | rfl
      · exact Or.inl ⟨_, hp, _, rfl, Or.inl rfl⟩
      · exact Or.inl ⟨_, hp, _, rfl, Or.inr rfl⟩
    | false =>
      rw [hprogram, if_neg Bool.false_ne_true, List.mem_append, List.mem_flatMap] at hw
      rcases hw with hw | ⟨base, -, hw⟩
      · simp only [libraryVars, List.mem_cons, List.not_mem_nil, or_false] at hw
        rcases hw with rfl | rfl | rfl | rfl | rfl <;> cases hother
      · simp only [testVars, List.mem_cons, List.not_mem_nil, or_false] at hw
        refine Or.inr ⟨base, ?_⟩
        rcases hw with rfl | rfl | rfl | rfl
        · exact ⟨_, Or.inl rfl⟩
        · exact ⟨_, Or.inr rfl⟩
        · exact ⟨_, Or.inl rfl⟩
        · exact ⟨_, Or.inl rfl⟩
  · exact Or.inl (fixedVars w (List.mem_append_right _ hw) hother)

theorem programSources_defined {p : String} (hp : p ∈ programNames mods) :
    .of (.program p) .sources ∈ definedVars (makefileOf mods).parts := by
  obtain ⟨mod, hmod, hprogram, rfl⟩ := mem_programNames.mp hp
  rw [definedVars_makefile, List.mem_append, List.mem_append, List.mem_flatMap]
  refine Or.inl (Or.inr ⟨mod, hmod, ?_⟩)
  rw [moduleVars, hprogram, if_pos rfl]
  exact List.mem_cons_self

/-- What a library's variable that lists sources, or has no other kind, belongs to. -/
theorem libraryVar_cases {v : Var}
    (hv : v ∈ cmockVars ∨ ∃ l ∈ libraryNames mods, v ∈ libraryVars l) :
    ∃ stem kind, v = .of stem kind ∧ stem.isLibrary = true ∧ kind ≠ .ldadd ∧
      (kind = .sources → stem = .lib "cmock" ∨ ∃ l ∈ libraryNames mods,
        stem = .lib l ∨ stem = .nodistLib (l ++ "_mock")) := by
  rcases hv with hv | ⟨l, hl, hv⟩
  · simp only [cmockVars, List.mem_cons, List.not_mem_nil, or_false] at hv
    rcases hv with rfl | rfl
    · exact ⟨_, _, rfl, rfl, VarKind.noConfusion, fun _ => Or.inl rfl⟩
    · exact ⟨_, _, rfl, rfl, VarKind.noConfusion, VarKind.noConfusion⟩
  · simp only [libraryVars, List.mem_cons, List.not_mem_nil, or_false] at hv
    rcases hv with rfl | rfl | rfl | rfl | rfl
    · exact ⟨_, _, rfl, rfl, VarKind.noConfusion, fun _ => Or.inr ⟨l, hl, Or.inl rfl⟩⟩
    · exact ⟨_, _, rfl, rfl, VarKind.noConfusion, VarKind.noConfusion⟩
    · exact ⟨_, _, rfl, rfl, VarKind.noConfusion, fun _ => Or.inr ⟨l, hl, Or.inr rfl⟩⟩
    · exact ⟨_, _, rfl, rfl, VarKind.noConfusion, VarKind.noConfusion⟩
    · exact ⟨_, _, rfl, rfl, VarKind.noConfusion, VarKind.noConfusion⟩

/-- A library's variable has the name of another variable only if that is a program's. -/
theorem libraryVars_apart :
    (∀ v ∈ definedVars (makefileOf mods).parts, v.isLibrary = true →
      ∀ w ∈ definedVars (makefileOf mods).parts, w.isLibrary = false → v.text ≠ w.text) ↔
      ∀ p ∈ programNames mods, p ≠ "libcmock_la" ∧ ∀ l ∈ libraryNames mods,
        p ≠ "lib" ++ l ++ "_la" ∧ p ≠ "nodist_lib" ++ (l ++ "_mock") ++ "_la" := by
  constructor
  · intro hapart p hp
    have hne : ∀ stem : Stem, (Var.of stem .sources ∈ cmockVars ∨ ∃ l ∈ libraryNames mods,
        Var.of stem .sources ∈ libraryVars l) → p ≠ stem.text := by
      rintro stem hstem rfl
      obtain ⟨hdefined, hlibrary⟩ := mem_libraryDefs.mpr hstem
      exact hapart _ hdefined hlibrary _ (programSources_defined hp) rfl rfl
    refine ⟨hne (.lib "cmock") (Or.inl List.mem_cons_self), fun l hl => ⟨?_, ?_⟩⟩
    · exact hne (.lib l) (Or.inr ⟨l, hl, List.mem_cons_self⟩)
    · exact hne (.nodistLib (l ++ "_mock")) (Or.inr ⟨l, hl, by simp [libraryVars]⟩)
  · intro hprograms v hv hlibrary w hw hother htext
    obtain ⟨stem, kind, rfl, hstem, hkind, hsources⟩ :=
      libraryVar_cases (mem_libraryDefs.mp ⟨hv, hlibrary⟩)
    rcases otherVars hw hother with ⟨hplain, hlib, hnodist⟩ |
      ⟨p, hp, kind', rfl, hkind'⟩ | ⟨base, kind', rfl | rfl⟩
    · rw [hplain] at htext
      exact library_ne_plain hstem hlib hnodist htext
    · obtain ⟨hname, rfl⟩ := var_inj.mp htext
      obtain ⟨hcmock, hlibraries⟩ := hprograms p hp
      rcases hsources (hkind'.resolve_right hkind) with rfl | ⟨l, hl, rfl | rfl⟩
      · exact hcmock hname.symm
      · exact (hlibraries l hl).1 hname.symm
      · exact (hlibraries l hl).2 hname.symm
    · exact (library_ne_runner hstem base).1 (var_inj.mp htext).1
    · exact (library_ne_runner hstem base).2 (var_inj.mp htext).1

/-- No variable of a library is defined twice, exactly if the libraries have different
names, none that of the mocks' library or of another's mock, and no program has that of a
library's variables. -/
theorem vars_iff : DefinedOnce Var.isLibrary Var.text (definedVars (makefileOf mods).parts) ↔
    ((libraryNames mods).Nodup ∧ "cmock" ∉ libraryNames mods ∧
      ∀ l ∈ libraryNames mods, ∀ l' ∈ libraryNames mods, l ≠ l' ++ "_mock") ∧
    ∀ p ∈ programNames mods, p ≠ "libcmock_la" ∧ ∀ l ∈ libraryNames mods,
      p ≠ "lib" ++ l ++ "_la" ∧ p ≠ "nodist_lib" ++ (l ++ "_mock") ++ "_la" := by
  rw [definedOnce_iff, libraryTexts_nodup, libraryVars_apart]

end Variables

end M65Tool.Guarantees.MakefileUnambiguous
