import M65Tool.Guarantees.RootSpelling
import M65Tool.Guarantees.UntrackedFiles
import M65Tool.Lib.Splitting

/-!
# CLEANUP-TWICE: what a cleanup leaves, and what a dry run says of it

The removal leaves a tree again: the files that are not listed, and the directories that
are in .git or have one of these files below them. A dry run lists what the removal takes
away, and a second run with nothing new to be ignored takes nothing more.
-/
namespace M65Tool.Guarantees.CleanupTwice
open Source.Superclean EmptyDirectories CleanupExact GitDirectories UntrackedFiles
  Lib.PosixPath Lib.Effect

/-- The directory has a file left in its subtree, or is in .git. -/
def Kept (tree : Tree) (gone : List File) (ds : List Path) : Prop :=
  dotGit ∈ ds ∨ ∃ f ∈ tree.files, f ∉ gone ∧ ds <+: f.1

instance (tree : Tree) (gone : List File) (ds : List Path) : Decidable (Kept tree gone ds) :=
  inferInstanceAs (Decidable (_ ∨ _))

/-- The directories that are kept, with the files that are left in them. -/
def keptDirs (tree : Tree) (gone : List File) : List (List Path × List Path) :=
  (tree.dirs.filter fun d => Kept tree gone d.1).map fun d =>
    (d.1, d.2.filter fun f => (d.1, f) ∉ gone)

section Cleaned
variable {place : Place} {tree : Tree} {gone : List File} {ds : List Path} {f : File}

theorem keptDirs_paths : (keptDirs tree gone).map Prod.fst =
    tree.paths.filter fun ds => Kept tree gone ds := by
  rw [keptDirs, List.map_map, Tree.paths, List.filter_map]
  rfl

theorem mem_keptDirs {d : List Path × List Path} (hd : d ∈ keptDirs tree gone) :
    ∃ e ∈ tree.dirs, d.1 = e.1 ∧ d.2 = e.2.filter fun f => (e.1, f) ∉ gone := by
  obtain ⟨e, he, rfl⟩ := List.mem_map.mp hd
  exact ⟨e, List.mem_of_mem_filter he, rfl, rfl⟩

theorem kept_parent {n : Path} (git : GitOk tree) (outside : ∀ f ∈ gone, dotGit ∉ f.1)
    (hmem : ds ++ [n] ∈ tree.paths) (h : Kept tree gone (ds ++ [n])) : Kept tree gone ds := by
  by_cases hds : dotGit ∈ ds
  · exact Or.inl hds
  · rcases h with hgit | ⟨f, hf, hstays, hbelow⟩
    · obtain rfl : dotGit = n :=
        List.mem_singleton.mp ((List.mem_append.mp hgit).resolve_left hds)
      -- the file that the .git directory has of its own
      obtain ⟨f, hf, hdir⟩ := git ds hmem hds
      refine Or.inr ⟨f, hf, fun hgone => outside f hgone (hdir ▸ hgit), ?_⟩
      rw [hdir]
      exact List.prefix_append ds [dotGit]
    · exact Or.inr ⟨f, hf, hstays, (List.prefix_append ds [n]).trans hbelow⟩

/-- The tree without the files and without the directories that are empty then. -/
def cleaned (tree : Tree) (gone : List File) (git : GitOk tree)
    (outside : ∀ f ∈ gone, dotGit ∉ f.1) (stays : ∃ f ∈ tree.files, f ∉ gone) : Tree where
  dirs := keptDirs tree gone
  root := by
    rw [keptDirs_paths, List.mem_filter]
    obtain ⟨f, hf, hstays⟩ := stays
    exact ⟨tree.root, decide_eq_true (Or.inr ⟨f, hf, hstays, List.nil_prefix⟩)⟩
  parent ds n h := by
    rw [keptDirs_paths, List.mem_filter, decide_eq_true_iff] at h ⊢
    exact ⟨tree.parent ds n h.1, kept_parent git outside h.1 h.2⟩
  nodup := by
    rw [keptDirs_paths]
    exact tree.nodup.filter _
  names d hd := by
    obtain ⟨e, he, hdir, -⟩ := mem_keptDirs hd
    rw [hdir]
    exact tree.names e he
  file_names d hd f hf := by
    obtain ⟨e, he, -, hfiles⟩ := mem_keptDirs hd
    rw [hfiles] at hf
    exact tree.file_names e he f (List.mem_of_mem_filter hf)
  file_nodup d hd := by
    obtain ⟨e, he, -, hfiles⟩ := mem_keptDirs hd
    rw [hfiles]
    exact (tree.file_nodup e he).filter _
  file_apart d hd f hf := by
    obtain ⟨e, he, hdir, hfiles⟩ := mem_keptDirs hd
    rw [hfiles] at hf
    rw [keptDirs_paths, List.mem_filter, hdir]
    exact fun hmem => tree.file_apart e he f (List.mem_of_mem_filter hf) hmem.1

variable {git : GitOk tree} {outside : ∀ f ∈ gone, dotGit ∉ f.1}
  {stays : ∃ f ∈ tree.files, f ∉ gone}

theorem cleaned_paths : (cleaned tree gone git outside stays).paths =
    tree.paths.filter fun ds => Kept tree gone ds := keptDirs_paths

theorem cleaned_files : (cleaned tree gone git outside stays).files =
    tree.files.filter fun f => f ∉ gone := by
  change (keptDirs tree gone).flatMap (fun d => d.2.map fun f => (d.1, f)) = _
  rw [keptDirs, List.flatMap_map, Tree.files, List.filter_flatMap]
  have hfiles : ∀ d : List Path × List Path,
      ((d.2.filter fun f => (d.1, f) ∉ gone).map fun f => (d.1, f)) =
        (d.2.map fun f => (d.1, f)).filter fun f => f ∉ gone := by
    intro d
    rw [List.filter_map]
    rfl
  simp only [hfiles]
  refine Lib.Splitting.filter_flatMap_of_nil fun d hd hkept => List.filter_eq_nil_iff.mpr fun f hf hstays => ?_
  obtain ⟨n, hn, rfl⟩ := List.mem_map.mp hf
  have hfile : (d.1, n) ∈ tree.files := tree.mem_files.mpr ⟨d, hd, rfl, hn⟩
  exact of_decide_eq_false hkept
    (Or.inr ⟨(d.1, n), hfile, of_decide_eq_true hstays, List.prefix_rfl⟩)

theorem mem_cleaned_files :
    f ∈ (cleaned tree gone git outside stays).files ↔ f ∈ tree.files ∧ f ∉ gone := by
  rw [cleaned_files, List.mem_filter, decide_eq_true_iff]

theorem mem_cleaned_paths : ds ∈ (cleaned tree gone git outside stays).paths ↔
    ds ∈ tree.paths ∧ (dotGit ∈ ds ∨ ∃ f ∈ (cleaned tree gone git outside stays).files,
      ds <+: f.1) := by
  rw [cleaned_paths, List.mem_filter, decide_eq_true_iff]
  refine and_congr_right fun _ => or_congr_right (exists_congr fun f => ?_)
  rw [mem_cleaned_files, and_assoc]

theorem cleaned_git : GitOk (cleaned tree gone git outside stays) := by
  intro ds hds hout
  obtain ⟨f, hf, hdir⟩ := git ds (mem_cleaned_paths.mp hds).1 hout
  refine ⟨f, mem_cleaned_files.mpr ⟨hf, fun hgone => outside f hgone ?_⟩, hdir⟩
  rw [hdir]
  exact List.mem_append_right ds List.mem_cons_self

/-- What the removal comes to is that tree. -/
theorem removeAll_cleaned (ok : RootOk place) (listing : Listing tree gone) :
    removeAll place tree.disk (gone.map (filePath place.absRoot)) (reported place tree gone) =
      some (cleaned tree gone git outside stays).disk := by
  obtain ⟨dirs, hdirs, hremoved⟩ :=
    removeAll_balanced ((balanced_iff_spelled ok listing).mpr git) listing.toPresent
  have hpaths : tree.paths.diff dirs = tree.paths.filter fun ds => Kept tree gone ds := by
    have hnodup : tree.paths.Nodup := tree.nodup
    rw [hnodup.sdiff_eq_filter]
    refine List.filter_congr fun ds hds => decide_eq_decide.mpr ?_
    rw [hdirs, Kept]
    constructor
    · intro hstay
      by_contra hnone
      obtain ⟨hout, hnone⟩ := not_or.mp hnone
      refine hstay ⟨hds, hout, fun f hf hbelow => ?_⟩
      by_contra hgone
      exact hnone ⟨f, hf, hgone, hbelow⟩
    · rintro (hgit | ⟨f, hf, hstays, hbelow⟩) hmem
      · exact hmem.2.1 hgit
      · exact hstays (hmem.2.2 f hf hbelow)
  rw [hremoved, Tree.disk, cleaned_paths, cleaned_files, hpaths, tree.nodup_files.sdiff_eq_filter]

end Cleaned

/-! ## The script -/

/-- The script goes on to the removal: the root directory and the .git directories are as
it takes them to be, git lists files of the tree, none of them in .git, and not all. -/
structure Listed (place : Place) (tree : Tree) (repo : Repo) (ps : List Path) : Prop where
  ok : RootOk place
  git : GitOk tree
  passes : Passes place tree
  doc : Documented repo
  run : getUntrackedFiles repo place.cwd place.rootDir true = .ok ps
  distinct : ps.Nodup
  exist : ∀ p ∈ ps, ∃ f ∈ tree.files, dotGit ∉ f.1 ++ [f.2] ∧ place.Names p (f.1 ++ [f.2])
  stays : ∃ f ∈ tree.files, ∀ p ∈ ps, ¬ place.Names p (f.1 ++ [f.2])

section Script
variable {place : Place} {tree : Tree} {repo : Repo} {ps : List Path}

/-- The first check of `main` is passed again: what it has found is a .git directory that is
kept or one above the root directory. -/
theorem passes_again {after : Tree} (ok : RootOk place) (passes : Passes place tree)
    (paths : ∀ ds ∈ tree.paths, dotGit ∈ ds → ds ∈ after.paths)
    (files : ∀ f ∈ tree.files, dotGit ∈ f.1 ++ [f.2] → f ∈ after.files) : Passes place after := by
  intro hnone
  have hpass := passes hnone
  have hroot : place.rootDir = none := by
    have hne := ok.ne_nil
    rw [Place.givenRoot] at hne
    cases hdir : place.rootDir with
    | none => rfl
    | some p =>
      rw [hdir] at hne hnone
      exact absurd hnone hne
  have hgit : ∀ ds, place.Names dotGit ds → dotGit ∈ ds := by
    intro ds hds
    have hcomps : resolve place.cwd dotGit = resolve place.cwd place.givenRoot ++ [dotGit] := by
      have hne : place.cwd ≠ [] := by
        intro hnil
        have habs := place.cwd_abs
        rw [hnil] at habs
        cases habs
      have hname : IsName dotGit := by decide
      rw [Place.givenRoot, hroot, Option.getD_none, resolve, resolve,
        absolute_of_isabs place.cwd_abs, absolute, if_neg (by decide)]
      exact comps_join_name hne hname
    rw [Place.Names, hcomps] at hds
    rw [← List.append_cancel_left hds]
    exact List.mem_singleton.mpr rfl
  rw [pathExists, Bool.and_eq_true, Bool.or_eq_true, Bool.or_eq_true, List.any_eq_true,
    List.any_eq_true] at hpass ⊢
  refine ⟨hpass.1, ?_⟩
  rcases hpass.2 with (⟨ds, hds, hnames⟩ | ⟨f, hf, hnames⟩) | habove
  · exact Or.inl (Or.inl ⟨ds, paths ds hds (hgit ds (of_decide_eq_true hnames)), hnames⟩)
  · exact Or.inl (Or.inr ⟨f, files f hf (hgit _ (of_decide_eq_true hnames)), hnames⟩)
  · exact Or.inr habove

/-- What both kinds of run come to. -/
theorem Listed.main_eq (listed : Listed place tree repo ps) :
    ∃ after : Tree,
      main place tree repo true true = .listed ps (getEmptyDirectories place tree (some ps)) ∧
      main place tree repo true false = .removed after.disk ∧
      (∀ f, f ∈ after.files ↔ f ∈ tree.files ∧ ∀ p ∈ ps, ¬ place.Names p (f.1 ++ [f.2])) ∧
      (∀ ds, ds ∈ after.paths ↔
        ds ∈ tree.paths ∧ (dotGit ∈ ds ∨ ∃ f ∈ after.files, ds <+: f.1)) ∧
      (∀ ds ∈ tree.paths, ds ∉ after.paths ↔
        ∃ p ∈ getEmptyDirectories place tree (some ps), place.Names p ds) ∧
      GitOk after := by
  obtain ⟨gone, listing, hps⟩ := untracked_listing listed.doc listed.run listed.distinct
    fun p hp => by
      obtain ⟨f, hf, hout, hnames⟩ := listed.exist p hp
      exact ⟨f, hf, fun hgit => hout (List.mem_append_left _ hgit), hnames⟩
  have hgone : ∀ f ∈ tree.files, f ∈ gone ↔ ∃ p ∈ ps, place.Names p (f.1 ++ [f.2]) := by
    intro f hf
    rw [hps]
    constructor
    · intro hmem
      exact ⟨_, List.mem_map_of_mem hmem, names_below place (tree.name_of_file hf)⟩
    · rintro ⟨p, hp, hnames⟩
      obtain ⟨f', hf', rfl⟩ := List.mem_map.mp hp
      have hown := names_below place (tree.name_of_file (listing.exist f' hf'))
      rwa [file_ext (names_unique hnames hown)]
  have stays : ∃ f ∈ tree.files, f ∉ gone := by
    obtain ⟨f, hf, hnone⟩ := listed.stays
    refine ⟨f, hf, fun hmem => ?_⟩
    obtain ⟨p, hp, hnames⟩ := (hgone f hf).mp hmem
    exact hnone p hp hnames
  have hcheck : ¬ (place.rootDir.getD [] = [] ∧ ¬ pathExists place tree ".git".toList = true) :=
    fun h => h.2 (listed.passes h.1)
  have hexact := exact_of_git listed.ok listed.git listing
  have hremoved := @removeAll_cleaned place tree gone listed.git listing.outside stays
    listed.ok listing
  rw [reported, ← hps] at hremoved
  refine ⟨cleaned tree gone listed.git listing.outside stays, ?_, ?_, fun f => ?_,
    fun ds => mem_cleaned_paths, fun ds hds => ?_, cleaned_git⟩
  · rw [main, if_neg hcheck, if_neg (by decide), listed.run]
    rfl
  · rw [main, if_neg hcheck, if_neg (by decide), listed.run]
    simp only [hremoved, Bool.false_eq_true, if_false]
  · rw [mem_cleaned_files]
    refine and_congr_right fun hf => ?_
    rw [hgone f hf]
    exact ⟨fun h p hp hnames => h ⟨p, hp, hnames⟩, fun h hex => hex.elim fun p hp => h p hp.1 hp.2⟩
  · have hreported : reported place tree gone = getEmptyDirectories place tree (some ps) := by
      rw [reported, hps]
    rw [cleaned_paths, List.mem_filter, decide_eq_true_iff, ← hreported]
    constructor
    · intro hnot
      have hout : dotGit ∉ ds := fun hgit => hnot ⟨hds, Or.inl hgit⟩
      refine hexact.complete ds hds hout fun f hf hbelow => ?_
      by_contra hstay
      exact hnot ⟨hds, Or.inr ⟨f, hf, hstay, hbelow⟩⟩
    · rintro ⟨p, hp, hnames⟩ ⟨-, hkept⟩
      obtain ⟨es, -, hout, hempty, hnames'⟩ := hexact.sound p hp
      obtain rfl := names_unique hnames hnames'
      rcases hkept with hgit | ⟨f, hf, hstay, hbelow⟩
      · exact hout hgit
      · exact hstay (hempty f hf hbelow)

/-- A dry run lists the files and directories that a run without the option removes: all of
them, and no others. -/
theorem dryRun_predicts (listed : Listed place tree repo ps) :
    ∃ (after : Tree) (files dirs : List Path),
      main place tree repo true true = .listed files dirs ∧
      main place tree repo true false = .removed after.disk ∧
      (∀ f, f ∈ after.files ↔ f ∈ tree.files ∧ ∀ p ∈ files, ¬ place.Names p (f.1 ++ [f.2])) ∧
      ∀ ds, ds ∈ after.paths ↔ ds ∈ tree.paths ∧ ∀ p ∈ dirs, ¬ place.Names p ds := by
  obtain ⟨after, hlisted, hremoved, hfiles, hpaths, hdirs, -⟩ := listed.main_eq
  refine ⟨after, ps, _, hlisted, hremoved, hfiles, fun ds => ?_⟩
  constructor
  · intro hds
    have hmem := ((hpaths ds).mp hds).1
    exact ⟨hmem, fun p hp hnames => (hdirs ds hmem).mpr ⟨p, hp, hnames⟩ hds⟩
  · rintro ⟨hmem, hnone⟩
    by_contra hout
    obtain ⟨p, hp, hnames⟩ := (hdirs ds hmem).mp hout
    exact hnone p hp hnames

/-- A cleanup leaves no directory outside .git without a file below it, and a second one takes
nothing more away, if what git lists then it had listed before. -/
theorem clean_twice (listed : Listed place tree repo ps) :
    ∃ after : Tree, main place tree repo true false = .removed after.disk ∧
      (∀ ds ∈ after.paths, dotGit ∉ ds → ∃ f ∈ after.files, ds <+: f.1) ∧
      ∀ (repo' : Repo) (ps' : List Path),
        getUntrackedFiles repo' place.cwd place.rootDir true = .ok ps' →
        (∀ p ∈ ps', p ∈ ps ∧ ∃ f ∈ after.files, place.Names p (f.1 ++ [f.2])) →
        main place after repo' true false = .removed after.disk := by
  obtain ⟨after, -, hremoved, hfiles, hpaths, -, hgit⟩ := listed.main_eq
  have hfull : ∀ ds ∈ after.paths, dotGit ∉ ds → ∃ f ∈ after.files, ds <+: f.1 :=
    fun ds hds hout => ((hpaths ds).mp hds).2.resolve_left hout
  refine ⟨after, hremoved, hfull, fun repo' ps' run' again => ?_⟩
  have hnone : ps' = [] := by
    refine List.eq_nil_iff_forall_not_mem.mpr fun p hp => ?_
    obtain ⟨hmem, f, hf, hnames⟩ := again p hp
    exact ((hfiles f).mp hf).2 p hmem hnames
  subst hnone
  have hpasses : Passes place after := by
    refine passes_again listed.ok listed.passes
      (fun ds hds hin => (hpaths ds).mpr ⟨hds, Or.inl hin⟩)
      fun f hf hin => (hfiles f).mpr ⟨hf, fun p hp hnames => ?_⟩
    obtain ⟨f', hf', hout, hnames'⟩ := listed.exist p hp
    rw [names_unique hnames hnames'] at hin
    exact hout hin
  have listing : Listing after [] :=
    ⟨⟨fun _ h => absurd h List.not_mem_nil, List.nodup_nil⟩, fun _ h => absurd h List.not_mem_nil⟩
  have hempty : getEmptyDirectories place after (some []) = [] := by
    refine List.eq_nil_iff_forall_not_mem.mpr fun p hp => ?_
    obtain ⟨ds, hds, hout, hemptied, -⟩ := (exact_of_git listed.ok hgit listing).sound p hp
    obtain ⟨f, hf, hbelow⟩ := hfull ds hds hout
    exact absurd (hemptied f hf hbelow) List.not_mem_nil
  have hcheck : ¬ (place.rootDir.getD [] = [] ∧ ¬ pathExists place after ".git".toList = true) :=
    fun h => h.2 (hpasses h.1)
  rw [main, if_neg hcheck, if_neg (by decide), run']
  simp only [hempty, Bool.false_eq_true, if_false]
  rfl

end Script

/-! ## A repository with a directory whose only file is ignored -/

open RootSpelling SmallTrees

theorem builtRepo_documented : Documented builtRepo := by
  refine .mk (fun _ _ line hline hne => ?_) (fun line hline => absurd hline List.not_mem_nil)
    fun _ => .missing
  have hlines : "d/f\n".toList.splitOn '\n' = ["d/f".toList, []] := by decide
  rw [hlines] at hline
  rcases List.mem_cons.mp hline with rfl | hline
  · exact ⟨[builtName, fileName], by decide, by decide, by decide⟩
  · rw [List.mem_singleton.mp hline] at hne
    exact absurd rfl hne

theorem builtTree_listed : Listed cleanPlace builtTree builtRepo ["/p/d/f".toList] where
  ok := ⟨by decide +kernel, by decide +kernel, by decide +kernel⟩
  git := flat_git (by decide)
  passes _ := by decide +kernel
  doc := builtRepo_documented
  run := by decide +kernel
  distinct := List.nodup_singleton _
  exist p hp := by
    rw [List.mem_singleton.mp hp]
    exact ⟨([builtName], fileName), by decide, by decide, by decide +kernel⟩
  stays := by
    refine ⟨([], "Makefile".toList), by decide, fun p hp => ?_⟩
    rw [List.mem_singleton.mp hp]
    decide +kernel

theorem dryRun_predicts_built : ∃ (after : Tree) (files dirs : List Path),
    main cleanPlace builtTree builtRepo true true = .listed files dirs ∧
    main cleanPlace builtTree builtRepo true false = .removed after.disk := by
  obtain ⟨after, files, dirs, hlisted, hremoved, -⟩ := dryRun_predicts builtTree_listed
  exact ⟨after, files, dirs, hlisted, hremoved⟩

theorem clean_twice_built : ∃ after : Tree,
    main cleanPlace builtTree builtRepo true false = .removed after.disk ∧
    main cleanPlace after (.mk (fun _ => (0, [])) none fun _ => .missing) true false =
      .removed after.disk := by
  obtain ⟨after, hremoved, -, hagain⟩ := clean_twice builtTree_listed
  exact ⟨after, hremoved, hagain _ [] (by decide +kernel) fun p hp => absurd hp List.not_mem_nil⟩

end M65Tool.Guarantees.CleanupTwice
