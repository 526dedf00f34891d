import M65Tool.Guarantees.CleanupExact
import M65Tool.Lib.Effect

/-!
# UNTRACKED-FILES: how the files to be deleted are spelled

Every path that `get_untracked_files` returns, also for a submodule of a submodule, has
the slashes of the root directory's absolute path and the names that lead to the file. A
list of distinct files of the tree is therefore the one that the directories are counted
with.
-/
namespace M65Tool.Guarantees.UntrackedFiles
open Source.Superclean EmptyDirectories CleanupExact Lib.PosixPath Lib.Effect

/-- git prints relative paths, and .gitmodules names relative paths. -/
inductive Documented : Repo → Prop
  | missing : Documented .missing
  | mk {lsFiles : Bool → Nat × Path} {gitmodules : Option (List Path)} {submodule : Path → Repo}
      (lines : ∀ onlyIgnored, (lsFiles onlyIgnored).1 = 0 →
        ∀ line ∈ (lsFiles onlyIgnored).2.splitOn '\n', strip line ≠ [] →
          ∃ names, names ≠ [] ∧ (∀ n ∈ names, IsName n) ∧ strip line = rel names)
      (paths : ∀ line ∈ gitmodules.getD [], ∀ p, submodulePath line = some p → isabs p = false)
      (submodules : ∀ p, Documented (submodule p)) :
      Documented (.mk lsFiles gitmodules submodule)

/-! ## The spelling -/

section Spelling
variable {k : Nat} {cs : List Path}

/-- What is joined to a normal path is normalised to one with as many slashes. -/
theorem abspath_join (hk : k = 1 ∨ k = 2) (hcs : ∀ n ∈ cs, IsName n) (cwd : Path) {p : Path}
    (hp : isabs p = false) :
    ∃ cs', (∀ n ∈ cs', IsName n) ∧
      abspath cwd (orCwd cwd (some (join (spelled k cs) p))) = spelled k cs' := by
  have hpos : 0 < k := by omega
  have hne : join (spelled k cs) p ≠ [] := join_ne_nil (Or.inl (spelled_ne_nil hpos))
  have habs : isabs (join (spelled k cs) p) = true := by
    rw [isabs_join (spelled_ne_nil hpos) hp, isabs_spelled hpos]
  refine ⟨comps (join (spelled k cs) p), comps_isName habs, ?_⟩
  rw [orCwd, if_neg hne, abspath, absolute_of_isabs habs, normpath_spelled habs,
    initialSlashes_join hk hcs hp]

/-- The paths that are returned: by induction on the repository, since the root directory
of a submodule is joined to that of the repository. -/
theorem untracked_spelled (hk : k = 1 ∨ k = 2) {repo : Repo} (doc : Documented repo) {cwd : Path}
    {rootDir : Option Path} {onlyIgnored : Bool} {ps : List Path} (hcs : ∀ n ∈ cs, IsName n)
    (root : abspath cwd (orCwd cwd rootDir) = spelled k cs)
    (run : getUntrackedFiles repo cwd rootDir onlyIgnored = .ok ps) :
    ∀ p ∈ ps, ∃ names, (∀ n ∈ names, IsName n) ∧ p = spelled k names := by
  induction doc generalizing cwd rootDir onlyIgnored ps cs with
  | missing => cases run
  | @mk lsFiles gitmodules submodule lines paths submodules ih =>
    rw [getUntrackedFiles, root] at run
    dsimp only at run
    split at run
    · cases run
    · rename_i hcode
      obtain ⟨submodFiles, hsub, run⟩ := except_bind_ok run
      cases run
      intro p hp
      rcases List.mem_append.mp hp with hp | hp
      · obtain ⟨found, hfound, hp⟩ := List.mem_flatten.mp hp
        obtain ⟨sub, hmem, hrec⟩ := except_mapM_mem hsub found hfound
        obtain ⟨line, hline, hpath⟩ := List.mem_filterMap.mp hmem
        obtain ⟨cs', hcs', hroot⟩ := abspath_join hk hcs (spelled k cs) (paths line hline sub hpath)
        exact ih sub hcs' hroot hrec p hp
      · obtain ⟨line, hline, rfl⟩ := List.mem_map.mp hp
        obtain ⟨hline, hblank⟩ := List.mem_filter.mp hline
        obtain ⟨names, hne, hnames, hrel⟩ :=
          lines onlyIgnored (not_not.mp hcode) line hline (of_decide_eq_true hblank)
        refine ⟨cs ++ names, ?_, ?_⟩
        · intro n hn
          exact (List.mem_append.mp hn).elim (hcs n) (hnames n)
        · rw [hrel, join_rel hne hnames, below_spelled (by omega) hcs hnames]

end Spelling

/-! ## The list of files -/

section Files
variable {place : Place} {tree : Tree} {repo : Repo} {ps : List Path}

/-- What is returned for a file is the path that the directories are counted with. -/
theorem untracked_filePath (doc : Documented repo)
    (run : getUntrackedFiles repo place.cwd place.rootDir true = .ok ps) {p : Path} (hp : p ∈ ps)
    {f : File} (hf : ∀ n ∈ f.1 ++ [f.2], IsName n) (named : place.Names p (f.1 ++ [f.2])) :
    p = filePath place.absRoot f := by
  have habs := isabs_absolute place.cwd_abs (orCwd place.cwd place.rootDir)
  have hroot : place.absRoot = spelled _ _ := normpath_spelled habs
  have hslashes := initialSlashes_cases habs
  have hcs := comps_isName habs
  obtain ⟨names, hnames, hspelled⟩ := untracked_spelled hslashes doc hcs hroot run p hp
  have hpos : 0 < initialSlashes (absolute place.cwd (orCwd place.cwd place.rootDir)) := by omega
  rw [Place.Names, resolve_givenRoot, resolve, hspelled, absolute_of_isabs (isabs_spelled hpos),
    comps_spelled hnames, hroot, comps_spelled hcs] at named
  rw [hspelled, named, filePath, hroot, below_spelled hpos hcs hf]

/-- A list of paths of distinct files of the tree that git can list is the one that the
directories are counted with. -/
theorem untracked_listing (doc : Documented repo)
    (run : getUntrackedFiles repo place.cwd place.rootDir true = .ok ps) (distinct : ps.Nodup)
    (exist : ∀ p ∈ ps, ∃ f ∈ tree.files, dotGit ∉ f.1 ∧ place.Names p (f.1 ++ [f.2])) :
    ∃ gone, Listing tree gone ∧ ps = gone.map (filePath place.absRoot) := by
  have hfile : ∀ p ∈ ps, ∃ f, (f ∈ tree.files ∧ dotGit ∉ f.1) ∧ p = filePath place.absRoot f := by
    intro p hp
    obtain ⟨f, hf, hout, named⟩ := exist p hp
    exact ⟨f, ⟨hf, hout⟩, untracked_filePath doc run hp (tree.name_of_file hf) named⟩
  obtain ⟨gone, hgone, hall⟩ := exists_map_eq hfile
  rw [hgone] at distinct
  exact ⟨gone, ⟨⟨fun f hf => (hall f hf).1, distinct.of_map _⟩, fun f hf => (hall f hf).2⟩, hgone⟩

end Files

end M65Tool.Guarantees.UntrackedFiles
