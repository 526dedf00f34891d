import M65Tool.Guarantees.GitDirectories
import M65Tool.Guarantees.SmallTrees

/-!
# ROOT-SPELLING: when the cleanup is exact, and for which root directories it always is

The files to be deleted are spelled below the absolute normal path of the root directory,
the directories below the path that was given. Where the two differ, where that path ends
in a slash, or where it lies in .git, some tree shows that the result is not exact. For each
tree and list of files, the numbers of its directories decide it.
-/
namespace M65Tool.Guarantees.RootSpelling
open Source.Superclean EmptyDirectories CleanupExact GitDirectories SmallTrees Lib.PosixPath
  Lib.Tally

section Places
variable {place : Place} {tree : Tree} {gone : List File}

/-! ## A repository with an empty directory -/

def emptyName : Path := "a".toList

theorem repo_flat :
    Flat [] [(dotGit, ["HEAD".toList]), (emptyName, [])] where
  names := by decide
  nodup := by decide
  file_names := by decide
  file_nodup := by decide
  file_apart := by decide
  sub_names := by decide
  sub_nodup := by decide

/-- A repository: .git with a file of its own, and an empty directory. -/
def repoTree : Tree := flat repo_flat

theorem repoTree_git : GitOk repoTree := flat_git (by decide)

theorem repoTree_listing : Listing repoTree [] where
  exist _ hf := absurd hf List.not_mem_nil
  outside _ hf := absurd hf List.not_mem_nil
  distinct := List.nodup_nil

/-- `main` finds the .git directory. -/
theorem repoTree_passes (place : Place) : Passes place repoTree := by
  intro hroot
  have hne : place.cwd ≠ [] := by
    intro hnil
    have habs := place.cwd_abs
    rw [hnil] at habs
    cases habs
  have hroot' : resolve place.cwd place.givenRoot = comps place.cwd := by
    unfold Place.givenRoot
    cases hgiven : place.rootDir with
    | none => rw [Option.getD_none, resolve, absolute_of_isabs place.cwd_abs]
    | some p =>
      rw [hgiven] at hroot
      rw [Option.getD_some, show p = [] from hroot, resolve, absolute, if_neg (by decide),
        comps_join_nil]
  have hnamed : place.Names dotGit [dotGit] := by
    rw [Place.Names, hroot', resolve, absolute, if_neg (by decide),
      comps_join_name hne (by decide)]
  have hany : (repoTree.paths.any fun ds => place.Names dotGit ds) = true :=
    List.any_eq_true.mpr ⟨[dotGit], by decide, decide_eq_true hnamed⟩
  rw [pathExists, hany]
  rfl

/-- The empty directory has to be counted. -/
theorem repoTree_counts (exact : Exact place repoTree []) :
    CountsFor place [emptyName] [emptyName] := by
  have hempty : Emptied repoTree [] [emptyName] := by
    intro f hf hpre
    rcases mem_files_flat.mp hf with ⟨_, hname⟩ | ⟨s, hs, hdir, hname⟩
    · cases hname
    · rw [hdir] at hpre
      have heq := (List.cons_prefix_cons.mp hpre).1
      rcases List.mem_cons.mp hs with rfl | hs
      · exact absurd heq (by decide)
      · rw [List.mem_singleton.mp hs] at hname
        cases hname
  have balanced := balanced_of_exact exact repoTree_listing.toPresent
  exact visited_flat ((balanced.agree [emptyName] (by decide)).mpr ⟨by decide, hempty⟩).1

/-- Below a root directory in .git, and below the empty path, no directory is counted. -/
theorem not_exact_inside (inside : dotGit ∈ (parts place.givenRoot).tail ∨ place.givenRoot = []) :
    ¬ Exact place repoTree [] := by
  intro exact
  obtain ⟨hne, hskip, -⟩ := repoTree_counts exact
  have hmid : "/.git/".toList = '/' :: dotGit ++ ['/'] := rfl
  have hname : IsName emptyName := by decide
  have hinner := mem_inner_parts_join (by decide) hname.no_slash (inside.resolve_right hne)
  rw [skipped, decide_eq_false_iff_not, not_or, hmid, between_slashes (by decide)] at hskip
  exact hskip.2 hinner

theorem root_visited (outside : dotGit ∉ (parts place.givenRoot).tail)
    (hgit : place.givenRoot ≠ dotGit) : skipped place.givenRoot = false := by
  have hmid : "/.git/".toList = '/' :: dotGit ++ ['/'] := rfl
  rw [skipped, decide_eq_false_iff_not, not_or, hmid, between_slashes (by decide)]
  exact ⟨hgit, fun h => outside (List.dropLast_subset _ h)⟩

/-- Behind a slash at the end no file of a subdirectory counts for the root directory, which
is reported though .git is not empty. -/
theorem not_exact_slash (hends : endsSlash place.givenRoot = true)
    (outside : dotGit ∉ (parts place.givenRoot).tail) : ¬ Exact place repoTree [] := by
  intro exact
  obtain ⟨q, hq⟩ := endsSlash_iff.mp hends
  have hne : place.givenRoot ≠ [] := by
    rw [hq]
    exact List.append_ne_nil_of_right_ne_nil q (List.cons_ne_nil '/' [])
  have hgit : place.givenRoot ≠ dotGit := by
    intro hgit
    rw [hgit] at hends
    exact absurd hends (by decide)
  have hvisited : Visited place repoTree [] :=
    ⟨[], repoTree.root, hne, root_visited outside hgit, List.nil_prefix, fun _ _ => rfl⟩
  have hcounted : counted place repoTree [] = 0 := by
    refine List.length_eq_zero_iff.mpr (List.filter_eq_nil_iff.mpr fun f hf hcounts => ?_)
    have hroot := (of_decide_eq_true hcounts).2.2.2 hends rfl
    rcases mem_files_flat.mp hf with ⟨-, hname⟩ | ⟨s, -, hdir, -⟩
    · cases hname
    · rw [hroot] at hdir
      cases hdir
  have balanced := balanced_of_exact exact repoTree_listing.toPresent
  have hempty := (balanced.agree [] repoTree.root).mp ⟨hvisited, by rw [hcounted]; rfl⟩
  have hfile : ([dotGit], "HEAD".toList) ∈ repoTree.files := by decide
  exact List.not_mem_nil (hempty.2 _ hfile List.nil_prefix)

/-! ## A directory whose only file is to be deleted -/

def fileName : Path := "f".toList

/-- A name that is longer than a path. -/
def longName (p : Path) : Path := List.replicate (p.length + 1) 'a'

theorem longName_isName (p : Path) : IsName (longName p) where
  nonempty := by simp [longName]
  no_slash := by
    intro hmem
    exact absurd (List.eq_of_mem_replicate hmem) (by decide)
  not_dot := by
    intro heq
    have hmem : '.' ∈ longName p := heq ▸ List.mem_cons_self
    exact absurd (List.eq_of_mem_replicate hmem) (by decide)
  not_dots := by
    intro heq
    have hmem : '.' ∈ longName p := heq ▸ List.mem_cons_self
    exact absurd (List.eq_of_mem_replicate hmem) (by decide)

theorem longName_ne_dotGit (p : Path) : longName p ≠ dotGit := by
  intro heq
  have hmem : '.' ∈ longName p := heq ▸ List.mem_cons_self
  exact absurd (List.eq_of_mem_replicate hmem) (by decide)

theorem sub_flat {n : Path} (hn : IsName n) : Flat [] [(n, [fileName])] where
  names := by
    intro s hs
    rwa [List.mem_singleton.mp hs]
  nodup := List.nodup_singleton n
  file_names := by decide
  file_nodup := List.nodup_nil
  file_apart := fun f hf => absurd hf List.not_mem_nil
  sub_names := by
    intro s hs f hf
    rw [List.mem_singleton.mp hs, List.mem_singleton] at hf
    rw [hf]
    decide
  sub_nodup := by
    intro s hs
    rw [List.mem_singleton.mp hs]
    exact List.nodup_singleton fileName

/-- A tree with one file, in a directory of this name. -/
def subTree {n : Path} (hn : IsName n) : Tree := flat (sub_flat hn)

section SubTree
variable {n : Path} (hn : IsName n)

theorem subTree_files {f : File} : f ∈ (subTree hn).files ↔ f = ([n], fileName) := by
  rw [subTree, mem_files_flat]
  constructor
  · rintro (⟨-, hname⟩ | ⟨s, hs, hdir, hname⟩)
    · cases hname
    · rw [List.mem_singleton.mp hs] at hdir hname
      exact Prod.ext hdir (List.mem_singleton.mp hname)
  · rintro rfl
    exact Or.inr ⟨_, List.mem_cons_self, rfl, List.mem_cons_self⟩

theorem subTree_git (hgit : n ≠ dotGit) : GitOk (subTree hn) := by
  apply flat_git
  intro s hs heq
  rw [List.mem_singleton.mp hs] at heq
  exact absurd heq hgit

theorem subTree_listing (hgit : n ≠ dotGit) : Listing (subTree hn) [([n], fileName)] where
  exist f hf := (subTree_files hn).mpr (List.mem_singleton.mp hf)
  outside f hf := by
    rw [List.mem_singleton.mp hf]
    exact fun hmem => hgit (List.mem_singleton.mp hmem).symm
  distinct := List.nodup_singleton _

end SubTree

/-! ### The path of the file's directory, below a root spelled otherwise -/

section Respelled
variable {given root x : Path}

/-- Below a shorter spelling a part of the root comes first. -/
theorem not_partial_of_shorter (hne : given ≠ root) (hopen : endsSlash root = false)
    (hslash : '/' ∉ x) (hlong : root.length < x.length) (hpre : given <+: root) :
    x ∉ partials (parts ((root ++ '/' :: x).drop given.length)) := by
  obtain ⟨r, rfl⟩ := hpre
  have hr : r ≠ [] := by
    rintro rfl
    exact hne (List.append_nil given).symm
  rw [List.append_assoc, List.drop_left]
  rw [List.length_append] at hlong
  exact name_not_partial hslash (exists_not_slash hr hopen) (by omega)

/-- Below a longer spelling only the end of the name is left. -/
theorem not_partial_of_longer (hne : given ≠ root) (hends : endsSlash given = false)
    (hslash : '/' ∉ x) (hpre : given <+: root ++ '/' :: x) (hroot : root <+: given) :
    x ∉ partials (parts ((root ++ '/' :: x).drop given.length)) := by
  obtain ⟨t, rfl⟩ := hroot
  rw [List.prefix_append_right_inj] at hpre
  cases t with
  | nil => exact absurd (List.append_nil root) hne
  | cons c t =>
    obtain ⟨rfl, u, rfl⟩ := List.cons_prefix_cons.mp hpre
    have ht : t ≠ [] := by
      rintro rfl
      rw [Bool.eq_false_iff, ne_eq, endsSlash_iff] at hends
      exact hends ⟨root, rfl⟩
    have happend : root ++ '/' :: (t ++ u) = (root ++ '/' :: t) ++ u := by
      rw [List.append_assoc, List.cons_append]
    have hu : '/' ∉ u := fun hmem => hslash (List.mem_append_right t hmem)
    rw [happend, List.drop_left, parts_of_no_slash hu]
    intro hmem
    have hsame : t ++ u = u := List.mem_singleton.mp hmem
    have hlength := congrArg List.length hsame
    rw [List.length_append] at hlength
    have hpos := List.length_pos_iff.mpr ht
    omega

/-- The path of the deleted file's directory is not counted under its name. -/
theorem not_partial_belowRoot (hne : given ≠ root) (hends : endsSlash given = false)
    (hroot : root ≠ []) (hopen : endsSlash root = false) (hslash : '/' ∉ x)
    (hlong : root.length < x.length) :
    x ∉ partials (parts (belowRoot given (root ++ '/' :: x))) := by
  unfold belowRoot
  split
  · rename_i hpre
    rw [List.isPrefixOf_iff_prefix] at hpre
    rcases List.prefix_or_prefix_of_prefix hpre (List.prefix_append root _) with h | h
    · exact not_partial_of_shorter hne hopen hslash hlong h
    · exact not_partial_of_longer hne hends hslash hpre h
  · exact name_not_partial hslash (exists_not_slash (p := []) hroot hopen) hlong

end Respelled

/-- The file is counted for its directory, but not taken off it. -/
theorem not_exact_respelled {n : Path} (hn : IsName n) (hgit : n ≠ dotGit)
    (hends : endsSlash place.givenRoot = false) (hspelled : place.givenRoot ≠ place.absRoot)
    (hopen : endsSlash place.absRoot = false) (hlong : place.absRoot.length < n.length) :
    ¬ Exact place (subTree hn) [([n], fileName)] := by
  intro exact
  have hfile := (subTree_files hn).mpr rfl
  have hempty : Emptied (subTree hn) [([n], fileName)] [n] := fun f hf _ =>
    List.mem_singleton.mpr ((subTree_files hn).mp hf)
  have hout : dotGit ∉ [n] := fun hmem => hgit (List.mem_singleton.mp hmem).symm
  have balanced := balanced_of_exact exact (subTree_listing hn hgit).toPresent
  obtain ⟨hvisited, hsame⟩ :=
    (balanced.agree [n] ((subTree hn).dir_mem hfile)).mpr ⟨hout, hempty⟩
  have hcounted : 0 < counted place (subTree hn) [n] :=
    List.length_pos_of_mem
      (List.mem_filter.mpr ⟨hfile, decide_eq_true (visited_flat hvisited)⟩)
  have hnot := not_partial_belowRoot hspelled hends (absRoot_ne_nil place) hopen hn.no_slash hlong
  have hbelow : below place.absRoot [n] = place.absRoot ++ '/' :: n :=
    join_slash (absRoot_ne_nil place) hopen (not_isabs_of_no_slash hn.no_slash)
  have hrel : rel [n] = n := by simp [rel]
  rw [charged, List.map_singleton, List.sum_singleton, hbelow, hrel, times_of_not_mem hnot]
    at hsame
  omega

/-! ## A file in the root of the file system -/

theorem top_flat : Flat [fileName] [] where
  names := by decide
  nodup := by decide
  file_names := by decide
  file_nodup := by decide
  file_apart := by decide
  sub_names := by decide
  sub_nodup := by decide

/-- A tree with one file, in the root directory. -/
def topTree : Tree := flat top_flat

theorem topTree_files {f : File} : f ∈ topTree.files ↔ f = ([], fileName) := by
  rw [topTree, mem_files_flat]
  constructor
  · rintro (⟨hdir, hname⟩ | ⟨s, hs, -⟩)
    · exact Prod.ext hdir (List.mem_singleton.mp hname)
    · cases hs
  · rintro rfl
    exact Or.inl ⟨rfl, List.mem_cons_self⟩

theorem topTree_git : GitOk topTree := flat_git (by decide)

theorem topTree_listing : Listing topTree [([], fileName)] where
  exist f hf := topTree_files.mpr (List.mem_singleton.mp hf)
  outside f hf := by
    rw [List.mem_singleton.mp hf]
    exact List.not_mem_nil
  distinct := List.nodup_singleton _

/-- A path of slashes alone has at least two parts, which are all empty. -/
theorem slashes_parts {p : Path} (hne : p ≠ []) (hall : p.all (· == '/') = true) :
    2 ≤ times (partials (parts p)) [] := by
  cases p with
  | nil => exact absurd rfl hne
  | cons c p =>
    rw [List.all_cons, Bool.and_eq_true, beq_iff_eq] at hall
    obtain ⟨rfl, hall⟩ := hall
    have hparts : parts ('/' :: p) = [] :: parts p := parts_append [] p
    have hrest : ∃ qs, parts p = [] :: qs := by
      cases p with
      | nil => exact ⟨[], parts_of_no_slash List.not_mem_nil⟩
      | cons c p =>
        rw [List.all_cons, Bool.and_eq_true, beq_iff_eq] at hall
        rw [hall.1]
        exact ⟨parts p, parts_append [] p⟩
    obtain ⟨qs, hqs⟩ := hrest
    have hpartials : ∃ ks, partials ([] :: [] :: qs) = [] :: [] :: ks := by
      rw [partials_eq, List.length_cons, List.length_cons, List.range_succ_eq_map, List.map_cons,
        List.range_succ_eq_map, List.map_cons, List.map_cons]
      exact ⟨_, rfl⟩
    obtain ⟨ks, hks⟩ := hpartials
    have hnonneg : 0 ≤ times ks ([] : Path) := times_nonneg
    rw [hparts, hqs, hks, times_cons, times_cons, if_pos rfl]
    omega

/-- A path with another character than slashes does not begin the root's own path. -/
theorem belowRoot_top (hne : place.givenRoot ≠ []) (hends : endsSlash place.givenRoot = false)
    (hall : place.absRoot.all (· == '/') = true) :
    belowRoot place.givenRoot place.absRoot = place.absRoot := by
  rw [belowRoot, if_neg]
  rw [List.isPrefixOf_iff_prefix]
  intro hpre
  obtain ⟨c, hc, hslash⟩ := exists_not_slash (p := []) hne hends
  exact hslash (beq_iff_eq.mp (List.all_eq_true.mp hall c (hpre.mem hc)))

/-- The root directory of the file system is given by another path, and the deletion of a
file in it is charged to it for each part of its own path. -/
theorem not_exact_top (hne : place.givenRoot ≠ []) (hends : endsSlash place.givenRoot = false)
    (hall : place.absRoot.all (· == '/') = true) :
    ¬ Exact place topTree [([], fileName)] := by
  intro exact
  have hempty : Emptied topTree [([], fileName)] [] := fun f hf _ =>
    List.mem_singleton.mpr (topTree_files.mp hf)
  have balanced := balanced_of_exact exact topTree_listing.toPresent
  obtain ⟨-, hsame⟩ := (balanced.agree [] topTree.root).mpr ⟨List.not_mem_nil, hempty⟩
  have hone : counted place topTree [] ≤ 1 := List.length_filter_le _ _
  have htwice := slashes_parts (absRoot_ne_nil place) hall
  rw [charged, List.map_singleton, List.sum_singleton, below, List.foldl_nil,
    belowRoot_top hne hends hall, show rel [] = [] from rfl] at hsame
  omega

/-! ## The root directories -/

/-- An exact result for the trees where `main` passes its check takes a root directory that
is given as its absolute normal path, other than the root of the file system, outside .git. -/
theorem exact_iff_rootOk (place : Place) :
    (∀ tree gone, Passes place tree → Listing tree gone →
      (Exact place tree gone ↔ GitOk tree)) ↔ RootOk place := by
  constructor
  · intro hall
    have hrepo : Exact place repoTree [] :=
      (hall repoTree [] (repoTree_passes place) repoTree_listing).mpr repoTree_git
    have houtside : dotGit ∉ (parts place.givenRoot).tail := fun h =>
      not_exact_inside (Or.inl h) hrepo
    have hne : place.givenRoot ≠ [] := fun h => not_exact_inside (Or.inr h) hrepo
    have hends : endsSlash place.givenRoot = false :=
      Bool.eq_false_iff.mpr fun h => not_exact_slash h houtside hrepo
    refine ⟨?_, hends, houtside⟩
    by_contra hspelled
    -- a path was given, so `main` looks for no .git directory
    have hpasses : ∀ tree, Passes place tree := by
      intro tree hroot
      cases hgiven : place.rootDir with
      | none =>
        rw [Place.givenRoot, Place.absRoot, hgiven, Option.getD_none, orCwd, abspath,
          absolute_of_isabs place.cwd_abs, place.cwd_normal] at hspelled
        exact absurd rfl hspelled
      | some p =>
        rw [hgiven, Option.getD_some] at hroot
        rw [Place.givenRoot, hgiven, Option.getD_some] at hne
        exact absurd hroot hne
    rcases (normpath_ends (absolute place.cwd (orCwd place.cwd place.rootDir))).2 with htop | hopen
    · exact not_exact_top hne hends htop
        ((hall _ _ (hpasses _) topTree_listing).mpr topTree_git)
    · have hgit := longName_ne_dotGit place.absRoot
      have hlong : place.absRoot.length < (longName place.absRoot).length := by simp [longName]
      exact not_exact_respelled (longName_isName place.absRoot) hgit hends hspelled hopen hlong
        ((hall _ _ (hpasses _) (subTree_listing _ hgit)).mpr (subTree_git _ hgit))
  · intro ok tree gone _ listing
    exact exact_iff_git ok listing

end Places

/-! ## A directory whose only file is ignored, and the root directory "." -/

def builtName : Path := "d".toList

def dotPlace : Place := ⟨"/p".toList, by decide, by decide +kernel, some ".".toList⟩

def cleanPlace : Place := { dotPlace with rootDir := none }

theorem built_flat :
    Flat ["Makefile".toList] [(dotGit, ["HEAD".toList]), (builtName, [fileName])] where
  names := by decide
  nodup := by decide
  file_names := by decide
  file_nodup := by decide
  file_apart := by decide
  sub_names := by decide
  sub_nodup := by decide

/-- A repository with a directory whose only file is ignored. -/
def builtTree : Tree := flat built_flat

theorem builtTree_listing : Listing builtTree [([builtName], fileName)] :=
  ⟨⟨by decide, List.nodup_singleton _⟩, by decide⟩

def builtRepo : Repo := .mk (fun _ => (0, "d/f\n".toList)) none fun _ => .missing

theorem builtRepo_files :
    getUntrackedFiles builtRepo dotPlace.cwd dotPlace.rootDir true =
      .ok ([([builtName], fileName)].map (filePath dotPlace.absRoot)) := by
  decide +kernel

theorem builtTree_reported : reported dotPlace builtTree [([builtName], fileName)] = [] := by
  have hkeys : ((keys (fcounts dotPlace builtTree
      ([([builtName], fileName)].map (filePath dotPlace.absRoot)))).filter fun k =>
        get (fcounts dotPlace builtTree
          ([([builtName], fileName)].map (filePath dotPlace.absRoot))) k = 0) = [] := by
    decide +kernel
  rw [reported, getEmptyDirectories_eq, emptyKeys, hkeys, List.mergeSort_nil]
  rfl

end M65Tool.Guarantees.RootSpelling
