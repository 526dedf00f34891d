import Mathlib.Data.List.Perm.Subperm
import M65Tool.Source.SupercleanCounts

/-!
# EMPTY-DIRECTORIES: when the directories that are reported are the ones that are emptied

The number of a directory is that of the files which the walk counts for it, less the times
that a deleted file is taken off it. Both depend on how the root directory is spelled, since
the files to be deleted are spelled below its absolute path. Where it is given as that path,
every file is taken off the directories that it was counted for, and what remains of the
condition is that each .git directory has a file of its own to keep the directories above it.
-/
namespace M65Tool.Guarantees.EmptyDirectories
open Source.Superclean Lib.PosixPath Lib.Tally

/-! ## The property -/

def dotGit : Path := ".git".toList

/-- A file's path as `get_untracked_files` spells it. -/
def filePath (root : Path) (f : File) : Path := below root (f.1 ++ [f.2])

/-- Distinct files of the tree. -/
structure Present (tree : Tree) (gone : List File) : Prop where
  exist : ∀ f ∈ gone, f ∈ tree.files
  distinct : gone.Nodup

/-- Those that git lists: there are none inside a .git directory. -/
structure Listing (tree : Tree) (gone : List File) : Prop extends Present tree gone where
  outside : ∀ f ∈ gone, dotGit ∉ f.1

/-- The subtree contains no file other than these. -/
def Emptied (tree : Tree) (gone : List File) (ds : List Path) : Prop :=
  ∀ f ∈ tree.files, ds <+: f.1 → f ∈ gone

/-- The directories that are reported for these files. -/
def reported (place : Place) (tree : Tree) (gone : List File) : List Path :=
  getEmptyDirectories place tree (some (gone.map (filePath place.absRoot)))

/-- The directories outside .git that are emptied are reported, each once and before the
directories above it, and no others, so that the removal goes through. -/
structure Exact (place : Place) (tree : Tree) (gone : List File) : Prop where
  sound : ∀ p ∈ reported place tree gone, ∃ ds ∈ tree.paths,
    dotGit ∉ ds ∧ Emptied tree gone ds ∧ place.Names p ds
  complete : ∀ ds ∈ tree.paths, dotGit ∉ ds → Emptied tree gone ds →
    ∃ p ∈ reported place tree gone, place.Names p ds
  ordered : (reported place tree gone).Pairwise fun p q =>
    ∀ ds es, place.Names p ds → place.Names q es → ¬ ds <+: es
  removed : ∃ disk, removeAll place tree.disk (gone.map (filePath place.absRoot))
    (reported place tree gone) = some disk

/-- The first check of `main` does not stop the script. -/
def Passes (place : Place) (tree : Tree) : Prop :=
  place.rootDir.getD [] = [] → pathExists place tree dotGit = true

/-- The root directory is given as its absolute normal path, and does not lie in .git. -/
structure RootOk (place : Place) : Prop where
  spelled : place.givenRoot = place.absRoot
  open_end : endsSlash place.givenRoot = false
  outside : dotGit ∉ (parts place.givenRoot).tail

/-- Each .git directory that is not inside another has a file of its own. -/
def GitOk (tree : Tree) : Prop :=
  ∀ ds, ds ++ [dotGit] ∈ tree.paths → dotGit ∉ ds → ∃ f ∈ tree.files, f.1 = ds ++ [dotGit]

/-! ## The condition -/

/-- `es` is a directory that `ds` is or lies in, and is met in its path: behind a slash at the
end of the root directory's path, the root directory is met in its own path only. -/
def Met (rootDir : Path) (es ds : List Path) : Prop :=
  es <+: ds ∧ (endsSlash rootDir = true → es = [] → ds = [])

instance (rootDir : Path) (es ds : List Path) : Decidable (Met rootDir es ds) :=
  inferInstanceAs (Decidable (_ ∧ _))

section Condition
variable (place : Place) (tree : Tree) (gone : List File) (es : List Path)

/-- The walk comes to `ds`, does not pass over it, and meets `es` in its path. -/
def CountsFor (ds : List Path) : Prop :=
  place.givenRoot ≠ [] ∧ skipped (below place.givenRoot ds) = false ∧ Met place.givenRoot es ds

instance (ds : List Path) : Decidable (CountsFor place es ds) :=
  inferInstanceAs (Decidable (_ ∧ _ ∧ _))

def Visited : Prop := ∃ ds ∈ tree.paths, CountsFor place es ds

/-- The files that are counted for the directory. -/
def counted : Nat := (tree.files.filter fun f => CountsFor place es f.1).length

/-- How often the deleted files are taken off it: each as often as the directory's relative
path is met in the path of the file's directory below the absolute root, from which the root
directory as it was given is cut off where it stands at the beginning. -/
def charged : Int :=
  (gone.map fun f =>
    times (partials (parts (belowRoot place.givenRoot (below place.absRoot f.1)))) (rel es)).sum

end Condition

/-- The numbers agree for the directories outside .git that are emptied, and for no others
that are counted; and no .git directory lies in one of these. -/
structure Balanced (place : Place) (tree : Tree) (gone : List File) : Prop where
  agree : ∀ es ∈ tree.paths,
    (Visited place tree es ∧ charged place gone es = counted place tree es) ↔
      (dotGit ∉ es ∧ Emptied tree gone es)
  apart : ∀ es, es ++ [dotGit] ∈ tree.paths → dotGit ∉ es → ¬ Emptied tree gone es

/-! ## Paths below the root directory -/

theorem absRoot_isabs (place : Place) : isabs place.absRoot = true :=
  isabs_normpath (isabs_absolute place.cwd_abs _)

theorem absRoot_ne_nil (place : Place) : place.absRoot ≠ [] := (normpath_ends _).1

theorem RootOk.isabs {place : Place} (ok : RootOk place) : isabs place.givenRoot = true := by
  rw [ok.spelled]
  exact absRoot_isabs place

theorem RootOk.ne_nil {place : Place} (ok : RootOk place) : place.givenRoot ≠ [] := by
  rw [ok.spelled]
  exact absRoot_ne_nil place

/-- The root directory is resolved to the components of its absolute path. -/
theorem resolve_givenRoot (place : Place) :
    resolve place.cwd place.givenRoot = comps place.absRoot := by
  have habs := isabs_absolute place.cwd_abs (orCwd place.cwd place.rootDir)
  have hcomps : comps place.absRoot =
      comps (absolute place.cwd (orCwd place.cwd place.rootDir)) := by
    rw [Place.absRoot, abspath, normpath_spelled habs, comps_spelled (comps_isName habs)]
  rw [hcomps, Place.givenRoot, resolve]
  cases place.rootDir with
  | none => rfl
  | some p =>
    rw [Option.getD_some, orCwd]
    split
    · rename_i hp
      rw [hp, absolute_of_isabs place.cwd_abs, absolute, if_neg (by decide), comps_join_nil]
    · rfl

/-- Below the absolute path lies what lies below the one that was given. -/
theorem names_below (place : Place) {names : List Path} (hnames : ∀ n ∈ names, IsName n) :
    place.Names (below place.absRoot names) names := by
  rw [Place.Names, resolve_below place.cwd (absRoot_ne_nil place) hnames, resolve_givenRoot,
    resolve, absolute_of_isabs (absRoot_isabs place)]

theorem dirname_filePath (place : Place) {f : File} (hf : ∀ n ∈ f.1 ++ [f.2], IsName n) :
    dirname (filePath place.absRoot f) = below place.absRoot f.1 := by
  have hdir : ∀ n ∈ f.1, IsName n := fun n hn => hf n (List.mem_append_left _ hn)
  have hname : IsName f.2 := hf f.2 (by simp)
  rw [filePath, below, List.foldl_append, List.foldl_cons, List.foldl_nil, ← below]
  refine dirname_join (below_ne_nil (absRoot_ne_nil place)) ?_ hname.no_slash
  cases hf1 : f.1 with
  | nil => exact (normpath_ends _).2
  | cons n ds => exact Or.inr (endsSlash_below (List.cons_ne_nil n ds) (hf1 ▸ hdir))

section Root
variable {root : Path} {ds es : List Path}

/-- What is left of a directory's path behind the root directory's. -/
theorem parts_drop_below (hne : root ≠ []) (hends : endsSlash root = false)
    (hds : ∀ n ∈ ds, IsName n) : parts ((below root ds).drop root.length) = [] :: ds := by
  have hparts := parts_flatMap (p := []) hds
  rw [List.nil_append] at hparts
  rw [below_slash hne hends hds, List.drop_left, hparts]
  rfl

theorem parts_drop_ends (hends : endsSlash root = true) (hne : ds ≠ [])
    (hds : ∀ n ∈ ds, IsName n) : parts ((below root ds).drop root.length) = ds := by
  rw [below_ends hends hds, List.drop_left, parts_rel hne hds]

theorem parts_drop_root : parts ((below root []).drop root.length) = [[]] := by
  rw [below, List.foldl_nil, List.drop_length]
  rfl

/-- The keys that a directory is counted under. -/
theorem mem_partials_below (hne : root ≠ []) (hds : ∀ n ∈ ds, IsName n) {k : Path} :
    k ∈ partials (parts ((below root ds).drop root.length)) ↔
      ∃ es, Met root es ds ∧ k = rel es := by
  cases hends : endsSlash root with
  | false =>
    rw [parts_drop_below hne hends hds, mem_partials hds]
    simp [Met, hends]
  | true =>
    cases ds with
    | nil =>
      rw [parts_drop_root, mem_partials hds]
      simp [Met]
    | cons n ds =>
      rw [parts_drop_ends hends (List.cons_ne_nil n ds) hds, mem_partials_tail hds]
      simp [Met, hends, and_assoc]

theorem nodup_partials_below (hne : root ≠ []) (hds : ∀ n ∈ ds, IsName n) :
    (partials (parts ((below root ds).drop root.length))).Nodup := by
  have hnodup := nodup_partials hds
  cases hends : endsSlash root with
  | false => rwa [parts_drop_below hne hends hds]
  | true =>
    cases ds with
    | nil => rwa [parts_drop_root]
    | cons n ds =>
      rw [partials_cons hds, List.nodup_cons] at hnodup
      rw [parts_drop_ends hends (List.cons_ne_nil n ds) hds]
      exact hnodup.2

/-- A directory is counted once in what it is met in. -/
theorem times_partials_below (hne : root ≠ []) (hds : ∀ n ∈ ds, IsName n)
    (hes : ∀ n ∈ es, IsName n) :
    times (partials (parts ((below root ds).drop root.length))) (rel es) =
      if Met root es ds then 1 else 0 := by
  split
  · rename_i hmet
    exact times_of_nodup (nodup_partials_below hne hds)
      ((mem_partials_below hne hds).mpr ⟨es, hmet, rfl⟩)
  · rename_i hnot
    refine times_of_not_mem fun hmem => hnot ?_
    obtain ⟨es', hmet, heq⟩ := (mem_partials_below hne hds).mp hmem
    rwa [rel_inj hes (fun n hn => hds n (hmet.1.mem hn)) heq]

end Root

/-! ## The numbers -/

/-- The sum of the numbers of files of the directories in `q`, where those in `p` count. -/
theorem sum_lengths (dirs : List (List Path × List Path)) (q p : List Path → Bool) :
    ((dirs.filter fun d => q d.1).map fun d => (d.2.length : Int) * if p d.1 then 1 else 0).sum =
      (((dirs.flatMap fun d => d.2.map fun f => (d.1, f)).filter fun f =>
        p f.1 && q f.1).length : Int) := by
  induction dirs with
  | nil => rfl
  | cons d dirs ih =>
    have hfiles : ((d.2.map fun f => (d.1, f)).filter fun f => p f.1 && q f.1).length =
        if p d.1 && q d.1 then d.2.length else 0 := by
      rw [List.filter_map, List.length_map]
      change (d.2.filter fun _ => p d.1 && q d.1).length = _
      generalize (p d.1 && q d.1) = b
      cases b with
      | true => simp
      | false => simp
    rw [List.flatMap_cons, List.filter_append, List.length_append, hfiles, Nat.cast_add, ← ih,
      List.filter_cons]
    cases q d.1 with
    | true =>
      rw [if_pos rfl, List.map_cons, List.sum_cons, Bool.and_true]
      split
      · rw [mul_one]
      · rw [mul_zero]
        rfl
    | false =>
      rw [if_neg Bool.false_ne_true, Bool.and_false, if_neg Bool.false_ne_true, Nat.cast_zero,
        zero_add]

section Numbers
variable {place : Place} {tree : Tree} {gone : List File} {es : List Path}

theorem added_walk (hes : ∀ n ∈ es, IsName n) :
    added (walkRounds tree place.givenRoot) (rel es) = (counted place tree es : Int) := by
  by_cases hne : place.givenRoot = []
  · have hnone : (tree.files.filter fun f => CountsFor place es f.1) = [] :=
      List.filter_eq_nil_iff.mpr fun f _ hcounts => (of_decide_eq_true hcounts).1 hne
    rw [walkRounds, walk, if_pos hne, counted, hnone]
    rfl
  · have htimes : ∀ d ∈ tree.dirs.filter fun d => !skipped (below place.givenRoot d.1),
        (d.2.length : Int) *
            times (partials (parts ((below place.givenRoot d.1).drop place.givenRoot.length)))
              (rel es) =
          (d.2.length : Int) * if decide (Met place.givenRoot es d.1) then 1 else 0 := by
      intro d hd
      rw [times_partials_below hne (tree.names d (List.mem_of_mem_filter hd)) hes]
      simp only [decide_eq_true_iff]
    rw [walkRounds, walk, if_neg hne, List.filter_map, List.map_map]
    change added ((tree.dirs.filter fun d => !skipped (below place.givenRoot d.1)).map fun d =>
      (partials (parts ((below place.givenRoot d.1).drop place.givenRoot.length)),
        (d.2.length : Int))) (rel es) = _
    rw [added_map, List.map_congr_left htimes, sum_lengths tree.dirs
      (fun ds => !skipped (below place.givenRoot ds)) fun ds => Met place.givenRoot es ds,
      counted, Tree.files]
    refine congrArg (fun fs : List File => (fs.length : Int)) (List.filter_congr fun f _ => ?_)
    simp [CountsFor, hne, and_comm]

theorem pathExists_dir (place : Place) {f : File} (hf : f ∈ tree.files) :
    pathExists place tree (dirname (filePath place.absRoot f)) = true := by
  have hdir := tree.dir_mem hf
  have hany : (tree.paths.any fun ds => place.Names (below place.absRoot f.1) ds) = true :=
    List.any_eq_true.mpr
      ⟨f.1, hdir, decide_eq_true (names_below place (tree.name_of_mem hdir))⟩
  rw [dirname_filePath place (tree.name_of_file hf), pathExists, hany,
    decide_eq_true (below_ne_nil (absRoot_ne_nil place))]
  rfl

theorem goneRounds_eq (present : Present tree gone) :
    goneRounds place tree (gone.map (filePath place.absRoot)) = gone.map fun f =>
      (partials (parts (belowRoot place.givenRoot (below place.absRoot f.1))), (-1 : Int)) := by
  rw [goneRounds, List.filter_eq_self.mpr, List.map_map]
  · refine List.map_congr_left fun f hf => ?_
    rw [Function.comp, dirname_filePath place (tree.name_of_file (present.exist f hf))]
  · intro p hp
    obtain ⟨f, hf, rfl⟩ := List.mem_map.mp hp
    exact pathExists_dir place (present.exist f hf)

theorem added_gone (present : Present tree gone) :
    added (goneRounds place tree (gone.map (filePath place.absRoot))) (rel es) =
      -charged place gone es := by
  rw [goneRounds_eq present, added_map, charged]
  clear present
  induction gone with
  | nil => rfl
  | cons f gone ih =>
    rw [List.map_cons, List.sum_cons, ih, List.map_cons, List.sum_cons]
    ring

/-- The number that the script comes to for a directory. -/
theorem get_rel (present : Present tree gone) (hes : ∀ n ∈ es, IsName n) :
    get (fcounts place tree (gone.map (filePath place.absRoot))) (rel es) =
      counted place tree es - charged place gone es := by
  rw [get_fcounts, added_walk hes, added_gone present, Int.sub_eq_add_neg]

theorem Visited.mem (visited : Visited place tree es) : es ∈ tree.paths := by
  obtain ⟨ds, hds, hcounts⟩ := visited
  exact tree.prefix_mem hds hcounts.2.2.1

theorem Visited.ne_nil (visited : Visited place tree es) : place.givenRoot ≠ [] := by
  obtain ⟨ds, -, hcounts⟩ := visited
  exact hcounts.1

/-- A key that the walk meets belongs to a directory that it counts files for. -/
theorem mem_walkRounds {k : Path} :
    (∃ round ∈ walkRounds tree place.givenRoot, k ∈ round.1) ↔
      ∃ es, Visited place tree es ∧ k = rel es := by
  constructor
  · rintro ⟨round, hround, hk⟩
    obtain ⟨d, hd, rfl⟩ := List.mem_map.mp hround
    obtain ⟨hd, hskip⟩ := List.mem_filter.mp hd
    unfold walk at hd
    split at hd
    · cases hd
    · rename_i hne
      obtain ⟨e, he, rfl⟩ := List.mem_map.mp hd
      obtain ⟨es, hmet, rfl⟩ := (mem_partials_below hne (tree.names e he)).mp hk
      refine ⟨es, ⟨e.1, List.mem_map_of_mem he, hne, ?_, hmet⟩, rfl⟩
      rwa [Bool.not_eq_eq_eq_not] at hskip
  · rintro ⟨es, ⟨ds, hds, hne, hskip, hmet⟩, rfl⟩
    obtain ⟨e, he, rfl⟩ := List.mem_map.mp hds
    have hwalked : (below place.givenRoot e.1, e.2) ∈
        (walk tree place.givenRoot).filter fun d => !skipped d.1 := by
      refine List.mem_filter.mpr ⟨?_, ?_⟩
      · unfold walk
        rw [if_neg hne]
        exact List.mem_map_of_mem he
      · rw [hskip]
        rfl
    exact ⟨_, List.mem_map_of_mem hwalked,
      (mem_partials_below hne (tree.names e he)).mpr ⟨es, hmet, rfl⟩⟩

/-- What is reported: the directories that files are counted for and where as many are taken
off again. -/
theorem mem_emptyKeys_iff (present : Present tree gone) {k : Path} :
    k ∈ emptyKeys place tree (gone.map (filePath place.absRoot)) ↔
      ∃ es, (Visited place tree es ∧ charged place gone es = counted place tree es) ∧
        k = rel es := by
  constructor
  · intro hk
    obtain ⟨es, hvisited, rfl⟩ := mem_walkRounds.mp (mem_walk_of_empty place tree hk)
    have hzero := ((mem_emptyKeys _ _ _ _).mp hk).2
    rw [get_rel present (tree.name_of_mem hvisited.mem)] at hzero
    exact ⟨es, ⟨hvisited, by omega⟩, rfl⟩
  · rintro ⟨es, ⟨hvisited, hsame⟩, rfl⟩
    rw [mem_emptyKeys, mem_keys_fcounts, get_rel present (tree.name_of_mem hvisited.mem)]
    exact ⟨Or.inl (mem_walkRounds.mpr ⟨es, hvisited, rfl⟩), by omega⟩

end Numbers

/-! ## The result -/

theorem prefix_le {p q : Path} (hpre : p <+: q) : p ≤ q := by
  obtain ⟨r, rfl⟩ := hpre
  induction p with
  | nil =>
    cases r with
    | nil => exact le_refl _
    | cons c r => exact le_of_lt List.Lex.nil
  | cons c p ih => exact List.cons_le_cons c ih

/-- A list of values of a function, each at a point of some kind. -/
theorem exists_map_eq {α β : Type} {f : α → β} {P : α → Prop} {ys : List β}
    (h : ∀ y ∈ ys, ∃ x, P x ∧ y = f x) : ∃ xs : List α, ys = xs.map f ∧ ∀ x ∈ xs, P x := by
  induction ys with
  | nil => exact ⟨[], rfl, fun x hx => absurd hx List.not_mem_nil⟩
  | cons y ys ih =>
    obtain ⟨x, hx, rfl⟩ := h y List.mem_cons_self
    obtain ⟨xs, rfl, hxs⟩ := ih fun y' hy' => h y' (List.mem_cons_of_mem _ hy')
    refine ⟨x :: xs, rfl, ?_⟩
    intro z hz
    rcases List.mem_cons.mp hz with rfl | hz
    · exact hx
    · exact hxs z hz

section Result
variable {place : Place} {tree : Tree} {gone : List File} {es : List Path}

theorem names_join_iff (hne : place.givenRoot ≠ []) (hes : ∀ n ∈ es, IsName n) {ds : List Path} :
    place.Names (join place.givenRoot (rel es)) ds ↔ ds = es := by
  rw [Place.Names, resolve_join_rel place.cwd hne hes, List.append_right_inj, eq_comm]

theorem mem_reported {p : Path} (hp : p ∈ reported place tree gone) :
    ∃ k ∈ emptyKeys place tree (gone.map (filePath place.absRoot)),
      p = join place.givenRoot k := by
  rw [reported, getEmptyDirectories_eq] at hp
  obtain ⟨k, hk, rfl⟩ := List.mem_map.mp hp
  exact ⟨k, hk, rfl⟩

/-- The directories in the order in which they are reported. -/
theorem emptyKeys_dirs (balanced : Balanced place tree gone) (present : Present tree gone) :
    ∃ dirs : List (List Path),
      emptyKeys place tree (gone.map (filePath place.absRoot)) = dirs.map rel ∧
      (∀ es, es ∈ dirs ↔ es ∈ tree.paths ∧ dotGit ∉ es ∧ Emptied tree gone es) ∧
      dirs.Pairwise fun ds es => ¬ ds <+: es := by
  have hkeys : ∀ k ∈ emptyKeys place tree (gone.map (filePath place.absRoot)),
      ∃ es, (es ∈ tree.paths ∧ dotGit ∉ es ∧ Emptied tree gone es) ∧ k = rel es := by
    intro k hk
    obtain ⟨es, hsame, rfl⟩ := (mem_emptyKeys_iff present).mp hk
    exact ⟨es, ⟨hsame.1.mem, (balanced.agree es hsame.1.mem).mp hsame⟩, rfl⟩
  obtain ⟨dirs, hdirs, hall⟩ := exists_map_eq hkeys
  refine ⟨dirs, hdirs, ?_, ?_⟩
  · intro es
    refine ⟨hall es, ?_⟩
    intro ⟨hes, hempty⟩
    have hkey := (mem_emptyKeys_iff (k := rel es) present).mpr
      ⟨es, (balanced.agree es hes).mpr hempty, rfl⟩
    rw [hdirs] at hkey
    obtain ⟨ds, hds, hrel⟩ := List.mem_map.mp hkey
    rwa [← rel_inj (tree.name_of_mem (hall ds hds).1) (tree.name_of_mem hes) hrel]
  · have hsorted := sorted_emptyKeys place tree (gone.map (filePath place.absRoot))
    have hnodup := nodup_emptyKeys place tree (gone.map (filePath place.absRoot))
    rw [hdirs] at hsorted hnodup
    refine ((List.pairwise_map.mp hsorted).and (List.pairwise_map.mp hnodup)).imp ?_
    intro ds es ⟨hle, hne⟩ hpre
    exact hne (le_antisymm (prefix_le (prefix_rel hpre)) hle)

/-- Where a directory is emptied there is one that is reported, so the root directory's path
is not empty. -/
theorem Balanced.ne_nil (balanced : Balanced place tree gone) (hes : es ∈ tree.paths)
    (hout : dotGit ∉ es) (hempty : Emptied tree gone es) : place.givenRoot ≠ [] :=
  ((balanced.agree es hes).mpr ⟨hout, hempty⟩).1.ne_nil

/-- Whatever is emptied, what lies in it is emptied. -/
theorem emptied_below {ds : List Path} (h : Emptied tree gone ds) (hpre : ds <+: es) :
    Emptied tree gone es :=
  fun f hf hes => h f hf (hpre.trans hes)

/-- No .git directory lies in a directory outside .git that is emptied. -/
theorem Balanced.child_outside (balanced : Balanced place tree gone) {ds : List Path}
    (hes : es ∈ tree.paths) (hne : es ≠ []) (hlast : es.dropLast = ds) (hout : dotGit ∉ ds)
    (hempty : Emptied tree gone ds) : dotGit ∉ es := by
  have hsplit := List.dropLast_append_getLast hne
  rw [hlast] at hsplit
  rw [← hsplit, List.mem_append, List.mem_singleton]
  rintro (hmem | hgit)
  · exact hout hmem
  · rw [← hgit] at hsplit
    exact balanced.apart ds (hsplit ▸ hes) hout hempty

end Result

end M65Tool.Guarantees.EmptyDirectories
