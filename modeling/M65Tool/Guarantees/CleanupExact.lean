import M65Tool.Guarantees.EmptyDirectories

/-!
# CLEANUP-EXACT: the files and then the directories are removed

Each file is there when it is removed. Where the numbers agree, each directory is empty by
then: what lay in it is emptied as well, and was reported before it. Where the removal goes
through, whatever lies in a directory that is removed was reported too.
-/
namespace M65Tool.Guarantees.CleanupExact
open Source.Superclean EmptyDirectories Lib.PosixPath Lib.Tally

/-! ## The removal -/

section Removal
variable {place : Place} {tree : Tree} {disk : Disk} {ds es : List Path}

theorem find?_only {α : Type} {l : List α} {p : α → Bool} {a : α} (ha : a ∈ l) (hp : p a = true)
    (only : ∀ b, p b = true → b = a) : l.find? p = some a := by
  cases hfind : l.find? p with
  | none => exact absurd hp (List.find?_eq_none.mp hfind a ha)
  | some b => rw [only b (List.find?_some hfind)]

theorem names_unique {p : Path} (hds : place.Names p ds) (hes : place.Names p es) : ds = es :=
  List.append_cancel_left (hds.symm.trans hes)

theorem file_ext {f f' : File} (h : f.1 ++ [f.2] = f'.1 ++ [f'.2]) : f = f' := by
  obtain ⟨hdir, hname⟩ := List.append_inj' h rfl
  exact Prod.ext hdir (List.singleton_inj.mp hname)

theorem osRemove_ok (place : Place) {f : File} (hf : f ∈ disk.files)
    (sub : disk.files ⊆ tree.files) :
    osRemove place disk (filePath place.absRoot f) =
      some { disk with files := disk.files.erase f } := by
  have hnames := tree.name_of_file (sub hf)
  have hnamed : place.Names (filePath place.absRoot f) (f.1 ++ [f.2]) := names_below place hnames
  have hends : endsSlash (filePath place.absRoot f) = false :=
    endsSlash_below (List.concat_ne_nil f.2 f.1) hnames
  have hfind : disk.files.find? (fun f' => place.Names (filePath place.absRoot f)
      (f'.1 ++ [f'.2]) && !endsSlash (filePath place.absRoot f)) = some f := by
    refine find?_only hf ?_ ?_
    · rw [hends, decide_eq_true hnamed]
      rfl
    · intro f' hf'
      rw [hends, Bool.not_false, Bool.and_true, decide_eq_true_iff] at hf'
      exact file_ext (names_unique hf' hnamed)
  rw [osRemove, hfind]
  rfl

/-- The files are there one after the other. -/
theorem removeFiles_ok (place : Place) {gone : List File} (nodup : gone.Nodup)
    (there : gone ⊆ disk.files) (sub : disk.files ⊆ tree.files) :
    (gone.map (filePath place.absRoot)).foldlM (osRemove place) disk =
      some { disk with files := disk.files.diff gone } := by
  induction gone generalizing disk with
  | nil => rfl
  | cons f gone ih =>
    obtain ⟨hnot, hrest⟩ := List.nodup_cons.mp nodup
    have hstep := osRemove_ok place (there List.mem_cons_self) sub
    have hthere : gone ⊆ disk.files.erase f := by
      intro f' hf'
      refine (List.mem_erase_of_ne ?_).mpr (there (List.mem_cons_of_mem f hf'))
      rintro rfl
      exact hnot hf'
    have hsub : disk.files.erase f ⊆ tree.files := fun f' hf' => sub (List.mem_of_mem_erase hf')
    rw [List.map_cons, List.foldlM_cons, hstep, Option.bind_eq_bind, Option.bind_some,
      ih hrest hthere hsub, List.diff_cons]

theorem osRmdir_ok (hne : place.givenRoot ≠ []) (hds : ds ∈ disk.dirs)
    (sub : disk.dirs ⊆ tree.paths) (noFile : ∀ f ∈ disk.files, f.1 ≠ ds)
    (noDir : ∀ es ∈ disk.dirs, es ≠ [] → es.dropLast ≠ ds) :
    osRmdir place disk (join place.givenRoot (rel ds)) =
      some { disk with dirs := disk.dirs.erase ds } := by
  have hnames := tree.name_of_mem (sub hds)
  have hfind : disk.dirs.find? (fun es => place.Names (join place.givenRoot (rel ds)) es) =
      some ds := by
    refine find?_only hds (decide_eq_true ((names_join_iff hne hnames).mpr rfl)) ?_
    intro es hes
    exact (names_join_iff hne hnames).mp (of_decide_eq_true hes)
  have hempty : ¬ (disk.files.any (fun f => f.1 = ds) ||
      disk.dirs.any fun es => es ≠ [] ∧ es.dropLast = ds) = true := by
    rw [Bool.or_eq_true, List.any_eq_true, List.any_eq_true]
    rintro (⟨f, hf, hdir⟩ | ⟨es, hes, hsub⟩)
    · exact noFile f hf (of_decide_eq_true hdir)
    · obtain ⟨hne, hlast⟩ := of_decide_eq_true hsub
      exact noDir es hes hne hlast
  rw [osRmdir, hfind, Option.bind_eq_bind, Option.bind_some, if_neg hempty]

/-- What is removed is a directory that has no other in it. -/
theorem osRmdir_some {after : Disk} {p : Path} (h : osRmdir place disk p = some after) :
    ∃ d, place.Names p d ∧ (∀ es ∈ disk.dirs, es ≠ [] → es.dropLast ≠ d) ∧
      after.dirs = disk.dirs.erase d := by
  unfold osRmdir at h
  cases hfind : disk.dirs.find? fun ds => place.Names p ds with
  | none =>
    rw [hfind] at h
    cases h
  | some d =>
    rw [hfind, Option.bind_eq_bind, Option.bind_some] at h
    split at h
    · cases h
    · rename_i hempty
      cases h
      have hnamed := List.find?_some hfind
      refine ⟨d, of_decide_eq_true hnamed, fun es hes hne hlast => hempty ?_, rfl⟩
      rw [Bool.or_eq_true]
      exact Or.inr (List.any_eq_true.mpr ⟨es, hes, decide_eq_true ⟨hne, hlast⟩⟩)

/-- Directories without files can be removed one after the other, each before the one it
lies in, if all that lie in one of them are among them. -/
theorem removeDirs_ok {dirs : List (List Path)} (root : ∀ ds ∈ dirs, place.givenRoot ≠ [])
    (nodup : disk.dirs.Nodup) (there : dirs ⊆ disk.dirs) (sub : disk.dirs ⊆ tree.paths)
    (noFile : ∀ ds ∈ dirs, ∀ f ∈ disk.files, f.1 ≠ ds)
    (closed : ∀ ds ∈ dirs, ∀ es ∈ disk.dirs, es ≠ [] → es.dropLast = ds → es ∈ dirs)
    (ordered : dirs.Pairwise fun ds es => ¬ ds <+: es) :
    (dirs.map fun ds => join place.givenRoot (rel ds)).foldlM (osRmdir place) disk =
      some { disk with dirs := disk.dirs.diff dirs } := by
  induction dirs generalizing disk with
  | nil => rfl
  | cons ds dirs ih =>
    obtain ⟨hfirst, hrest⟩ := List.pairwise_cons.mp ordered
    have hhead := there List.mem_cons_self
    have hstep := osRmdir_ok (root ds List.mem_cons_self) hhead sub
      (noFile ds List.mem_cons_self) (by
      intro es hes hne hlast
      have hpre : ds <+: es := hlast ▸ List.dropLast_prefix es
      rcases List.mem_cons.mp (closed ds List.mem_cons_self es hes hne hlast) with heq | hmem
      · have hlength := congrArg List.length hlast
        rw [heq, List.length_dropLast] at hlength
        have hpos := List.length_pos_iff.mpr hne
        rw [heq] at hpos
        omega
      · exact hfirst es hmem hpre)
    have hthere : dirs ⊆ disk.dirs.erase ds := by
      intro es hes
      refine (nodup.mem_erase_iff).mpr ⟨?_, there (List.mem_cons_of_mem ds hes)⟩
      rintro rfl
      exact hfirst es hes List.prefix_rfl
    have hclosed : ∀ ds' ∈ dirs, ∀ es ∈ disk.dirs.erase ds, es ≠ [] → es.dropLast = ds' →
        es ∈ dirs := by
      intro ds' hds' es hes hne hlast
      obtain ⟨hother, hes⟩ := (nodup.mem_erase_iff).mp hes
      have hmem := closed ds' (List.mem_cons_of_mem ds hds') es hes hne hlast
      exact List.mem_of_ne_of_mem hother hmem
    have hrun := @ih { disk with dirs := disk.dirs.erase ds }
      (fun ds' hds' => root ds' (List.mem_cons_of_mem ds hds'))
      (nodup.erase ds) hthere (fun es hes => sub (List.mem_of_mem_erase hes))
      (fun ds' hds' => noFile ds' (List.mem_cons_of_mem ds hds')) hclosed hrest
    rw [List.map_cons, List.foldlM_cons, hstep, Option.bind_eq_bind, Option.bind_some, hrun,
      List.diff_cons]

/-- Where a directory is removed, what lies in it is removed too: by induction on the paths,
since both stay as long as neither is named. -/
theorem child_removed {ps : List Path} {after : Disk}
    (run : ps.foldlM (osRmdir place) disk = some after) {p : Path} (hp : p ∈ ps)
    (named : place.Names p ds) (hds : ds ∈ disk.dirs) (hes : es ∈ disk.dirs) (hne : es ≠ [])
    (hlast : es.dropLast = ds) : ∃ q ∈ ps, place.Names q es := by
  induction ps generalizing disk with
  | nil => cases hp
  | cons q ps ih =>
    rw [List.foldlM_cons, Option.bind_eq_bind, Option.bind_eq_some_iff] at run
    obtain ⟨next, hstep, hrest⟩ := run
    obtain ⟨d, hnamed, hnone, hdirs⟩ := osRmdir_some hstep
    by_cases hthis : d = es
    · exact ⟨q, List.mem_cons_self, hthis ▸ hnamed⟩
    · have hother : d ≠ ds := fun heq => hnone es hes hne (hlast.trans heq.symm)
      have hmem : p ∈ ps := by
        refine (List.mem_cons.mp hp).resolve_left ?_
        rintro rfl
        exact hother (names_unique hnamed named)
      obtain ⟨q', hq', hnamed'⟩ := ih hrest hmem
        (hdirs ▸ (List.mem_erase_of_ne hother.symm).mpr hds)
        (hdirs ▸ (List.mem_erase_of_ne (Ne.symm hthis)).mpr hes)
      exact ⟨q', List.mem_cons_of_mem q hq', hnamed'⟩

end Removal

/-! ## Exactness -/

section Exactness
variable {place : Place} {tree : Tree} {gone : List File}

theorem reported_eq (dirs : List (List Path))
    (hdirs : emptyKeys place tree (gone.map (filePath place.absRoot)) = dirs.map rel) :
    reported place tree gone = dirs.map fun ds => join place.givenRoot (rel ds) := by
  rw [reported, getEmptyDirectories_eq, hdirs, List.map_map]
  rfl

/-- What the removal comes to. -/
theorem removeAll_balanced (balanced : Balanced place tree gone) (present : Present tree gone) :
    ∃ dirs : List (List Path),
      (∀ es, es ∈ dirs ↔ es ∈ tree.paths ∧ dotGit ∉ es ∧ Emptied tree gone es) ∧
      removeAll place tree.disk (gone.map (filePath place.absRoot)) (reported place tree gone) =
        some ⟨tree.paths.diff dirs, tree.files.diff gone⟩ := by
  obtain ⟨dirs, hkeys, hdirs, hordered⟩ := emptyKeys_dirs balanced present
  refine ⟨dirs, hdirs, ?_⟩
  have hfiles : (gone.map (filePath place.absRoot)).foldlM (osRemove place) tree.disk =
      some ⟨tree.paths, tree.files.diff gone⟩ :=
    removeFiles_ok place present.distinct (fun f hf => present.exist f hf) fun _ h => h
  have hleft : ∀ f ∈ tree.files.diff gone, f ∈ tree.files ∧ f ∉ gone := fun f hf =>
    (tree.nodup_files.mem_sdiff_iff).mp hf
  have hrun := @removeDirs_ok place tree ⟨tree.paths, tree.files.diff gone⟩ dirs
    (by
      intro ds hds
      obtain ⟨hpath, hout, hempty⟩ := (hdirs ds).mp hds
      exact balanced.ne_nil hpath hout hempty)
    tree.nodup (fun ds hds => ((hdirs ds).mp hds).1) (fun _ h => h)
    (by
      rintro ds hds f hf rfl
      obtain ⟨hfile, hstays⟩ := hleft f hf
      exact hstays (((hdirs f.1).mp hds).2.2 f hfile List.prefix_rfl))
    (by
      intro ds hds es hes hne hlast
      obtain ⟨-, hout, hempty⟩ := (hdirs ds).mp hds
      have hpre : ds <+: es := hlast ▸ List.dropLast_prefix es
      exact (hdirs es).mpr
        ⟨hes, balanced.child_outside hes hne hlast hout hempty, emptied_below hempty hpre⟩)
    hordered
  rw [removeAll, hfiles, reported_eq dirs hkeys]
  exact hrun

/-- Where the numbers agree the result is exact. -/
theorem exact_of_balanced (balanced : Balanced place tree gone) (present : Present tree gone) :
    Exact place tree gone := by
  obtain ⟨dirs, hkeys, hdirs, hordered⟩ := emptyKeys_dirs balanced present
  have hreported := reported_eq dirs hkeys
  have hnamed : ∀ ds ∈ dirs, ∀ es, place.Names (join place.givenRoot (rel ds)) es ↔ es = ds := by
    intro ds hds es
    obtain ⟨hpath, hout, hempty⟩ := (hdirs ds).mp hds
    exact names_join_iff (balanced.ne_nil hpath hout hempty) (tree.name_of_mem hpath)
  constructor
  · intro p hp
    rw [hreported] at hp
    obtain ⟨ds, hds, rfl⟩ := List.mem_map.mp hp
    obtain ⟨hpath, hout, hempty⟩ := (hdirs ds).mp hds
    exact ⟨ds, hpath, hout, hempty, (hnamed ds hds ds).mpr rfl⟩
  · intro ds hpath hout hempty
    have hds := (hdirs ds).mpr ⟨hpath, hout, hempty⟩
    rw [hreported]
    exact ⟨_, List.mem_map_of_mem hds, (hnamed ds hds ds).mpr rfl⟩
  · rw [hreported]
    refine List.pairwise_map.mpr (List.Pairwise.imp_of_mem ?_ hordered)
    intro ds es hds hes hpre ds' es' hds' hes'
    rw [(hnamed ds hds ds').mp hds', (hnamed es hes es').mp hes']
    exact hpre
  · obtain ⟨dirs', -, hremoved⟩ := removeAll_balanced balanced present
    exact ⟨_, hremoved⟩

/-- An exact result takes numbers that agree: what is reported are the directories where they
do, and a .git directory in one of these would keep it. -/
theorem balanced_of_exact (exact : Exact place tree gone) (present : Present tree gone) :
    Balanced place tree gone := by
  constructor
  · intro es hes
    constructor
    · intro hsame
      have hkey := (mem_emptyKeys_iff present).mpr ⟨es, hsame, rfl⟩
      have hmem : join place.givenRoot (rel es) ∈ reported place tree gone :=
        List.mem_map_of_mem hkey
      obtain ⟨ds, -, hout, hempty, hnamed⟩ := exact.sound _ hmem
      obtain rfl := (names_join_iff hsame.1.ne_nil (tree.name_of_mem hes)).mp hnamed
      exact ⟨hout, hempty⟩
    · rintro ⟨hout, hempty⟩
      obtain ⟨p, hp, hnamed⟩ := exact.complete es hes hout hempty
      obtain ⟨k, hk, rfl⟩ := mem_reported hp
      obtain ⟨ds, hsame, rfl⟩ := (mem_emptyKeys_iff present).mp hk
      obtain rfl := (names_join_iff hsame.1.ne_nil (tree.name_of_mem hsame.1.mem)).mp hnamed
      exact hsame
  · intro es hgit hout hempty
    obtain ⟨p, hp, hnamed⟩ := exact.complete es (tree.parent _ _ hgit) hout hempty
    obtain ⟨disk, hremoved⟩ := exact.removed
    have hfiles : (gone.map (filePath place.absRoot)).foldlM (osRemove place) tree.disk =
        some ⟨tree.paths, tree.files.diff gone⟩ :=
      removeFiles_ok place present.distinct (fun f hf => present.exist f hf) fun _ h => h
    rw [removeAll, hfiles, Option.bind_eq_bind, Option.bind_some] at hremoved
    -- the .git directory would have been removed before the one that it lies in
    obtain ⟨q, hq, hnamed'⟩ := child_removed hremoved hp hnamed (tree.parent _ _ hgit) hgit
      (List.concat_ne_nil dotGit es) List.dropLast_concat
    obtain ⟨ds, -, hout', -, hnamed''⟩ := exact.sound q hq
    rw [names_unique hnamed'' hnamed'] at hout'
    exact hout' (List.mem_append_right es List.mem_cons_self)

end Exactness

end M65Tool.Guarantees.CleanupExact
