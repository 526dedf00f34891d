import M65Tool.Guarantees.CleanupExact

/-!
# GIT-DIRECTORIES: what the condition comes to where both functions spell the root directory alike

There every file is taken off the directories that it was counted for, as there is nothing to
take off where nothing is deleted. What is left of the condition is that each .git directory
has a file of its own: the walk passes over its subdirectories, but not over itself. Below a
relative root directory a file is taken off along the names of its absolute path instead.
-/
namespace M65Tool.Guarantees.GitDirectories
open Source.Superclean EmptyDirectories CleanupExact Lib.PosixPath Lib.Tally

/-- The root directory's path is not empty, does not end in a slash and does not lead into
.git. -/
structure RootOpen (place : Place) : Prop where
  ne_nil : place.givenRoot ≠ []
  ne_git : place.givenRoot ≠ dotGit
  open_end : endsSlash place.givenRoot = false
  outside : dotGit ∉ (parts place.givenRoot).tail

theorem rootOpen_of_ok {place : Place} (ok : RootOk place) : RootOpen place where
  ne_nil := ok.ne_nil
  ne_git := by
    intro hgit
    have habs := ok.isabs
    rw [hgit] at habs
    cases habs
  open_end := ok.open_end
  outside := ok.outside

/-! ## What is counted -/

section Counted
variable {place : Place} {tree : Tree} {gone : List File} {ds es : List Path}

/-- Only what lies in a subdirectory of .git is passed over. -/
theorem skipped_below (root : RootOpen place) (hds : ∀ n ∈ ds, IsName n) :
    skipped (below place.givenRoot ds) = true ↔ dotGit ∈ ds.dropLast := by
  have hhead : below place.givenRoot ds ≠ dotGit := by
    rw [below_slash root.ne_nil root.open_end hds]
    cases ds with
    | nil =>
      rw [List.flatMap_nil, List.append_nil]
      exact root.ne_git
    | cons n ds =>
      intro heq
      have hslash : '/' ∈ dotGit := by
        rw [← heq]
        simp
      exact absurd hslash (by decide)
  have hmid : "/.git/".toList = '/' :: dotGit ++ ['/'] := rfl
  obtain ⟨p, ps, hparts⟩ := List.exists_cons_of_ne_nil (parts_ne_nil place.givenRoot)
  have outside := root.outside
  rw [hparts, List.tail_cons] at outside
  rw [skipped, decide_eq_true_iff, show ".git".toList = dotGit from rfl, or_iff_right hhead, hmid,
    between_slashes (by decide), below_slash root.ne_nil root.open_end hds, parts_flatMap hds,
    hparts, List.cons_append, List.tail_cons]
  cases ds with
  | nil =>
    rw [List.append_nil]
    exact iff_of_false (fun h => outside (List.dropLast_subset ps h)) List.not_mem_nil
  | cons n ds =>
    rw [List.dropLast_append_of_ne_nil (List.cons_ne_nil n ds), List.mem_append]
    exact or_iff_right outside

theorem countsFor_iff (root : RootOpen place) (hds : ∀ n ∈ ds, IsName n) :
    CountsFor place es ds ↔ es <+: ds ∧ dotGit ∉ ds.dropLast := by
  have hskip := not_congr (skipped_below root hds)
  rw [Bool.not_eq_true] at hskip
  rw [CountsFor, hskip, Met, root.open_end]
  constructor
  · rintro ⟨-, hgit, hpre, -⟩
    exact ⟨hpre, hgit⟩
  · rintro ⟨hpre, hgit⟩
    exact ⟨root.ne_nil, hgit, hpre, fun h => Bool.noConfusion h⟩

/-- The directories above one that is walked are walked. -/
theorem not_mem_dropLast (h : dotGit ∉ ds.dropLast) (hpre : es <+: ds) : dotGit ∉ es.dropLast := by
  obtain ⟨rest, rfl⟩ := hpre
  cases rest with
  | nil => rwa [List.append_nil] at h
  | cons n rest =>
    rw [List.dropLast_append_of_ne_nil (List.cons_ne_nil n rest)] at h
    exact fun hmem => h (List.mem_append_left _ (List.dropLast_subset es hmem))

theorem visited_iff (root : RootOpen place) (hes : es ∈ tree.paths) :
    Visited place tree es ↔ dotGit ∉ es.dropLast := by
  constructor
  · rintro ⟨ds, hds, hcounts⟩
    obtain ⟨hpre, hgit⟩ := (countsFor_iff root (tree.name_of_mem hds)).mp hcounts
    exact not_mem_dropLast hgit hpre
  · intro hgit
    exact ⟨es, hes, (countsFor_iff root (tree.name_of_mem hes)).mpr ⟨List.prefix_rfl, hgit⟩⟩

/-- There are as many of the listed files below a directory as are counted for it exactly if
all that are counted are listed. -/
theorem counted_eq_iff (root : RootOpen place) (listing : Listing tree gone) :
    (gone.filter fun f => es <+: f.1).length = counted place tree es ↔
      ∀ f ∈ tree.files, es <+: f.1 → dotGit ∉ f.1.dropLast → f ∈ gone := by
  have hcounts : ∀ f ∈ tree.files,
      CountsFor place es f.1 ↔ es <+: f.1 ∧ dotGit ∉ f.1.dropLast := fun f hf =>
    countsFor_iff root (tree.name_of_mem (tree.dir_mem hf))
  have hsub : (gone.filter fun f => es <+: f.1) ⊆
      tree.files.filter fun f => CountsFor place es f.1 := by
    intro f hf
    rw [List.mem_filter, decide_eq_true_iff] at hf ⊢
    have hfile := listing.exist f hf.1
    exact ⟨hfile, (hcounts f hfile).mpr
      ⟨hf.2, fun h => listing.outside f hf.1 (List.dropLast_subset f.1 h)⟩⟩
  have hsubperm := List.subperm_of_subset (listing.distinct.filter _) hsub
  constructor
  · intro hlength f hf hpre hgit
    have hperm := hsubperm.perm_of_length_le hlength.ge
    have hmem : f ∈ tree.files.filter fun f => CountsFor place es f.1 :=
      List.mem_filter.mpr ⟨hf, decide_eq_true ((hcounts f hf).mpr ⟨hpre, hgit⟩)⟩
    exact List.mem_of_mem_filter (hperm.mem_iff.mpr hmem)
  · intro hall
    have hsub' : (tree.files.filter fun f => CountsFor place es f.1) ⊆
        gone.filter fun f => es <+: f.1 := by
      intro f hf
      obtain ⟨hfile, hcounted⟩ := List.mem_filter.mp hf
      obtain ⟨hpre, hgit⟩ := (hcounts f hfile).mp (of_decide_eq_true hcounted)
      exact List.mem_filter.mpr ⟨hall f hfile hpre hgit, decide_eq_true hpre⟩
    have hsubperm' := List.subperm_of_subset (tree.nodup_files.filter _) hsub'
    exact Nat.le_antisymm hsubperm.length_le hsubperm'.length_le

/-- A directory whose counted files are all to be deleted is outside .git and emptied: a
.git directory at or below it would have a file that counts. -/
theorem emptied_of_counted (git : GitOk tree) (listing : Listing tree gone)
    (hes : es ∈ tree.paths) (hgit : dotGit ∉ es.dropLast)
    (hall : ∀ f ∈ tree.files, es <+: f.1 → dotGit ∉ f.1.dropLast → f ∈ gone) :
    dotGit ∉ es ∧ Emptied tree gone es := by
  have hnone : ∀ ds, ds ++ [dotGit] ∈ tree.paths → dotGit ∉ ds → ¬ es <+: ds ++ [dotGit] := by
    intro ds hds hout hpre
    obtain ⟨f, hf, hdir⟩ := git ds hds hout
    have hgone : f ∈ gone := by
      apply hall f hf
      · rwa [hdir]
      · rwa [hdir, List.dropLast_concat]
    apply listing.outside f hgone
    rw [hdir]
    exact List.mem_append_right ds List.mem_cons_self
  have houtside : dotGit ∉ es := by
    intro hmem
    have hne : es ≠ [] := List.ne_nil_of_mem hmem
    have hlast : es = es.dropLast ++ [dotGit] := by
      rw [← List.dropLast_append_getLast hne, List.mem_append, List.mem_singleton] at hmem
      rcases hmem with hmem | hmem
      · exact absurd hmem hgit
      · rw [hmem, List.dropLast_append_getLast hne]
    rw [hlast] at hes
    refine hnone es.dropLast hes hgit ?_
    rw [← hlast]
  refine ⟨houtside, ?_⟩
  intro f hf hpre
  by_cases hin : dotGit ∈ f.1.dropLast
  · obtain ⟨above, rest, hsplit, hfirst⟩ :=
      List.eq_append_cons_of_mem (List.dropLast_subset f.1 hin)
    have hpre' : above ++ [dotGit] <+: f.1 := ⟨rest, by rw [hsplit]; simp⟩
    have habove := tree.prefix_mem (tree.dir_mem hf) hpre'
    rcases List.prefix_or_prefix_of_prefix hpre hpre' with h | h
    · exact absurd h (hnone above habove hfirst)
    · exact absurd (h.mem (List.mem_append_right above List.mem_cons_self)) houtside
  · exact hall f hf hpre hin

end Counted

/-! ## What is taken off -/

section Charged
variable {place : Place} {tree : Tree} {gone : List File} {es : List Path}

theorem sum_met {α : Type} (xs : List α) (p : α → Bool) :
    (xs.map fun x => if p x then (1 : Int) else 0).sum = (xs.filter p).length := by
  induction xs with
  | nil => rfl
  | cons x xs ih =>
    rw [List.map_cons, List.sum_cons, ih, List.filter_cons]
    split
    · rw [List.length_cons]
      omega
    · omega

/-- A file is taken off the directories on the way along some names where its path is spelled
with these names. -/
theorem charged_along (along : File → List Path) (hes : ∀ n ∈ es, IsName n)
    (hnames : ∀ f ∈ gone, ∀ n ∈ along f, IsName n)
    (hparts : ∀ f ∈ gone,
      parts (belowRoot place.givenRoot (below place.absRoot f.1)) = [] :: along f) :
    charged place gone es = (gone.filter fun f => es <+: along f).length := by
  rw [← sum_met, charged]
  refine congrArg List.sum (List.map_congr_left fun f hf => ?_)
  rw [hparts f hf]
  simp only [decide_eq_true_iff]
  split
  · rename_i hpre
    exact times_of_nodup (nodup_partials (hnames f hf))
      ((rel_mem_partials (hnames f hf) hes).mpr hpre)
  · rename_i hpre
    exact times_of_not_mem fun hmem => hpre ((rel_mem_partials (hnames f hf) hes).mp hmem)

theorem charged_spelled (ok : RootOk place) (present : Present tree gone)
    (hes : ∀ n ∈ es, IsName n) :
    charged place gone es = (gone.filter fun f => es <+: f.1).length := by
  have hnames : ∀ f ∈ gone, ∀ n ∈ f.1, IsName n := fun f hf =>
    tree.name_of_mem (tree.dir_mem (present.exist f hf))
  refine charged_along Prod.fst hes hnames fun f hf => ?_
  have hbelow := below_slash ok.ne_nil ok.open_end (hnames f hf)
  have hpre : place.givenRoot.isPrefixOf (below place.givenRoot f.1) = true := by
    rw [List.isPrefixOf_iff_prefix, hbelow]
    exact List.prefix_append _ _
  rw [← ok.spelled, belowRoot, if_pos hpre, parts_drop_below ok.ne_nil ok.open_end (hnames f hf)]

/-- Below a relative root directory the names of its absolute path come first. -/
theorem charged_relative (hne : place.givenRoot ≠ []) (hrelative : isabs place.givenRoot = false)
    (hroot : place.absRoot = spelled 1 (comps place.absRoot)) (hcomps : comps place.absRoot ≠ [])
    (present : Present tree gone) (hes : ∀ n ∈ es, IsName n) :
    charged place gone es = (gone.filter fun f => es <+: comps place.absRoot ++ f.1).length := by
  have hcs := comps_isName (absRoot_isabs place)
  have hdir : ∀ f ∈ gone, ∀ n ∈ f.1, IsName n := fun f hf =>
    tree.name_of_mem (tree.dir_mem (present.exist f hf))
  have hnames : ∀ f ∈ gone, ∀ n ∈ comps place.absRoot ++ f.1, IsName n := fun f hf n hn =>
    (List.mem_append.mp hn).elim (hcs n) (hdir f hf n)
  refine charged_along (fun f => comps place.absRoot ++ f.1) hes hnames fun f hf => ?_
  have hspelled : below place.absRoot f.1 = '/' :: rel (comps place.absRoot ++ f.1) := by
    conv_lhs => rw [hroot]
    exact below_spelled Nat.one_pos hcs (hdir f hf)
  have hpre : ¬ place.givenRoot.isPrefixOf (below place.absRoot f.1) = true := by
    rw [List.isPrefixOf_iff_prefix, hspelled]
    rintro ⟨r, hr⟩
    have habs : isabs (place.givenRoot ++ r) = true := by rw [hr]; rfl
    rw [isabs_append hne, hrelative] at habs
    cases habs
  have hparts : parts ('/' :: rel (comps place.absRoot ++ f.1)) =
      parts [] ++ parts (rel (comps place.absRoot ++ f.1)) := parts_append [] _
  rw [belowRoot, if_neg hpre, hspelled, hparts,
    parts_rel (List.append_ne_nil_of_left_ne_nil hcomps f.1) (hnames f hf)]
  rfl

end Charged

/-! ## The .git directories -/

section Git
variable {place : Place} {tree : Tree} {gone : List File}

/-- Where as many files are taken off a directory as there are listed files below it, the
numbers agree exactly if each .git directory has a file of its own. -/
theorem balanced_iff_git (root : RootOpen place) (listing : Listing tree gone)
    (taken : ∀ es ∈ tree.paths,
      charged place gone es = (gone.filter fun f => es <+: f.1).length) :
    Balanced place tree gone ↔ GitOk tree := by
  have hagree : ∀ es ∈ tree.paths,
      (Visited place tree es ∧ charged place gone es = counted place tree es) ↔
        dotGit ∉ es.dropLast ∧
          ∀ f ∈ tree.files, es <+: f.1 → dotGit ∉ f.1.dropLast → f ∈ gone := by
    intro es hes
    rw [visited_iff root hes, taken es hes, Nat.cast_inj, counted_eq_iff root listing]
  constructor
  · intro balanced ds hds hout
    by_contra hnone
    -- the .git directory would be reported itself
    have hempty : ∀ f ∈ tree.files, ds ++ [dotGit] <+: f.1 → dotGit ∉ f.1.dropLast → f ∈ gone := by
      rintro f hf ⟨rest, hrest⟩ hgit
      cases rest with
      | nil =>
        rw [List.append_nil] at hrest
        exact absurd ⟨f, hf, hrest.symm⟩ hnone
      | cons n rest =>
        rw [← hrest, List.dropLast_append_of_ne_nil (List.cons_ne_nil n rest)] at hgit
        exact absurd (List.mem_append_left _ (List.mem_append_right ds List.mem_cons_self)) hgit
    have hreported := (hagree _ hds).mpr ⟨by rwa [List.dropLast_concat], hempty⟩
    exact ((balanced.agree _ hds).mp hreported).1
      (List.mem_append_right ds List.mem_cons_self)
  · intro git
    constructor
    · intro es hes
      rw [hagree es hes]
      constructor
      · exact fun ⟨hgit, hall⟩ => emptied_of_counted git listing hes hgit hall
      · exact fun ⟨hout, hempty⟩ =>
          ⟨fun h => hout (List.dropLast_subset es h), fun f hf hpre _ => hempty f hf hpre⟩
    · intro es hgit hout hempty
      obtain ⟨f, hf, hdir⟩ := git es hgit hout
      apply listing.outside f (hempty f hf (hdir ▸ List.prefix_append es [dotGit]))
      rw [hdir]
      exact List.mem_append_right es List.mem_cons_self

/-- With a root directory that is spelled alike. -/
theorem balanced_iff_spelled (ok : RootOk place) (listing : Listing tree gone) :
    Balanced place tree gone ↔ GitOk tree :=
  balanced_iff_git (rootOpen_of_ok ok) listing fun _ hes =>
    charged_spelled ok listing.toPresent (tree.name_of_mem hes)

theorem exact_of_git (ok : RootOk place) (git : GitOk tree) (listing : Listing tree gone) :
    Exact place tree gone :=
  exact_of_balanced ((balanced_iff_spelled ok listing).mpr git) listing.toPresent

/-- With a root directory that is spelled alike, the result is exact exactly if each .git
directory has a file of its own. -/
theorem exact_iff_git (ok : RootOk place) (listing : Listing tree gone) :
    Exact place tree gone ↔ GitOk tree :=
  ⟨fun exact => (balanced_iff_spelled ok listing).mp
    (balanced_of_exact exact listing.toPresent), fun git => exact_of_git ok git listing⟩

/-- So it is, however the root directory is spelled, where there is nothing to delete. -/
theorem exact_nothing_iff_git (root : RootOpen place) : Exact place tree [] ↔ GitOk tree := by
  have listing : Listing tree [] :=
    ⟨⟨fun f hf => absurd hf List.not_mem_nil, List.nodup_nil⟩,
      fun f hf => absurd hf List.not_mem_nil⟩
  have hiff := balanced_iff_git root listing fun _ _ => rfl
  constructor
  · exact fun exact => hiff.mp (balanced_of_exact exact listing.toPresent)
  · exact fun git => exact_of_balanced (hiff.mpr git) listing.toPresent

end Git

end M65Tool.Guarantees.GitDirectories
