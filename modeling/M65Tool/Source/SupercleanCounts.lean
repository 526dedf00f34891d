import M65Tool.Source.Superclean

/-!
# What the cleaning script counts

Both loops of `get_empty_directories` add a number to the partial paths of a directory.
The number of a key is the sum over the directories that are walked and over the files
that are taken off again, for every spelling of the root directory.
-/
namespace M65Tool.Source.Superclean
open Lib.PosixPath Lib.Tally

/-! ## The tree -/

namespace Tree
variable (tree : Tree) {ds es : List Path} {f : File}

theorem mem_files : f ∈ tree.files ↔ ∃ d ∈ tree.dirs, f.1 = d.1 ∧ f.2 ∈ d.2 := by
  rw [files, List.mem_flatMap]
  apply exists_congr
  intro d
  rw [List.mem_map, and_congr_right_iff]
  intro _
  constructor
  · intro ⟨n, hn, hf⟩
    rw [← hf]
    exact ⟨rfl, hn⟩
  · exact fun ⟨hdir, hn⟩ => ⟨f.2, hn, by rw [← hdir]⟩

theorem nodup_files : tree.files.Nodup := by
  refine List.nodup_flatMap.mpr ⟨?_, ?_⟩
  · intro d hd
    exact (tree.file_nodup d hd).map fun _ _ heq => (Prod.mk.inj heq).2
  · refine (List.pairwise_map.mp tree.nodup).imp ?_
    intro d e hne f hd he
    obtain ⟨_, -, hf⟩ := List.mem_map.mp hd
    obtain ⟨_, -, hf'⟩ := List.mem_map.mp he
    rw [← hf'] at hf
    exact hne (Prod.mk.inj hf).1

theorem dir_mem (h : f ∈ tree.files) : f.1 ∈ tree.paths := by
  obtain ⟨d, hd, hdir, -⟩ := tree.mem_files.mp h
  rw [hdir]
  exact List.mem_map_of_mem hd

theorem name_of_mem (h : ds ∈ tree.paths) : ∀ n ∈ ds, IsName n := by
  obtain ⟨d, hd, rfl⟩ := List.mem_map.mp h
  exact tree.names d hd

theorem name_of_file (h : f ∈ tree.files) : ∀ n ∈ f.1 ++ [f.2], IsName n := by
  intro n hn
  obtain ⟨d, hd, hdir, hname⟩ := tree.mem_files.mp h
  rcases List.mem_append.mp hn with hn | hn
  · exact tree.name_of_mem (tree.dir_mem h) n hn
  · rw [List.mem_singleton.mp hn]
    exact tree.file_names d hd f.2 hname

/-- The directories above a directory are in the tree. -/
theorem prefix_mem (hds : ds ∈ tree.paths) (hpre : es <+: ds) : es ∈ tree.paths := by
  obtain ⟨rest, rfl⟩ := hpre
  induction rest using List.reverseRecOn with
  | nil => rwa [List.append_nil] at hds
  | append_singleton rest n ih =>
    rw [← List.append_assoc] at hds
    exact ih (tree.parent _ n hds)

end Tree

/-! ## Partial paths -/

section Partials
variable {names es ds : List Path}

theorem partials_eq (dparts : List Path) :
    partials dparts = (List.range dparts.length).map fun i => joinAll (dparts.take (i + 1)) := by
  unfold partials
  rw [List.range_eq_range', List.range'_eq_map_range, List.map_map, ← List.range_eq_range']
  apply List.map_congr_left
  intro i hi
  rw [List.mem_range] at hi
  obtain ⟨x, xs, rfl⟩ := List.exists_cons_of_length_pos (Nat.lt_of_le_of_lt (Nat.zero_le i) hi)
  cases i with
  | zero => rfl
  | succ i =>
    have hlt : 1 < i + 1 + 1 := by omega
    simp only [Function.comp, Nat.add_comm 1, if_pos hlt]

/-- The partial paths of names below the root directory are those of the directories above. -/
theorem partials_names (hnames : ∀ n ∈ names, IsName n) :
    partials ([] :: names) = (List.range (names.length + 1)).map fun i => rel (names.take i) := by
  rw [partials_eq, List.length_cons]
  apply List.map_congr_left
  intro i _
  rw [List.take_succ_cons]
  exact joinAll_empty_cons fun n hn => hnames n (List.mem_of_mem_take hn)

theorem mem_partials (hnames : ∀ n ∈ names, IsName n) {k : Path} :
    k ∈ partials ([] :: names) ↔ ∃ es, es <+: names ∧ k = rel es := by
  rw [partials_names hnames, List.mem_map]
  constructor
  · intro ⟨i, _, hk⟩
    exact ⟨names.take i, List.take_prefix i names, hk.symm⟩
  · intro ⟨es, hes, hk⟩
    refine ⟨es.length, ?_, ?_⟩
    · rw [List.mem_range]
      exact Nat.lt_succ_of_le hes.length_le
    · rw [hk, ← List.prefix_iff_eq_take.mp hes]

theorem nodup_partials (hnames : ∀ n ∈ names, IsName n) : (partials ([] :: names)).Nodup := by
  rw [partials_names hnames]
  refine List.Nodup.map_on ?_ List.nodup_range
  intro i hi j hj heq
  rw [List.mem_range] at hi hj
  have htake := rel_inj (fun n hn => hnames n (List.mem_of_mem_take hn))
    (fun n hn => hnames n (List.mem_of_mem_take hn)) heq
  have hlength := congrArg List.length htake
  rw [List.length_take, List.length_take] at hlength
  omega

/-- Without the empty part in front only that of the root directory is missing. -/
theorem partials_cons (hnames : ∀ n ∈ names, IsName n) :
    partials ([] :: names) = [] :: partials names := by
  have hjoin : ∀ ns : List Path, ns ≠ [] → (∀ n ∈ ns, IsName n) → joinAll ns = rel ns := by
    intro ns hne hns
    obtain ⟨n, ms, rfl⟩ := List.exists_cons_of_ne_nil hne
    have hn := hns n List.mem_cons_self
    have hends := endsSlash_false (p := []) hn.nonempty hn.no_slash
    rw [joinAll, ← below, below_slash hn.nonempty hends fun m hm =>
      hns m (List.mem_cons_of_mem n hm), rel_cons]
  rw [partials_names hnames, partials_eq, List.range_succ_eq_map, List.map_cons, List.map_map]
  refine congrArg ([] :: ·) (List.map_congr_left fun i hi => ?_)
  rw [List.mem_range] at hi
  refine (hjoin _ ?_ fun n hn => hnames n (List.mem_of_mem_take hn)).symm
  rw [ne_eq, List.take_eq_nil_iff]
  rintro (h | h)
  · cases h
  · rw [h] at hi
    cases hi

theorem mem_partials_tail (hnames : ∀ n ∈ names, IsName n) {k : Path} :
    k ∈ partials names ↔ ∃ es, es <+: names ∧ es ≠ [] ∧ k = rel es := by
  have hnodup := nodup_partials hnames
  have hmem := mem_partials hnames (k := k)
  rw [partials_cons hnames] at hnodup hmem
  constructor
  · intro hk
    obtain ⟨es, hes, rfl⟩ := hmem.mp (List.mem_cons_of_mem [] hk)
    refine ⟨es, hes, ?_, rfl⟩
    rintro rfl
    exact (List.nodup_cons.mp hnodup).1 hk
  · rintro ⟨es, hes, hne, rfl⟩
    refine (List.mem_cons.mp (hmem.mpr ⟨es, hes, rfl⟩)).resolve_left fun hnil => hne ?_
    exact rel_inj (fun n hn => hnames n (hes.mem hn)) (fun n hn => absurd hn List.not_mem_nil) hnil

/-- A directory is met in the partial paths of what lies in or below it. -/
theorem rel_mem_partials (hds : ∀ n ∈ ds, IsName n) (hes : ∀ n ∈ es, IsName n) :
    rel es ∈ partials ([] :: ds) ↔ es <+: ds := by
  rw [mem_partials hds]
  constructor
  · rintro ⟨es', hpre, heq⟩
    rwa [rel_inj hes (fun n hn => hds n (hpre.mem hn)) heq]
  · exact fun hpre => ⟨es, hpre, rfl⟩

/-- A long name below a directory whose path is not all slashes is not a partial path. -/
theorem name_not_partial {r x : Path} (hx : '/' ∉ x) (hr : ∃ c ∈ r, c ≠ '/')
    (long : r.length < x.length) : x ∉ partials (parts (r ++ '/' :: x)) := by
  rw [partials_eq, parts_append, parts_of_no_slash hx, List.mem_map]
  rintro ⟨i, hi, heq⟩
  rw [List.mem_range, List.length_append, List.length_singleton] at hi
  by_cases hle : i + 1 ≤ (parts r).length
  · have hshort := length_joinAll_take r (i + 1)
    rw [List.take_append_of_le_length hle] at heq
    rw [heq] at hshort
    omega
  · have hall : (parts r ++ [x]).length ≤ i + 1 := by
      rw [List.length_append, List.length_singleton]
      omega
    obtain ⟨c, hc, hslash⟩ := hr
    obtain ⟨q, hq, hcq⟩ := mem_part_of_mem hc hslash
    have hne := joinAll_ne_nil hq (List.ne_nil_of_mem hcq)
    obtain ⟨a, as, hparts⟩ := List.exists_cons_of_ne_nil (parts_ne_nil r)
    rw [List.take_of_length_le hall, hparts, List.cons_append, joinAll, List.foldl_append,
      List.foldl_cons, List.foldl_nil] at heq
    rw [hparts, joinAll] at hne
    -- what is joined is not empty, so the path is longer than the name
    have hlonger := length_lt_join hne (not_isabs_of_no_slash hx)
    rw [heq] at hlonger
    exact Nat.lt_irrefl _ hlonger

end Partials

/-! ## The two loops -/

section Loops
variable (place : Place) (tree : Tree)

/-- The directories that are counted. -/
def walkRounds (rootDir : Path) : List (List Path × Int) :=
  ((walk tree rootDir).filter fun d => !skipped d.1).map fun d =>
    (partials (parts (d.1.drop rootDir.length)), (d.2.length : Int))

/-- The files that are taken off. -/
def goneRounds (ps : List Path) : List (List Path × Int) :=
  (ps.filter fun p => pathExists place tree (dirname p)).map fun p =>
    (partials (parts (belowRoot place.givenRoot (dirname p))), -1)

theorem countFiles_eq (rootDir : Path) :
    countFiles tree rootDir = addRounds [] (walkRounds tree rootDir) := by
  rw [countFiles, walkRounds, addRounds, List.foldl_map, List.foldl_filter]
  congr 1
  funext fcounts d
  cases skipped d.1 with
  | true => rfl
  | false => rfl

theorem foldl_discountDeleted (ps : List Path) (fcounts : Counts Path) :
    ps.foldl (discountDeleted place tree) fcounts =
      addRounds fcounts (goneRounds place tree ps) := by
  rw [goneRounds, addRounds, List.foldl_map, List.foldl_filter]
  rfl

/-- The numbers from which the result is taken. -/
def fcounts (ps : List Path) : Counts Path :=
  ps.foldl (discountDeleted place tree) (countFiles tree place.givenRoot)

theorem get_fcounts (ps : List Path) (k : Path) :
    get (fcounts place tree ps) k =
      added (walkRounds tree place.givenRoot) k + added (goneRounds place tree ps) k := by
  rw [fcounts, foldl_discountDeleted, get_addRounds, countFiles_eq, get_addRounds, get_nil,
    zero_add]

theorem mem_keys_fcounts (ps : List Path) (k : Path) :
    k ∈ keys (fcounts place tree ps) ↔
      (∃ round ∈ walkRounds tree place.givenRoot, k ∈ round.1) ∨
        ∃ round ∈ goneRounds place tree ps, k ∈ round.1 := by
  rw [fcounts, foldl_discountDeleted, mem_keys_addRounds, countFiles_eq, mem_keys_addRounds]
  have hnone : k ∉ keys ([] : Counts Path) := List.not_mem_nil
  simp only [hnone, false_or]

theorem nodup_keys_fcounts (ps : List Path) : (keys (fcounts place tree ps)).Nodup := by
  rw [fcounts, foldl_discountDeleted, countFiles_eq]
  exact nodup_addRounds _ (nodup_addRounds _ List.nodup_nil)

/-- The keys that are reported, from the last to the first. -/
def emptyKeys (ps : List Path) : List Path :=
  ((keys (fcounts place tree ps)).filter fun k => get (fcounts place tree ps) k = 0).mergeSort
    fun p q => q ≤ p

theorem getEmptyDirectories_eq (ps : List Path) :
    getEmptyDirectories place tree (some ps) =
      (emptyKeys place tree ps).map (join place.givenRoot) := rfl

theorem mem_emptyKeys (ps : List Path) (k : Path) :
    k ∈ emptyKeys place tree ps ↔
      k ∈ keys (fcounts place tree ps) ∧ get (fcounts place tree ps) k = 0 := by
  rw [emptyKeys, List.mem_mergeSort, List.mem_filter, decide_eq_true_iff]

theorem nodup_emptyKeys (ps : List Path) : (emptyKeys place tree ps).Nodup :=
  (List.mergeSort_perm _ _).nodup_iff.mpr ((nodup_keys_fcounts place tree ps).filter _)

theorem sorted_emptyKeys (ps : List Path) :
    (emptyKeys place tree ps).Pairwise fun p q => q ≤ p := by
  have hsorted := @List.pairwise_mergeSort Path (fun p q => decide (q ≤ p))
    (fun a b c hab hbc => decide_eq_true (le_trans (of_decide_eq_true hbc) (of_decide_eq_true hab)))
    (fun a b => by simpa using (le_total b a))
    ((keys (fcounts place tree ps)).filter fun k => get (fcounts place tree ps) k = 0)
  exact hsorted.imp of_decide_eq_true

/-- A key that is met only where files are taken off is not reported. -/
theorem mem_walk_of_empty {ps : List Path} {k : Path} (h : k ∈ emptyKeys place tree ps) :
    ∃ round ∈ walkRounds tree place.givenRoot, k ∈ round.1 := by
  obtain ⟨hkey, hzero⟩ := (mem_emptyKeys place tree ps k).mp h
  by_contra hnone
  have hwalk : added (walkRounds tree place.givenRoot) k = 0 :=
    added_eq_zero fun round hround => Or.inr fun hk => hnone ⟨round, hround, hk⟩
  have htaken : ∀ round ∈ goneRounds place tree ps, round.2 = -1 := by
    intro round hround
    obtain ⟨p, -, rfl⟩ := List.mem_map.mp hround
    rfl
  have hmet := ((mem_keys_fcounts place tree ps k).mp hkey).resolve_left hnone
  have hless := (added_taken htaken).2 hmet
  rw [get_fcounts, hwalk] at hzero
  omega

end Loops

end M65Tool.Source.Superclean
