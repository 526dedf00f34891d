import M65Tool.Guarantees.EmptyDirectories

/-!
# SMALL-TREES: trees whose subdirectories have no subdirectories

Their directories and files, and which of them is counted for a subdirectory.
-/
namespace M65Tool.Guarantees.SmallTrees
open Source.Superclean EmptyDirectories Lib.PosixPath Lib.Tally

/-- Names that make a tree of files and subdirectories, by name with their files. -/
structure Flat (files : List Path) (subs : List (Path × List Path)) : Prop where
  names : ∀ s ∈ subs, IsName s.1
  nodup : (subs.map Prod.fst).Nodup
  file_names : ∀ f ∈ files, IsName f
  file_nodup : files.Nodup
  file_apart : ∀ f ∈ files, f ∉ subs.map Prod.fst
  sub_names : ∀ s ∈ subs, ∀ f ∈ s.2, IsName f
  sub_nodup : ∀ s ∈ subs, s.2.Nodup

section Trees
variable {files : List Path} {subs : List (Path × List Path)}

/-- A tree whose subdirectories have no subdirectories. -/
def flat (h : Flat files subs) : Tree where
  dirs := ([], files) :: subs.map fun s => ([s.1], s.2)
  root := List.mem_cons_self
  parent := by
    intro ds n hds
    rw [List.map_cons, List.mem_cons, List.map_map, List.mem_map] at hds
    rcases hds with hds | ⟨s, -, hs⟩
    · exact absurd hds (by simp)
    · have hlength : 1 = (ds ++ [n]).length := congrArg List.length hs
      rw [List.length_append, List.length_singleton] at hlength
      rw [List.length_eq_zero_iff.mp (by omega : ds.length = 0)]
      exact List.mem_cons_self
  nodup := by
    rw [List.map_cons, List.map_map, List.nodup_cons]
    constructor
    · intro hmem
      obtain ⟨s, -, hs⟩ := List.mem_map.mp hmem
      cases hs
    · have hsingle : ((subs.map Prod.fst).map fun n => [n]).Nodup :=
        h.nodup.map fun _ _ heq => List.singleton_inj.mp heq
      rw [List.map_map] at hsingle
      exact hsingle
  names := by
    intro d hd n hn
    rcases List.mem_cons.mp hd with rfl | hd
    · cases hn
    · obtain ⟨s, hs, rfl⟩ := List.mem_map.mp hd
      rw [List.mem_singleton.mp hn]
      exact h.names s hs
  file_names := by
    intro d hd f hf
    rcases List.mem_cons.mp hd with rfl | hd
    · exact h.file_names f hf
    · obtain ⟨s, hs, rfl⟩ := List.mem_map.mp hd
      exact h.sub_names s hs f hf
  file_nodup := by
    intro d hd
    rcases List.mem_cons.mp hd with rfl | hd
    · exact h.file_nodup
    · obtain ⟨s, hs, rfl⟩ := List.mem_map.mp hd
      exact h.sub_nodup s hs
  file_apart := by
    intro d hd f hf hmem
    rw [List.map_cons, List.mem_cons, List.map_map, List.mem_map] at hmem
    rcases List.mem_cons.mp hd with rfl | hd
    · rcases hmem with hmem | ⟨s, hs, heq⟩
      · cases hmem
      · exact h.file_apart f hf (List.mem_map.mpr ⟨s, hs, List.singleton_inj.mp heq⟩)
    · obtain ⟨s, -, rfl⟩ := List.mem_map.mp hd
      rcases hmem with hmem | ⟨s', -, heq⟩
      · cases hmem
      · exact absurd (congrArg List.length heq) (by simp)

variable {h : Flat files subs} {place : Place}

theorem mem_paths_flat {ds : List Path} :
    ds ∈ (flat h).paths ↔ ds = [] ∨ ∃ s ∈ subs, ds = [s.1] := by
  rw [Tree.paths, flat, List.map_cons, List.mem_cons, List.map_map, List.mem_map]
  refine or_congr Iff.rfl (exists_congr fun s => and_congr_right fun _ => ?_)
  exact eq_comm

theorem mem_files_flat {f : File} :
    f ∈ (flat h).files ↔ f.1 = [] ∧ f.2 ∈ files ∨ ∃ s ∈ subs, f.1 = [s.1] ∧ f.2 ∈ s.2 := by
  rw [Tree.mem_files]
  constructor
  · intro ⟨d, hd, hdir, hname⟩
    rcases List.mem_cons.mp hd with rfl | hd
    · exact Or.inl ⟨hdir, hname⟩
    · obtain ⟨s, hs, rfl⟩ := List.mem_map.mp hd
      exact Or.inr ⟨s, hs, hdir, hname⟩
  · rintro (⟨hdir, hname⟩ | ⟨s, hs, hdir, hname⟩)
    · exact ⟨_, List.mem_cons_self, hdir, hname⟩
    · exact ⟨_, List.mem_cons_of_mem _ (List.mem_map_of_mem hs), hdir, hname⟩

theorem flat_git (hgit : ∀ s ∈ subs, s.1 = dotGit → s.2 ≠ []) : GitOk (flat h) := by
  intro ds hds _
  rcases mem_paths_flat.mp hds with hds | ⟨s, hs, hds⟩
  · exact absurd hds (by simp)
  · have hsingle : ds ++ [dotGit] = [] ++ [s.1] := hds
    obtain ⟨rfl, hname⟩ := List.append_inj' hsingle rfl
    have heq := List.singleton_inj.mp hname
    obtain ⟨f, fs, hfs⟩ := List.exists_cons_of_ne_nil (hgit s hs heq.symm)
    refine ⟨([s.1], f), mem_files_flat.mpr (Or.inr ⟨s, hs, rfl, ?_⟩), ?_⟩
    · rw [hfs]
      exact List.mem_cons_self
    · rw [heq]
      rfl

/-- A subdirectory of the root directory is counted where it is met, for itself. -/
theorem visited_flat {n : Path} (visited : Visited place (flat h) [n]) :
    CountsFor place [n] [n] := by
  obtain ⟨ds, hds, hcounts⟩ := visited
  have hpre := hcounts.2.2.1
  rcases mem_paths_flat.mp hds with rfl | ⟨s, -, rfl⟩
  · exact absurd (List.prefix_nil.mp hpre) (List.cons_ne_nil n [])
  · rwa [← (List.cons_prefix_cons.mp hpre).1] at hcounts

end Trees

end M65Tool.Guarantees.SmallTrees
