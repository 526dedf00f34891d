import M65Tool.Lib.PosixPath

/-!
# Normal paths

What the functions that look at a whole path make of it: the directory it names a file in,
the components that are left of its parts, and its normal spelling, which the number of
slashes at the beginning and the components determine.
-/
namespace M65Tool.Lib.PosixPath

/-! ## Directories and normal paths -/

section Normal
variable {a p n : Path} {names : List Path}

theorem rstripSlash_of_not_ends (h : endsSlash a = false) : rstripSlash a = a := by
  cases hrev : a.reverse with
  | nil =>
    rw [List.reverse_eq_nil_iff.mp hrev]
    rfl
  | cons c cs =>
    have ha : a = cs.reverse ++ [c] := by
      rw [← List.reverse_reverse a, hrev, List.reverse_cons]
    have hc : c ≠ '/' := by
      rintro rfl
      rw [Bool.eq_false_iff, ne_eq, endsSlash_iff] at h
      exact h ⟨_, ha⟩
    rw [rstripSlash, hrev, List.dropWhile_cons_of_neg (by simpa using hc), ← hrev,
      List.reverse_reverse]

theorem rstripSlash_append_slash (a : Path) : rstripSlash (a ++ ['/']) = rstripSlash a := by
  rw [rstripSlash, List.reverse_append, List.reverse_singleton, List.singleton_append,
    List.dropWhile_cons_of_pos (by rfl), rstripSlash]

theorem dirname_head (hn : '/' ∉ n) :
    ((a ++ '/' :: n).reverse.dropWhile (· != '/')).reverse = a ++ ['/'] := by
  have hdrop : n.reverse.dropWhile (· != '/') = [] := by
    refine List.dropWhile_eq_nil_iff.mpr fun c hc => ?_
    rw [bne_iff_ne]
    rintro rfl
    exact hn (List.mem_reverse.mp hc)
  rw [List.reverse_append, List.reverse_cons, List.append_assoc, List.dropWhile_append, hdrop,
    List.isEmpty_nil, if_pos rfl, List.singleton_append, List.dropWhile_cons_of_neg (by simp)]
  simp

/-- A file's directory. -/
theorem dirname_slash (hne : a ≠ []) (ha : endsSlash a = false) (hn : '/' ∉ n) :
    dirname (a ++ '/' :: n) = a := by
  have hall : (a ++ ['/']).all (· == '/') = false := by
    rw [List.all_eq_false]
    refine ⟨a.getLast hne, List.mem_append_left _ (List.getLast_mem hne), ?_⟩
    rw [beq_iff_eq]
    intro hlast
    rw [Bool.eq_false_iff, ne_eq, endsSlash_iff] at ha
    exact ha ⟨a.dropLast, by rw [← hlast, List.dropLast_append_getLast]⟩
  simp only [dirname, dirname_head hn, hall]
  rw [if_neg Bool.false_ne_true, rstripSlash_append_slash, rstripSlash_of_not_ends ha]

/-- The directory of a file in the root of the file system. -/
theorem dirname_slashes (hall : (a ++ ['/']).all (· == '/') = true) (hn : '/' ∉ n) :
    dirname (a ++ '/' :: n) = a ++ ['/'] := by
  simp only [dirname, dirname_head hn, hall, if_true]

/-- The directory of what is joined to a path without a slash too many. -/
theorem dirname_join (hne : a ≠ []) (ha : a.all (· == '/') = true ∨ endsSlash a = false)
    (hn : '/' ∉ n) : dirname (join a n) = a := by
  have hrelative := not_isabs_of_no_slash hn
  cases hends : endsSlash a with
  | false => rw [join_slash hne hends hrelative, dirname_slash hne hends hn]
  | true =>
    have hall := ha.resolve_right (by rw [hends]; exact Bool.noConfusion)
    obtain ⟨q, rfl⟩ := endsSlash_iff.mp hends
    rw [join_plain (Or.inr hends) hrelative, List.append_assoc, List.singleton_append,
      dirname_slashes hall hn]

theorem normStep_mem {rooted : Bool} {cs : List Path} {comp c : Path}
    (hc : c ∈ normStep rooted cs comp) : c ∈ cs ∨ c = comp ∧ c ≠ [] := by
  unfold normStep at hc
  split at hc
  · exact Or.inl hc
  · rename_i hcomp
    split at hc
    · rcases List.mem_append.mp hc with hc | hc
      · exact Or.inl hc
      · rw [List.mem_singleton] at hc
        exact Or.inr ⟨hc, hc ▸ fun hnil => hcomp (Or.inl hnil)⟩
    · exact Or.inl (List.dropLast_subset cs hc)

theorem foldl_normStep_mem {rooted : Bool} {ps cs : List Path} {c : Path}
    (hc : c ∈ ps.foldl (normStep rooted) cs) : c ∈ cs ∨ c ∈ ps ∧ c ≠ [] := by
  induction ps generalizing cs with
  | nil => exact Or.inl hc
  | cons comp ps ih =>
    rcases ih hc with hmem | ⟨hmem, hne⟩
    · rcases normStep_mem hmem with hmem | ⟨rfl, hne⟩
      · exact Or.inl hmem
      · exact Or.inr ⟨List.mem_cons_self, hne⟩
    · exact Or.inr ⟨List.mem_cons_of_mem comp hmem, hne⟩

/-- A normal path does not end in a slash, unless it has nothing else. -/
theorem normpath_ends (p : Path) :
    normpath p ≠ [] ∧ ((normpath p).all (· == '/') = true ∨ endsSlash (normpath p) = false) := by
  unfold normpath
  simp only
  split
  · exact ⟨List.cons_ne_nil _ _, Or.inr rfl⟩
  · rename_i hne
    refine ⟨hne, ?_⟩
    have hcomps : ∀ c ∈ comps p, c ≠ [] ∧ '/' ∉ c := by
      intro c hc
      rcases foldl_normStep_mem hc with hc | ⟨hc, hnil⟩
      · cases hc
      · exact ⟨hnil, no_slash_of_part hc⟩
    rcases List.eq_nil_or_concat (comps p) with hnil | ⟨cs, c, hconcat⟩
    · left
      rw [hnil]
      simp
    · right
      obtain ⟨hc, hslash⟩ := hcomps c (by simp [hconcat])
      obtain ⟨x, hx⟩ := rel_concat cs c
      rw [hconcat, List.concat_eq_append, ← rel, hx, ← List.append_assoc]
      exact endsSlash_false hc hslash

end Normal

/-! ## Resolution -/

section Resolution
variable {p q n : Path} {names cs : List Path}

@[simp] theorem normStep_empty (rooted : Bool) (cs : List Path) : normStep rooted cs [] = cs := by
  rw [normStep, if_pos (Or.inl rfl)]

theorem normStep_name (rooted : Bool) (hn : IsName n) : normStep rooted cs n = cs ++ [n] := by
  rw [normStep, if_neg (by simp [hn.nonempty, hn.not_dot]), if_pos (Or.inl hn.not_dots)]

theorem foldl_normStep_names (rooted : Bool) (hnames : ∀ n ∈ names, IsName n) :
    names.foldl (normStep rooted) cs = cs ++ names := by
  induction names generalizing cs with
  | nil => exact (List.append_nil cs).symm
  | cons n names ih =>
    rw [List.foldl_cons, normStep_name rooted (hnames n List.mem_cons_self),
      ih fun m hm => hnames m (List.mem_cons_of_mem n hm), List.append_assoc,
      List.singleton_append]

theorem isabs_append (hne : p ≠ []) : isabs (p ++ q) = isabs p := by
  cases p with
  | nil => exact absurd rfl hne
  | cons c p => rfl

theorem comps_slash (hne : p ≠ []) : comps (p ++ ['/']) = comps p := by
  rw [comps, show p ++ ['/'] = p ++ '/' :: [] from rfl, parts_append, isabs_append hne,
    List.foldl_append, parts_of_no_slash List.not_mem_nil, List.foldl_cons, normStep_empty]
  rfl

/-- Joining nothing adds at most a slash. -/
theorem comps_join_nil (p : Path) : comps (join p []) = comps p := by
  unfold join
  rw [if_neg (by decide)]
  split
  · rw [List.append_nil]
  · rename_i h
    exact comps_slash fun hnil => h (Or.inl hnil)

/-- The components of an absolute path are names. -/
theorem comps_isName (habs : isabs p = true) : ∀ c ∈ comps p, IsName c := by
  have hstep : ∀ ps cs : List Path, (∀ q ∈ ps, '/' ∉ q) → (∀ c ∈ cs, IsName c) →
      ∀ c ∈ ps.foldl (normStep true) cs, IsName c := by
    intro ps
    induction ps with
    | nil => exact fun cs _ hcs => hcs
    | cons q ps ih =>
      intro cs hps hcs
      refine ih _ (fun r hr => hps r (List.mem_cons_of_mem q hr)) ?_
      intro c hc
      unfold normStep at hc
      split at hc
      · exact hcs c hc
      · rename_i hq
        split at hc
        · rename_i hdots
          rcases List.mem_append.mp hc with hc | hc
          · exact hcs c hc
          · rw [List.mem_singleton] at hc
            subst hc
            refine ⟨fun h => hq (Or.inl h), hps _ List.mem_cons_self, fun h => hq (Or.inr h), ?_⟩
            rintro rfl
            -- the last component would be '..' as well
            rcases hdots with hdots | hdots | hdots
            · exact hdots rfl
            · exact Bool.noConfusion hdots.1
            · exact (hcs _ (List.mem_of_getLast? hdots)).not_dots rfl
        · exact hcs c (List.dropLast_subset cs hc)
  unfold comps
  rw [habs]
  exact hstep _ [] (fun q hq => no_slash_of_part hq) (fun c hc => absurd hc List.not_mem_nil)

theorem isabs_join (hne : p ≠ []) (hq : isabs q = false) : isabs (join p q) = isabs p := by
  unfold join
  rw [hq, if_neg Bool.false_ne_true]
  split
  · exact isabs_append hne
  · exact isabs_append hne

theorem comps_join_name (hne : p ≠ []) (hn : IsName n) : comps (join p n) = comps p ++ [n] := by
  have hjoin := isabs_join hne (not_isabs_of_no_slash hn.no_slash)
  obtain ⟨ps, hparts, hjoined⟩ := parts_join_name hne hn.no_slash
  rw [comps, hjoined, hjoin, List.foldl_append, List.foldl_cons, List.foldl_nil,
    normStep_name _ hn, comps]
  rcases hparts with hparts | hparts
  · rw [hparts]
  · rw [hparts, List.foldl_append, List.foldl_cons, List.foldl_nil, normStep_empty]

/-- Joining nothing gives another path to the same directory. -/
theorem resolve_join_nil (cwd p : Path) :
    resolve cwd (join p []) = resolve cwd p := by
  by_cases hplain : p = [] ∨ endsSlash p = true
  · rw [join_plain hplain rfl, List.append_nil]
  · have hne : p ≠ [] := fun h => hplain (Or.inl h)
    have hends : endsSlash p = false := Bool.eq_false_iff.mpr fun h => hplain (Or.inr h)
    rw [join_slash hne hends rfl]
    cases hp : isabs p with
    | true =>
      have hp' : isabs (p ++ ['/']) = true := (isabs_append hne).trans hp
      rw [resolve, resolve, absolute, absolute, if_pos hp, if_pos hp', comps_slash hne]
    | false =>
      have hp' : isabs (p ++ ['/']) = false := (isabs_append hne).trans hp
      have hjoin : join cwd (p ++ ['/']) = join cwd p ++ ['/'] := by
        unfold join
        rw [hp, hp', if_neg Bool.false_ne_true, if_neg Bool.false_ne_true]
        split
        · exact (List.append_assoc _ _ _).symm
        · rw [List.append_assoc, List.cons_append]
      rw [resolve, resolve, absolute, absolute, hp, hp', if_neg Bool.false_ne_true,
        if_neg Bool.false_ne_true, hjoin, comps_slash (join_ne_nil (Or.inr hne))]

theorem isabs_absolute {cwd : Path} (habs : isabs cwd = true) (p : Path) :
    isabs (absolute cwd p) = true := by
  have hne : cwd ≠ [] := by
    rintro rfl
    cases habs
  unfold absolute
  split
  · assumption
  · rename_i hp
    rw [isabs_join hne (Bool.eq_false_iff.mpr hp), habs]

theorem isabs_normpath (habs : isabs p = true) : isabs (normpath p) = true := by
  have hslash : ∃ k, initialSlashes p = k + 1 := by
    unfold initialSlashes
    rw [if_pos habs]
    split
    · exact ⟨1, rfl⟩
    · exact ⟨0, rfl⟩
  obtain ⟨k, hk⟩ := hslash
  unfold normpath
  rw [hk, List.replicate_succ, List.cons_append]
  rfl

theorem absolute_of_isabs {cwd : Path} (habs : isabs p = true) : absolute cwd p = p := by
  rw [absolute, if_pos habs]

theorem endsSlash_append (hne : q ≠ []) : endsSlash (p ++ q) = endsSlash q := by
  rw [Bool.eq_iff_iff, endsSlash_iff, endsSlash_iff]
  constructor
  · rintro ⟨r, hr⟩
    refine ⟨q.dropLast, ?_⟩
    have hlast : q.getLast? = some '/' := by
      rw [← List.getLast?_append_of_ne_nil p hne, hr, List.getLast?_concat]
    rw [List.getLast?_eq_some_getLast hne, Option.some_inj] at hlast
    rw [← hlast, List.dropLast_append_getLast]
  · rintro ⟨r, rfl⟩
    exact ⟨p ++ r, (List.append_assoc _ _ _).symm⟩

theorem join_append {a b : Path} (hb : b ≠ []) (c : Path) : join a (b ++ c) = join a b ++ c := by
  unfold join
  rw [isabs_append hb]
  split
  · rfl
  · split
    · exact (List.append_assoc _ _ _).symm
    · rw [List.append_assoc, List.cons_append]

theorem endsSlash_join {a b : Path} (hb : b ≠ []) : endsSlash (join a b) = endsSlash b := by
  unfold join
  split
  · rfl
  · split
    · exact endsSlash_append hb
    · rw [List.append_cons, endsSlash_append hb]

theorem join_join {a b c : Path} (hb : b ≠ []) (hc : isabs c = false) :
    join a (join b c) = join (join a b) c := by
  have hne := join_ne_nil (a := a) (Or.inr hb)
  cases hends : endsSlash b with
  | true =>
    rw [join_plain (Or.inr hends) hc, join_append hb,
      join_plain (Or.inr ((endsSlash_join hb).trans hends)) hc]
  | false =>
    rw [join_slash hb hends hc, join_append hb,
      join_slash hne ((endsSlash_join hb).trans hends) hc]

theorem absolute_join {cwd : Path} (hne : p ≠ []) (hn : isabs n = false) :
    absolute cwd (join p n) = join (absolute cwd p) n := by
  rw [absolute, absolute, isabs_join hne hn]
  split
  · rfl
  · exact join_join hne hn

theorem absolute_ne_nil {cwd : Path} (hne : p ≠ []) : absolute cwd p ≠ [] := by
  unfold absolute
  split
  · exact hne
  · exact join_ne_nil (Or.inr hne)

theorem below_ne_nil (hne : p ≠ []) : below p names ≠ [] := by
  induction names generalizing p with
  | nil => exact hne
  | cons n names ih => exact ih (join_ne_nil (Or.inl hne))

/-- What lies below a directory is found along its names. -/
theorem resolve_below (cwd : Path) (hne : p ≠ []) (hnames : ∀ n ∈ names, IsName n) :
    resolve cwd (below p names) = resolve cwd p ++ names := by
  induction names generalizing p with
  | nil => exact (List.append_nil _).symm
  | cons n names ih =>
    have hn := hnames n List.mem_cons_self
    rw [below, List.foldl_cons, ← below, ih (join_ne_nil (Or.inl hne))
      fun m hm => hnames m (List.mem_cons_of_mem n hm), resolve,
      absolute_join hne (not_isabs_of_no_slash hn.no_slash),
      comps_join_name (absolute_ne_nil hne) hn, ← resolve, List.append_assoc,
      List.singleton_append]

end Resolution

/-! ## Normal paths by their names -/

/-- The path with these slashes and names. -/
def spelled (slashes : Nat) (names : List Path) : Path := List.replicate slashes '/' ++ rel names

section Spelled
variable {p q : Path} {names cs : List Path} {k : Nat}

theorem initialSlashes_cases (habs : isabs p = true) :
    initialSlashes p = 1 ∨ initialSlashes p = 2 := by
  unfold initialSlashes
  rw [if_pos habs]
  split
  · exact Or.inr rfl
  · exact Or.inl rfl

theorem normpath_spelled (habs : isabs p = true) :
    normpath p = spelled (initialSlashes p) (comps p) := by
  have hne : List.replicate (initialSlashes p) '/' ++ ['/'].intercalate (comps p) ≠ [] := by
    rcases initialSlashes_cases habs with h | h
    · rw [h]
      exact List.cons_ne_nil _ _
    · rw [h]
      exact List.cons_ne_nil _ _
  unfold normpath
  simp only
  rw [if_neg hne]
  rfl

theorem isabs_spelled (hk : 0 < k) : isabs (spelled k names) = true := by
  obtain ⟨j, rfl⟩ := Nat.exists_eq_succ_of_ne_zero (Nat.ne_of_gt hk)
  rw [spelled, List.replicate_succ, List.cons_append]
  rfl

theorem spelled_ne_nil (hk : 0 < k) : spelled k names ≠ [] := by
  intro hnil
  have habs : isabs (spelled k names) = true := isabs_spelled hk
  rw [hnil] at habs
  cases habs

theorem comps_spelled (hnames : ∀ n ∈ names, IsName n) : comps (spelled k names) = names := by
  have hfold : ∀ (rooted : Bool) (k : Nat),
      (parts (List.replicate k '/' ++ rel names)).foldl (normStep rooted) [] = names := by
    intro rooted k
    induction k with
    | zero =>
      rw [List.replicate_zero, List.nil_append]
      cases names with
      | nil =>
        rw [show rel [] = [] from rfl, parts_of_no_slash List.not_mem_nil, List.foldl_cons,
          normStep_empty]
        rfl
      | cons n ns =>
        rw [parts_rel (List.cons_ne_nil n ns) hnames, foldl_normStep_names rooted hnames,
          List.nil_append]
    | succ k ih =>
      have hparts : parts ('/' :: (List.replicate k '/' ++ rel names)) =
          [] :: parts (List.replicate k '/' ++ rel names) := parts_append [] _
      rw [List.replicate_succ, List.cons_append, hparts, List.foldl_cons, normStep_empty]
      exact ih
  exact hfold _ k

/-- Names that are joined at once. -/
theorem join_rel (hne : names ≠ []) (hnames : ∀ n ∈ names, IsName n) :
    join p (rel names) = below p names := by
  cases names with
  | nil => exact absurd rfl hne
  | cons n names =>
    have hn := hnames n List.mem_cons_self
    have hends : endsSlash (join p n) = false := by
      unfold join
      rw [not_isabs_of_no_slash hn.no_slash, if_neg Bool.false_ne_true]
      split
      · exact endsSlash_false hn.nonempty hn.no_slash
      · rw [List.append_cons]
        exact endsSlash_false hn.nonempty hn.no_slash
    rw [rel_cons, join_append hn.nonempty, below, List.foldl_cons, ← below,
      below_slash (join_ne_nil (Or.inr hn.nonempty)) hends
        fun m hm => hnames m (List.mem_cons_of_mem n hm)]

theorem endsSlash_below (hne : names ≠ []) (hnames : ∀ n ∈ names, IsName n) :
    endsSlash (below p names) = false := by
  rw [← join_rel hne hnames]
  obtain ⟨ns, n, rfl⟩ := (List.eq_nil_or_concat' names).resolve_left hne
  have hn := hnames n (List.mem_append_right ns List.mem_cons_self)
  obtain ⟨x, hx⟩ := rel_concat ns n
  have hrel : rel (ns ++ [n]) ≠ [] := by
    rw [hx]
    exact List.append_ne_nil_of_right_ne_nil x hn.nonempty
  rw [endsSlash_join hrel, hx]
  exact endsSlash_false hn.nonempty hn.no_slash

/-- What is joined to a path that ends in a slash. -/
theorem below_ends (hends : endsSlash p = true) (hnames : ∀ n ∈ names, IsName n) :
    below p names = p ++ rel names := by
  cases names with
  | nil => exact (List.append_nil p).symm
  | cons n ns =>
    have hn := hnames n List.mem_cons_self
    have hrelative : isabs (rel (n :: ns)) = false := by
      rw [rel_cons, isabs_append hn.nonempty]
      exact not_isabs_of_no_slash hn.no_slash
    rw [← join_rel (List.cons_ne_nil n ns) hnames, join_plain (Or.inr hends) hrelative]

theorem resolve_join_rel (cwd : Path) (hne : p ≠ []) (hnames : ∀ n ∈ names, IsName n) :
    resolve cwd (join p (rel names)) = resolve cwd p ++ names := by
  cases names with
  | nil =>
    rw [List.append_nil]
    exact resolve_join_nil cwd p
  | cons n ns =>
    rw [join_rel (List.cons_ne_nil n ns) hnames, resolve_below cwd hne hnames]

theorem below_spelled (hk : 0 < k) (hcs : ∀ n ∈ cs, IsName n) (hnames : ∀ n ∈ names, IsName n) :
    below (spelled k cs) names = spelled k (cs ++ names) := by
  induction names generalizing cs with
  | nil => rw [List.append_nil]; rfl
  | cons n names ih =>
    have hn := hnames n List.mem_cons_self
    have hrelative := not_isabs_of_no_slash hn.no_slash
    have hstep : join (spelled k cs) n = spelled k (cs ++ [n]) := by
      rcases List.eq_nil_or_concat cs with rfl | ⟨cs', c, rfl⟩
      · have hends : endsSlash (spelled k []) = true := by
          obtain ⟨j, rfl⟩ := Nat.exists_eq_succ_of_ne_zero (Nat.ne_of_gt hk)
          refine endsSlash_iff.mpr ⟨List.replicate j '/', ?_⟩
          rw [spelled, List.replicate_succ']
          exact List.append_nil _
        rw [join_plain (Or.inr hends) hrelative, spelled, spelled, List.append_assoc]
        simp [rel]
      · rw [List.concat_eq_append] at hcs ⊢
        have hc := hcs c (List.mem_append_right cs' List.mem_cons_self)
        obtain ⟨x, hx⟩ := rel_concat cs' c
        have hends : endsSlash (spelled k (cs' ++ [c])) = false := by
          rw [spelled, hx, ← List.append_assoc]
          exact endsSlash_false hc.nonempty hc.no_slash
        rw [join_slash (spelled_ne_nil hk) hends hrelative, spelled, spelled, List.append_assoc]
        congr 1
        cases cs' with
        | nil => simp [rel]
        | cons m ms => simp [rel_cons]
    have hcs' : ∀ m ∈ cs ++ [n], IsName m := by
      intro m hm
      rcases List.mem_append.mp hm with hm | hm
      · exact hcs m hm
      · rwa [List.mem_singleton.mp hm]
    rw [below, List.foldl_cons, hstep, ← below,
      ih hcs' fun m hm => hnames m (List.mem_cons_of_mem n hm), List.append_assoc,
      List.singleton_append]

theorem initialSlashes_replicate (hk : k = 1 ∨ k = 2) (hq : isabs q = false) :
    initialSlashes (List.replicate k '/' ++ q) = k := by
  have hhead : ∀ r, q ≠ '/' :: r := by
    rintro r rfl
    cases hq
  rcases hk with rfl | rfl
  · cases q with
    | nil => rfl
    | cons c q =>
      have hc : c ≠ '/' := fun h => hhead q (h ▸ rfl)
      simp [initialSlashes, isabs, hc.symm]
  · cases q with
    | nil => rfl
    | cons c q =>
      have hc : c ≠ '/' := fun h => hhead q (h ▸ rfl)
      simp [initialSlashes, isabs, hc.symm]

/-- Joining a relative path does not change the slashes at the beginning. -/
theorem initialSlashes_join (hk : k = 1 ∨ k = 2) (hcs : ∀ n ∈ cs, IsName n)
    (hq : isabs q = false) : initialSlashes (join (spelled k cs) q) = k := by
  cases cs with
  | nil =>
    have hends : endsSlash (spelled k []) = true := by
      rcases hk with rfl | rfl
      · rfl
      · rfl
    rw [join_plain (Or.inr hends) hq, spelled, show rel [] = [] from rfl, List.append_nil]
    exact initialSlashes_replicate hk hq
  | cons n cs =>
    have hn := hcs n List.mem_cons_self
    have hrelative : ∀ r, isabs (rel (n :: cs) ++ r) = false := by
      intro r
      rw [rel_cons, List.append_assoc, isabs_append hn.nonempty]
      exact not_isabs_of_no_slash hn.no_slash
    unfold join
    rw [hq, if_neg Bool.false_ne_true]
    split
    · rw [spelled, List.append_assoc]
      exact initialSlashes_replicate hk (hrelative q)
    · rw [spelled, List.append_assoc]
      exact initialSlashes_replicate hk (hrelative ('/' :: q))

end Spelled

end M65Tool.Lib.PosixPath
