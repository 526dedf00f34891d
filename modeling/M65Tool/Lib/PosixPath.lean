import Mathlib.Data.List.Basic
import Mathlib.Data.List.Infix
import Mathlib.Data.List.TakeWhile

/-!
# Paths as strings

Paths as the characters that they are written with, and the functions of `posixpath` on
them. A path is taken apart at its slashes into its parts; `rel` puts names together.
-/
namespace M65Tool.Lib.PosixPath

abbrev Path := List Char

/-! ## The functions -/

def isabs (p : Path) : Bool := ['/'].isPrefixOf p

def endsSlash (p : Path) : Bool := ['/'].isSuffixOf p

/-- `join(a, b)`. -/
def join (a b : Path) : Path :=
  if isabs b then b
  else if a = [] ∨ endsSlash a then a ++ b
  else a ++ '/' :: b

/-- `join(*paths)`. -/
def joinAll : List Path → Path
  | [] => []
  | a :: rest => rest.foldl join a

/-- `p.split('/')`. -/
def parts (p : Path) : List Path := p.splitOn '/'

/-- `p.rstrip('/')`. -/
def rstripSlash (p : Path) : Path := (p.reverse.dropWhile (· == '/')).reverse

def dirname (p : Path) : Path :=
  let head := (p.reverse.dropWhile (· != '/')).reverse
  if head.all (· == '/') then head else rstripSlash head

def initialSlashes (p : Path) : Nat :=
  if isabs p then
    if ['/', '/'].isPrefixOf p && !(['/', '/', '/'].isPrefixOf p) then 2 else 1
  else 0

/-- One round of the loop of `normpath`. -/
def normStep (rooted : Bool) (comps : List Path) (comp : Path) : List Path :=
  if comp = [] ∨ comp = ['.'] then comps
  else if comp ≠ ['.', '.'] ∨ (rooted = false ∧ comps = []) ∨ comps.getLast? = some ['.', '.'] then
    comps ++ [comp]
  else comps.dropLast

/-- The components that `normpath` joins again. -/
def comps (p : Path) : List Path := (parts p).foldl (normStep (isabs p)) []

def normpath (p : Path) : Path :=
  let path := List.replicate (initialSlashes p) '/' ++ ['/'].intercalate (comps p)
  if path = [] then ['.'] else path

/-- The path from the root of the file system on, for a process in `cwd`. -/
def absolute (cwd p : Path) : Path := if isabs p then p else join cwd p

def abspath (cwd p : Path) : Path := normpath (absolute cwd p)

/-- The names along which the system comes to the file or directory of this path, where
there are no symbolic links. -/
def resolve (cwd p : Path) : List Path := comps (absolute cwd p)

/-- The relative path along these names. -/
def rel (names : List Path) : Path := ['/'].intercalate names

/-- The path of what lies below another path along these names. -/
def below (p : Path) (names : List Path) : Path := names.foldl join p

/-- A name of a file or directory. -/
structure IsName (n : Path) : Prop where
  nonempty : n ≠ []
  no_slash : '/' ∉ n
  not_dot : n ≠ ['.']
  not_dots : n ≠ ['.', '.']

instance (n : Path) : Decidable (IsName n) :=
  decidable_of_iff (n ≠ [] ∧ '/' ∉ n ∧ n ≠ ['.'] ∧ n ≠ ['.', '.'])
    ⟨fun ⟨h1, h2, h3, h4⟩ => ⟨h1, h2, h3, h4⟩,
      fun h => ⟨h.nonempty, h.no_slash, h.not_dot, h.not_dots⟩⟩

/-! ## Beginnings and ends -/

section Slashes
variable {p q n : Path}

theorem isabs_iff : isabs p = true ↔ ∃ q, p = '/' :: q := by
  rw [isabs, List.isPrefixOf_iff_prefix]
  exact exists_congr fun q => eq_comm

theorem endsSlash_iff : endsSlash p = true ↔ ∃ q, p = q ++ ['/'] := by
  rw [endsSlash, List.isSuffixOf_iff_suffix]
  exact exists_congr fun q => eq_comm

theorem endsSlash_false (hne : q ≠ []) (h : '/' ∉ q) : endsSlash (p ++ q) = false := by
  rw [Bool.eq_false_iff, ne_eq, endsSlash_iff]
  rintro ⟨r, hr⟩
  have hlast : (p ++ q).getLast? = some '/' := by rw [hr, List.getLast?_concat]
  rw [List.getLast?_append_of_ne_nil _ hne] at hlast
  exact h (List.mem_of_getLast? hlast)

/-- A path that does not end in a slash is not made of slashes alone. -/
theorem exists_not_slash (hne : q ≠ []) (h : endsSlash (p ++ q) = false) : ∃ c ∈ q, c ≠ '/' := by
  refine ⟨q.getLast hne, List.getLast_mem hne, ?_⟩
  intro hlast
  rw [Bool.eq_false_iff, ne_eq, endsSlash_iff] at h
  exact h ⟨p ++ q.dropLast, by
    rw [List.append_assoc, ← hlast, List.dropLast_append_getLast]⟩

theorem not_isabs_of_no_slash (h : '/' ∉ p) : isabs p = false := by
  rw [Bool.eq_false_iff, ne_eq, isabs_iff]
  rintro ⟨q, rfl⟩
  exact h List.mem_cons_self

end Slashes

/-! ## Joining -/

section Joins
variable {a b c : Path}

theorem join_slash (hne : a ≠ []) (ha : endsSlash a = false) (hb : isabs b = false) :
    join a b = a ++ '/' :: b := by
  rw [join, hb, if_neg Bool.false_ne_true, if_neg (by simp [hne, ha])]

theorem join_plain (ha : a = [] ∨ endsSlash a = true) (hb : isabs b = false) :
    join a b = a ++ b := by
  rw [join, hb, if_neg Bool.false_ne_true, if_pos ha]

/-- What is joined to a path that names a directory. -/
theorem below_slash {names : List Path} (hne : a ≠ []) (ha : endsSlash a = false)
    (hnames : ∀ n ∈ names, IsName n) : below a names = a ++ names.flatMap ('/' :: ·) := by
  induction names generalizing a with
  | nil => exact (List.append_nil a).symm
  | cons n names ih =>
    have hn := hnames n List.mem_cons_self
    have hjoin := join_slash hne ha (not_isabs_of_no_slash hn.no_slash)
    have hends : endsSlash (a ++ '/' :: n) = false := by
      rw [List.append_cons]
      exact endsSlash_false hn.nonempty hn.no_slash
    rw [below, List.foldl_cons, hjoin, ← below,
      ih (by simp) hends fun m hm => hnames m (List.mem_cons_of_mem n hm), List.flatMap_cons,
      List.append_assoc]

theorem rel_cons (n : Path) (names : List Path) : rel (n :: names) = n ++ names.flatMap ('/' :: ·) := by
  induction names generalizing n with
  | nil => simp [rel]
  | cons m names ih =>
    have hcons : rel (n :: m :: names) = n ++ '/' :: rel (m :: names) := by
      simp [rel]
    rw [hcons, ih, List.flatMap_cons, List.cons_append]

theorem rel_concat (names : List Path) (n : Path) : ∃ x, rel (names ++ [n]) = x ++ n := by
  cases names with
  | nil => exact ⟨[], by simp [rel]⟩
  | cons m ms => exact ⟨m ++ ms.flatMap ('/' :: ·) ++ ['/'], by simp [rel_cons]⟩

theorem below_nil {names : List Path} (hnames : ∀ n ∈ names, IsName n) :
    below [] names = rel names := by
  cases names with
  | nil => rfl
  | cons n names =>
    have hn := hnames n List.mem_cons_self
    have hjoin : join [] n = n := join_plain (Or.inl rfl) (not_isabs_of_no_slash hn.no_slash)
    have hends := endsSlash_false (p := []) hn.nonempty hn.no_slash
    rw [below, List.foldl_cons, hjoin, ← below, rel_cons,
      below_slash hn.nonempty hends fun m hm => hnames m (List.mem_cons_of_mem n hm)]

end Joins

/-! ## Parts -/

section Parts
variable {p q n : Path} {names : List Path}

theorem parts_ne_nil (p : Path) : parts p ≠ [] := List.splitOn_ne_nil '/' p

theorem parts_append (p q : Path) : parts (p ++ '/' :: q) = parts p ++ parts q :=
  List.splitOn_append_cons_self p q

theorem parts_of_no_slash (h : '/' ∉ p) : parts p = [p] := List.splitOn_eq_singleton h

theorem intercalate_parts (p : Path) : ['/'].intercalate (parts p) = p :=
  List.intercalate_splitOn '/'

theorem no_slash_of_part (h : n ∈ parts p) : '/' ∉ n := by
  induction p generalizing n with
  | nil =>
    rw [parts_of_no_slash List.not_mem_nil, List.mem_singleton] at h
    rw [h]
    exact List.not_mem_nil
  | cons c p ih =>
    by_cases hc : c = '/'
    · rw [hc, show '/' :: p = [] ++ '/' :: p from rfl, parts_append] at h
      rcases List.mem_append.mp h with h | h
      · rw [parts_of_no_slash List.not_mem_nil, List.mem_singleton] at h
        rw [h]
        exact List.not_mem_nil
      · exact ih h
    · obtain ⟨m, ms, hparts⟩ := List.exists_cons_of_ne_nil (parts_ne_nil p)
      rw [parts, List.splitOn_cons_eq_if_modifyHead, if_neg (by simpa using hc), ← parts,
        hparts, List.modifyHead_cons] at h
      rcases List.mem_cons.mp h with rfl | h
      · intro hmem
        rcases List.mem_cons.mp hmem with heq | hmem
        · exact hc heq.symm
        · exact ih (hparts ▸ List.mem_cons_self) hmem
      · exact ih (hparts ▸ List.mem_cons_of_mem m h)

theorem parts_flatMap (hnames : ∀ n ∈ names, IsName n) :
    parts (p ++ names.flatMap ('/' :: ·)) = parts p ++ names := by
  induction names generalizing p with
  | nil => rw [List.flatMap_nil, List.append_nil, List.append_nil]
  | cons n names ih =>
    have hn := hnames n List.mem_cons_self
    rw [List.flatMap_cons, ← List.append_assoc,
      ih fun m hm => hnames m (List.mem_cons_of_mem n hm), parts_append,
      parts_of_no_slash hn.no_slash, List.append_assoc, List.singleton_append]

theorem parts_rel (hne : names ≠ []) (hnames : ∀ n ∈ names, IsName n) :
    parts (rel names) = names :=
  List.splitOn_intercalate '/' (fun n hn => (hnames n hn).no_slash) hne

theorem rel_inj {names' : List Path} (hnames : ∀ n ∈ names, IsName n)
    (hnames' : ∀ n ∈ names', IsName n) (h : rel names = rel names') : names = names' := by
  have hnil : ∀ n ns, (∀ m ∈ n :: ns, IsName m) → rel (n :: ns) ≠ [] := by
    intro n ns hns hrel
    rw [rel_cons] at hrel
    exact (hns n List.mem_cons_self).nonempty (List.append_eq_nil_iff.mp hrel).1
  cases names with
  | nil =>
    cases names' with
    | nil => rfl
    | cons m ms => exact absurd h.symm (hnil m ms hnames')
  | cons n ns =>
    cases names' with
    | nil => exact absurd h (hnil n ns hnames)
    | cons m ms =>
      have hparts := congrArg parts h
      rwa [parts_rel (List.cons_ne_nil n ns) hnames,
        parts_rel (List.cons_ne_nil m ms) hnames'] at hparts

/-- A name that stands between two slashes is an inner part. -/
theorem between_slashes (hn : '/' ∉ n) :
    '/' :: n ++ ['/'] <:+: p ↔ n ∈ (parts p).tail.dropLast := by
  constructor
  · rintro ⟨a, b, hp⟩
    have hsplit : p = a ++ '/' :: (n ++ '/' :: b) := by
      rw [← hp]
      simp
    obtain ⟨m, ms, hparts⟩ := List.exists_cons_of_ne_nil (parts_ne_nil a)
    rw [hsplit, parts_append, parts_append, parts_of_no_slash hn, hparts, List.cons_append,
      List.tail_cons, List.dropLast_append_of_ne_nil (by simp),
      List.dropLast_append_of_ne_nil (parts_ne_nil b)]
    simp
  · intro hmem
    obtain ⟨first, rest, hparts⟩ := List.exists_cons_of_ne_nil (parts_ne_nil p)
    rw [hparts, List.tail_cons] at hmem
    obtain ⟨before, after, hsplit⟩ := List.append_of_mem hmem
    have hrest : rest ≠ [] := by
      rintro rfl
      cases hmem
    obtain ⟨m, ms, hafter⟩ :=
      List.exists_cons_of_ne_nil (List.append_ne_nil_of_right_ne_nil after
        (List.cons_ne_nil (rest.getLast hrest) []))
    have hall : rest = before ++ n :: m :: ms := by
      rw [← List.dropLast_append_getLast hrest, hsplit, List.append_assoc, List.cons_append, hafter]
    refine ⟨first ++ before.flatMap ('/' :: ·), m ++ ms.flatMap ('/' :: ·), ?_⟩
    rw [← intercalate_parts p, hparts, ← rel, rel_cons, hall]
    simp

/-- The parts of a path with a name joined to it: an empty last part is replaced. -/
theorem parts_join_name (hne : p ≠ []) (hn : '/' ∉ n) :
    ∃ ps, (parts p = ps ∨ parts p = ps ++ [[]]) ∧ parts (join p n) = ps ++ [n] := by
  have hrelative := not_isabs_of_no_slash hn
  cases hends : endsSlash p with
  | true =>
    obtain ⟨q, rfl⟩ := endsSlash_iff.mp hends
    have hjoin : join (q ++ ['/']) n = q ++ '/' :: n := by
      rw [join_plain (Or.inr hends) hrelative, List.append_assoc, List.singleton_append]
    refine ⟨parts q, Or.inr ?_, ?_⟩
    · rw [parts_append, parts_of_no_slash List.not_mem_nil]
    · rw [hjoin, parts_append, parts_of_no_slash hn]
  | false =>
    refine ⟨parts p, Or.inl rfl, ?_⟩
    rw [join_slash hne hends hrelative, parts_append, parts_of_no_slash hn]

/-- The names behind a path's first part stand between slashes once a name is joined. -/
theorem mem_inner_parts_join {c : Path} (hc : c ≠ []) (hn : '/' ∉ n) (h : c ∈ (parts p).tail) :
    c ∈ (parts (join p n)).tail.dropLast := by
  have hne : p ≠ [] := by
    rintro rfl
    cases h
  obtain ⟨ps, hparts, hjoin⟩ := parts_join_name hne hn
  have hmem : c ∈ ps.tail := by
    rcases hparts with hparts | hparts
    · rwa [hparts] at h
    · rw [hparts] at h
      cases ps with
      | nil => cases h
      | cons q ps =>
        rw [List.cons_append, List.tail_cons, List.mem_append, List.mem_singleton] at h
        exact h.resolve_right hc
  cases ps with
  | nil => cases hmem
  | cons q ps =>
    rw [hjoin, List.cons_append, List.tail_cons, List.dropLast_concat]
    exact hmem

theorem mem_part_of_mem {c : Char} (h : c ∈ p) (hc : c ≠ '/') : ∃ q ∈ parts p, c ∈ q := by
  obtain ⟨q, qs, hparts⟩ := List.exists_cons_of_ne_nil (parts_ne_nil p)
  rw [← intercalate_parts p, hparts, ← rel, rel_cons, List.mem_append, List.mem_flatMap] at h
  rw [hparts]
  rcases h with h | ⟨q', hq', h⟩
  · exact ⟨q, List.mem_cons_self, h⟩
  · exact ⟨q', List.mem_cons_of_mem q hq', (List.mem_cons.mp h).resolve_left hc⟩

end Parts

/-! ## Paths that begin alike -/

section Beginnings
variable {a p : Path} {names ps : List Path}

theorem joinAll_empty_cons (hnames : ∀ n ∈ names, IsName n) : joinAll ([] :: names) = rel names :=
  below_nil hnames

/-- What is joined is not longer than what is taken apart. -/
theorem length_foldl_join (h : ∀ q ∈ ps, '/' ∉ q) :
    (ps.foldl join a).length ≤ a.length + (ps.flatMap ('/' :: ·)).length := by
  induction ps generalizing a with
  | nil => simp
  | cons q ps ih =>
    have hstep : (join a q).length ≤ a.length + (q.length + 1) := by
      unfold join
      rw [not_isabs_of_no_slash (h q List.mem_cons_self), if_neg Bool.false_ne_true]
      split
      · rw [List.length_append]
        omega
      · rw [List.length_append, List.length_cons]
    have hrest := ih (a := join a q) fun r hr => h r (List.mem_cons_of_mem q hr)
    rw [List.foldl_cons, List.flatMap_cons, List.length_append, List.length_cons]
    omega

/-- A directory's relative path begins with those of the directories above. -/
theorem prefix_rel {ds es : List Path} (h : ds <+: es) : rel ds <+: rel es := by
  obtain ⟨rest, rfl⟩ := h
  cases ds with
  | nil => exact List.nil_prefix
  | cons n ds =>
    rw [List.cons_append, rel_cons, rel_cons, List.flatMap_append, ← List.append_assoc]
    exact List.prefix_append _ _

/-- The first parts of a path, joined, are not longer than the path. -/
theorem length_joinAll_take (p : Path) (i : Nat) : (joinAll ((parts p).take i)).length ≤ p.length := by
  have hslash : ∀ q ∈ (parts p).take i, '/' ∉ q := fun q hq =>
    no_slash_of_part (List.mem_of_mem_take hq)
  have hrel : (rel ((parts p).take i)).length ≤ p.length := by
    have hlength := (prefix_rel (List.take_prefix i (parts p))).length_le
    rwa [rel, rel, intercalate_parts] at hlength
  cases htake : (parts p).take i with
  | nil => exact Nat.zero_le _
  | cons q ps =>
    rw [htake] at hslash hrel
    have hlength := length_foldl_join (a := q) fun r hr => hslash r (List.mem_cons_of_mem q hr)
    rw [rel_cons, List.length_append] at hrel
    exact hlength.trans hrel

theorem join_ne_nil {b : Path} (h : a ≠ [] ∨ b ≠ []) : join a b ≠ [] := by
  unfold join
  split
  · rename_i hb
    rintro rfl
    cases hb
  · split
    · rintro hnil
      obtain ⟨rfl, rfl⟩ := List.append_eq_nil_iff.mp hnil
      exact h.elim (fun h => h rfl) fun h => h rfl
    · exact List.append_ne_nil_of_right_ne_nil a (List.cons_ne_nil '/' b)

theorem length_lt_join {b : Path} (ha : a ≠ []) (hb : isabs b = false) :
    b.length < (join a b).length := by
  have hpos := List.length_pos_iff.mpr ha
  unfold join
  rw [hb, if_neg Bool.false_ne_true]
  split
  · rw [List.length_append]
    omega
  · rw [List.length_append, List.length_cons]
    omega

theorem joinAll_ne_nil {q : Path} (hq : q ∈ ps) (hne : q ≠ []) : joinAll ps ≠ [] := by
  have hfold : ∀ (qs : List Path) (b : Path), b ≠ [] ∨ q ∈ qs → qs.foldl join b ≠ [] := by
    intro qs
    induction qs with
    | nil => exact fun b h => h.resolve_right List.not_mem_nil
    | cons r qs ih =>
      intro b h
      refine ih (join b r) ?_
      rcases h with h | h
      · exact Or.inl (join_ne_nil (Or.inl h))
      · rcases List.mem_cons.mp h with rfl | h
        · exact Or.inl (join_ne_nil (Or.inr hne))
        · exact Or.inr h
  cases ps with
  | nil => cases hq
  | cons r ps =>
    refine hfold ps r ?_
    rcases List.mem_cons.mp hq with rfl | hq
    · exact Or.inl hne
    · exact Or.inr hq

end Beginnings

end M65Tool.Lib.PosixPath
