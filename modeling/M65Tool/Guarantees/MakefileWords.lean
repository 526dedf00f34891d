import M65Tool.Guarantees.MakefileText

/-!
# MAKEFILE-WORDS: what the words of a makefile name

A makefile is read as statements, and its words are told apart by their spelling: libraries,
sources that are made, variables of libraries. On the words that the parts of a module come
to, the spelling tells what the entries were.
-/
namespace M65Tool.Guarantees.MakefileWords
open Source.Makemake Lib.MakeText Lib.Naming Lib.Splitting
open MakefileParts MakefileUnambiguous MakefileClosed MakefileText

/-! ## What the statements name and define -/

/-- `lib{x}.la`. -/
def isLibrary (word : List Char) : Bool := (middle "lib".toList ".la".toList word).isSome

/-- A file of mocks or of runners; a word with a star is a pattern. -/
def isSource (word : List Char) : Bool :=
  [("tests/mocks/mock_", ".c"), ("tests/mocks/mock_", ".h"), ("tests/runners/runner_", ".c")].any
    fun affixes => (middle affixes.1.toList affixes.2.toList word).any fun x =>
      decide ('/' ∉ x ∧ '*' ∉ x)

/-- A variable of a library, or of its sources that are not distributed. -/
def isLibraryVar (name : List Char) : Bool :=
  [VarKind.sources, .ldadd, .libadd, .cppflags].any fun kind =>
    (middle [] kind.text.toList name).any fun stem => isLibraryStem (String.ofList stem)

section Statements
variable (stmts : List Stmt)

def assigned (kind : String → Bool) : List (List Char) :=
  stmts.flatMap (Stmt.values fun name => kind (String.ofList name))

/-- The targets of the rules, and the libraries in the lists of products. -/
def defined : List (List Char) :=
  stmts.flatMap Stmt.targets ++ assigned stmts (· ∈ libraryLists)

/-- Every library that is linked or is a prerequisite, and every mock or runner source that
is listed or is a prerequisite, is defined. -/
structure Closed : Prop where
  libraries : ∀ word ∈ assigned stmts isLinkList ++ stmts.flatMap Stmt.prerequisites,
    isLibrary word = true → word ∈ defined stmts
  sources : ∀ word ∈ assigned stmts (· ∉ productLists) ++ stmts.flatMap Stmt.prerequisites,
    isSource word = true → word ∈ defined stmts

/-- No runner program, no library's variable and no rule's target is defined twice. -/
structure Unambiguous : Prop where
  runners : (assigned stmts (· == "check_PROGRAMS")).Nodup ∧
    (assigned stmts (· == "check_PROGRAMS")).Disjoint (assigned stmts (· == "bin_PROGRAMS"))
  vars : ((stmts.flatMap Stmt.defined).filter isLibraryVar).Nodup
  rules : (stmts.flatMap Stmt.targets).Nodup

end Statements

/-! ## The kinds of words -/

section Words
variable {word : List Char} {x : String}

theorem isLibrary_iff : isLibrary word = true ↔ ∃ x, word = "lib".toList ++ x ++ ".la".toList := by
  rw [isLibrary, Option.isSome_iff_exists]
  exact exists_congr fun x => middle_eq_some

theorem isSource_iff : isSource word = true ↔ ∃ x, '/' ∉ x ∧ '*' ∉ x ∧
    (word = "tests/mocks/mock_".toList ++ x ++ ".c".toList ∨
      word = "tests/mocks/mock_".toList ++ x ++ ".h".toList ∨
      word = "tests/runners/runner_".toList ++ x ++ ".c".toList) := by
  simp only [isSource, List.any_cons, List.any_nil, Bool.or_false, Bool.or_eq_true,
    Option.any_eq_true, middle_eq_some, decide_eq_true_eq]
  constructor
  · rintro (⟨x, hword, hx⟩ | ⟨x, hword, hx⟩ | ⟨x, hword, hx⟩)
    · exact ⟨x, hx.1, hx.2, Or.inl hword⟩
    · exact ⟨x, hx.1, hx.2, Or.inr (Or.inl hword)⟩
    · exact ⟨x, hx.1, hx.2, Or.inr (Or.inr hword)⟩
  · rintro ⟨x, hslash, hstar, hword | hword | hword⟩
    · exact Or.inl ⟨x, hword, hslash, hstar⟩
    · exact Or.inr (Or.inl ⟨x, hword, hslash, hstar⟩)
    · exact Or.inr (Or.inr ⟨x, hword, hslash, hstar⟩)

theorem pasted_toList (start x ending : String) : (start ++ x ++ ending).toList =
    start.toList ++ x.toList ++ ending.toList := by
  rw [String.toList_append, String.toList_append]

theorem isLibrary_lib : isLibrary (Entry.lib x).text.toList = true :=
  isLibrary_iff.mpr ⟨x.toList, pasted_toList "lib" x ".la"⟩

theorem isLibrary_head (h : isLibrary word = true) : word.head? = some 'l' := by
  obtain ⟨y, rfl⟩ := isLibrary_iff.mp h
  simp

theorem isLibrary_last (h : isLibrary word = true) : word.getLast? = some 'a' := by
  obtain ⟨y, rfl⟩ := isLibrary_iff.mp h
  have hlast : ".la".toList = ['.', 'l'] ++ ['a'] := by simp
  rw [hlast, ← List.append_assoc, List.getLast?_concat]

/-- A source stands in a directory of the tests, under a name that no test has. -/
theorem isSource_cut (h : isSource word = true) : ∃ dir c file, '/' ∉ c :: file ∧
    word = dir ++ '/' :: c :: file ∧ (dir = "tests/mocks".toList ∨ dir = "tests/runners".toList) ∧
      c ≠ 't' := by
  have hmocks : "tests/mocks/mock_".toList = "tests/mocks".toList ++ '/' :: "mock_".toList := by
    simp
  have hrunners : "tests/runners/runner_".toList =
      "tests/runners".toList ++ '/' :: "runner_".toList := by
    simp
  have hslash : '/' ∉ "mock_".toList ∧ '/' ∉ "runner_".toList ∧ '/' ∉ ".c".toList ∧
      '/' ∉ ".h".toList := by
    simp
  have hfile : ∀ {start x ending : List Char}, '/' ∉ start → '/' ∉ x → '/' ∉ ending →
      '/' ∉ start ++ x ++ ending := by
    intro start x ending hstart hx hending
    simp [hstart, hx, hending]
  obtain ⟨x, hx, -, rfl | rfl | rfl⟩ := isSource_iff.mp h
  · refine ⟨"tests/mocks".toList, 'm', "ock_".toList ++ x ++ ".c".toList,
      hfile hslash.1 hx hslash.2.2.1, ?_, Or.inl rfl, by decide⟩
    rw [hmocks]
    simp
  · refine ⟨"tests/mocks".toList, 'm', "ock_".toList ++ x ++ ".h".toList,
      hfile hslash.1 hx hslash.2.2.2, ?_, Or.inl rfl, by decide⟩
    rw [hmocks]
    simp
  · refine ⟨"tests/runners".toList, 'r', "unner_".toList ++ x ++ ".c".toList,
      hfile hslash.2.1 hx hslash.2.2.1, ?_, Or.inr rfl, by decide⟩
    rw [hrunners]
    simp

theorem isSource_head (h : isSource word = true) : word.head? = some 't' := by
  obtain ⟨dir, c, file, -, rfl, rfl | rfl, -⟩ := isSource_cut h <;> simp

theorem isSource_signs {word : List Char} (h : isSource word = true) :
    word.take 2 = ['t', 'e'] ∧ '/' ∈ word ∧ '*' ∉ word := by
  refine ⟨?_, ?_, ?_⟩
  · obtain ⟨dir, c, file, -, rfl, rfl | rfl, -⟩ := isSource_cut h <;> simp
  · obtain ⟨dir, c, file, -, rfl, -, -⟩ := isSource_cut h
    exact List.mem_append_right _ List.mem_cons_self
  · obtain ⟨x, -, hstar, rfl | rfl | rfl⟩ := isSource_iff.mp h <;> simp [hstar]

theorem slash_inj {dir dir' file file' : List Char} (h : '/' ∉ file) (h' : '/' ∉ file')
    (heq : dir ++ '/' :: file = dir' ++ '/' :: file') : dir = dir' ∧ file = file' := by
  have hfiles := congrArg (fun path => (path.reverse.takeWhile (· != '/')).reverse) heq
  simp only [List.reverse_append, List.reverse_cons, List.append_assoc, List.singleton_append,
    takeWhile_append_slash] at hfiles
  rw [takeWhile_slash (by simpa using h), takeWhile_slash (by simpa using h'),
    List.reverse_reverse, List.reverse_reverse] at hfiles
  subst hfiles
  exact ⟨List.append_cancel_right heq, rfl⟩

end Words

/-! ## The statements of the parts -/

/-- A text of commands and directives. -/
def QuietText (text : List Char) : Prop := ∀ stmt ∈ read text, stmt.isQuiet = true

/-- The texts that are neither list variables nor rules define nothing. -/
def QuietPart : Part → Prop
  | .text text => QuietText text.toList
  | .rule _ _ commands => QuietText commands.toList
  | .listvar _ _ _ | .depends _ _ => True

section Parts
variable {part : Part} {parts : List Part}

theorem entryWords_append (a b : List Entry) : entryWords (a ++ b) = entryWords a ++ entryWords b :=
  List.flatMap_append

theorem part_lists (quiet : QuietPart part) (kind : String → Bool) :
    (partStmts part).flatMap Stmt.targets = entryWords (partTargets part) ∧
    (partStmts part).flatMap Stmt.prerequisites = entryWords (partPrerequisites part) ∧
    assigned (partStmts part) kind = entryWords (partValues kind part) ∧
    (partStmts part).flatMap Stmt.defined = (partVars part).map fun var => var.text.toList := by
  cases part with
  | text text => exact quiet_lists quiet _
  | rule targets prerequisites commands =>
    obtain ⟨htargets, hprerequisites, hvalues, hdefined⟩ :=
      quiet_lists quiet fun name => kind (String.ofList name)
    simp only [partStmts, assigned, List.flatMap_cons, htargets, hprerequisites, hvalues, hdefined]
    exact ⟨List.append_nil _, List.append_nil _, rfl, rfl⟩
  | depends target prerequisites =>
    exact ⟨List.append_nil _, List.append_nil _, rfl, rfl⟩
  | listvar name vals isConcat =>
    rw [partStmts]
    by_cases hempty : vals = [] ∧ isConcat = true
    · obtain ⟨rfl, rfl⟩ := hempty
      rw [if_pos ⟨rfl, rfl⟩]
      refine ⟨rfl, rfl, ?_, rfl⟩
      rw [partValues, ite_self]
      rfl
    · rw [if_neg hempty]
      refine ⟨rfl, rfl, ?_, ?_⟩
      · rw [assigned, List.flatMap_singleton, Stmt.values, String.ofList_toList, partValues]
        split <;> rfl
      · cases isConcat <;> rfl

/-- The lists of the statements are those of the parts. -/
theorem parts_lists (quiet : ∀ part ∈ parts, QuietPart part) (kind : String → Bool) :
    (parts.flatMap partStmts).flatMap Stmt.targets = entryWords (targets parts) ∧
    (parts.flatMap partStmts).flatMap Stmt.prerequisites = entryWords (prerequisites parts) ∧
    assigned (parts.flatMap partStmts) kind = entryWords (values parts kind) ∧
    (parts.flatMap partStmts).flatMap Stmt.defined =
      (definedVars parts).map fun var => var.text.toList := by
  have hlists := fun part hpart => part_lists (quiet part hpart) kind
  simp only [assigned, targets, prerequisites, values, definedVars, entryWords, List.flatMap_assoc,
    List.map_flatMap]
  exact ⟨List.flatMap_congr fun part hpart => (hlists part hpart).1,
    List.flatMap_congr fun part hpart => (hlists part hpart).2.1,
    List.flatMap_congr fun part hpart => (hlists part hpart).2.2.1,
    List.flatMap_congr fun part hpart => (hlists part hpart).2.2.2⟩

end Parts

/-! ## What an entry tells -/

/-- The words of an entry that are libraries or sources are the entry itself, and it is
one. -/
structure Told (e : Entry) : Prop where
  library : (words isBlank e.text.toList).filter isLibrary =
    if e.isLib then [e.text.toList] else []
  source : (words isBlank e.text.toList).filter isSource =
    if e.isSource then [e.text.toList] else []

/-- What separates directories, begins a pattern or a reference, or ends a line of a rule. -/
def isSpecial (c : Char) : Bool :=
  c == '/' || c == '*' || c == '?' || c == '[' || c == '%' || c == '$' || c == ';'

/-- A character of a file's name that make gives no meaning. -/
def isBare (c : Char) : Bool := isOrdinary c && !isSpecial c

def Bare (s : String) : Prop := ∀ c ∈ s.toList, isBare c = true

instance (s : String) : Decidable (Bare s) := List.decidableBAll _ s.toList

section Entries
variable {e : Entry} {a b : String}

theorem Bare.ordinary (h : Bare a) : Ordinary a :=
  fun c hc => (Bool.and_eq_true_iff.mp (h c hc)).1

theorem Bare.not_mem (h : Bare a) {c : Char} (hc : isBare c = false) : c ∉ a.toList := by
  intro hmem
  rw [h c hmem] at hc
  cases hc

theorem told_word (hord : Ordinary e.text) (hne : e.text ≠ "")
    (hlib : isLibrary e.text.toList = e.isLib) (hsource : isSource e.text.toList = e.isSource) :
    Told e := by
  have hwords : words isBlank e.text.toList = [e.text.toList] := by
    refine words_single ?_ fun c hc => ordinary_blank (hord c hc)
    rwa [ne_eq, String.toList_eq_nil_iff]
  constructor
  · rw [hwords, List.filter_singleton, hlib, Bool.cond_eq_ite]
  · rw [hwords, List.filter_singleton, hsource, Bool.cond_eq_ite]

theorem isLibrary_false {word : List Char} (h : word.head? ≠ some 'l') : isLibrary word = false := by
  cases hlib : isLibrary word with
  | false => rfl
  | true => exact absurd (isLibrary_head hlib) h

theorem isSource_false {word : List Char} (h : word.head? ≠ some 't') : isSource word = false := by
  cases hsource : isSource word with
  | false => rfl
  | true => exact absurd (isSource_head hsource) h

theorem told_lib (h : Ordinary a) : Told (.lib a) := by
  have hhead : (Entry.lib a).text.toList.head? = some 'l' := isLibrary_head isLibrary_lib
  refine told_word (ordinary_entry (by simpa [entryNames] using h)) ?_ isLibrary_lib
    (isSource_false (by rw [hhead]; decide))
  intro hempty
  rw [hempty] at hhead
  cases hhead

theorem told_source (he : e.isSource = true) (h : ∀ s ∈ entryNames e, Bare s) : Told e := by
  have hsource : isSource e.text.toList = true := by
    refine isSource_iff.mpr ?_
    cases e with
    | plain | lib | runner | object => cases he
    | mockC x =>
      have hx : Bare x := h x List.mem_cons_self
      exact ⟨x.toList, hx.not_mem rfl, hx.not_mem rfl, Or.inl (pasted_toList _ x _)⟩
    | mockH x =>
      have hx : Bare x := h x List.mem_cons_self
      exact ⟨x.toList, hx.not_mem rfl, hx.not_mem rfl, Or.inr (Or.inl (pasted_toList _ x _))⟩
    | runnerC x =>
      have hx : Bare x := h x List.mem_cons_self
      exact ⟨x.toList, hx.not_mem rfl, hx.not_mem rfl, Or.inr (Or.inr (pasted_toList _ x _))⟩
  have hhead := isSource_head hsource
  refine told_word (ordinary_entry fun s hs => (h s hs).ordinary) ?_ ?_ (hsource.trans he.symm)
  · intro hempty
    rw [hempty] at hhead
    cases hhead
  · rw [isLibrary_false (by rw [hhead]; decide)]
    cases e with
    | lib => cases he
    | _ => rfl

theorem told_plain (hord : Ordinary a) (hne : a ≠ "") (hlib : isLibrary a.toList = false)
    (hsource : isSource a.toList = false) : Told (.plain a) :=
  told_word hord hne hlib hsource

/-- Text that begins otherwise. -/
theorem told_flag {c : Char} (hord : Ordinary a) (hhead : a.toList.head? = some c) (hl : c ≠ 'l')
    (ht : c ≠ 't') : Told (.plain a) := by
  refine told_plain hord ?_ (isLibrary_false (by simpa [hhead] using hl))
    (isSource_false (by simpa [hhead] using ht))
  rintro rfl
  cases hhead

end Entries

/-- The entries tell what they are, and libraries and sources stand where they are looked
for. -/
def ToldPart : Part → Prop
  | .text _ => True
  | .listvar name vals _ => (name.text ∉ productLists → ∀ e ∈ vals, Told e) ∧
      ∀ e ∈ vals, (e.isLib = true → isLinkList name.text = true ∨ name.text ∈ libraryLists) ∧
        (e.isSource = true → name.text ∉ productLists)
  | .rule _ prerequisites _ => ∀ e ∈ prerequisites, Told e
  | .depends _ prerequisites => ∀ e ∈ prerequisites, Told e

section Told
variable {parts : List Part} {entries : List Entry}

theorem told_words (told : ∀ e ∈ entries, Told e) (P : List Char → Prop) :
    ((∀ word ∈ entryWords entries, isLibrary word = true → P word) ↔
      ∀ e ∈ entries, e.isLib = true → P e.text.toList) ∧
    ((∀ word ∈ entryWords entries, isSource word = true → P word) ↔
      ∀ e ∈ entries, e.isSource = true → P e.text.toList) := by
  have hentry : ∀ {look : List Char → Bool} {kind : Entry → Bool}, (∀ e ∈ entries,
      (words isBlank e.text.toList).filter look = if kind e then [e.text.toList] else []) →
      ((∀ word ∈ entryWords entries, look word = true → P word) ↔
        ∀ e ∈ entries, kind e = true → P e.text.toList) := by
    intro look kind hfilter
    constructor
    · intro hall e he hkind
      have hmem : e.text.toList ∈ (words isBlank e.text.toList).filter look := by
        rw [hfilter e he, if_pos hkind]
        exact List.mem_cons_self
      obtain ⟨hword, hlook⟩ := List.mem_filter.mp hmem
      exact hall _ (List.mem_flatMap.mpr ⟨e, he, hword⟩) hlook
    · intro hall word hword hlook
      obtain ⟨e, he, hword⟩ := List.mem_flatMap.mp hword
      have hmem := List.mem_filter.mpr ⟨hword, hlook⟩
      rw [hfilter e he] at hmem
      split at hmem
      · rename_i hkind
        rw [List.mem_singleton.mp hmem]
        exact hall e he hkind
      · cases hmem
  exact ⟨hentry fun e he => (told e he).library, hentry fun e he => (told e he).source⟩

theorem isLinkList_not_product {name : String} (h : isLinkList name = true) :
    name ∉ productLists := by
  intro hmem
  have hnot : ∀ product ∈ productLists, isLinkList product = false := by decide +kernel
  rw [hnot name hmem] at h
  cases h

/-- What is linked or listed, and what is a prerequisite, tells what it is. -/
theorem told_values (told : ∀ part ∈ parts, ToldPart part) (kind : String → Bool)
    (hkind : ∀ name, kind name = true → name ∉ productLists) :
    ∀ e ∈ values parts kind ++ prerequisites parts, Told e := by
  intro e he
  rcases List.mem_append.mp he with he | he
  · obtain ⟨part, hpart, he⟩ := List.mem_flatMap.mp he
    have htold := told part hpart
    cases part with
    | text | rule | depends => cases he
    | listvar name vals isConcat =>
      rw [partValues] at he
      split at he
      · rename_i hname
        exact htold.1 (hkind _ hname) e he
      · cases he
  · obtain ⟨part, hpart, he⟩ := List.mem_flatMap.mp he
    have htold := told part hpart
    cases part with
    | text | listvar => cases he
    | rule | depends => exact htold e he

/-- The libraries are linked, are prerequisites or are made, and the sources are listed or are
prerequisites. -/
theorem mentions_told (told : ∀ part ∈ parts, ToldPart part) (P : Entry → Prop)
    (hmade : ∀ e ∈ values parts (· ∈ libraryLists), P e) :
    (∀ e ∈ mentions parts, e.isNamed = true → P e) ↔
      (∀ e ∈ values parts isLinkList ++ prerequisites parts, e.isLib = true → P e) ∧
      ∀ e ∈ values parts (· ∉ productLists) ++ prerequisites parts, e.isSource = true → P e := by
  have hmentioned : ∀ kind : String → Bool, ∀ e ∈ values parts kind ++ prerequisites parts,
      e ∈ mentions parts := by
    intro kind e he
    rw [values, prerequisites, List.mem_append, List.mem_flatMap, List.mem_flatMap] at he
    rcases he with ⟨part, hpart, he⟩ | ⟨part, hpart, he⟩
    · refine List.mem_flatMap.mpr ⟨part, hpart, ?_⟩
      cases part with
      | text | rule | depends => cases he
      | listvar name vals isConcat =>
        rw [partValues] at he
        split at he
        · exact he
        · cases he
    · refine List.mem_flatMap.mpr ⟨part, hpart, ?_⟩
      cases part with
      | text | listvar => cases he
      | rule | depends => exact he
  constructor
  · intro hall
    refine ⟨fun e he hlib => ?_, fun e he hsource => ?_⟩
    · exact hall e (hmentioned _ e he) (by rw [e.isNamed_eq, hlib, Bool.true_or])
    · exact hall e (hmentioned _ e he) (by rw [e.isNamed_eq, hsource, Bool.or_true])
  · rintro ⟨hlibraries, hsources⟩ e he hnamed
    obtain ⟨part, hpart, he⟩ := List.mem_flatMap.mp he
    have htold := told part hpart
    have hprerequisite : e ∈ prerequisites parts → P e := by
      intro hmem
      rcases Bool.or_eq_true_iff.mp (e.isNamed_eq ▸ hnamed) with hlib | hsource
      · exact hlibraries e (List.mem_append_right _ hmem) hlib
      · exact hsources e (List.mem_append_right _ hmem) hsource
    cases part with
    | text => cases he
    | rule | depends => exact hprerequisite (List.mem_flatMap.mpr ⟨_, hpart, he⟩)
    | listvar name vals isConcat =>
      have hvalue : ∀ kind : String → Bool, kind name.text = true → e ∈ values parts kind := by
        intro kind hkind
        refine List.mem_flatMap.mpr ⟨_, hpart, ?_⟩
        rw [partValues, if_pos hkind]
        exact he
      obtain ⟨hlink, hlist⟩ := htold.2 e he
      rcases Bool.or_eq_true_iff.mp (e.isNamed_eq ▸ hnamed) with hlib | hsource
      · rcases hlink hlib with hname | hname
        · exact hlibraries e (List.mem_append_left _ (hvalue _ hname)) hlib
        · exact hmade e (hvalue _ (by simpa using hname))
      · exact hsources e (List.mem_append_left _ (hvalue _ (by simpa using hlist hsource))) hsource

/-- An entry is one word. -/
theorem entryWords_eq (h : ∀ e ∈ entries, Ordinary e.text ∧ e.text ≠ "") :
    entryWords entries = entries.map fun e => e.text.toList := by
  rw [entryWords, List.map_eq_flatMap]
  refine List.flatMap_congr fun e he => ?_
  obtain ⟨hord, hne⟩ := h e he
  refine words_single ?_ fun c hc => ordinary_blank (hord c hc)
  rwa [ne_eq, String.toList_eq_nil_iff]

theorem made_ne_empty {e : Entry} (h : e.Made) : e.text ≠ "" := by
  obtain ⟨x, hx⟩ := h.text_ends
  intro hempty
  have hlist := congrArg String.toList (hx.symm.trans hempty)
  rw [String.toList_append] at hlist
  have hending := (List.append_eq_nil_iff.mp hlist).2
  cases h <;> simp [Entry.ending] at hending

/-- What is listed is defined in the text exactly if it is in the parts. -/
theorem closed_parts (quiet : ∀ part ∈ parts, QuietPart part)
    (told : ∀ part ∈ parts, ToldPart part)
    (made : ∀ e ∈ targets parts ++ values parts (· ∈ libraryLists), e.Made ∧ Ordinary e.text) :
    Closed (parts.flatMap partStmts) ↔ ∀ e ∈ mentions parts, e.isNamed = true →
      e ∈ targets parts ++ values parts (· ∈ libraryLists) := by
  have hlists := fun kind => parts_lists quiet kind
  have hdefined : defined (parts.flatMap partStmts) =
      ((targets parts ++ values parts (· ∈ libraryLists)).map Entry.text).map String.toList := by
    rw [defined, (hlists fun _ => true).1, (hlists (· ∈ libraryLists)).2.2.1, ← entryWords_append,
      entryWords_eq fun e he => ⟨(made e he).2, made_ne_empty (made e he).1⟩, List.map_map]
    rfl
  have hnamed : ∀ e : Entry, e.isNamed = true → (e.text.toList ∈ defined (parts.flatMap partStmts) ↔
      e ∈ targets parts ++ values parts (· ∈ libraryLists)) := by
    intro e he
    rw [hdefined, List.mem_map_of_injective fun _ _ => String.toList_inj.mp,
      text_mem_iff he fun e' he' => (made e' he').1]
  rw [mentions_told told (· ∈ targets parts ++ values parts (· ∈ libraryLists))
    fun e he => List.mem_append_right _ he]
  have hlinked := told_words (told_values told isLinkList fun _ => isLinkList_not_product)
    (· ∈ defined (parts.flatMap partStmts))
  have hlisted := told_words (told_values told (· ∉ productLists) fun _ h => by simpa using h)
    (· ∈ defined (parts.flatMap partStmts))
  have hlib : ∀ e : Entry, e.isLib = true → e.isNamed = true := fun e h => by
    rw [e.isNamed_eq, h, Bool.true_or]
  have hsource : ∀ e : Entry, e.isSource = true → e.isNamed = true := fun e h => by
    rw [e.isNamed_eq, h, Bool.or_true]
  have hclosed : Closed (parts.flatMap partStmts) ↔
      (∀ word ∈ entryWords (values parts isLinkList ++ prerequisites parts),
        isLibrary word = true → word ∈ defined (parts.flatMap partStmts)) ∧
      ∀ word ∈ entryWords (values parts (· ∉ productLists) ++ prerequisites parts),
        isSource word = true → word ∈ defined (parts.flatMap partStmts) := by
    rw [entryWords_append, entryWords_append, ← (hlists isLinkList).2.2.1,
      ← (hlists (· ∉ productLists)).2.2.1, ← (hlists isLinkList).2.1]
    exact ⟨fun h => ⟨h.libraries, h.sources⟩, fun h => ⟨h.1, h.2⟩⟩
  rw [hclosed, hlinked.1, hlisted.2]
  exact and_congr (forall₂_congr fun e _ => forall_congr' fun h => hnamed e (hlib e h))
    (forall₂_congr fun e _ => forall_congr' fun h => hnamed e (hsource e h))

end Told

/-! ## The fixed parts -/

/-- No library and no source, by its first letters or as a pattern. -/
def tellsNothing (word : List Char) : Bool :=
  word.head? != some 'l' && (word.take 2 != ['t', 'e'] || !word.contains '/' || word.contains '*')

section Fixed
variable {text : List Char}

theorem told_literal (h : (words isBlank text).all tellsNothing = true) :
    Told (.plain (String.ofList text)) := by
  have hwords : words isBlank (Entry.plain (String.ofList text)).text.toList =
      words isBlank text := congrArg _ String.toList_ofList
  have hnot : ∀ word ∈ words isBlank text, isLibrary word = false ∧ isSource word = false := by
    intro word hword
    obtain ⟨hhead, hsigns⟩ := Bool.and_eq_true_iff.mp (List.all_eq_true.mp h word hword)
    refine ⟨isLibrary_false (bne_iff_ne.mp hhead), ?_⟩
    cases hsource : isSource word with
    | false => rfl
    | true =>
      obtain ⟨htake, hslash, hstar⟩ := isSource_signs hsource
      simp [htake, hslash, hstar] at hsigns
  constructor
  · rw [hwords, List.filter_eq_nil_iff.mpr fun word hword => by simp [(hnot word hword).1]]
    rfl
  · rw [hwords, List.filter_eq_nil_iff.mpr fun word hword => by simp [(hnot word hword).2]]
    rfl

theorem quiet_text (h : (read text).all Stmt.isQuiet = true) : QuietText text :=
  List.all_eq_true.mp h

theorem quiet_literal (h : (read text).all Stmt.isQuiet = true) :
    QuietPart (.text (String.ofList text)) := by
  rw [QuietPart, String.toList_ofList]
  exact quiet_text h

end Fixed

theorem preamble_told : ∀ part ∈ makefilePreamble, ToldPart part := by
  have hcmock : Told (.lib "cmock") := told_lib (by decide)
  have hlist : "check_LTLIBRARIES" ∈ libraryLists := by simp [libraryLists]
  simp only [makefilePreamble, ToldPart, List.forall_mem_cons, List.not_mem_nil,
    IsEmpty.forall_iff, implies_true, and_true, true_and, Entry.isLib, Entry.isSource,
    Bool.false_eq_true, plain_text, hcmock, hlist, or_true]
  repeat' apply And.intro
  all_goals
    intro _
    repeat' apply And.intro
    all_goals exact told_literal (by decide)

theorem postable_told : ∀ part ∈ makefilePostable, ToldPart part := by
  simp only [makefilePostable, ToldPart, List.forall_mem_cons, List.not_mem_nil,
    IsEmpty.forall_iff, implies_true, and_true, true_and, Entry.isLib, Entry.isSource,
    Bool.false_eq_true, plain_text]
  repeat' apply And.intro
  all_goals
    intro _
    repeat' apply And.intro
    all_goals exact told_literal (by decide)

theorem preamble_quiet : ∀ part ∈ makefilePreamble, QuietPart part := by
  simp only [makefilePreamble, List.forall_mem_cons, List.not_mem_nil, IsEmpty.forall_iff,
    implies_true, and_true]
  repeat' apply And.intro
  all_goals first | trivial | exact quiet_literal (by decide)

theorem postable_quiet : ∀ part ∈ makefilePostable, QuietPart part := by
  simp only [makefilePostable, List.forall_mem_cons, List.not_mem_nil, IsEmpty.forall_iff,
    implies_true, and_true]
  repeat' apply And.intro
  all_goals first | trivial | exact quiet_literal (by decide)

theorem runnerCmds_quiet : QuietText runnerGenerationCmds.toList := by
  delta runnerGenerationCmds
  refine (congrArg QuietText (append_literal (append_literal String.toList_ofList _) _)).mpr ?_
  exact quiet_text (by decide)

theorem mockCmds_quiet : QuietText mockGenerationCmds.toList := by
  delta mockGenerationCmds
  refine (congrArg QuietText (append_literal (append_literal (append_literal (append_literal
    String.toList_ofList _) _) _) _)).mpr ?_
  exact quiet_text (by decide)

/-! ## The parts of a module -/

section Paths
variable {root name file : List Char} {path given base : String}

/-- A path as it is given, or without `./` in front. -/
def Spelled (given path : String) : Prop := given = path ∨ given = "./" ++ path

theorem spelled_withoutDot (given : String) : Spelled given (withoutDot given) :=
  (withoutDot_cases given).imp_left Eq.symm

theorem Spelled.front (h : Spelled given path) : ∃ front : List Char,
    given.toList = front ++ path.toList ∧ (front = [] ∨ front = ['.', '/']) := by
  rcases h with rfl | rfl
  · exact ⟨[], rfl, Or.inl rfl⟩
  · exact ⟨['.', '/'], String.toList_append, Or.inr rfl⟩

theorem Spelled.last (h : Spelled given path) {c : Char} (hlast : given.toList.getLast? = some c)
    (hc : c ≠ '/') : path.toList.getLast? = some c := by
  obtain ⟨front, hgiven, hfront⟩ := h.front
  rw [hgiven] at hlast
  by_cases hempty : path.toList = []
  · rw [hempty, List.append_nil] at hlast
    rcases hfront with rfl | rfl
    · cases hlast
    · exact absurd (Option.some.inj hlast).symm hc
  · rwa [List.getLast?_append_of_ne_nil _ hempty] at hlast

/-- A path that ends otherwise than a library. -/
theorem told_path (h : Spelled given path) (hord : Ordinary given) {c : Char}
    (hlast : given.toList.getLast? = some c) (hc : c ≠ '/' ∧ c ≠ 'a')
    (hsource : isSource path.toList = false) : Told (.plain path) := by
  have hend := h.last hlast hc.1
  obtain ⟨front, hgiven, -⟩ := h.front
  refine told_plain (ordinary_sub hord fun x hx => ?_) ?_ ?_ hsource
  · rw [hgiven]
    exact List.mem_append_right _ hx
  · rintro rfl
    cases hend
  · cases hlib : isLibrary path.toList with
    | false => rfl
    | true => exact absurd (Option.some.inj (hend.symm.trans (isLibrary_last hlib))) hc.2

/-- A file in a directory below `src` is no source that is made. -/
theorem below_src (h : Spelled given path) (hname : '/' ∉ name) (hfile : '/' ∉ file)
    (hbelow : given.toList = root ++ "src".toList ++ '/' :: name ++ '/' :: file) :
    isSource path.toList = false := by
  cases hsource : isSource path.toList with
  | false => rfl
  | true =>
    exfalso
    obtain ⟨dir, c, rest, hrest, hpath, hdir, -⟩ := isSource_cut hsource
    obtain ⟨front, hgiven, -⟩ := h.front
    rw [hbelow, hpath, ← List.append_assoc] at hgiven
    obtain ⟨houter, -⟩ := slash_inj hfile hrest hgiven
    have htests : ∃ last, '/' ∉ last ∧ dir = "tests".toList ++ '/' :: last := by
      rcases hdir with rfl | rfl
      · exact ⟨"mocks".toList, by simp, by simp⟩
      · exact ⟨"runners".toList, by simp, by simp⟩
    obtain ⟨last, hlast, rfl⟩ := htests
    rw [← List.append_assoc] at houter
    obtain ⟨hsrc, -⟩ := slash_inj hname hlast houter
    have hend := congrArg List.getLast? hsrc
    simp at hend

/-- No test is a source that is made. -/
theorem test_not_made (h : Spelled given path) {dir : List Char} (hbase : '/' ∉ base.toList)
    (hhead : base.toList.head? = some 't')
    (hgiven : given.toList = dir ++ '/' :: (base.toList ++ ".c".toList)) :
    isSource path.toList = false := by
  cases hsource : isSource path.toList with
  | false => rfl
  | true =>
    exfalso
    obtain ⟨outer, c, rest, hrest, hpath, -, hc⟩ := isSource_cut hsource
    obtain ⟨front, hfront, -⟩ := h.front
    rw [hgiven, hpath, ← List.append_assoc] at hfront
    have hfile : '/' ∉ base.toList ++ ".c".toList := by simp [hbase]
    obtain ⟨-, hnames⟩ := slash_inj hfile hrest hfront
    cases hlist : base.toList with
    | nil =>
      rw [hlist] at hhead
      cases hhead
    | cons x xs =>
      rw [hlist] at hhead hnames
      obtain rfl : x = 't' := Option.some.inj hhead
      exact hc (List.cons.inj hnames).1.symm

end Paths

/-- A module whose names are names of files that make gives no meaning. -/
structure BareModule (mod : Module) : Prop extends PlainModule mod where
  bareName : Bare mod.name
  bareDeps : ∀ d ∈ mod.deps, Bare d
  bareLibrary : mod.isProgram = false →
    Bare (formatted mod.library) ∧ ∀ test ∈ mod.tests, Bare (testBase test)
  sourceNames : ∀ src ∈ mod.sources, '/' ∉ src.toList ∧ src.toList.getLast? ≠ some 'a' ∧ src ≠ ""
  below : ∃ root : String, mod.sourceDir = root ++ "src" ++ "/" ++ mod.name
  nameNe : mod.name ≠ ""
  testHead : ∀ test ∈ mod.tests, (testBase test).toList.head? = some 't'

section Modules
variable {mod : Module} {base : String}

theorem told_var {stem : Stem} {kind : VarKind} {vals : List Entry} {isConcat : Bool}
    (h : ∀ e ∈ vals, Told e)
    (hlink : ∀ e ∈ vals, e.isLib = true → kind = .ldadd ∨ kind = .libadd) :
    ToldPart (.listvar (.of stem kind) vals isConcat) := by
  refine ⟨fun _ => h, fun e he => ⟨fun hlib => Or.inl ?_, fun _ =>
    of_not_mem_productLists stem kind⟩⟩
  have hends : ∀ ending : String, endswith (stem.text ++ ending) ending = true := by
    intro ending
    rw [endswith, List.isSuffixOf_iff_suffix, String.toList_append]
    exact List.suffix_append _ _
  rw [isLinkList, Bool.or_eq_true]
  rcases hlink e he hlib with rfl | rfl
  · exact Or.inr (hends "_LDADD")
  · exact Or.inl (hends "_LIBADD")

theorem told_testSrc (hdir : Ordinary mod.testsDir) (hbase : Bare base)
    (hhead : base.toList.head? = some 't') {path : String}
    (hpath : Spelled (mod.testsDir ++ "/" ++ base ++ ".c") path) : Told (.plain path) := by
  have hlist : (mod.testsDir ++ "/" ++ base ++ ".c").toList =
      mod.testsDir.toList ++ '/' :: (base.toList ++ ".c".toList) := by
    simp
  have hord : Ordinary (mod.testsDir ++ "/" ++ base ++ ".c") :=
    ordinary_append (ordinary_pasted hdir (by decide) hbase.ordinary) (by decide)
  refine told_path hpath hord (c := 'c') ?_ (by decide)
    (test_not_made hpath (hbase.not_mem rfl) hhead hlist)
  have hend : mod.testsDir.toList ++ '/' :: (base.toList ++ ".c".toList) =
      mod.testsDir.toList ++ '/' :: base.toList ++ ['.'] ++ ['c'] := by
    simp
  rw [hlist, hend, List.getLast?_concat]

theorem told_header (h : BareModule mod) (hdir : Ordinary mod.sourceDir) (hbase : Bare base)
    {path : String} (hpath : Spelled (mod.sourceDir ++ "/" ++ base ++ ".h") path) : Told (.plain path) := by
  obtain ⟨root, hbelow⟩ := h.below
  have hlist : (mod.sourceDir ++ "/" ++ base ++ ".h").toList =
      root.toList ++ "src".toList ++ '/' :: mod.name.toList ++
        '/' :: (base.toList ++ ".h".toList) := by
    rw [hbelow]
    simp
  have hord : Ordinary (mod.sourceDir ++ "/" ++ base ++ ".h") :=
    ordinary_append (ordinary_pasted hdir (by decide) hbase.ordinary) (by decide)
  have hfile : '/' ∉ base.toList ++ ".h".toList := by
    simp [hbase.not_mem (show isBare '/' = false from rfl)]
  refine told_path hpath hord (c := 'h') ?_ (by decide)
    (below_src hpath (h.bareName.not_mem rfl) hfile hlist)
  have hend : root.toList ++ "src".toList ++ '/' :: mod.name.toList ++
      '/' :: (base.toList ++ ".h".toList) = root.toList ++ "src".toList ++ '/' ::
        mod.name.toList ++ '/' :: base.toList ++ ['.'] ++ ['h'] := by
    simp
  rw [hlist, hend, List.getLast?_concat]

/-- The name of a directory and the name of a file in it. -/
theorem pathJoin_name {dir name file : String} (hname : '/' ∉ name.toList) (hne : name ≠ "")
    (hfile : '/' ∉ file.toList) :
    pathJoin (dir ++ "/" ++ name) file = dir ++ "/" ++ name ++ "/" ++ file := by
  have hstart : startswith file "/" = false := by
    cases hstarts : startswith file "/" with
    | false => rfl
    | true =>
      obtain ⟨rest, rfl⟩ := startswith_iff.mp hstarts
      exact absurd (by simp) hfile
  have hlast : endswith (dir ++ "/" ++ name) "/" = false := by
    cases hends : endswith (dir ++ "/" ++ name) "/" with
    | false => rfl
    | true =>
      rw [endswith, List.isSuffixOf_iff_suffix] at hends
      obtain ⟨before, hbefore⟩ := hends
      have hnonempty : name.toList ≠ [] := fun h => hne (String.toList_eq_nil_iff.mp h)
      have hend := congrArg List.getLast? hbefore
      rw [String.toList_append, List.getLast?_append_of_ne_nil _ hnonempty] at hend
      exact absurd (List.mem_of_getLast? (hend.symm.trans (by simp))) hname
  have hne' : dir ++ "/" ++ name ≠ "" := by
    intro hempty
    have hlist := congrArg String.toList hempty
    simp at hlist
  rw [pathJoin, hstart, if_neg Bool.false_ne_true, if_neg]
  rintro (hempty | hends)
  · exact hne' hempty
  · rw [hlast] at hends
    cases hends

theorem told_sourceFile (h : BareModule mod) {src : String} (hsrc : src ∈ mod.sources) :
    Told (.plain (pathJoin mod.sourceDir src)) := by
  obtain ⟨root, hbelow⟩ := h.below
  obtain ⟨hslash, hlast, hne⟩ := h.sourceNames src hsrc
  have hname : '/' ∉ mod.name.toList := h.bareName.not_mem rfl
  have hjoin : pathJoin mod.sourceDir src = root ++ "src" ++ "/" ++ mod.name ++ "/" ++ src := by
    rw [hbelow, pathJoin_name hname h.nameNe hslash]
  have hlist : (pathJoin mod.sourceDir src).toList =
      root.toList ++ "src".toList ++ '/' :: mod.name.toList ++ '/' :: src.toList := by
    rw [hjoin]
    simp
  have hnonempty : src.toList ≠ [] := fun hnil => hne (String.toList_eq_nil_iff.mp hnil)
  have hend : (pathJoin mod.sourceDir src).toList.getLast? = src.toList.getLast? := by
    rw [hlist, List.getLast?_append_of_ne_nil _ (List.cons_ne_nil _ _),
      List.getLast?_cons_of_ne_nil hnonempty]
  obtain ⟨c, hc⟩ : ∃ c, src.toList.getLast? = some c :=
    ⟨_, List.getLast?_eq_some_getLast hnonempty⟩
  refine told_path (Or.inl rfl) (h.sources src hsrc) (hend.trans hc) ⟨?_, ?_⟩ (below_src (Or.inl rfl) hname hslash hlist)
  · rintro rfl
    exact hslash (List.mem_of_getLast? hc)
  · rintro rfl
    exact hlast hc

theorem told_products {name : String} {vals : List Entry} {isConcat : Bool}
    (hname : name ∈ productLists)
    (h : ∀ e ∈ vals, e.isSource = false ∧ (e.isLib = true → name ∈ libraryLists)) :
    ToldPart (.listvar (.plain name) vals isConcat) := by
  refine ⟨fun hnot => absurd hname hnot, fun e he => ⟨fun hlib => Or.inr ((h e he).2 hlib), ?_⟩⟩
  intro hsource
  rw [(h e he).1] at hsource
  cases hsource

theorem told_cleaned {vals : List Entry} {isConcat : Bool}
    (h : ∀ e ∈ vals, Told e ∧ e.isLib = false) :
    ToldPart (.listvar (.plain "CLEANFILES") vals isConcat) := by
  refine ⟨fun _ e he => (h e he).1, fun e he => ⟨fun hlib => ?_, fun _ => ?_⟩⟩
  · rw [(h e he).2] at hlib
    cases hlib
  · simp [productLists, libraryLists]

theorem told_include {d : String} (h : Bare d) :
    Told (.plain ("-I$(top_srcdir)/src/" ++ d)) := by
  have hhead : ("-I$(top_srcdir)/src/" ++ d).toList.head? = some '-' := by simp
  exact told_flag (ordinary_append (by decide) h.ordinary) hhead (by decide) (by decide)

theorem told_flags {deps : List String} (h : ∀ d ∈ deps, Bare d) :
    ∀ e ∈ [Entry.plain "$(CMOCK_CPPFLAGS)", .plain "$(AM_CPPFLAGS)"] ++
      deps.map fun d => .plain ("-I$(top_srcdir)/src/" ++ d), Told e := by
  rw [List.forall_mem_append, List.forall_mem_cons, List.forall_mem_singleton]
  refine ⟨⟨told_literal (by decide), told_literal (by decide)⟩, fun e he => ?_⟩
  obtain ⟨d, hd, rfl⟩ := List.mem_map.mp he
  exact told_include (h d hd)

/-- What is listed for a test. -/
theorem renderTest_told (h : BareModule mod) (lib : PlainLibrary mod)
    (hlibrary : Bare (formatted mod.library)) (hbase : Bare base)
    (hdir : Ordinary mod.testsDir) (hhead : base.toList.head? = some 't') : ∀ part ∈ renderTest mod base, ToldPart part := by
  have hbuilt : ∀ e ∈ [Entry.runnerC base] ++ mod.deps.map .mockC ++ mod.deps.map .mockH,
      Told e ∧ e.isLib = false := by
    simp only [List.forall_mem_append, List.forall_mem_singleton, List.forall_mem_map]
    refine ⟨⟨⟨told_source rfl (by simpa [entryNames] using hbase), rfl⟩, fun d hd => ⟨?_, rfl⟩⟩,
      fun d hd => ⟨?_, rfl⟩⟩
    · exact told_source rfl (by simpa [entryNames] using h.bareDeps d hd)
    · exact told_source rfl (by simpa [entryNames] using h.bareDeps d hd)
  have hlibs : ∀ e ∈ [Entry.lib "cmock", .lib (formatted mod.library)] ++ mod.deps.map .mockLib,
      Told e := by
    rw [List.forall_mem_append, List.forall_mem_cons, List.forall_mem_singleton,
      List.forall_mem_map]
    exact ⟨⟨told_lib (by decide), told_lib lib.library⟩, fun d hd =>
      told_lib (ordinary_append (h.deps d hd) (by decide))⟩
  unfold renderTest
  simp only [List.forall_mem_cons, List.not_mem_nil, false_imp_iff, implies_true, and_true]
  refine ⟨told_products (by simp [productLists]) ?_, ?_, told_var ?_ ?_,
    told_var (fun e he => (hbuilt e he).1) ?_, ?_, told_cleaned ?_,
    told_var hlibs fun _ _ _ => Or.inl rfl, told_var (told_flags h.bareDeps) ?_⟩
  · exact List.forall_mem_singleton.mpr ⟨rfl, fun hlib => absurd hlib Bool.false_ne_true⟩
  · exact List.forall_mem_singleton.mpr (told_testSrc hdir hbase hhead (Or.inl rfl))
  · rw [List.forall_mem_cons, List.forall_mem_singleton]
    exact ⟨told_testSrc hdir hbase hhead (spelled_withoutDot _),
      told_header h lib.sourceDir hlibrary (spelled_withoutDot _)⟩
  · simp [Entry.isLib]
  · intro e he hlib
    rw [(hbuilt e he).2] at hlib
    cases hlib
  · exact List.forall_mem_append.mpr ⟨fun e he => (hbuilt e he).1, hlibs⟩
  · exact List.forall_mem_singleton.mpr ⟨(hbuilt (.runnerC base) (by simp)).1, rfl⟩
  · simp [Entry.isLib]

theorem renderMock_told (h : BareModule mod) : ∀ part ∈ renderMock mod, ToldPart part := by
  unfold renderMock
  cases hprogram : mod.isProgram with
  | true => exact fun part hpart => absurd hpart List.not_mem_nil
  | false =>
    have hdir := (h.library hprogram).sourceDir
    have hlibrary := (h.bareLibrary hprogram).1
    have hmock : ∀ name, Bare name → Told (.mockC name) ∧ Told (.mockH name) := fun name hname =>
      ⟨told_source rfl (by simpa [entryNames] using hname),
        told_source rfl (by simpa [entryNames] using hname)⟩
    have hflags := told_flags (List.forall_mem_singleton.mpr h.bareName)
    rw [if_neg Bool.false_ne_true]
    simp only [List.forall_mem_cons, List.not_mem_nil, false_imp_iff, implies_true, and_true]
    refine ⟨?_, told_products (by simp [productLists, libraryLists]) ?_, told_var ?_ ?_,
      told_var ?_ ?_, told_var ?_ fun _ _ _ => Or.inr rfl, told_cleaned ?_⟩
    · exact List.forall_mem_singleton.mpr (told_header h hdir h.bareName (Or.inl rfl))
    · exact List.forall_mem_singleton.mpr ⟨rfl, fun _ => by simp [libraryLists]⟩
    · exact List.forall_mem_singleton.mpr (hmock _ h.bareName).1
    · exact List.forall_mem_singleton.mpr fun hlib => absurd hlib Bool.false_ne_true
    · exact hflags
    · simp [Entry.isLib]
    · exact List.forall_mem_singleton.mpr (told_lib (by decide))
    · rw [List.forall_mem_cons, List.forall_mem_singleton]
      exact ⟨⟨(hmock _ hlibrary).1, rfl⟩, (hmock _ hlibrary).2, rfl⟩

theorem moduleParts_told (h : BareModule mod) : ∀ part ∈ moduleParts mod, ToldPart part := by
  have htests : ∀ part ∈ renderTests mod, ToldPart part := by
    intro part hpart
    rw [renderTests] at hpart
    cases hprogram : mod.isProgram with
    | true =>
      rw [if_pos hprogram] at hpart
      exact absurd hpart List.not_mem_nil
    | false =>
      have lib := h.library hprogram
      obtain ⟨hlibrary, htests⟩ := h.bareLibrary hprogram
      rw [hprogram, if_neg Bool.false_ne_true] at hpart
      obtain ⟨base, hbase, hpart⟩ := List.mem_flatMap.mp hpart
      obtain ⟨test, htest, rfl⟩ := List.mem_map.mp hbase
      exact renderTest_told h lib hlibrary (htests test htest) (lib.tests test htest).2
        (h.testHead test htest) part hpart
  rw [moduleParts, List.forall_mem_append, List.forall_mem_append]
  refine ⟨⟨?_, renderMock_told h⟩, htests⟩
  rw [List.forall_mem_cons, List.forall_mem_cons, List.forall_mem_cons, List.forall_mem_singleton]
  refine ⟨trivial, ?_, told_var ?_ ?_, told_var ?_ ?_⟩
  · split
    · exact told_products (by simp [productLists])
        (List.forall_mem_singleton.mpr ⟨rfl, fun hlib => absurd hlib Bool.false_ne_true⟩)
    · exact told_products (by simp [productLists, libraryLists])
        (List.forall_mem_singleton.mpr ⟨rfl, fun _ => by simp [libraryLists]⟩)
  · exact List.forall_mem_map.mpr fun src hsrc => told_sourceFile h hsrc
  · exact List.forall_mem_map.mpr fun src _ hlib => absurd hlib Bool.false_ne_true
  · exact List.forall_mem_map.mpr fun d hd => told_lib (h.deps d hd)
  · intro e _ _
    cases mod.isProgram
    · exact Or.inr rfl
    · exact Or.inl rfl

theorem heading_quiet (h : PlainModule mod) : QuietPart (.text ("### " ++ mod.name ++ "\n")) := by
  have hinline := inline_ordinary h.name
  have hread : read ("### " ++ mod.name ++ "\n").toList = [] := by
    rw [String.toList_append, String.toList_append]
    refine read_comment rfl ?_ ?_
    · exact fun hmem => (List.mem_append.mp hmem).elim (by decide) hinline.line
    · exact fun hmem => (List.mem_append.mp hmem).elim (by decide) hinline.continued
  rw [QuietPart, QuietText, hread]
  exact fun stmt hstmt => absurd hstmt List.not_mem_nil

theorem renderTests_quiet : ∀ part ∈ renderTests mod, QuietPart part := by
  intro part hpart
  rw [renderTests] at hpart
  split at hpart
  · exact absurd hpart List.not_mem_nil
  · obtain ⟨base, -, hpart⟩ := List.mem_flatMap.mp hpart
    simp only [renderTest, List.mem_cons, List.not_mem_nil, or_false] at hpart
    rcases hpart with rfl | rfl | rfl | rfl | rfl | rfl | rfl | rfl
    · trivial
    · exact runnerCmds_quiet
    all_goals trivial

theorem renderMock_quiet : ∀ part ∈ renderMock mod, QuietPart part := by
  intro part hpart
  rw [renderMock] at hpart
  split at hpart
  · exact absurd hpart List.not_mem_nil
  · simp only [List.mem_cons, List.not_mem_nil, or_false] at hpart
    rcases hpart with rfl | rfl | rfl | rfl | rfl | rfl
    · exact mockCmds_quiet
    all_goals trivial

theorem moduleParts_quiet (h : PlainModule mod) : ∀ part ∈ moduleParts mod, QuietPart part := by
  rw [moduleParts, List.forall_mem_append, List.forall_mem_append]
  refine ⟨⟨?_, renderMock_quiet⟩, renderTests_quiet⟩
  rw [List.forall_mem_cons, List.forall_mem_cons, List.forall_mem_cons, List.forall_mem_singleton]
  refine ⟨heading_quiet h, ?_, trivial, trivial⟩
  split <;> trivial

end Modules

end M65Tool.Guarantees.MakefileWords
