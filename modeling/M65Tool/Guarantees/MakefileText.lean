import M65Tool.Guarantees.MakefileClosed
import M65Tool.Lib.MakeText
import M65Tool.Source.MakefileText

/-!
# MAKEFILE-TEXT: the generated makefile is read back

The text that is written to Makefile.am has the statements of the parts that were rendered,
in their order, if the names in the tree have no character that a makefile gives a meaning.
What a module.mk or project.mk holds stands between them and changes none of them.
-/
namespace M65Tool.Guarantees.MakefileText
open Source.Makemake Lib.MakeText Lib.Splitting Lib.Effect MakefileParts MakefileClosed

/-! ## The statements of the parts -/

def Ordinary (s : String) : Prop := ∀ c ∈ s.toList, isOrdinary c = true

def entryWords (entries : List Entry) : List (List Char) :=
  entries.flatMap fun e => words isBlank e.text.toList

def partStmts : Part → List Stmt
  | .text text => read text.toList
  | .listvar name vals isConcat =>
    if vals = [] ∧ isConcat then [] else [.assign name.text.toList (entryWords vals) isConcat]
  | .rule targets prerequisites commands =>
    .rule (entryWords targets) (entryWords prerequisites) :: read commands.toList
  | .depends target prerequisites => [.rule (entryWords [target]) (entryWords prerequisites)]

/-- A part that no name in it breaks up. -/
def PlainPart : Part → Prop
  | .text text => Ended text.toList
  | .listvar name vals _ => Ordinary name.text ∧ ∀ e ∈ vals, Inline e.text.toList
  | .rule targets prerequisites commands => (∀ e ∈ targets, Ordinary e.text) ∧
      (∀ e ∈ prerequisites, Inline e.text.toList) ∧ Ended commands.toList
  | .depends target prerequisites => Ordinary target.text ∧ prerequisites ≠ [] ∧
      ∀ e ∈ prerequisites, Inline e.text.toList

section Parts
variable {part : Part}

/-- The values behind the operator of a list variable. -/
def valuesText : List (List Char) → List Char
  | [] => []
  | [val] => ' ' :: val
  | val :: next :: rest => listed (val :: next :: rest)

theorem holds_valuesText {vals : List (List Char)} (h : ∀ val ∈ vals, Inline val) :
    Holds (valuesText vals) vals := by
  match vals with
  | [] => exact .nil
  | [val] => exact .inline (h val List.mem_cons_self)
  | _ :: _ :: _ => exact .listed h

theorem joined_toList (sep : String) (texts : List String) :
    (joined sep texts).toList = sep.toList.intercalate (texts.map String.toList) :=
  String.toList_intercalate

theorem renderListvar_toList (name : String) {vals : List String} {isConcat : Bool}
    (h : ¬ (vals = [] ∧ isConcat = true)) :
    (renderListvar name vals isConcat).toList = name.toList ++ [' '] ++
      (if isConcat then ['+'] else []) ++ '=' :: valuesText (vals.map String.toList) ++ ['\n'] := by
  rw [renderListvar, if_neg (by simpa using h)]
  match vals with
  | [] =>
    have hconcat : isConcat = false := by simpa using h
    subst hconcat
    simp [valuesText]
  | [val] =>
    cases isConcat <;> simp [valuesText]
  | val :: next :: rest =>
    rw [List.map_cons, List.map_cons, valuesText, ← listed_eq (by simp)]
    cases isConcat <;> simp [joined_toList]

theorem entries_inline {vals : List Entry} (h : ∀ e ∈ vals, Inline e.text.toList) :
    ∀ val ∈ (vals.map Entry.text).map String.toList, Inline val := by
  intro val hval
  rw [List.map_map] at hval
  obtain ⟨e, he, rfl⟩ := List.mem_map.mp hval
  exact h e he

theorem flatMap_words (vals : List Entry) :
    ((vals.map Entry.text).map String.toList).flatMap (words isBlank) = entryWords vals := by
  rw [List.map_map, List.flatMap_map]
  rfl

theorem read_listvar {name : Var} {vals : List Entry} {isConcat : Bool}
    (hname : Ordinary name.text) (hvals : ∀ e ∈ vals, Inline e.text.toList) :
    Ended (Part.listvar name vals isConcat).toText.toList ∧
      read (Part.listvar name vals isConcat).toText.toList =
        partStmts (.listvar name vals isConcat) := by
  have hholds := holds_valuesText (entries_inline hvals)
  rw [Part.toText, partStmts]
  by_cases hempty : vals = [] ∧ isConcat = true
  · obtain ⟨rfl, rfl⟩ := hempty
    exact ⟨Or.inl rfl, rfl⟩
  · rw [if_neg hempty, renderListvar_toList name.text (by simpa using hempty)]
    rw [← flatMap_words]
    cases isConcat with
    | false =>
      rw [if_neg Bool.false_ne_true, List.append_nil]
      exact ⟨hholds.ended rfl, read_assign hname hholds⟩
    | true =>
      rw [if_pos rfl]
      exact ⟨hholds.ended rfl, read_add hname hholds⟩

theorem spaced_toList (entries : List Entry) : (joined " " (entries.map Entry.text)).toList =
    [' '].intercalate ((entries.map Entry.text).map String.toList) :=
  joined_toList " " (entries.map Entry.text)

theorem words_spaced (entries : List Entry) :
    words isBlank ([' '].intercalate ((entries.map Entry.text).map String.toList)) =
      entryWords entries := by
  rw [words_intercalate, flatMap_words]

theorem entries_head {entries : List Entry} (h : ∀ e ∈ entries, Ordinary e.text) :
    IsHead ([' '].intercalate ((entries.map Entry.text).map String.toList)) := by
  refine isHead_intercalate fun val hval => ?_
  rw [List.map_map] at hval
  obtain ⟨e, he, rfl⟩ := List.mem_map.mp hval
  exact h e he

theorem read_ruleLine {targets prerequisites : List Entry} {commands : String}
    (h : PlainPart (.rule targets prerequisites commands)) :
    Ended (Part.rule targets prerequisites commands).toText.toList ∧
      read (Part.rule targets prerequisites commands).toText.toList =
        partStmts (.rule targets prerequisites commands) := by
  obtain ⟨htargets, hprerequisites, hcommands⟩ := h
  have hholds := Holds.inline (inline_intercalate (entries_inline hprerequisites))
  have htext : (Part.rule targets prerequisites commands).toText.toList =
      [' '].intercalate ((targets.map Entry.text).map String.toList) ++
        ':' :: ' ' :: [' '].intercalate ((prerequisites.map Entry.text).map String.toList) ++
        ['\n'] ++ commands.toList := by
    rw [Part.toText, String.toList_append, String.toList_append, String.toList_append,
      String.toList_append, spaced_toList, spaced_toList]
    simp
  have hended : Ended ([' '].intercalate ((targets.map Entry.text).map String.toList) ++
      ':' :: ' ' :: [' '].intercalate ((prerequisites.map Entry.text).map String.toList) ++
      ['\n']) := hholds.ended rfl
  rw [htext, read_append hended, read_rule (entries_head htargets) hholds, words_spaced,
    List.flatMap_singleton, words_spaced]
  exact ⟨hended.append hcommands, rfl⟩

theorem read_depends {target : Entry} {prerequisites : List Entry}
    (h : PlainPart (.depends target prerequisites)) :
    Ended (Part.depends target prerequisites).toText.toList ∧
      read (Part.depends target prerequisites).toText.toList =
        partStmts (.depends target prerequisites) := by
  obtain ⟨htarget, hne, hprerequisites⟩ := h
  have hholds := Holds.listed (entries_inline hprerequisites)
  have htext : (Part.depends target prerequisites).toText.toList = target.text.toList ++
      ':' :: listed ((prerequisites.map Entry.text).map String.toList) ++ ['\n'] := by
    rw [Part.toText, ← listed_eq (by simpa using hne)]
    simp [joined_toList]
  rw [htext, read_rule (isHead_name htarget) hholds, flatMap_words]
  exact ⟨hholds.ended rfl, by rw [partStmts, entryWords, entryWords, List.flatMap_singleton]⟩

theorem read_part (h : PlainPart part) :
    Ended part.toText.toList ∧ read part.toText.toList = partStmts part := by
  cases part with
  | text text => exact ⟨h, rfl⟩
  | listvar name vals isConcat => exact read_listvar h.1 h.2
  | rule targets prerequisites commands => exact read_ruleLine h
  | depends target prerequisites => exact read_depends h

end Parts

instance (s : String) : Decidable (Ordinary s) := List.decidableBAll _ s.toList

instance (part : Part) : Decidable (PlainPart part) :=
  match part with
  | .text _ => inferInstanceAs (Decidable (Ended _))
  | .listvar .. => inferInstanceAs (Decidable (_ ∧ _))
  | .rule .. => inferInstanceAs (Decidable (_ ∧ _ ∧ _))
  | .depends .. => inferInstanceAs (Decidable (_ ∧ _ ∧ _))

/-! ## The fixed parts -/

section Literals
variable {text : List Char}

theorem ended_literal (h : Ended text) : Ended (String.ofList text).toList := by
  rwa [String.toList_ofList]

theorem ordinary_literal (h : text.all isOrdinary = true) : Ordinary (String.ofList text) := by
  rw [Ordinary, String.toList_ofList]
  exact List.all_eq_true.mp h

theorem inline_literal (h : Inline text) :
    Inline (Entry.plain (String.ofList text)).text.toList := by
  change Inline (String.ofList text).toList
  rwa [String.toList_ofList]

/-- A text that is written in several lines. -/
theorem append_literal {s : String} {before : List Char} (h : s.toList = before)
    (text : List Char) : (s ++ String.ofList text).toList = before ++ text := by
  rw [String.toList_append, h, String.toList_ofList]

end Literals

theorem runnerCmds_ended : Ended runnerGenerationCmds.toList := by
  delta runnerGenerationCmds
  refine (congrArg Ended (append_literal (append_literal String.toList_ofList _) _)).mpr ?_
  decide

theorem mockCmds_ended : Ended mockGenerationCmds.toList := by
  delta mockGenerationCmds
  refine (congrArg Ended (append_literal (append_literal (append_literal (append_literal
    String.toList_ofList _) _) _) _)).mpr ?_
  decide

/-! ## The names in the parts of a module -/

/-- All that the parts of a library's mock and tests are named after. -/
structure PlainLibrary (mod : Module) : Prop where
  library : Ordinary (formatted mod.library)
  sourceDir : Ordinary mod.sourceDir
  tests : ∀ test ∈ mod.tests, Ordinary test ∧ Ordinary mod.testsDir

/-- All that a module's parts are named after. -/
structure PlainModule (mod : Module) : Prop where
  name : Ordinary mod.name
  deps : ∀ d ∈ mod.deps, Ordinary d
  sources : ∀ src ∈ mod.sources, Ordinary (pathJoin mod.sourceDir src)
  program : Ordinary (formatted mod.program)
  library : mod.isProgram = false → PlainLibrary mod

section Names
variable {a b : String} {mod : Module}

theorem ordinary_append (ha : Ordinary a) (hb : Ordinary b) : Ordinary (a ++ b) := by
  intro c hc
  rw [String.toList_append, List.mem_append] at hc
  exact hc.elim (ha c) (hb c)

/-- A name between two other texts. -/
theorem ordinary_pasted {start ending : String} (hstart : Ordinary start) (ha : Ordinary a)
    (hending : Ordinary ending) : Ordinary (start ++ a ++ ending) :=
  ordinary_append (ordinary_append hstart ha) hending

theorem ordinary_sub (ha : Ordinary a) (h : ∀ c ∈ b.toList, c ∈ a.toList) : Ordinary b :=
  fun c hc => ha c (h c hc)

theorem ordinary_withoutDot (ha : Ordinary a) : Ordinary (withoutDot a) := by
  unfold withoutDot
  split
  · refine ordinary_sub ha fun c hc => ?_
    rw [String.toList_ofList] at hc
    exact List.mem_of_mem_drop hc
  · exact ha

theorem ordinary_pathJoin (ha : Ordinary a) (hb : Ordinary b) : Ordinary (pathJoin a b) := by
  unfold pathJoin
  split
  · exact hb
  · split
    · exact ordinary_append ha hb
    · exact ordinary_pasted ha (ordinary_literal (by decide)) hb

theorem ordinary_testBase (ha : Ordinary a) : Ordinary (testBase a) := by
  refine ordinary_sub ha fun c hc => ?_
  rw [testBase, String.toList_ofList] at hc
  exact List.dropLast_subset _ (List.dropLast_subset _ hc)

/-- The names that an entry is made of. -/
def entryNames : Entry → List String
  | .plain text => [text]
  | .lib name | .mockC name | .mockH name => [name]
  | .runner base | .runnerC base => [base]
  | .object testsDir base => [testsDir, base]

theorem ordinary_entry {e : Entry} (h : ∀ s ∈ entryNames e, Ordinary s) : Ordinary e.text := by
  have hfirst : ∀ s rest, entryNames e = s :: rest → Ordinary s := fun s rest heq =>
    h s (heq ▸ List.mem_cons_self)
  cases e with
  | plain text => exact hfirst text [] rfl
  | lib name | mockC name | mockH name | runnerC name =>
    exact ordinary_pasted (ordinary_literal (by decide)) (hfirst name [] rfl)
      (ordinary_literal (by decide))
  | runner base => exact ordinary_append (ordinary_literal (by decide)) (hfirst base [] rfl)
  | object testsDir base =>
    have hbase : Ordinary base := h base (List.mem_cons_of_mem _ List.mem_cons_self)
    have hdir : Ordinary testsDir := hfirst testsDir [base] rfl
    refine ordinary_withoutDot (ordinary_pasted ?_ hbase (ordinary_literal (by decide)))
    exact ordinary_append (ordinary_pasted hdir (ordinary_literal (by decide)) hbase)
      (ordinary_literal (by decide))

def stemName : Stem → String
  | .program name | .lib name | .nodistLib name => name
  | .runner base | .nodistRunner base => base

theorem ordinary_var {stem : Stem} (kind : VarKind) (h : Ordinary (stemName stem)) :
    Ordinary (Var.of stem kind).text := by
  have hkind : Ordinary kind.text := by
    cases kind <;> exact ordinary_literal (by decide)
  refine ordinary_append ?_ hkind
  cases stem with
  | program name => exact h
  | lib name | nodistLib name =>
    exact ordinary_pasted (ordinary_literal (by decide)) h (ordinary_literal (by decide))
  | runner base | nodistRunner base => exact ordinary_append (ordinary_literal (by decide)) h

theorem entries_ordinary {entries : List Entry}
    (h : ∀ e ∈ entries, ∀ s ∈ entryNames e, Ordinary s) : ∀ e ∈ entries, Ordinary e.text :=
  fun e he => ordinary_entry (h e he)

theorem entries_plain {entries : List Entry}
    (h : ∀ e ∈ entries, ∀ s ∈ entryNames e, Ordinary s) : ∀ e ∈ entries, Inline e.text.toList :=
  fun e he => inline_ordinary (entries_ordinary h e he)

theorem plain_listvar {name : Var} {vals : List Entry} {isConcat : Bool}
    (hname : Ordinary name.text) (h : ∀ e ∈ vals, ∀ s ∈ entryNames e, Ordinary s) :
    PlainPart (.listvar name vals isConcat) := ⟨hname, entries_plain h⟩

theorem preamble_plain : ∀ part ∈ makefilePreamble, PlainPart part := by
  have hcmock : Ordinary "cmock" := by decide
  have hlib : Inline (Entry.lib "cmock").text.toList :=
    inline_ordinary (ordinary_entry (List.forall_mem_singleton.mpr hcmock))
  have hvar : ∀ kind, Ordinary (Var.of (.lib "cmock") kind).text := fun kind =>
    ordinary_var kind hcmock
  simp only [makefilePreamble, PlainPart, List.forall_mem_cons, List.not_mem_nil,
    IsEmpty.forall_iff, implies_true, and_true, true_and, hlib, hvar]
  repeat' apply And.intro
  all_goals first
    | exact ended_literal (by decide)
    | exact ordinary_literal (by decide)
    | exact inline_literal (by decide)

theorem postable_plain : ∀ part ∈ makefilePostable, PlainPart part := by
  simp only [makefilePostable, PlainPart, List.forall_mem_cons, List.not_mem_nil,
    IsEmpty.forall_iff, implies_true, and_true]
  repeat' apply And.intro
  all_goals first
    | exact ended_literal (by decide)
    | exact ordinary_literal (by decide)
    | exact inline_literal (by decide)

theorem renderTest_plain (h : PlainModule mod) (lib : PlainLibrary mod) {base : String}
    (hbase : Ordinary base) (hdir : Ordinary mod.testsDir) :
    ∀ part ∈ renderTest mod base, PlainPart part := by
  have hsrc : Ordinary (mod.testsDir ++ "/" ++ base ++ ".c") :=
    ordinary_append (ordinary_pasted hdir (ordinary_literal (by decide)) hbase)
      (ordinary_literal (by decide))
  have hheader : Ordinary (mod.sourceDir ++ "/" ++ formatted mod.library ++ ".h") :=
    ordinary_append (ordinary_pasted lib.sourceDir (ordinary_literal (by decide)) lib.library)
      (ordinary_literal (by decide))
  have hinclude : ∀ d ∈ mod.deps, Ordinary ("-I$(top_srcdir)/src/" ++ d) := fun d hd =>
    ordinary_append (ordinary_literal (by decide)) (h.deps d hd)
  have hflags : Ordinary "$(CMOCK_CPPFLAGS)" ∧ Ordinary "$(AM_CPPFLAGS)" :=
        ⟨ordinary_literal (by decide), ordinary_literal (by decide)⟩
  have hbuilt : ∀ e ∈ [Entry.runnerC base] ++ mod.deps.map .mockC ++ mod.deps.map .mockH,
      ∀ s ∈ entryNames e, Ordinary s := by
    simpa [or_imp, forall_and, entryNames, hbase] using h.deps
  have hlibs : ∀ e ∈ [Entry.lib "cmock", .lib (formatted mod.library)] ++ mod.deps.map .mockLib,
      ∀ s ∈ entryNames e, Ordinary s := by
    have hcmock : Ordinary "cmock" := by decide
    have hmocks : ∀ d ∈ mod.deps, Ordinary (d ++ "_mock") := fun d hd =>
      ordinary_append (h.deps d hd) (ordinary_literal (by decide))
    simpa [or_imp, forall_and, entryNames, Entry.mockLib, hcmock, lib.library] using hmocks
  unfold renderTest
  simp only [List.forall_mem_cons, List.not_mem_nil, false_imp_iff, implies_true, and_true]
  refine ⟨plain_listvar (ordinary_literal (by decide)) ?_, ⟨?_, ?_, runnerCmds_ended⟩,
    plain_listvar (ordinary_var .sources hbase) ?_,
    plain_listvar (ordinary_var .sources hbase) hbuilt, ⟨?_, ?_, ?_⟩,
    plain_listvar (ordinary_literal (by decide)) ?_,
    plain_listvar (ordinary_var .ldadd hbase) hlibs,
    plain_listvar (ordinary_var .cppflags hbase) ?_⟩
  · simp [entryNames, hbase]
  · exact entries_ordinary (by simp [entryNames, hbase])
  · exact entries_plain (by simp [entryNames, hsrc])
  · simp [entryNames, ordinary_withoutDot hsrc, ordinary_withoutDot hheader]
  · exact ordinary_entry (by simp [entryNames, hbase, hdir])
  · simp
  · exact entries_plain (List.forall_mem_append.mpr ⟨hbuilt, hlibs⟩)
  · simp [entryNames, hbase]
  · simpa [or_imp, forall_and, entryNames, hflags] using hinclude

theorem renderMock_plain (h : PlainModule mod) : ∀ part ∈ renderMock mod, PlainPart part := by
  unfold renderMock
  cases hprogram : mod.isProgram with
  | true => exact fun part hpart => absurd hpart List.not_mem_nil
  | false =>
    have lib := h.library hprogram
    have hmock : Ordinary (formatted mod.library ++ "_mock") :=
      ordinary_append lib.library (ordinary_literal (by decide))
    have hheader : Ordinary (mod.sourceDir ++ "/" ++ mod.name ++ ".h") :=
      ordinary_append (ordinary_pasted lib.sourceDir (ordinary_literal (by decide)) h.name)
        (ordinary_literal (by decide))
    have hinclude : Ordinary ("-I$(top_srcdir)/src/" ++ mod.name) :=
      ordinary_append (ordinary_literal (by decide)) h.name
    rw [if_neg Bool.false_ne_true]
    simp only [List.forall_mem_cons, List.not_mem_nil, false_imp_iff, implies_true, and_true]
    refine ⟨⟨?_, ?_, mockCmds_ended⟩, plain_listvar (ordinary_literal (by decide)) ?_,
      plain_listvar (ordinary_var .sources hmock) ?_,
      plain_listvar (ordinary_var .cppflags hmock) ?_,
      plain_listvar (ordinary_var .libadd hmock) ?_,
      plain_listvar (ordinary_literal (by decide)) ?_⟩
    · exact entries_ordinary (by simp [entryNames, h.name])
    · exact entries_plain (by simp [entryNames, hheader])
    · simp [entryNames, Entry.mockLib, hmock]
    · simp [entryNames, h.name]
    · have hflags : Ordinary "$(CMOCK_CPPFLAGS)" ∧ Ordinary "$(AM_CPPFLAGS)" :=
        ⟨ordinary_literal (by decide), ordinary_literal (by decide)⟩
      simp [entryNames, hflags, hinclude]
    · have hcmock : Ordinary "cmock" := by decide
      simp [entryNames, hcmock]
    · simp [entryNames, lib.library]

theorem moduleParts_plain (h : PlainModule mod) : ∀ part ∈ moduleParts mod, PlainPart part := by
  have htests : ∀ part ∈ renderTests mod, PlainPart part := by
    intro part hpart
    rw [renderTests] at hpart
    cases hprogram : mod.isProgram with
    | true =>
      rw [if_pos hprogram] at hpart
      exact absurd hpart List.not_mem_nil
    | false =>
      have lib := h.library hprogram
      rw [hprogram, if_neg Bool.false_ne_true] at hpart
      obtain ⟨base, hbase, hpart⟩ := List.mem_flatMap.mp hpart
      obtain ⟨test, htest, rfl⟩ := List.mem_map.mp hbase
      obtain ⟨hord, hdir⟩ := lib.tests test htest
      exact renderTest_plain h lib (ordinary_testBase hord) hdir part hpart
  rw [moduleParts, List.forall_mem_append, List.forall_mem_append]
  refine ⟨⟨?_, renderMock_plain h⟩, htests⟩
  rw [List.forall_mem_cons, List.forall_mem_cons, List.forall_mem_cons, List.forall_mem_singleton]
  have hstem : Ordinary (stemName (if mod.isProgram then .program (formatted mod.program)
      else .lib (formatted mod.library))) := by
    cases hprogram : mod.isProgram with
    | true => exact h.program
    | false => exact (h.library hprogram).library
  refine ⟨?_, ?_, plain_listvar (ordinary_var .sources hstem) ?_,
    plain_listvar (ordinary_var _ hstem) ?_⟩
  · have hplain : '\\' ∉ ("### " ++ mod.name).toList := by
      rw [String.toList_append, List.mem_append, not_or]
      exact ⟨by decide, (inline_ordinary h.name).continued⟩
    rw [PlainPart, String.toList_append]
    exact ended_line fun hlast => hplain (List.mem_of_getLast? hlast)
  · cases hprogram : mod.isProgram with
    | true => exact plain_listvar (ordinary_literal (by decide)) (by simp [entryNames, h.program])
    | false =>
      have hlibrary := (h.library hprogram).library
      exact plain_listvar (ordinary_literal (by decide)) (by simp [entryNames, hlibrary])
  · simpa [entryNames] using h.sources
  · simpa [entryNames] using h.deps

end Names

/-! ## The text of a makefile -/

/-- What a module.mk comes to; the text of its module ends its last line. -/
def moduleMkStmts (text : Option String) : List Stmt := read ((text.getD "").toList ++ ['\n'])

def projectMkStmts (text : Option String) : List Stmt := read (text.getD "").toList

def moduleStmts (fragments : Fragments) (mod : Module) : List Stmt :=
  (moduleParts mod).flatMap partStmts ++ moduleMkStmts (fragments.moduleMk mod.sourceDir)

def makefileStmts (fragments : Fragments) (mods : List Module) : List Stmt :=
  makefilePreamble.flatMap partStmts ++ mods.flatMap (moduleStmts fragments) ++
    makefilePostable.flatMap partStmts ++ projectMkStmts fragments.projectMk

section Text
variable {fragments : Fragments} {mods : List Module}

theorem joinParts_toList (texts : List String) : (Makefile.joinParts texts).toList =
    ['\n'].intercalate ((texts.filter (· != "")).map String.toList) :=
  joined_toList "\n" (texts.filter (· != ""))

theorem read_nonempty (texts : List String) :
    ((texts.filter (· != "")).map String.toList).flatMap read =
      texts.flatMap fun t => read t.toList := by
  rw [List.flatMap_map]
  refine filter_flatMap_of_nil fun t _ hempty => ?_
  obtain rfl : t = "" := by simpa using hempty
  rfl

/-- Of the texts that are joined only the last may stop where its line goes on. -/
theorem read_joinParts {texts : List String} {rest : List Char}
    (h : ∀ t ∈ texts, t.toList.getLast? ≠ some '\\') (last : Option String)
    (hrest : rest = [] ∨ rest.head? = some '\n') :
    read ((Makefile.joinParts (texts ++ last.toList)).toList ++ rest) =
      texts.flatMap (fun t => read t.toList) ++ read ((last.getD "").toList ++ rest) := by
  have hkept : ∀ t ∈ (texts.filter (· != "")).map String.toList, t.getLast? ≠ some '\\' := by
    intro t ht
    obtain ⟨s, hs, rfl⟩ := List.mem_map.mp ht
    exact h s (List.mem_of_mem_filter hs)
  rw [joinParts_toList, List.filter_append, List.map_append, ← read_nonempty]
  by_cases hlast : last.getD "" = ""
  · have hnone : last.toList.filter (· != "") = [] := by
      cases last with
      | none => rfl
      | some t =>
        obtain rfl : t = "" := hlast
        rfl
    rw [hnone, List.map_nil, List.append_nil, hlast, read_intercalate_all hkept hrest]
    rfl
  · have hsome : last.toList.filter (· != "") = [last.getD ""] := by
      cases last with
      | none => exact absurd rfl hlast
      | some t => exact List.filter_cons_of_pos (by simpa using hlast)
    rw [hsome, List.map_singleton, read_intercalate hkept]

/-- The text of a module's section. -/
def moduleText (fragments : Fragments) (mod : Module) : String :=
  Makefile.joinParts ((moduleParts mod).map Part.toText ++
    (fragments.moduleMk mod.sourceDir).toList) ++ "\n"

theorem parts_last {parts : List Part} (h : ∀ part ∈ parts, PlainPart part) :
    ∀ t ∈ parts.map Part.toText, t.toList.getLast? ≠ some '\\' := by
  intro t ht
  obtain ⟨part, hpart, rfl⟩ := List.mem_map.mp ht
  exact (read_part (h part hpart)).1.last_ne

theorem read_parts {parts : List Part} (h : ∀ part ∈ parts, PlainPart part) :
    (parts.map Part.toText).flatMap (fun t => read t.toList) = parts.flatMap partStmts := by
  rw [List.flatMap_map]
  refine List.flatMap_congr fun part hpart => (read_part (h part hpart)).2

theorem read_moduleText {mod : Module} (h : PlainModule mod) :
    (moduleText fragments mod).toList.getLast? ≠ some '\\' ∧
      read (moduleText fragments mod).toList = moduleStmts fragments mod := by
  have hparts := moduleParts_plain h
  rw [moduleText, String.toList_append]
  constructor
  · intro hlast
    have hend := hlast.symm.trans List.getLast?_concat
    exact absurd (Option.some.inj hend) (by decide)
  · rw [read_joinParts (parts_last hparts) _ (Or.inr rfl), read_parts hparts]
    rfl

theorem renderModuleText_iff {mod : Module} {text : String} :
    renderModuleText fragments mod = .ok text ↔
      (mod.isProgram = true ∨ mod.library ≠ none) ∧ text = moduleText fragments mod := by
  constructor
  · intro h
    obtain ⟨parts, hparts, h⟩ := except_bind_ok h
    obtain ⟨hnamed, rfl⟩ := renderModule_iff.mp hparts
    cases h
    exact ⟨hnamed, rfl⟩
  · rintro ⟨hnamed, rfl⟩
    rw [renderModuleText, renderModule_eq hnamed]
    rfl

/-- The texts come out exactly if every library has a name. -/
theorem renderModuleTexts_iff {texts : List String} :
    renderModuleTexts fragments mods = .ok texts ↔
      (∀ mod ∈ libraryModules mods, mod.library ≠ none) ∧
        texts = mods.map (moduleText fragments) := by
  induction mods generalizing texts with
  | nil =>
    constructor
    · intro h
      cases h
      exact ⟨fun _ hmem => absurd hmem List.not_mem_nil, rfl⟩
    · rintro ⟨-, rfl⟩
      rfl
  | cons mod mods ih =>
    rw [named_cons]
    constructor
    · intro h
      obtain ⟨text, htext, h⟩ := except_bind_ok h
      obtain ⟨others, hothers, h⟩ := except_bind_ok h
      obtain ⟨hmod, rfl⟩ := renderModuleText_iff.mp htext
      obtain ⟨hnamed, rfl⟩ := ih.mp hothers
      cases h
      exact ⟨⟨hmod, hnamed⟩, rfl⟩
    · rintro ⟨⟨hmod, hnamed⟩, rfl⟩
      rw [renderModuleTexts, renderModuleText_iff.mpr ⟨hmod, rfl⟩, ih.mpr ⟨hnamed, rfl⟩]
      rfl

theorem joined_parts (parts : List Part) : (joined "" (parts.map Part.toText)).toList =
    parts.flatMap fun part => part.toText.toList := by
  rw [joined_toList, List.map_map]
  induction parts with
  | nil => rfl
  | cons part parts ih =>
    cases parts with
    | nil => rw [List.map_singleton, List.intercalate_singleton, List.flatMap_singleton]; rfl
    | cons next parts =>
      rw [List.map_cons, List.intercalate_cons_of_ne_nil (by simp), ih, List.flatMap_cons]
      exact congrArg (· ++ _) (List.append_nil _)

/-- The text that is the same in all makefiles. -/
theorem read_fixed {parts : List Part} (h : ∀ part ∈ parts, PlainPart part) :
    (joined "" (parts.map Part.toText)).toList.getLast? ≠ some '\\' ∧
      read (joined "" (parts.map Part.toText)).toList = parts.flatMap partStmts := by
  have hended : ∀ part ∈ parts, Ended part.toText.toList := fun part hpart =>
    (read_part (h part hpart)).1
  rw [joined_parts, read_flatMap hended]
  exact ⟨(ended_flatMap hended).last_ne,
    List.flatMap_congr fun part hpart => (read_part (h part hpart)).2⟩

/-- Every library of the configurations has a name. -/
def Named (mods : List Module) : Prop := ∀ mod ∈ libraryModules mods, mod.library ≠ none

theorem named_sorted : Named (sortedModules mods) ↔ Named mods := by
  have hperm : (libraryModules (sortedModules mods)).Perm (libraryModules mods) :=
    sortedModules_perm.filter _
  exact forall_congr' fun mod => by rw [hperm.mem_iff]

theorem renderMakefile_iff :
    (∃ text, renderMakefile fragments mods = .ok text) ↔ Named mods := by
  rw [← named_sorted]
  constructor
  · rintro ⟨text, h⟩
    obtain ⟨texts, htexts, -⟩ := except_bind_ok h
    exact (renderModuleTexts_iff.mp htexts).1
  · intro hnamed
    rw [renderMakefile, renderModuleTexts_iff.mpr ⟨hnamed, rfl⟩]
    exact ⟨_, rfl⟩

theorem read_makefileText {text : String} (h : renderMakefile fragments mods = .ok text)
    (plain : ∀ mod ∈ mods, PlainModule mod) :
    read text.toList = makefileStmts fragments (sortedModules mods) := by
  obtain ⟨texts, htexts, h⟩ := except_bind_ok h
  have hsorted : ∀ mod ∈ sortedModules mods, PlainModule mod := fun mod hmod =>
    plain mod (sortedModules_perm.mem_iff.mp hmod)
  obtain ⟨-, rfl⟩ := renderModuleTexts_iff.mp htexts
  obtain ⟨hpreamble, hreadPreamble⟩ := read_fixed preamble_plain
  obtain ⟨hpostable, hreadPostable⟩ := read_fixed postable_plain
  have hlast : ∀ t ∈ [joined "" (makefilePreamble.map Part.toText)] ++
      (sortedModules mods).map (moduleText fragments) ++
      [joined "" (makefilePostable.map Part.toText)], t.toList.getLast? ≠ some '\\' := by
    rw [List.forall_mem_append, List.forall_mem_append, List.forall_mem_singleton,
      List.forall_mem_singleton, List.forall_mem_map]
    exact ⟨⟨hpreamble, fun mod hmod => (read_moduleText (hsorted mod hmod)).1⟩, hpostable⟩
  have hread := read_joinParts hlast fragments.projectMk (Or.inl rfl)
  rw [List.append_nil, List.append_nil, List.flatMap_append, List.flatMap_append,
    List.flatMap_singleton, List.flatMap_singleton, hreadPreamble, hreadPostable,
    List.flatMap_map, List.flatMap_congr fun mod hmod => (read_moduleText (hsorted mod hmod)).2]
    at hread
  rw [← Except.ok.inj h, hread]
  rfl

end Text

/-! ## The trees -/

/-- No name in the tree or in its configurations has a character with a meaning. -/
structure PlainTree (tree : Tree) : Prop where
  rootDir : Ordinary tree.rootDir
  items : ∀ item ∈ tree.src, Ordinary item.name ∧ ∀ file ∈ item.items, Ordinary file
  configs : ∀ item ∈ tree.src, ∀ cfg, item.cfg = some (.parsed cfg) →
    Ordinary (formatted cfg.program) ∧ Ordinary (formatted cfg.library)
  tests : ∀ name items, tree.tests name = some items → ∀ item ∈ items, Ordinary item

section Trees
variable {tree : Tree} {mods : List Module}

theorem itemConfig_parsed {srcDir : String} {item : SrcItem} {found : SrcItem × Cfg}
    (h : itemConfig srcDir item = .ok (some found)) :
    found.1 = item ∧ item.cfg = some (.parsed found.2) := by
  unfold itemConfig at h
  split at h
  · cases h
  · cases h
  · rename_i hcfg
    split at h
    · cases h
    · cases h
      exact ⟨rfl, hcfg⟩

theorem getModuleConfig_parsed {srcDir : String} {items : List SrcItem}
    {found : List (SrcItem × Cfg)} (h : getModuleConfig srcDir items = .ok found) :
    ∀ pair ∈ found, pair.1 ∈ items ∧ pair.1.cfg = some (.parsed pair.2) := by
  induction items generalizing found with
  | nil =>
    cases h
    exact fun pair hpair => absurd hpair List.not_mem_nil
  | cons item items ih =>
    obtain ⟨first, hfirst, h⟩ := except_bind_ok h
    obtain ⟨others, hothers, h⟩ := except_bind_ok h
    cases h
    intro pair hpair
    rcases List.mem_append.mp hpair with hmem | hmem
    · obtain rfl := Option.mem_toList.mp hmem
      obtain ⟨rfl, hcfg⟩ := itemConfig_parsed hfirst
      exact ⟨List.mem_cons_self, hcfg⟩
    · obtain ⟨hitem, hcfg⟩ := ih hothers pair hmem
      exact ⟨List.mem_cons_of_mem item hitem, hcfg⟩

theorem checkDep_module {cfgpath dep : String} (h : checkDep mods cfgpath dep = .ok ()) :
    ∃ mod ∈ mods, mod.name = dep := by
  unfold checkDep at h
  split at h
  · cases h
  · rename_i mod hfind
    exact ⟨mod, List.mem_of_find?_eq_some hfind, by simpa using List.find?_some hfind⟩

theorem checkDeps_modules {cfgpath : String} {deps : List String}
    (h : checkDeps mods cfgpath deps = .ok ()) : ∀ d ∈ deps, ∃ mod ∈ mods, mod.name = d := by
  induction deps with
  | nil => exact fun d hd => absurd hd List.not_mem_nil
  | cons dep deps ih =>
    obtain ⟨_, hdep, h⟩ := except_bind_ok h
    intro d hd
    rcases List.mem_cons.mp hd with rfl | hd
    · exact checkDep_module hdep
    · exact ih h d hd

theorem accepted_plain (plain : PlainTree tree) (accepted : acceptedModules tree = .ok mods) :
    ∀ mod ∈ mods, PlainModule mod := by
  obtain ⟨found, hfound, hmods⟩ := except_bind_ok accepted
  obtain ⟨_, hdeps, hmods⟩ := except_bind_ok hmods
  obtain rfl : found.map (buildModule tree) = mods := Except.ok.inj hmods
  have hnames : ∀ mod ∈ found.map (buildModule tree), Ordinary mod.name := by
    intro mod hmod
    obtain ⟨pair, hpair, rfl⟩ := List.mem_map.mp hmod
    exact (plain.items _ (getModuleConfig_parsed hfound pair hpair).1).1
  intro mod hmod
  have hname := hnames mod hmod
  obtain ⟨pair, hpair, rfl⟩ := List.mem_map.mp hmod
  obtain ⟨hitem, hcfg⟩ := getModuleConfig_parsed hfound pair hpair
  obtain ⟨hprogram, hlibrary⟩ := plain.configs _ hitem _ hcfg
  have hsrcDir : Ordinary tree.srcDir :=
    ordinary_pathJoin plain.rootDir (ordinary_literal (by decide))
  have htestsDir : Ordinary tree.testsDir :=
    ordinary_pathJoin plain.rootDir (ordinary_literal (by decide))
  have hsourceDir := ordinary_pathJoin hsrcDir hname
  refine ⟨hname, fun d hd => ?_, fun src hsrc => ?_, hprogram, fun _ => ⟨hlibrary, hsourceDir,
    fun test htest => ⟨?_, ordinary_pathJoin htestsDir hname⟩⟩⟩
  · obtain ⟨mod', hmod', rfl⟩ := checkDeps_modules hdeps d (List.mem_flatMap.mpr ⟨_, hmod, hd⟩)
    exact hnames mod' hmod'
  · exact ordinary_pathJoin hsourceDir
      ((plain.items _ hitem).2 src (List.mem_of_mem_filter hsrc))
  · have htest : test ∈ (tree.tests pair.1.name).getD [] := List.mem_of_mem_filter htest
    cases htests : tree.tests pair.1.name with
    | none =>
      rw [htests] at htest
      cases htest
    | some items =>
      rw [htests] at htest
      exact plain.tests _ items htests test htest

end Trees

/-! ## Runs -/

/-- What a run writes to Makefile.am. -/
def written (run : Tree × Fragments) : Option String :=
  match acceptedModules run.1 with
  | .error _ => none
  | .ok mods => (renderMakefile run.2 mods).toOption

/-- One run after another, each on the tree as it is then. -/
def runs (outputs : Outputs) (history : List (Tree × Fragments)) : Outputs :=
  history.foldl (fun outputs run => (main run.1 run.2 outputs).2) outputs

section Runs
variable {history : List (Tree × Fragments)}

theorem main_outputs (run : Tree × Fragments) (outputs : Outputs) :
    (main run.1 run.2 outputs).2 = ((written run).map outputs.write).getD outputs := by
  unfold main written
  cases acceptedModules run.1 with
  | error error => rfl
  | ok mods =>
    dsimp only
    cases renderMakefile run.2 mods with
    | error error => rfl
    | ok text => rfl

theorem runs_outputs (history : List (Tree × Fragments)) : runs ⟨none, none⟩ history =
    ⟨(history.filterMap written).getLast?, (history.filterMap written).dropLast.getLast?⟩ := by
  induction history using List.reverseRecOn with
  | nil => rfl
  | append_singleton history run ih =>
    have hlast : runs ⟨none, none⟩ (history ++ [run]) =
        (main run.1 run.2 (runs ⟨none, none⟩ history)).2 := List.foldl_concat ..
    rw [hlast, main_outputs, ih, List.filterMap_append]
    cases hwritten : written run with
    | none => rw [List.filterMap_cons_none hwritten, List.filterMap_nil, List.append_nil]; rfl
    | some text =>
      rw [List.filterMap_cons_some hwritten, List.filterMap_nil, List.getLast?_concat,
        List.dropLast_concat]
      have hbackup : ∀ texts : List String,
          texts.getLast?.or texts.dropLast.getLast? = texts.getLast? := by
        intro texts
        cases hlast : texts.getLast? with
        | none => rw [List.getLast?_eq_none_iff.mp hlast]; rfl
        | some last => rfl
      exact congrArg (Outputs.mk (some text)) (hbackup _)

theorem written_iff {run : Tree × Fragments} {text : String} : written run = some text ↔
    ∃ mods, acceptedModules run.1 = .ok mods ∧ renderMakefile run.2 mods = .ok text := by
  unfold written
  cases haccepted : acceptedModules run.1 with
  | error error =>
    constructor
    · intro h
      cases h
    · rintro ⟨mods, h, -⟩
      cases h
  | ok mods =>
    dsimp only
    cases hrender : renderMakefile run.2 mods with
    | error error =>
      constructor
      · intro h
        cases h
      · rintro ⟨mods', hmods, h⟩
        rw [← Except.ok.inj hmods, hrender] at h
        cases h
    | ok text' =>
      constructor
      · intro h
        exact ⟨mods, rfl, by rw [hrender, Option.some.inj h]⟩
      · rintro ⟨mods', hmods, h⟩
        rw [← Except.ok.inj hmods, hrender] at h
        rw [Except.ok.inj h]
        rfl

/-- After any runs Makefile.am and Makefile.am~ have the last two texts that were written. A
run writes exactly if its tree is accepted and its libraries have names, and its text is
read back as the parts of the modules. -/
theorem runs_read_back (plain : ∀ run ∈ history, PlainTree run.1) :
    runs ⟨none, none⟩ history = ⟨(history.filterMap written).getLast?,
      (history.filterMap written).dropLast.getLast?⟩ ∧
    ∀ run ∈ history, ((written run).isSome = true ↔
        ∃ mods, acceptedModules run.1 = .ok mods ∧ Named mods) ∧
      ∀ text, written run = some text → ∃ mods, acceptedModules run.1 = .ok mods ∧
        read text.toList = makefileStmts run.2 (sortedModules mods) := by
  refine ⟨runs_outputs history, fun run hrun => ⟨?_, fun text htext => ?_⟩⟩
  · rw [Option.isSome_iff_exists]
    constructor
    · rintro ⟨text, htext⟩
      obtain ⟨mods, haccepted, hrender⟩ := written_iff.mp htext
      exact ⟨mods, haccepted, renderMakefile_iff.mp ⟨text, hrender⟩⟩
    · rintro ⟨mods, haccepted, hnamed⟩
      obtain ⟨text, hrender⟩ := renderMakefile_iff.mpr hnamed
      exact ⟨text, written_iff.mpr ⟨mods, haccepted, hrender⟩⟩
  · obtain ⟨mods, haccepted, hrender⟩ := written_iff.mp htext
    exact ⟨mods, haccepted, read_makefileText hrender (accepted_plain (plain run hrun) haccepted)⟩

end Runs

/-- Two of the rules that the repository's project.mk adds. -/
def sourceFragments : Fragments where
  moduleMk _ := none
  projectMk := some "clean-local: code-coverage-clean\ndistclean-local: code-coverage-dist-clean\n"

theorem sourceTree_plain : PlainTree sourceTree where
  rootDir := by decide
  items := by decide +kernel
  configs := by
    intro item hitem cfg hcfg
    simp only [sourceTree, List.mem_cons, List.not_mem_nil, or_false] at hitem
    rcases hitem with rfl | rfl
    · cases hcfg
      decide
    · cases hcfg
      decide
  tests := by
    intro name items htests
    rw [sourceTree] at htests
    dsimp only at htests
    split at htests
    · cases htests
      decide +kernel
    · cases htests

theorem runs_read_back_source : ∃ text,
    (runs ⟨none, none⟩ [(sourceTree, sourceFragments)]).makefile = some text ∧
      read text.toList = makefileStmts sourceFragments (sortedModules sourceModules) := by
  have plain : ∀ run ∈ [(sourceTree, sourceFragments)], PlainTree run.1 :=
    List.forall_mem_singleton.mpr sourceTree_plain
  obtain ⟨houtputs, hrun⟩ := runs_read_back plain
  obtain ⟨hwritten, hread⟩ := hrun _ List.mem_cons_self
  have haccepted : acceptedModules sourceTree = .ok sourceModules := by decide +kernel
  have hnamed : Named sourceModules := fun mod hmod => by
    revert mod
    decide +kernel
  obtain ⟨text, htext⟩ := Option.isSome_iff_exists.mp (hwritten.mpr ⟨_, haccepted, hnamed⟩)
  obtain ⟨mods, hmods, hstmts⟩ := hread text htext
  rw [Except.ok.inj (haccepted.symm.trans hmods)]
  refine ⟨text, ?_, hstmts⟩
  rw [houtputs, List.filterMap_cons_some htext]
  rfl

end M65Tool.Guarantees.MakefileText
