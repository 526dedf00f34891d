import M65Tool.Lib.Naming
import M65Tool.Source.Makemake

/-!
# The names in a makefile

The text of a library, of a mock, of a runner source and of a list variable says which it
is, and what it is named after.
-/
namespace M65Tool.Source.Makemake
open Lib.Naming

/-! ## Object files -/

section Objects
variable {path : String}

theorem startswith_iff {s start : String} :
    startswith s start = true ↔ ∃ rest, s = start ++ String.ofList rest := by
  unfold startswith
  rw [List.isPrefixOf_iff_prefix]
  constructor
  · rintro ⟨rest, hrest⟩
    refine ⟨rest, String.toList_inj.mp ?_⟩
    rw [String.toList_append, String.toList_ofList, hrest]
  · rintro ⟨rest, rfl⟩
    rw [String.toList_append]
    exact List.prefix_append _ _

theorem withoutDot_cases (path : String) :
    withoutDot path = path ∨ path = "./" ++ withoutDot path := by
  unfold withoutDot
  split
  · rename_i hstart
    obtain ⟨rest, rfl⟩ := startswith_iff.mp hstart
    refine Or.inr (String.toList_inj.mp ?_)
    rw [String.toList_append, String.toList_append, String.toList_ofList]
    exact congrArg _ String.toList_ofList.symm
  · exact Or.inl rfl

theorem fileName_withoutDot (path : String) : fileName (withoutDot path) = fileName path := by
  rcases withoutDot_cases path with hsame | hdot
  · rw [hsame]
  · have hname := fileName_append "." (withoutDot path)
    have hslash : "." ++ "/" = "./" := rfl
    rw [hslash, ← hdot] at hname
    exact hname.symm

/-- The ending of a path that is more than it. -/
theorem withoutDot_append {start ending : String} (h : 2 ≤ start.toList.length) :
    ∃ rest, withoutDot (start ++ ending) = rest ++ ending := by
  rcases withoutDot_cases (start ++ ending) with hsame | hdot
  · exact ⟨start, hsame⟩
  · refine ⟨String.ofList (start.toList.drop 2), String.toList_inj.mp ?_⟩
    have hlist := congrArg (fun s => s.toList.drop 2) hdot
    simp only [String.toList_append] at hlist
    rw [List.drop_append_of_le_length h] at hlist
    rw [String.toList_append, String.toList_ofList, hlist]
    rfl

end Objects

/-! ## Entries -/

def Entry.isLib : Entry → Bool
  | .lib _ => true
  | .plain _ | .mockC _ | .mockH _ | .runner _ | .runnerC _ | .object _ _ => false

/-- A mock or the source of a runner. -/
def Entry.isSource : Entry → Bool
  | .mockC _ | .mockH _ | .runnerC _ => true
  | .plain _ | .lib _ | .runner _ | .object _ _ => false

/-- A library, a mock or the source of a runner. -/
def Entry.isNamed : Entry → Bool
  | .lib _ | .mockC _ | .mockH _ | .runnerC _ => true
  | .plain _ | .runner _ | .object _ _ => false

theorem Entry.isNamed_eq (e : Entry) : e.isNamed = (e.isLib || e.isSource) := by
  cases e <;> rfl

/-- An entry that rules and lists of libraries define. -/
inductive Entry.Made : Entry → Prop
  | lib (name : String) : Made (.lib name)
  | mockC (name : String) : Made (.mockC name)
  | mockH (name : String) : Made (.mockH name)
  | runnerC (base : String) : Made (.runnerC base)
  | object (testsDir base : String) (no_slash : '/' ∉ base.toList) : Made (.object testsDir base)

section Entries
variable {a b : String}

theorem lib_inj : (Entry.lib a).text = (Entry.lib b).text ↔ a = b := pasted_inj
theorem mockC_inj : (Entry.mockC a).text = (Entry.mockC b).text ↔ a = b := pasted_inj
theorem mockH_inj : (Entry.mockH a).text = (Entry.mockH b).text ↔ a = b := pasted_inj
theorem runnerC_inj : (Entry.runnerC a).text = (Entry.runnerC b).text ↔ a = b := pasted_inj

def Entry.ending : Entry → String
  | .plain _ | .runner _ => ""
  | .lib _ => ".la"
  | .mockC _ | .runnerC _ => ".c"
  | .mockH _ => ".h"
  | .object _ _ => ".$(OBJEXT)"

theorem Entry.Made.text_ends {e : Entry} (he : e.Made) : ∃ x, e.text = x ++ e.ending := by
  cases he with
  | lib name | mockC name | mockH name | runnerC name => exact ⟨_, rfl⟩
  | object testsDir base no_slash =>
    refine withoutDot_append ?_
    simp only [String.toList_append, List.length_append]
    have hrunners : "/runners_".toList.length = 9 := by decide +kernel
    omega

def madeEndings : List String := [".la", ".c", ".h", ".$(OBJEXT)"]

theorem Entry.Made.ending_mem {e : Entry} (he : e.Made) : e.ending ∈ madeEndings := by
  cases he <;> simp [Entry.ending, madeEndings]

theorem madeEndings_differ : ∀ s ∈ madeEndings, ∀ t ∈ madeEndings, s ≠ t →
    ¬ s.toList <:+ t.toList := by
  decide +kernel

/-- The endings tell a library, a header, a source and an object file apart. -/
theorem Entry.Made.ending_eq {e e' : Entry} (he : e.Made) (he' : e'.Made)
    (h : e.text = e'.text) : e.ending = e'.ending := by
  obtain ⟨x, hx⟩ := he.text_ends
  obtain ⟨y, hy⟩ := he'.text_ends
  by_contra hne
  exact ends_differ (madeEndings_differ _ he.ending_mem _ he'.ending_mem hne)
    (madeEndings_differ _ he'.ending_mem _ he.ending_mem (Ne.symm hne))
    (hx.symm.trans (h.trans hy))

theorem mockC_ne_runnerC : (Entry.mockC a).text ≠ (Entry.runnerC b).text := by
  change "tests/mocks/mock_" ++ a ++ ".c" ≠ "tests/runners/runner_" ++ b ++ ".c"
  rw [String.append_assoc, String.append_assoc]
  exact starts_differ (by decide +kernel) (by decide +kernel)

theorem object_inj {dir dir' : String} (ha : '/' ∉ a.toList) (hb : '/' ∉ b.toList)
    (h : (Entry.object dir a).text = (Entry.object dir' b).text) : a = b := by
  have hname : ∀ dir base : String, '/' ∉ base.toList → fileName (Entry.object dir base).text =
      ("runners_" ++ base ++ "-" ++ base ++ ".$(OBJEXT)").toList := by
    intro dir base hbase
    have hpath : dir ++ "/runners_" ++ base ++ "-" ++ base ++ ".$(OBJEXT)" =
        dir ++ "/" ++ ("runners_" ++ base ++ "-" ++ base ++ ".$(OBJEXT)") := by
      have hslash : "/runners_" = "/" ++ "runners_" := rfl
      simp only [hslash, String.append_assoc]
    have hslash : '/' ∉ ("runners_" ++ base ++ "-" ++ base ++ ".$(OBJEXT)").toList := by
      simp only [String.toList_append, List.mem_append, hbase, or_false]
      decide +kernel
    have hwhole : fileName (dir ++ "/runners_" ++ base ++ "-" ++ base ++ ".$(OBJEXT)") =
        fileName ("runners_" ++ base ++ "-" ++ base ++ ".$(OBJEXT)") :=
      (congrArg fileName hpath).trans (fileName_append dir _)
    exact (fileName_withoutDot _).trans (hwhole.trans (fileName_of_no_slash hslash))
  have hboth := congrArg fileName h
  rw [hname dir a ha, hname dir' b hb] at hboth
  have hnames := String.toList_inj.mp hboth
  simp only [String.append_assoc, String.append_right_inj] at hnames
  exact doubled_inj hnames

/-- What an entry is named after; the directory of a test does not matter. -/
def Entry.key : Entry → Entry
  | .object _ base => .object "" base
  | e => e

theorem Entry.Made.key_eq {e e' : Entry} (he : e.Made) (he' : e'.Made) (h : e.text = e'.text) :
    e.key = e'.key := by
  have hends := he.ending_eq he' h
  cases he with
  | lib a =>
    cases he' with
    | lib b => rw [lib_inj.mp h]
    | mockC | mockH | runnerC | object => exact absurd hends (by simp [Entry.ending])
  | mockC a =>
    cases he' with
    | mockC b => rw [mockC_inj.mp h]
    | runnerC b => exact absurd h mockC_ne_runnerC
    | lib | mockH | object => exact absurd hends (by simp [Entry.ending])
  | mockH a =>
    cases he' with
    | mockH b => rw [mockH_inj.mp h]
    | lib | mockC | runnerC | object => exact absurd hends (by simp [Entry.ending])
  | runnerC a =>
    cases he' with
    | runnerC b => rw [runnerC_inj.mp h]
    | mockC b => exact absurd h.symm mockC_ne_runnerC
    | lib | mockH | object => exact absurd hends (by simp [Entry.ending])
  | object dir a ha =>
    cases he' with
    | object dir' b hb => rw [Entry.key, Entry.key, object_inj ha hb h]
    | lib | mockC | mockH | runnerC => exact absurd hends (by simp [Entry.ending])

theorem Entry.isNamed_made {e : Entry} (h : e.isNamed = true) : e.Made := by
  cases e with
  | lib | mockC | mockH | runnerC => constructor
  | plain | runner | object => cases h

theorem Entry.key_of_named {e : Entry} (h : e.isNamed = true) : e.key = e := by
  cases e with
  | object => cases h
  | _ => rfl

/-- A library, a mock or the source of a runner is defined exactly where its text is. -/
theorem text_mem_iff {e : Entry} {made : List Entry} (h : e.isNamed = true)
    (hmade : ∀ e' ∈ made, e'.Made) : e.text ∈ made.map Entry.text ↔ e ∈ made := by
  constructor
  · intro hmem
    obtain ⟨e', he', htext⟩ := List.mem_map.mp hmem
    have hkey := (hmade e' he').key_eq (Entry.isNamed_made h) htext
    rw [Entry.key_of_named h] at hkey
    cases e' with
    | object => subst hkey; cases h
    | _ => exact hkey ▸ he'
  · exact List.mem_map_of_mem

end Entries

/-! ## Variables -/

/-- The two stems that belong to a library. -/
def Stem.isLibrary : Stem → Bool
  | .lib _ | .nodistLib _ => true
  | .program _ | .runner _ | .nodistRunner _ => false

/-- A variable of a library. -/
def Var.isLibrary : Var → Bool
  | .of stem _ => stem.isLibrary
  | .plain _ => false

section Variables
variable {stem stem' : Stem} {kind kind' : VarKind} {a b : String}

theorem kinds_differ : ∀ kind kind' : VarKind, kind ≠ kind' →
    ¬ kind.text.toList <:+ kind'.text.toList := by
  intro kind kind' hne
  cases kind <;> cases kind' <;> first | decide +kernel | exact absurd rfl hne

/-- The ending says what a variable is for. -/
theorem var_inj : (Var.of stem kind).text = (Var.of stem' kind').text ↔
    stem.text = stem'.text ∧ kind = kind' := by
  constructor
  · intro h
    have hkind : kind = kind' := by
      by_contra hne
      exact ends_differ (kinds_differ kind kind' hne) (kinds_differ kind' kind (Ne.symm hne)) h
    subst hkind
    exact ⟨(String.append_left_inj kind.text).mp h, rfl⟩
  · rintro ⟨hstem, rfl⟩
    rw [Var.text, Var.text, hstem]

def Stem.start : Stem → String
  | .program _ => ""
  | .lib _ => "lib"
  | .nodistLib _ => "nodist_lib"
  | .runner _ => "tests_runners_"
  | .nodistRunner _ => "nodist_tests_runners_"

theorem Stem.text_starts (stem : Stem) : ∃ x, stem.text = stem.start ++ x := by
  cases stem with
  | program name => exact ⟨name, String.empty_append.symm⟩
  | lib name | nodistLib name => exact ⟨name ++ "_la", String.append_assoc⟩
  | runner base | nodistRunner base => exact ⟨base, rfl⟩

def fixedStarts : List String := ["lib", "nodist_lib", "tests_runners_", "nodist_tests_runners_"]

theorem fixedStarts_differ : ∀ s ∈ fixedStarts, ∀ t ∈ fixedStarts, s ≠ t →
    ¬ s.toList <+: t.toList := by
  decide +kernel

/-- The beginning tells the variables of libraries and of runners apart. -/
theorem stem_start_eq (hs : stem.start ∈ fixedStarts) (ht : stem'.start ∈ fixedStarts)
    (h : stem.text = stem'.text) : stem.start = stem'.start := by
  obtain ⟨x, hx⟩ := stem.text_starts
  obtain ⟨y, hy⟩ := stem'.text_starts
  by_contra hne
  exact starts_differ (fixedStarts_differ _ hs _ ht hne) (fixedStarts_differ _ ht _ hs (Ne.symm hne))
    (hx.symm.trans (h.trans hy))

theorem Stem.start_of_library (h : stem.isLibrary = true) : stem.start ∈ fixedStarts := by
  cases stem with
  | lib | nodistLib => simp [Stem.start, fixedStarts]
  | program | runner | nodistRunner => cases h

/-- Different libraries have different variables. -/
theorem library_stem_inj (hs : stem.isLibrary = true) (ht : stem'.isLibrary = true)
    (h : stem.text = stem'.text) : stem = stem' := by
  have hstart := stem_start_eq (Stem.start_of_library hs) (Stem.start_of_library ht) h
  cases stem with
  | program | runner | nodistRunner => cases hs
  | lib a =>
    cases stem' with
    | program | runner | nodistRunner => cases ht
    | lib b => rw [pasted_inj.mp h]
    | nodistLib b => exact absurd hstart (by simp [Stem.start])
  | nodistLib a =>
    cases stem' with
    | program | runner | nodistRunner => cases ht
    | lib b => exact absurd hstart (by simp [Stem.start])
    | nodistLib b => rw [pasted_inj.mp h]

theorem library_var_inj {v w : Var} (hv : v.isLibrary = true) (hw : w.isLibrary = true)
    (h : v.text = w.text) : v = w := by
  cases v with
  | plain => cases hv
  | of stem kind =>
    cases w with
    | plain => cases hw
    | of stem' kind' =>
      obtain ⟨hstem, rfl⟩ := var_inj.mp h
      rw [library_stem_inj hv hw hstem]

/-- A runner's variables are no library's. -/
theorem library_ne_runner (hs : stem.isLibrary = true) (b : String) :
    stem.text ≠ (Stem.runner b).text ∧ stem.text ≠ (Stem.nodistRunner b).text := by
  have hin := Stem.start_of_library hs
  constructor
  · intro h
    have hstart := stem_start_eq hin (by simp [Stem.start, fixedStarts]) h
    cases stem with
    | program | runner | nodistRunner => cases hs
    | lib | nodistLib => exact absurd hstart (by simp [Stem.start])
  · intro h
    have hstart := stem_start_eq hin (by simp [Stem.start, fixedStarts]) h
    cases stem with
    | program | runner | nodistRunner => cases hs
    | lib | nodistLib => exact absurd hstart (by simp [Stem.start])

/-- A name that begins like no variable of a library. -/
theorem library_ne_plain (hs : stem.isLibrary = true) {name : String}
    (hlib : ¬ "lib".toList <+: name.toList) (hnodist : ¬ "nodist_lib".toList <+: name.toList) :
    (Var.of stem kind).text ≠ (Var.plain name).text := by
  intro h
  obtain ⟨x, hx⟩ := stem.text_starts
  have hbegins : stem.start.toList <+: name.toList := by
    rw [← show (Var.of stem kind).text = name from h, Var.text, hx, String.append_assoc,
      String.toList_append]
    exact List.prefix_append _ _
  cases stem with
  | program | runner | nodistRunner => cases hs
  | lib => exact hlib hbegins
  | nodistLib => exact hnodist hbegins

end Variables
end M65Tool.Source.Makemake
