import M65Tool.Lib.Splitting
import Mathlib.Data.List.DropRight

/-!
# The text of a makefile

A reader for the lines of a makefile, as lists of words. A line that ends in a backslash
goes on in the next one, `#` starts a comment, and a line with a tab in front is a command.
Behind the first `=` of a line stand the values of a variable, behind the first `:` the
prerequisites of a rule; all other lines are directives.
-/
namespace M65Tool.Lib.MakeText
open Splitting

def isBlank (c : Char) : Bool := c == ' ' || c == '\t'

def isOperator (c : Char) : Bool := c == '=' || c == ':'

inductive Stmt where
  /-- `=`, or `+=`, which adds to what the variable has -/
  | assign (name : List Char) (vals : List (List Char)) (adds : Bool)
  | rule (targets prerequisites : List (List Char))
  | command (text : List Char)
  | directive (words : List (List Char))
  deriving DecidableEq, Repr

/-- A backslash at the end of a line stands for a blank, and the line goes on. -/
def joinContinued : List Char → List Char
  | [] => []
  | [c] => [c]
  | c :: d :: rest =>
    if c = '\\' ∧ d = '\n' then ' ' :: joinContinued rest else c :: joinContinued (d :: rest)

def trim (text : List Char) : List Char := (text.dropWhile isBlank).rdropWhile isBlank

def readAssign (before vals : List Char) : Stmt :=
  if before.getLast? = some '+' then .assign (trim before.dropLast) (words isBlank vals) true
  else .assign (trim before) (words isBlank vals) false

def readStmt (text : List Char) : Option Stmt :=
  let before := text.takeWhile fun c => !isOperator c
  match text.dropWhile fun c => !isOperator c with
  | '=' :: vals => some (readAssign before vals)
  | ':' :: '=' :: vals => some (readAssign before vals)
  | ':' :: prerequisites => some (.rule (words isBlank before) (words isBlank prerequisites))
  | _ => if words isBlank text = [] then none else some (.directive (words isBlank text))

def readLine (line : List Char) : Option Stmt :=
  if line.head? = some '\t' then some (.command line.tail)
  else readStmt (line.takeWhile (· != '#'))

def read (text : List Char) : List Stmt :=
  ((joinContinued text).splitOn '\n').filterMap readLine

/-! ## Lines -/

section Lines
variable {a b : List Char} {c : Char}

theorem joinContinued_cons (h : c ≠ '\\') : joinContinued (c :: b) = c :: joinContinued b := by
  cases b with
  | nil => rfl
  | cons d b => rw [joinContinued, if_neg fun hc => h hc.1]

/-- A text is joined in two parts if it is not cut between a backslash and the end of the
line. -/
theorem joinContinued_append (h : a.getLast? = some '\\' → b.head? ≠ some '\n') :
    joinContinued (a ++ b) = joinContinued a ++ joinContinued b := by
  induction a using joinContinued.induct with
  | case1 => rfl
  | case2 c =>
    rw [List.singleton_append]
    cases b with
    | nil => rfl
    | cons d b =>
      have hnot : ¬ (c = '\\' ∧ d = '\n') := by
        rintro ⟨rfl, rfl⟩
        exact h rfl rfl
      rw [joinContinued.eq_def]
      exact if_neg hnot
  | case3 c d rest hcont ih =>
    rw [List.cons_append, List.cons_append, joinContinued, if_pos hcont, joinContinued,
      if_pos hcont, List.cons_append, ih]
    intro hlast
    refine h ?_
    cases rest with
    | nil => cases hlast
    | cons x rest => rwa [List.getLast?_cons_cons, List.getLast?_cons_cons]
  | case4 c d rest hne ih =>
    rw [List.cons_append, List.cons_append, joinContinued, if_neg hne, joinContinued, if_neg hne,
      List.cons_append]
    rw [List.getLast?_cons_cons] at h
    rw [← List.cons_append, ih h]

theorem joinContinued_continued :
    joinContinued (a ++ '\\' :: '\n' :: b) = joinContinued a ++ ' ' :: joinContinued b := by
  have hhead : ('\\' :: '\n' :: b).head? ≠ some '\n' := by
    rw [List.head?_cons]
    decide
  rw [joinContinued_append fun _ => hhead, joinContinued, if_pos ⟨rfl, rfl⟩]

theorem joinContinued_plain (h : '\\' ∉ a) : joinContinued a = a := by
  induction a with
  | nil => rfl
  | cons c a ih =>
    rw [joinContinued_cons fun hc => h (hc ▸ List.mem_cons_self),
      ih fun hmem => h (List.mem_cons_of_mem c hmem)]

@[simp] theorem read_nil : read [] = [] := rfl

/-- At the end of a line that does not go on. -/
theorem read_append_line (h : a.getLast? ≠ some '\\') :
    read (a ++ '\n' :: b) = read a ++ read b := by
  rw [read, joinContinued_append fun hlast => absurd hlast h, joinContinued_cons (by decide),
    List.splitOn_append_cons_self, List.filterMap_append]
  rfl

/-- The text stops at the end of a line that does not go on. -/
def Ended (text : List Char) : Prop :=
  text = [] ∨ text.getLast? = some '\n' ∧ text.dropLast.getLast? ≠ some '\\'

instance (text : List Char) : Decidable (Ended text) :=
  inferInstanceAs (Decidable (_ ∨ _))

theorem ended_line (h : a.getLast? ≠ some '\\') : Ended (a ++ ['\n']) := by
  rw [Ended, List.getLast?_concat, List.dropLast_concat]
  exact Or.inr ⟨rfl, h⟩

theorem Ended.cases (h : Ended a) :
    a = [] ∨ ∃ lines : List Char, a = lines ++ ['\n'] ∧ lines.getLast? ≠ some '\\' := by
  rcases h with rfl | ⟨hlast, hcont⟩
  · exact Or.inl rfl
  · exact Or.inr ⟨a.dropLast, (List.dropLast_append_getLast? _ hlast).symm, hcont⟩

theorem Ended.last_ne (h : Ended a) : a.getLast? ≠ some '\\' := by
  rcases h with rfl | ⟨hlast, -⟩
  · exact fun hlast => absurd hlast (by decide)
  · rw [hlast]
    decide

theorem Ended.append (h : Ended a) (h' : Ended b) : Ended (a ++ b) := by
  rcases h'.cases with rfl | ⟨lines, rfl, hcont⟩
  · rwa [List.append_nil]
  · rw [← List.append_assoc]
    refine ended_line ?_
    cases lines with
    | nil =>
      rw [List.append_nil]
      rcases h.cases with rfl | ⟨before, rfl, -⟩
      · exact hcont
      · rw [List.getLast?_concat]
        decide
    | cons c lines => rwa [List.getLast?_append_of_ne_nil _ (List.cons_ne_nil c lines)]

theorem read_append (h : Ended a) : read (a ++ b) = read a ++ read b := by
  rcases h.cases with rfl | ⟨lines, rfl, hcont⟩
  · rfl
  · rw [List.append_assoc, List.singleton_append, read_append_line hcont, read_append_line hcont,
      read_nil, List.append_nil]

/-- Behind a line that does not go on, at its end. -/
theorem read_append_rest {rest : List Char} (h : a.getLast? ≠ some '\\')
    (hrest : rest = [] ∨ rest.head? = some '\n') : read (a ++ rest) = read a ++ read rest := by
  cases rest with
  | nil => rw [read_nil, List.append_nil, List.append_nil]
  | cons c rest =>
    obtain rfl : c = '\n' := Option.some.inj (hrest.resolve_left (List.cons_ne_nil c rest))
    have hblank : read ('\n' :: rest) = read rest := read_append_line (a := []) (by decide)
    rw [read_append_line h, hblank]

/-- Texts one after another, of which only the last may stop where its line goes on. -/
theorem read_intercalate {texts : List (List Char)} (h : ∀ t ∈ texts, t.getLast? ≠ some '\\')
    (last rest : List Char) : read (['\n'].intercalate (texts ++ [last]) ++ rest) =
      texts.flatMap read ++ read (last ++ rest) := by
  induction texts with
  | nil => rw [List.nil_append, List.intercalate_singleton, List.flatMap_nil, List.nil_append]
  | cons text texts ih =>
    rw [List.cons_append, List.intercalate_cons_of_ne_nil (by simp), List.append_assoc,
      List.append_assoc, List.singleton_append, read_append_line (h text List.mem_cons_self),
      ih fun t ht => h t (List.mem_cons_of_mem text ht), List.flatMap_cons, List.append_assoc]

theorem read_intercalate_all {texts : List (List Char)} {rest : List Char}
    (h : ∀ t ∈ texts, t.getLast? ≠ some '\\') (hrest : rest = [] ∨ rest.head? = some '\n') :
    read (['\n'].intercalate texts ++ rest) = texts.flatMap read ++ read rest := by
  rcases List.eq_nil_or_concat texts with rfl | ⟨init, last, rfl⟩
  · rfl
  · rw [List.concat_eq_append] at h ⊢
    have hlast := h last (List.mem_append_right init List.mem_cons_self)
    rw [read_intercalate fun t ht => h t (List.mem_append_left _ ht),
      read_append_rest hlast hrest, List.flatMap_append, List.flatMap_singleton, List.append_assoc]

theorem ended_flatMap {α : Type} {l : List α} {text : α → List Char}
    (h : ∀ x ∈ l, Ended (text x)) : Ended (l.flatMap text) := by
  induction l with
  | nil => exact Or.inl rfl
  | cons x l ih =>
    rw [List.flatMap_cons]
    exact (h x List.mem_cons_self).append (ih fun y hy => h y (List.mem_cons_of_mem x hy))

theorem read_flatMap {α : Type} {l : List α} {text : α → List Char}
    (h : ∀ x ∈ l, Ended (text x)) : read (l.flatMap text) = l.flatMap fun x => read (text x) := by
  induction l with
  | nil => rfl
  | cons x l ih =>
    rw [List.flatMap_cons, List.flatMap_cons, read_append (h x List.mem_cons_self),
      ih fun y hy => h y (List.mem_cons_of_mem x hy)]

theorem read_concat_line (h : a.getLast? ≠ some '\\') : read (a ++ ['\n']) = read a := by
  rw [read_append_line h, read_nil, List.append_nil]

/-- A text that comes to one line. -/
theorem read_joined {line : List Char} (hplain : '\\' ∉ a) (hjoin : joinContinued b = line)
    (ha : '\n' ∉ a) (hline : '\n' ∉ line) : read (a ++ b) = (readLine (a ++ line)).toList := by
  have hlast : a.getLast? ≠ some '\\' := fun hlast => hplain (List.mem_of_getLast? hlast)
  have hnot : '\n' ∉ a ++ line := fun hmem => (List.mem_append.mp hmem).elim ha hline
  rw [read, joinContinued_append fun h => absurd h hlast, joinContinued_plain hplain, hjoin,
    List.splitOn_eq_singleton hnot]
  cases hread : readLine (a ++ line) with
  | none => exact List.filterMap_cons_none hread
  | some stmt => exact List.filterMap_cons_some hread

theorem read_comment (hcomment : a.head? = some '#') (hline : '\n' ∉ a) (hplain : '\\' ∉ a) :
    read (a ++ ['\n']) = [] := by
  have hread := read_joined (a := []) (b := a) List.not_mem_nil (joinContinued_plain hplain)
    List.not_mem_nil hline
  cases a with
  | nil => cases hcomment
  | cons c rest =>
    obtain rfl : c = '#' := Option.some.inj hcomment
    rw [read_concat_line fun hlast => hplain (List.mem_of_getLast? hlast)]
    exact hread

end Lines

/-! ## Assignments and rules -/

/-- A character that has no meaning of its own in a line. -/
def isOrdinary (c : Char) : Bool :=
  !isBlank c && !isOperator c && c != '\n' && c != '\\' && c != '#'

section Statements
variable {name text line : List Char}

theorem ordinary_not_mem {c : Char} (h : ∀ x ∈ text, isOrdinary x = true)
    (hc : isOrdinary c = false) : c ∉ text := fun hmem => by
  rw [h c hmem] at hc
  cases hc

theorem ordinary_blank {c : Char} (h : isOrdinary c = true) : isBlank c = false := by
  cases hblank : isBlank c with
  | false => rfl
  | true => rw [isOrdinary, hblank] at h; cases h

theorem ordinary_operator {c : Char} (h : isOrdinary c = true) : isOperator c = false := by
  cases hop : isOperator c with
  | false => rfl
  | true => rw [isOrdinary, hop, Bool.and_comm (!isBlank c)] at h; cases h

theorem words_blank : words isBlank (' ' :: text) = words isBlank text := by
  have hsplit : words isBlank ([] ++ ' ' :: text) = words isBlank [] ++ words isBlank text :=
    words_append_cons rfl [] text
  rwa [List.nil_append, words_nil, List.nil_append] at hsplit

theorem trim_name (h : ∀ c ∈ name, isOrdinary c = true) : trim (name ++ [' ']) = name := by
  cases name with
  | nil => rfl
  | cons c name =>
    have hblank : ∀ x ∈ c :: name, isBlank x = false := fun x hx => ordinary_blank (h x hx)
    have hhead : (c :: name ++ [' ']).dropWhile isBlank = c :: name ++ [' '] :=
      List.dropWhile_cons_of_neg (by rw [hblank c List.mem_cons_self]; exact Bool.false_ne_true)
    rw [trim, hhead, List.rdropWhile_concat_pos _ _ _ rfl, List.rdropWhile_eq_self_iff]
    intro hne
    rw [hblank _ (List.getLast_mem hne)]
    exact Bool.false_ne_true

/-- What stands before the operator of a line: names, and blanks between and behind them. -/
def IsHead (text : List Char) : Prop := ∀ c ∈ text, isOrdinary c = true ∨ c = ' '

theorem isHead_name (h : ∀ c ∈ text, isOrdinary c = true) : IsHead text :=
  fun c hc => Or.inl (h c hc)

theorem IsHead.append {behind : List Char} (h : IsHead text) (h' : IsHead behind) :
    IsHead (text ++ behind) :=
  fun c hc => (List.mem_append.mp hc).elim (h c) (h' c)

theorem IsHead.not_mem {c : Char} (h : IsHead text) (hc : isOrdinary c = false) (hne : c ≠ ' ') :
    c ∉ text := by
  intro hmem
  rcases h c hmem with hord | heq
  · rw [hord] at hc
    cases hc
  · exact hne heq

theorem IsHead.not_operator (h : IsHead text) : ∀ c ∈ text, (!isOperator c) = true := by
  intro c hc
  rcases h c hc with hord | rfl
  · rw [ordinary_operator hord]
    rfl
  · rfl

/-- A line is cut in two at its first operator. -/
theorem readLine_operator {c : Char} (h : IsHead text) (hc : isOperator c = true)
    (hline : '#' ∉ line) :
    readLine (text ++ c :: line) = readStmt (text ++ c :: line) ∧
      (text ++ c :: line).takeWhile (fun x => !isOperator x) = text ∧
      (text ++ c :: line).dropWhile (fun x => !isOperator x) = c :: line := by
  have hstop : ¬ (!isOperator c) = true := by
    rw [hc]
    exact Bool.false_ne_true
  refine ⟨?_, ?_, ?_⟩
  · have hall : (text ++ c :: line).takeWhile (· != '#') = text ++ c :: line := by
      rw [List.takeWhile_eq_self_iff]
      rintro x hx
      refine bne_iff_ne.mpr ?_
      rintro rfl
      rcases List.mem_append.mp hx with hmem | hmem
      · exact h.not_mem rfl (by decide) hmem
      · rcases List.mem_cons.mp hmem with rfl | hmem
        · cases hc
        · exact hline hmem
    rw [readLine, if_neg, hall]
    cases text with
    | nil =>
      intro hhead
      obtain rfl := Option.some.inj hhead
      cases hc
    | cons x text =>
      intro hhead
      obtain rfl := Option.some.inj hhead
      exact h.not_mem rfl (by decide) List.mem_cons_self
  · rw [List.takeWhile_append_of_pos h.not_operator,
      List.takeWhile_cons_of_neg (p := fun x => !isOperator x) hstop, List.append_nil]
  · rw [List.dropWhile_append_of_pos h.not_operator,
      List.dropWhile_cons_of_neg (p := fun x => !isOperator x) hstop]

theorem isHead_assign (hname : ∀ c ∈ name, isOrdinary c = true) : IsHead (name ++ [' ']) :=
  (isHead_name hname).append fun _ hc => Or.inr (List.mem_singleton.mp hc)

theorem readLine_assign (hname : ∀ c ∈ name, isOrdinary c = true) (hline : '#' ∉ line) :
    readLine (name ++ [' '] ++ '=' :: line) = some (.assign name (words isBlank line) false) := by
  obtain ⟨hread, hbefore, hbehind⟩ := readLine_operator (isHead_assign hname) (c := '=') rfl hline
  rw [hread, readStmt]
  simp only [hbefore, hbehind]
  rw [readAssign, if_neg (by simp), trim_name hname]

theorem isHead_add (hname : ∀ c ∈ name, isOrdinary c = true) :
    IsHead (name ++ [' '] ++ ['+']) := by
  refine (isHead_assign hname).append fun c hc => Or.inl ?_
  rw [List.mem_singleton.mp hc]
  rfl

theorem readLine_add (hname : ∀ c ∈ name, isOrdinary c = true) (hline : '#' ∉ line) :
    readLine (name ++ [' '] ++ ['+'] ++ '=' :: line) =
      some (.assign name (words isBlank line) true) := by
  obtain ⟨hread, hbefore, hbehind⟩ := readLine_operator (isHead_add hname) (c := '=') rfl hline
  rw [hread, readStmt]
  simp only [hbefore, hbehind]
  rw [readAssign, if_pos (by simp), List.dropLast_concat, trim_name hname]

theorem readLine_rule (htext : IsHead text) (hhead : line.head? ≠ some '=') (hline : '#' ∉ line) :
    readLine (text ++ ':' :: line) = some (.rule (words isBlank text) (words isBlank line)) := by
  obtain ⟨hread, hbefore, hbehind⟩ := readLine_operator htext (c := ':') rfl hline
  rw [hread, readStmt]
  simp only [hbefore, hbehind]
  split
  · rename_i heq
    cases heq
  · rename_i heq
    obtain ⟨-, rfl⟩ := List.cons.inj heq
    exact absurd rfl hhead
  · rename_i heq
    obtain ⟨-, rfl⟩ := List.cons.inj heq
    rfl
  · rename_i hnone
    exact absurd rfl (hnone line)

end Statements

/-! ## Lists over several lines -/

section Lists
variable {vals : List (List Char)}

/-- Each value on a line of its own, behind a line that goes on. -/
def listed (vals : List (List Char)) : List Char :=
  vals.flatMap fun val => " \\\n    ".toList ++ val

theorem listed_cons (val : List Char) (vals : List (List Char)) :
    listed (val :: vals) = [' '] ++ '\\' :: '\n' :: ("    ".toList ++ val ++ listed vals) := by
  rw [listed, List.flatMap_cons, List.append_assoc, List.append_assoc]
  rfl

theorem listed_eq (h : vals ≠ []) :
    " \\\n    ".toList ++ " \\\n    ".toList.intercalate vals = listed vals := by
  induction vals with
  | nil => exact absurd rfl h
  | cons val vals ih =>
    cases vals with
    | nil => rw [List.intercalate_singleton, listed, List.flatMap_singleton]
    | cons next vals =>
      rw [List.intercalate_cons_of_ne_nil (List.cons_ne_nil next vals), listed, List.flatMap_cons,
        ← listed, ← ih (List.cons_ne_nil next vals)]
      simp only [List.append_assoc]

theorem joinContinued_listed (h : ∀ val ∈ vals, '\\' ∉ val) :
    joinContinued (listed vals) = vals.flatMap fun val => "      ".toList ++ val := by
  induction vals with
  | nil => rfl
  | cons val vals ih =>
    have hplain : '\\' ∉ "    ".toList ++ val := fun hmem =>
      (List.mem_append.mp hmem).elim (by decide) (h val List.mem_cons_self)
    have hlast : ("    ".toList ++ val).getLast? ≠ some '\\' := fun hlast =>
      hplain (List.mem_of_getLast? hlast)
    rw [listed_cons, joinContinued_continued, joinContinued_append fun hc => absurd hc hlast,
      joinContinued_plain hplain, ih fun v hv => h v (List.mem_cons_of_mem val hv),
      List.flatMap_cons, List.append_assoc, List.append_assoc]
    rfl

theorem words_append_blank {text line : List Char} :
    words isBlank (text ++ ' ' :: line) = words isBlank text ++ words isBlank line :=
  words_append_cons rfl text line

theorem words_append_listed (text : List Char) (vals : List (List Char)) :
    words isBlank (text ++ vals.flatMap fun val => "      ".toList ++ val) =
      words isBlank text ++ vals.flatMap (words isBlank) := by
  induction vals generalizing text with
  | nil => rw [List.flatMap_nil, List.flatMap_nil, List.append_nil, List.append_nil]
  | cons val vals ih =>
    have hcut : "      ".toList ++ val = ' ' :: ' ' :: ' ' :: ' ' :: ' ' :: ' ' :: val := rfl
    rw [List.flatMap_cons, List.flatMap_cons, hcut, List.cons_append, words_append_blank]
    simp only [List.cons_append, words_blank]
    rw [ih]

theorem words_intercalate : words isBlank ([' '].intercalate vals) =
    vals.flatMap (words isBlank) := by
  induction vals with
  | nil => rfl
  | cons val vals ih =>
    rw [List.flatMap_cons, ← ih]
    cases vals with
    | nil => rw [List.intercalate_singleton, ih, List.flatMap_nil, List.append_nil]
    | cons next vals =>
      rw [List.intercalate_cons_of_ne_nil (List.cons_ne_nil next vals), List.append_assoc]
      exact words_append_blank

/-- A text that fits in a line. -/
structure Inline (text : List Char) : Prop where
  line : '\n' ∉ text
  continued : '\\' ∉ text
  comment : '#' ∉ text

instance (text : List Char) : Decidable (Inline text) :=
  decidable_of_iff ('\n' ∉ text ∧ '\\' ∉ text ∧ '#' ∉ text)
    ⟨fun h => ⟨h.1, h.2.1, h.2.2⟩, fun h => ⟨h.line, h.continued, h.comment⟩⟩

theorem inline_ordinary {text : List Char} (h : ∀ c ∈ text, isOrdinary c = true) : Inline text :=
  ⟨ordinary_not_mem h rfl, ordinary_not_mem h rfl, ordinary_not_mem h rfl⟩

theorem mem_intercalate {c : Char} (h : c ∈ [' '].intercalate vals) :
    c = ' ' ∨ ∃ val ∈ vals, c ∈ val := by
  induction vals with
  | nil => exact absurd h List.not_mem_nil
  | cons val vals ih =>
    cases vals with
    | nil =>
      rw [List.intercalate_singleton] at h
      exact Or.inr ⟨val, List.mem_cons_self, h⟩
    | cons next vals =>
      rw [List.intercalate_cons_of_ne_nil (List.cons_ne_nil next vals), List.append_assoc,
        List.mem_append, List.mem_append, List.mem_singleton] at h
      rcases h with h | h | h
      · exact Or.inr ⟨val, List.mem_cons_self, h⟩
      · exact Or.inl h
      · refine (ih h).imp_right ?_
        rintro ⟨v, hv, hc⟩
        exact ⟨v, List.mem_cons_of_mem val hv, hc⟩

theorem isHead_intercalate (h : ∀ val ∈ vals, ∀ c ∈ val, isOrdinary c = true) :
    IsHead ([' '].intercalate vals) := by
  intro c hc
  rcases mem_intercalate hc with hblank | ⟨val, hval, hc⟩
  · exact Or.inr hblank
  · exact Or.inl (h val hval c hc)

theorem inline_intercalate (h : ∀ val ∈ vals, Inline val) : Inline ([' '].intercalate vals) := by
  have hnot : ∀ c, c ≠ ' ' → (∀ val ∈ vals, c ∉ val) → c ∉ [' '].intercalate vals := by
    intro c hne hvals hc
    rcases mem_intercalate hc with hblank | ⟨val, hval, hc⟩
    · exact hne hblank
    · exact hvals val hval hc
  exact ⟨hnot _ (by decide) fun val hval => (h val hval).line,
    hnot _ (by decide) fun val hval => (h val hval).continued,
    hnot _ (by decide) fun val hval => (h val hval).comment⟩

/-- The text comes to a line with these values, behind an operator. -/
structure Holds (text : List Char) (vals : List (List Char)) : Prop where
  last : text.getLast? ≠ some '\\'
  head : (joinContinued text).head? ≠ some '='
  line : '\n' ∉ joinContinued text
  comment : '#' ∉ joinContinued text
  words : words isBlank (joinContinued text) = vals.flatMap (words isBlank)

theorem listed_last (h : ∀ val ∈ vals, Inline val) : (listed vals).getLast? ≠ some '\\' := by
  induction vals with
  | nil => decide
  | cons val vals ih =>
    have hblanks : '\\' ∉ "    ".toList ++ val := fun hmem =>
      (List.mem_append.mp hmem).elim (by decide) (h val List.mem_cons_self).continued
    rw [listed_cons]
    cases hrest : listed vals with
    | nil =>
      intro hlast
      rw [List.append_nil, List.getLast?_append_of_ne_nil _ (by simp), List.getLast?_cons_cons,
        List.getLast?_cons_of_ne_nil (by simp)] at hlast
      exact hblanks (List.mem_of_getLast? hlast)
    | cons c rest =>
      have hlast := ih fun v hv => h v (List.mem_cons_of_mem val hv)
      rw [hrest] at hlast
      rwa [← List.cons_append, ← List.cons_append, ← List.append_assoc,
        List.getLast?_append_of_ne_nil _ (List.cons_ne_nil c rest)]

theorem Holds.nil : Holds [] [] := ⟨by decide, by decide, List.not_mem_nil, List.not_mem_nil, rfl⟩

theorem Holds.inline {text : List Char} (h : Inline text) : Holds (' ' :: text) [text] := by
  have hjoin : joinContinued (' ' :: text) = ' ' :: text :=
    joinContinued_plain fun hmem => (List.mem_cons.mp hmem).elim (by decide) h.continued
  refine ⟨fun hlast => ?_, ?_, ?_, ?_, ?_⟩
  · exact (List.mem_cons.mp (List.mem_of_getLast? hlast)).elim (by decide) h.continued
  all_goals rw [hjoin]
  · rw [List.head?_cons]
    decide
  · exact fun hmem => (List.mem_cons.mp hmem).elim (by decide) h.line
  · exact fun hmem => (List.mem_cons.mp hmem).elim (by decide) h.comment
  · rw [words_blank, List.flatMap_singleton]

theorem Holds.listed (h : ∀ val ∈ vals, Inline val) : Holds (listed vals) vals := by
  have hjoin := joinContinued_listed fun val hval => (h val hval).continued
  have hnot : ∀ c, c ≠ ' ' → (∀ val ∈ vals, c ∉ val) →
      c ∉ vals.flatMap fun val => "      ".toList ++ val := by
    intro c hc hvals hmem
    obtain ⟨val, hval, hmem⟩ := List.mem_flatMap.mp hmem
    rcases List.mem_append.mp hmem with hmem | hmem
    · exact hc (List.eq_of_mem_replicate (n := 6) hmem)
    · exact hvals val hval hmem
  refine ⟨listed_last h, ?_, ?_, ?_, ?_⟩
  all_goals rw [hjoin]
  · cases vals with
    | nil =>
      intro hhead
      cases hhead
    | cons val vals => exact fun hhead => absurd (Option.some.inj hhead) (by decide)
  · exact hnot '\n' (by decide) fun val hval => (h val hval).line
  · exact hnot '#' (by decide) fun val hval => (h val hval).comment
  · exact words_append_listed [] vals

theorem read_operator {text behind : List Char} {c : Char} (htext : IsHead text)
    (hc : isOperator c = true) (h : Holds behind vals) :
    read (text ++ c :: behind) = (readLine (text ++ c :: joinContinued behind)).toList := by
  have hnot : ∀ x, isOrdinary x = false → isBlank x = false → isOperator x = false →
      x ∉ text ++ [c] := by
    intro x hord hblank hop hmem
    rcases List.mem_append.mp hmem with hmem | hmem
    · refine htext.not_mem hord ?_ hmem
      rintro rfl
      cases hblank
    · rw [List.mem_singleton.mp hmem, hc] at hop
      cases hop
  have hread := read_joined (hnot '\\' rfl rfl rfl) (b := behind) rfl (hnot '\n' rfl rfl rfl) h.line
  rwa [List.append_assoc, List.append_assoc] at hread

section Read
variable {name text behind : List Char} {c : Char}

theorem Holds.last_ne (h : Holds behind vals) (hc : isOperator c = true) :
    (text ++ c :: behind).getLast? ≠ some '\\' := by
  intro hlast
  rw [List.getLast?_append_of_ne_nil _ (List.cons_ne_nil c behind), List.getLast?_cons] at hlast
  cases hbehind : behind.getLast? with
  | none =>
    rw [hbehind] at hlast
    obtain rfl := Option.some.inj hlast
    cases hc
  | some d =>
    rw [hbehind] at hlast
    exact h.last (hbehind.trans hlast)

theorem Holds.ended (h : Holds behind vals) (hc : isOperator c = true) :
    Ended (text ++ c :: behind ++ ['\n']) := ended_line (h.last_ne hc)

theorem read_assign (hname : ∀ c ∈ name, isOrdinary c = true) (h : Holds behind vals) :
    read (name ++ [' '] ++ '=' :: behind ++ ['\n']) =
      [.assign name (vals.flatMap (words isBlank)) false] := by
  rw [read_concat_line (h.last_ne rfl), read_operator (isHead_assign hname) rfl h,
    readLine_assign hname h.comment, h.words]
  rfl

theorem read_add (hname : ∀ c ∈ name, isOrdinary c = true) (h : Holds behind vals) :
    read (name ++ [' '] ++ ['+'] ++ '=' :: behind ++ ['\n']) =
      [.assign name (vals.flatMap (words isBlank)) true] := by
  rw [read_concat_line (h.last_ne rfl), read_operator (isHead_add hname) rfl h,
    readLine_add hname h.comment, h.words]
  rfl

theorem read_rule (htext : IsHead text) (h : Holds behind vals) :
    read (text ++ ':' :: behind ++ ['\n']) =
      [.rule (words isBlank text) (vals.flatMap (words isBlank))] := by
  rw [read_concat_line (h.last_ne rfl), read_operator htext rfl h,
    readLine_rule htext h.head h.comment, h.words]
  rfl

end Read

end Lists

/-! ## What statements list and define -/

namespace Stmt

def targets : Stmt → List (List Char)
  | .rule targets _ => targets
  | .assign _ _ _ | .command _ | .directive _ => []

def prerequisites : Stmt → List (List Char)
  | .rule _ prerequisites => prerequisites
  | .assign _ _ _ | .command _ | .directive _ => []

/-- The values that are given to a variable of some kind. -/
def values (kind : List Char → Bool) : Stmt → List (List Char)
  | .assign name vals _ => if kind name then vals else []
  | .rule _ _ | .command _ | .directive _ => []

/-- The variable that is defined; `+=` adds to one. -/
def defined : Stmt → List (List Char)
  | .assign name _ adds => if adds then [] else [name]
  | .rule _ _ | .command _ | .directive _ => []

/-- A command or a directive. -/
def isQuiet : Stmt → Bool
  | .command _ | .directive _ => true
  | .assign _ _ _ | .rule _ _ => false

end Stmt

section Quiet
variable {stmts : List Stmt}

theorem Stmt.quiet_lists {stmt : Stmt} (h : stmt.isQuiet = true) (kind : List Char → Bool) :
    stmt.targets = [] ∧ stmt.prerequisites = [] ∧ stmt.values kind = [] ∧ stmt.defined = [] := by
  cases stmt with
  | assign | rule => cases h
  | command | directive => exact ⟨rfl, rfl, rfl, rfl⟩

/-- Commands and directives list and define nothing. -/
theorem quiet_lists (h : ∀ stmt ∈ stmts, stmt.isQuiet = true) (kind : List Char → Bool) :
    stmts.flatMap Stmt.targets = [] ∧ stmts.flatMap Stmt.prerequisites = [] ∧
      stmts.flatMap (Stmt.values kind) = [] ∧ stmts.flatMap Stmt.defined = [] := by
  simp only [List.flatMap_eq_nil_iff]
  have hlists := fun stmt hstmt => Stmt.quiet_lists (h stmt hstmt) kind
  exact ⟨fun stmt hstmt => (hlists stmt hstmt).1, fun stmt hstmt => (hlists stmt hstmt).2.1,
    fun stmt hstmt => (hlists stmt hstmt).2.2.1, fun stmt hstmt => (hlists stmt hstmt).2.2.2⟩

end Quiet

/-! ## What a variable collects -/

/-- What a statement leaves of the values of a variable; a condition around it is taken to
hold. -/
def Stmt.update (name : List Char) (vals : List (List Char)) : Stmt → List (List Char)
  | .assign other more adds =>
    if other = name then (if adds then vals ++ more else more) else vals
  | .rule _ _ | .command _ | .directive _ => vals

def Stmt.assigns (name : List Char) : Stmt → Bool
  | .assign other _ _ => other == name
  | .rule _ _ | .command _ | .directive _ => false

/-- The values of a variable behind the statements. -/
def collect (name : List Char) (vals : List (List Char)) (stmts : List Stmt) :
    List (List Char) := stmts.foldl (Stmt.update name) vals

def valueOf (name : List Char) (stmts : List Stmt) : List (List Char) := collect name [] stmts

section Collect
variable {name : List Char} {vals : List (List Char)} {stmts : List Stmt}

theorem Stmt.update_other {stmt : Stmt} (h : stmt.assigns name = false) :
    stmt.update name vals = vals := by
  cases stmt with
  | assign other more adds => exact if_neg (beq_eq_false_iff_ne.mp h)
  | rule | command | directive => rfl

theorem Stmt.assigns_of_quiet {stmt : Stmt} (h : stmt.isQuiet = true) :
    stmt.assigns name = false := by
  cases stmt with
  | assign | rule => cases h
  | command | directive => rfl

theorem collect_append (more : List Stmt) :
    collect name vals (stmts ++ more) = collect name (collect name vals stmts) more :=
  List.foldl_append

theorem collect_others (h : ∀ stmt ∈ stmts, stmt.assigns name = false) :
    collect name vals stmts = vals := by
  induction stmts with
  | nil => rfl
  | cons stmt stmts ih =>
    rw [collect, List.foldl_cons, Stmt.update_other (h stmt List.mem_cons_self)]
    exact ih fun s hs => h s (List.mem_cons_of_mem stmt hs)

theorem collect_flatMap {α : Type} {l : List α} {f : α → List Stmt}
    {step : List (List Char) → α → List (List Char)}
    (h : ∀ x ∈ l, ∀ vals, collect name vals (f x) = step vals x) :
    collect name vals (l.flatMap f) = l.foldl step vals := by
  induction l generalizing vals with
  | nil => rfl
  | cons x l ih =>
    rw [List.flatMap_cons, collect_append, h x List.mem_cons_self, List.foldl_cons]
    exact ih fun y hy => h y (List.mem_cons_of_mem x hy)

end Collect
end M65Tool.Lib.MakeText
