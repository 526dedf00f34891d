import Mathlib.Data.List.TakeWhile
import Mathlib.Data.Nat.Find

/-!
# Splitting a text

`Leftmost` is the first place where a pattern stands in a text. `Splits` cuts a text at
the leftmost delimiter, again and again; its parts join back to the text, none of them
has the delimiter in it, and there is one more of them than `greedyCount` counts.
`words` are the maximal runs of a text without separators.
-/
namespace M65Tool.Lib.Splitting

section Occurrences
variable {α : Type} {text pattern : List α} {i j : Nat}

/-- The pattern stands in the text at this position. -/
def OccursAt (text pattern : List α) (i : Nat) : Prop :=
  i ≤ text.length ∧ pattern <+: text.drop i

instance [DecidableEq α] : Decidable (OccursAt text pattern i) :=
  inferInstanceAs (Decidable (_ ∧ _))

structure Leftmost (text pattern : List α) (i : Nat) : Prop where
  occurs : OccursAt text pattern i
  first : ∀ j < i, ¬ OccursAt text pattern j

theorem OccursAt.le (h : OccursAt text pattern i) : i + pattern.length ≤ text.length := by
  have hlen := h.2.length_le
  rw [List.length_drop] at hlen
  have := h.1
  omega

theorem occursAt_zero : OccursAt text pattern 0 ↔ pattern <+: text := by
  simp [OccursAt]

theorem occursAt_cons_succ {x : α} :
    OccursAt (x :: text) pattern (i + 1) ↔ OccursAt text pattern i := by
  simp [OccursAt]

/-- Below the bound, an occurrence is one of the positions at which all elements agree. -/
theorem occursAt_iff_getElem? : OccursAt text pattern i ↔
    i + pattern.length ≤ text.length ∧ ∀ k < pattern.length, text[i + k]? = pattern[k]? := by
  constructor
  · intro h
    refine ⟨h.le, ?_⟩
    intro k hk
    obtain ⟨rest, hrest⟩ := h.2
    rw [← List.getElem?_drop, ← hrest, List.getElem?_append_left hk]
  · intro ⟨hle, hall⟩
    refine ⟨by omega, ?_⟩
    rw [List.prefix_iff_eq_take]
    apply List.ext_getElem?
    intro k
    by_cases hk : k < pattern.length
    · rw [List.getElem?_take_of_lt hk, List.getElem?_drop, hall k hk]
    · rw [List.getElem?_eq_none (by omega), List.getElem?_eq_none (by
        rw [List.length_take]
        omega)]

theorem exists_leftmost (h : OccursAt text pattern i) : ∃ k, Leftmost text pattern k := by
  classical
  exact ⟨Nat.find ⟨i, h⟩, Nat.find_spec ⟨i, h⟩, fun _ hj => Nat.find_min ⟨i, h⟩ hj⟩

theorem Leftmost.unique (hi : Leftmost text pattern i) (hj : Leftmost text pattern j) : i = j := by
  rcases Nat.lt_trichotomy i j with hlt | he | hlt
  · exact absurd hi.occurs (hj.first i hlt)
  · exact he
  · exact absurd hj.occurs (hi.first j hlt)

/-- The text before, at and after an occurrence. -/
theorem OccursAt.split (h : OccursAt text pattern i) :
    text.take i ++ pattern ++ text.drop (i + pattern.length) = text := by
  obtain ⟨rest, hrest⟩ := h.2
  have hafter : text.drop (i + pattern.length) = rest := by
    rw [← List.drop_drop, ← hrest, List.drop_left]
  rw [hafter, List.append_assoc, hrest, List.take_append_drop]

/-- Before the leftmost occurrence there is none, not even a part of one. -/
theorem Leftmost.absent_before (h : Leftmost text pattern i) (hp : pattern ≠ []) :
    ∀ j, ¬ OccursAt (text.take i) pattern j := by
  intro j hj
  have hlen := hj.le
  have hpos := List.length_pos_iff.mpr hp
  rw [List.length_take] at hlen
  apply h.first j (by omega)
  rw [occursAt_iff_getElem?] at hj ⊢
  refine ⟨by omega, ?_⟩
  intro k hk
  rw [← hj.2 k hk, List.getElem?_take_of_lt (by omega)]

end Occurrences

/-! ## Splitting on a delimiter -/

section Delimiter
variable {α : Type} {text delim : List α} {parts : List (List α)}

inductive Splits (delim : List α) : List α → List (List α) → Prop
  | last {text : List α} (absent : ∀ i, ¬ OccursAt text delim i) : Splits delim text [text]
  | pop {text : List α} {i : Nat} {rest : List (List α)} (first : Leftmost text delim i)
      (splits : Splits delim (text.drop (i + delim.length)) rest) :
      Splits delim text (text.take i :: rest)

theorem Splits.ne_nil (h : Splits delim text parts) : parts ≠ [] := by
  cases h <;> simp

theorem Splits.joins (h : Splits delim text parts) : delim.intercalate parts = text := by
  induction h with
  | last absent => exact List.intercalate_singleton
  | pop first splits ih =>
    rw [List.intercalate_cons_of_ne_nil splits.ne_nil, ih]
    exact first.occurs.split

theorem Splits.delim_free (h : Splits delim text parts) (hd : delim ≠ []) :
    ∀ part ∈ parts, ∀ i, ¬ OccursAt part delim i := by
  induction h with
  | last absent =>
    intro part hpart
    rw [List.mem_singleton.mp hpart]
    exact absent
  | pop first splits ih =>
    intro part hpart
    rcases List.mem_cons.mp hpart with rfl | hrest
    · exact first.absent_before hd
    · exact ih part hrest

/-- How many times the delimiter is met when the text is read from the left, going on
behind each one met. -/
def greedyCount [DecidableEq α] (delim : List α) : List α → Nat
  | [] => 0
  | x :: xs =>
    if delim <+: x :: xs then greedyCount delim (xs.drop (delim.length - 1)) + 1
    else greedyCount delim xs
  termination_by text => text.length
  decreasing_by
    · rw [List.length_drop, List.length_cons]
      omega
    · exact Nat.lt_succ_self _

theorem greedyCount_absent [DecidableEq α] (absent : ∀ i, ¬ OccursAt text delim i) :
    greedyCount delim text = 0 := by
  induction text with
  | nil => simp [greedyCount]
  | cons x xs ih =>
    rw [greedyCount, if_neg fun h => absent 0 (occursAt_zero.mpr h)]
    exact ih fun i hi => absent (i + 1) (occursAt_cons_succ.mpr hi)

theorem greedyCount_leftmost [DecidableEq α] (hd : delim ≠ []) {i : Nat}
    (h : Leftmost text delim i) :
    greedyCount delim text = greedyCount delim (text.drop (i + delim.length)) + 1 := by
  have hpos := List.length_pos_iff.mpr hd
  induction i generalizing text with
  | zero =>
    cases text with
    | nil =>
      have := h.occurs.le
      simp only [List.length_nil] at this
      omega
    | cons x xs =>
      rw [greedyCount, if_pos (occursAt_zero.mp h.occurs)]
      obtain ⟨n, hn⟩ := Nat.exists_eq_succ_of_ne_zero (Nat.ne_of_gt hpos)
      simp [hn]
  | succ i ih =>
    cases text with
    | nil => exact absurd h.occurs.1 (by simp)
    | cons x xs =>
      have hnot : ¬ delim <+: x :: xs := fun hp => h.first 0 (by omega) (occursAt_zero.mpr hp)
      have htail : Leftmost xs delim i := by
        refine ⟨occursAt_cons_succ.mp h.occurs, ?_⟩
        intro j hj hoccurs
        exact h.first (j + 1) (by omega) (occursAt_cons_succ.mpr hoccurs)
      rw [greedyCount, if_neg hnot, ih htail]
      simp [Nat.add_right_comm]

theorem Splits.length_eq [DecidableEq α] (h : Splits delim text parts) (hd : delim ≠ []) :
    parts.length = greedyCount delim text + 1 := by
  induction h with
  | last absent => rw [greedyCount_absent absent, List.length_singleton]
  | pop first splits ih => rw [List.length_cons, ih, greedyCount_leftmost hd first]

end Delimiter

/-! ## Words -/

section Words
variable {α : Type} {sep : α → Bool} {text : List α}

/-- The parts between separators that are not empty. -/
def words (sep : α → Bool) (text : List α) : List (List α) :=
  (text.splitOnP sep).filter fun word => !word.isEmpty

@[simp] theorem words_nil : words sep [] = [] := by
  simp [words]

/-- Leading separators are skipped. -/
theorem words_dropWhile (sep : α → Bool) (text : List α) :
    words sep (text.dropWhile sep) = words sep text := by
  induction text with
  | nil => rfl
  | cons x xs ih =>
    rw [List.dropWhile_cons]
    split
    · rename_i hx
      rw [ih]
      unfold words
      rw [List.splitOnP_cons_eq_if_modifyHead, if_pos hx, List.filter_cons]
      simp
    · rfl

/-- A text that starts with no separator starts with a word, up to the next separator. -/
theorem words_cons {x : α} (hx : sep x = false) (xs : List α) :
    words sep (x :: xs) = (x :: xs).takeWhile (fun y => !sep y) ::
      words sep ((x :: xs).dropWhile fun y => !sep y) := by
  have hhead : ∀ y ∈ (x :: xs).takeWhile (fun y => !sep y), sep y = false := by
    intro y hy
    simpa using List.mem_takeWhile_imp hy
  have hne : ((x :: xs).takeWhile (fun y => !sep y)).isEmpty = false := by
    simp [hx]
  cases hrest : (x :: xs).dropWhile (fun y => !sep y) with
  | nil =>
    have hall : (x :: xs).takeWhile (fun y => !sep y) = x :: xs := by
      have := List.takeWhile_append_dropWhile (p := fun y => !sep y) (l := x :: xs)
      rw [hrest, List.append_nil] at this
      exact this
    rw [hall] at hhead hne ⊢
    rw [words, List.splitOnP_eq_singleton hhead]
    simp
  | cons y ys =>
    have hy : sep y = true := by
      have := List.head?_dropWhile_not (p := fun y => !sep y) (l := x :: xs)
      rw [hrest] at this
      simpa using this
    have htext := List.takeWhile_append_dropWhile (p := fun y => !sep y) (l := x :: xs)
    rw [hrest] at htext
    have hsplit := List.splitOnP_append_cons_of_forall_mem hhead y hy ys
    rw [htext] at hsplit
    rw [words, hsplit, List.filter_cons, hne]
    unfold words
    rw [List.splitOnP_cons_eq_if_modifyHead, if_pos hy, List.filter_cons]
    simp

theorem words_ne_nil {word : List α} (h : word ∈ words sep text) : word ≠ [] := by
  have hne := (List.mem_filter.mp h).2
  rintro rfl
  simp at hne

/-- At a separator the words of a text are those before it and those behind it. -/
theorem words_append_cons {x : α} (hx : sep x = true) (text rest : List α) :
    words sep (text ++ x :: rest) = words sep text ++ words sep rest := by
  rw [words, List.splitOnP_append_cons _ _ hx, List.filter_append]
  rfl

/-- A part of a text that has a separator lies on one side of it. -/
theorem infix_append_cons {part text rest : List α} {x : α} (h : part <:+: text ++ x :: rest)
    (hx : x ∉ part) : part <:+: text ∨ part <:+: rest := by
  obtain ⟨before, behind, hparts⟩ := h
  rcases List.append_eq_append_iff.mp hparts with ⟨m, rfl, -⟩ | ⟨m, hm, hrest⟩
  · exact Or.inl ⟨before, m, rfl⟩
  · cases m with
    | nil =>
      rw [List.append_nil] at hm
      exact Or.inl ⟨before, [], by rw [List.append_nil, hm]⟩
    | cons y m =>
      obtain ⟨rfl, rfl⟩ := List.cons.inj hrest
      rcases List.append_eq_append_iff.mp hm with ⟨n, -, rfl⟩ | ⟨n, -, hn⟩
      · exact absurd (List.mem_append_right n List.mem_cons_self) hx
      · cases n with
        | nil =>
          rw [List.nil_append] at hn
          exact absurd (hn ▸ List.mem_cons_self) hx
        | cons z n =>
          obtain ⟨-, rfl⟩ := List.cons.inj hn
          exact Or.inr ⟨n, behind, rfl⟩

theorem words_single {word : List α} (hne : word ≠ []) (h : ∀ x ∈ word, sep x = false) :
    words sep word = [word] := by
  rw [words, List.splitOnP_eq_singleton h, List.filter_cons_of_pos (by simpa using hne)]
  rfl

/-- What is left out adds nothing. -/
theorem filter_flatMap_of_nil {β : Type} {l : List α} {p : α → Bool} {g : α → List β}
    (h : ∀ a ∈ l, p a = false → g a = []) : (l.filter p).flatMap g = l.flatMap g := by
  induction l with
  | nil => rfl
  | cons a l ih =>
    have hrest := ih fun b hb => h b (List.mem_cons_of_mem a hb)
    cases hp : p a with
    | true => rw [List.filter_cons_of_pos hp, List.flatMap_cons, List.flatMap_cons, hrest]
    | false =>
      rw [List.filter_cons_of_neg (by simp [hp]), List.flatMap_cons, hrest,
        h a List.mem_cons_self hp, List.nil_append]

/-! ### A text that is read from the left -/

/-- The end of the run of elements that pass the test, from the position on. -/
def runEnd (test : α → Bool) (text : List α) (n : Nat) : Nat :=
  n + ((text.drop n).takeWhile test).length

theorem drop_runEnd (test : α → Bool) (text : List α) (n : Nat) :
    text.drop (runEnd test text n) = (text.drop n).dropWhile test := by
  have hsplit := List.takeWhile_append_dropWhile (p := test) (l := text.drop n)
  have hdrop := congrArg (List.drop ((text.drop n).takeWhile test).length) hsplit
  rw [List.drop_left] at hdrop
  rw [runEnd, ← List.drop_drop, ← hdrop]

theorem le_runEnd (test : α → Bool) (text : List α) (n : Nat) : n ≤ runEnd test text n :=
  Nat.le_add_right _ _

theorem runEnd_le (test : α → Bool) {n : Nat} (h : n ≤ text.length) :
    runEnd test text n ≤ text.length := by
  have hlen := (List.takeWhile_prefix (l := text.drop n) test).length_le
  rw [List.length_drop] at hlen
  unfold runEnd
  omega

theorem take_runEnd (test : α → Bool) (text : List α) (n : Nat) :
    (text.drop n).take (runEnd test text n - n) = (text.drop n).takeWhile test := by
  have hsplit := List.takeWhile_append_dropWhile (p := test) (l := text.drop n)
  have htake := congrArg (List.take ((text.drop n).takeWhile test).length) hsplit
  rw [List.take_left] at htake
  rw [runEnd, Nat.add_sub_cancel_left, ← htake]

theorem runEnd_stop (test : α → Bool) {n : Nat} (h : ∀ x, text[n]? = some x → test x = false) :
    runEnd test text n = n := by
  unfold runEnd
  cases hrest : text.drop n with
  | nil => rfl
  | cons x xs =>
    have hx : text[n]? = some x := by
      rw [← List.head?_drop, hrest]
      rfl
    rw [List.takeWhile_cons, h x hx]
    rfl

theorem runEnd_step (test : α → Bool) {n : Nat} {x : α} (hx : text[n]? = some x)
    (hpass : test x = true) : runEnd test text n = runEnd test text (n + 1) := by
  obtain ⟨hn, rfl⟩ := List.getElem?_eq_some_iff.mp hx
  unfold runEnd
  rw [List.drop_eq_getElem_cons hn, List.takeWhile_cons, if_pos hpass, List.length_cons]
  omega

/-- The element at which a run ends. -/
theorem runEnd_next (test : α → Bool) {n : Nat} {x : α}
    (hx : text[runEnd test text n]? = some x) : test x = false := by
  obtain ⟨hn, rfl⟩ := List.getElem?_eq_some_iff.mp hx
  have hhead := List.head?_dropWhile_not test (text.drop n)
  rw [← drop_runEnd, List.head?_drop, List.getElem?_eq_getElem hn] at hhead
  exact hhead

/-- A word has at least one element. -/
theorem lt_runEnd_word (sep : α → Bool) {start : Nat} (hstart : runEnd sep text 0 = start)
    (hlt : start < text.length) : start < runEnd (fun x => !sep x) text start := by
  have hx := List.getElem?_eq_getElem hlt
  have hword : sep text[start] = false := by
    subst hstart
    exact runEnd_next sep hx
  rw [runEnd_step _ hx (by rw [hword]; rfl)]
  exact le_runEnd _ text (start + 1)

/-- The first word of a text and the words behind it, by the positions at which the word
starts and ends and the next one starts. -/
theorem words_runEnd (sep : α → Bool) (text : List α) {start stop next : Nat}
    (hstart : start = runEnd sep text 0) (hstop : stop = runEnd (fun x => !sep x) text start)
    (hnext : next = runEnd sep text stop) :
    words sep text =
      if start < text.length then
        (text.drop start).take (stop - start) :: words sep (text.drop next)
      else [] := by
  have hskip : words sep text = words sep (text.drop start) := by
    rw [hstart, drop_runEnd, List.drop_zero, words_dropWhile]
  rw [hskip]
  split
  · rename_i hlt
    have hx : sep text[start] = false := by
      subst hstart
      exact runEnd_next sep (List.getElem?_eq_getElem hlt)
    rw [hnext, drop_runEnd, words_dropWhile, hstop, take_runEnd, drop_runEnd,
      List.drop_eq_getElem_cons hlt, words_cons hx]
  · rw [List.drop_of_length_le (by omega), words_nil]

/-- The number of the words, by those behind the first word. -/
theorem length_words_runEnd (sep : α → Bool) (text : List α) {start stop next : Nat}
    (hstart : start = runEnd sep text 0) (hstop : stop = runEnd (fun x => !sep x) text start)
    (hnext : next = runEnd sep text stop) :
    (words sep text).length =
      (words sep (text.drop next)).length + if stop - start > 0 then 1 else 0 := by
  rw [words_runEnd sep text hstart hstop hnext]
  have hstartstop : start ≤ stop := hstop ▸ le_runEnd _ text start
  have hstopnext : stop ≤ next := hnext ▸ le_runEnd sep text stop
  by_cases hlt : start < text.length
  · have hlong : start < stop := hstop ▸ lt_runEnd_word sep hstart.symm hlt
    rw [if_pos hlt, if_pos (by omega), List.length_cons]
  · have hstople : stop ≤ text.length :=
      hstop ▸ runEnd_le _ (hstart ▸ runEnd_le sep (Nat.zero_le _))
    rw [if_neg hlt, if_neg (by omega), List.drop_of_length_le (by omega), words_nil]
    rfl

/-- Where the second word of a text starts, or where the text ends. -/
def secondWord (sep : α → Bool) (text : List α) : Nat :=
  runEnd sep text (runEnd (fun x => !sep x) text (runEnd sep text 0))

/-- A run of a text that is cut off ends at the cut at the latest. -/
theorem runEnd_take (test : α → Bool) (text : List α) (n i : Nat) :
    runEnd test (text.take i) (min i n) = min i (runEnd test text n) := by
  unfold runEnd
  rcases Nat.le_total n i with h | h
  · rw [Nat.min_eq_right h, List.drop_take, ← List.take_takeWhile, List.length_take]
    omega
  · have hrest : (text.take i).drop i = [] := List.drop_of_length_le (List.length_take_le i text)
    rw [Nat.min_eq_left h, hrest, List.takeWhile_nil, List.length_nil]
    omega

/-- Before the second word of a text there is at most one word, from there on there are
two. -/
theorem words_take_iff (sep : α → Bool) {i : Nat} (hi : i ≤ text.length) :
    (words sep (text.take i)).length ≤ 1 ↔ i ≤ secondWord sep text := by
  generalize hstart : runEnd sep text 0 = start
  generalize hstop : runEnd (fun x => !sep x) text start = stop
  generalize hnext : runEnd sep text stop = next
  have hsecond : secondWord sep text = next := by rw [secondWord, hstart, hstop, hnext]
  have hstart' : min i start = runEnd sep (text.take i) 0 := by
    rw [← hstart, ← runEnd_take, Nat.min_zero]
  have hstop' : min i stop = runEnd (fun x => !sep x) (text.take i) (min i start) := by
    rw [runEnd_take, hstop]
  have hnext' : min i next = runEnd sep (text.take i) (min i stop) := by rw [runEnd_take, hnext]
  have hwords := words_runEnd sep (text.take i) hstart' hstop' hnext'
  have hlen : (text.take i).length = i := by
    rw [List.length_take]
    omega
  have hordered : start ≤ next :=
    Nat.le_trans (hstop ▸ le_runEnd _ text start) (hnext ▸ le_runEnd sep text stop)
  rw [hsecond, hwords, hlen]
  rcases Nat.lt_or_ge next i with h | h
  · obtain ⟨x, rest, hdrop⟩ : ∃ x rest, text.drop next = x :: rest :=
      ⟨_, _, List.drop_eq_getElem_cons (show next < text.length by omega)⟩
    have hhead : sep x = false := by
      have hget : text[next]? = some x := by
        rw [← List.head?_drop, hdrop]
        rfl
      rw [← hnext] at hget
      exact runEnd_next sep hget
    have hrest : (text.take i).drop next = x :: rest.take (i - next - 1) := by
      obtain ⟨k, hk⟩ := Nat.exists_eq_succ_of_ne_zero (show i - next ≠ 0 by omega)
      rw [List.drop_take, hdrop, hk]
      rfl
    rw [Nat.min_eq_right (Nat.le_of_lt h), if_pos (by omega), hrest, words_cons hhead]
    simp only [List.length_cons]
    omega
  · rw [Nat.min_eq_left h, List.drop_of_length_le (Nat.le_of_eq hlen), words_nil]
    refine iff_of_true ?_ h
    split
    · exact Nat.le_refl 1
    · exact Nat.zero_le 1

/-! ### Strides from word to word -/

theorem secondWord_le : secondWord sep text ≤ text.length :=
  runEnd_le _ (runEnd_le _ (runEnd_le _ (Nat.zero_le _)))

theorem runEnd_pass {test : α → Bool} {n k : Nat} {x : α} (hn : n ≤ k)
    (hk : k < runEnd test text n) (hx : text[k]? = some x) : test x = true := by
  have hlt : k - n < ((text.drop n).takeWhile test).length := by
    unfold runEnd at hk
    omega
  have hget : ((text.drop n).takeWhile test)[k - n]? = some x := by
    obtain ⟨rest, hrest⟩ := List.takeWhile_prefix (l := text.drop n) test
    rw [← List.getElem?_append_left hlt, hrest, List.getElem?_drop, ← hx]
    congr 1
    omega
  exact List.mem_takeWhile_imp (List.mem_of_getElem? hget)

/-- From the start of the text, and from that of each word behind a separator, the second
word is that near. -/
structure StridesWithin (sep : α → Bool) (n : Nat) (text : List α) : Prop where
  first : secondWord sep text ≤ n
  later : ∀ i x y, text[i]? = some x → sep x = true → text[i + 1]? = some y → sep y = false →
    secondWord sep (text.drop (i + 1)) ≤ n

theorem stridesWithin_of_length {n : Nat} (h : text.length ≤ n) : StridesWithin sep n text where
  first := secondWord_le.trans h
  later i _ _ _ _ _ _ := by
    have hle : secondWord sep (text.drop (i + 1)) ≤ (text.drop (i + 1)).length := secondWord_le
    rw [List.length_drop] at hle
    omega

/-- The second word of a text has a separator before it. -/
theorem secondWord_behind (hlt : secondWord sep text < text.length) :
    ∃ i x y, secondWord sep text = i + 1 ∧ text[i]? = some x ∧ sep x = true ∧
      text[i + 1]? = some y ∧ sep y = false := by
  unfold secondWord at hlt ⊢
  generalize hstop : runEnd (fun x => !sep x) text (runEnd sep text 0) = stop at hlt ⊢
  have hnext := runEnd_next sep (List.getElem?_eq_getElem hlt)
  have hpast : stop < runEnd sep text stop := by
    refine lt_of_le_of_ne (le_runEnd sep text stop) fun hsame => ?_
    have hword : text[runEnd (fun x => !sep x) text (runEnd sep text 0)]? =
        some text[runEnd sep text stop] := by
      rw [hstop, ← List.getElem?_eq_getElem hlt, ← hsame]
    have hend := runEnd_next _ hword
    rw [hnext] at hend
    cases hend
  obtain ⟨i, hi⟩ := Nat.exists_eq_succ_of_ne_zero (Nat.ne_of_gt (Nat.zero_lt_of_lt hpast))
  have hbefore := List.getElem?_eq_getElem (show i < text.length by omega)
  refine ⟨i, _, _, hi, hbefore, runEnd_pass (n := stop) (by omega) (by omega) hbefore, ?_, hnext⟩
  rw [← List.getElem?_eq_getElem hlt, hi]

theorem StridesWithin.second {n : Nat} (h : StridesWithin sep n text)
    (hlt : secondWord sep text < text.length) :
    StridesWithin sep n (text.drop (secondWord sep text)) where
  first := by
    obtain ⟨i, x, y, hi, hx, hsep, hy, hword⟩ := secondWord_behind hlt
    rw [hi]
    exact h.later i x y hx hsep hy hword
  later j x y hx hsep hy hword := by
    rw [List.getElem?_drop] at hx hy
    rw [List.drop_drop, ← Nat.add_assoc]
    exact h.later _ x y hx hsep hy hword

theorem runEnd_again (test : α → Bool) (text : List α) (n : Nat) :
    runEnd test text (runEnd test text n) = runEnd test text n :=
  runEnd_stop test fun _ hx => runEnd_next test hx

theorem runEnd_drop (test : α → Bool) (text : List α) (k n : Nat) :
    runEnd test (text.drop k) n + k = runEnd test text (k + n) := by
  unfold runEnd
  rw [List.drop_drop]
  omega

theorem words_drop_runEnd (sep : α → Bool) (text : List α) :
    words sep (text.drop (runEnd sep text 0)) = words sep text := by
  rw [drop_runEnd, List.drop_zero, words_dropWhile]

/-- Where a text starts with its first word, no separator comes before it. -/
theorem runEnd_drop_self (test : α → Bool) (text : List α) (n : Nat) :
    runEnd test (text.drop (runEnd test text n)) 0 = 0 := by
  have hdrop := runEnd_drop test text (runEnd test text n) 0
  rw [Nat.add_zero, runEnd_again] at hdrop
  omega

theorem secondWord_drop (sep : α → Bool) (text : List α) :
    secondWord sep (text.drop (runEnd sep text 0)) + runEnd sep text 0 = secondWord sep text := by
  have hword := runEnd_drop (fun x => !sep x) text (runEnd sep text 0) 0
  rw [Nat.add_zero] at hword
  rw [secondWord, runEnd_drop_self, runEnd_drop, Nat.add_comm, hword]
  rfl

/-- The strides of a text, given those from its second word on. -/
theorem StridesWithin.of_second {n : Nat} (first : secondWord sep text ≤ n)
    (rest : secondWord sep text < text.length →
      StridesWithin sep n (text.drop (secondWord sep text))) : StridesWithin sep n text where
  first := first
  later i x y hx hsep hy hword := by
    have hlead := secondWord_drop sep text
    have hlt : i + 1 < text.length := (List.getElem?_eq_some_iff.mp hy).1
    unfold secondWord at first hlead rest
    generalize hstart : runEnd sep text 0 = start at *
    generalize hstop : runEnd (fun x => !sep x) text start = stop at *
    generalize hnext : runEnd sep text stop = next at *
    rcases Nat.lt_trichotomy (i + 1) start with hbefore | hfirst | hbehind
    · have hpass := runEnd_pass (Nat.zero_le _) (hstart ▸ hbefore) hy
      rw [hword] at hpass
      cases hpass
    · rw [hfirst]
      exact Nat.le_trans (Nat.le.intro hlead) first
    rcases Nat.lt_or_ge i stop with hinside | hpast
    · have hpass := runEnd_pass (Nat.le_of_lt_succ hbehind) (hstop ▸ hinside) hx
      rw [hsep] at hpass
      cases hpass
    rcases Nat.lt_trichotomy (i + 1) next with hgap | hsecond | hlater
    · have hpass := runEnd_pass (Nat.le_succ_of_le hpast) (hnext ▸ hgap) hy
      rw [hword] at hpass
      cases hpass
    · rw [hsecond]
      exact (rest (hsecond ▸ hlt)).first
    · have hle : next ≤ i := Nat.le_of_lt_succ hlater
      have hfrom := (rest (by omega)).later (i - next) x y
      rw [List.getElem?_drop, List.getElem?_drop, List.drop_drop, ← Nat.add_assoc,
        Nat.add_sub_cancel' hle] at hfrom
      exact hfrom hx hsep hy hword

end Words
end M65Tool.Lib.Splitting
