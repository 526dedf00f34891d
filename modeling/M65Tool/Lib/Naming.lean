import Mathlib.Data.List.Nodup
import Mathlib.Data.List.Pairwise
import Mathlib.Data.List.Perm.Basic
import Mathlib.Data.List.TakeWhile

/-!
# Names that are put together from parts

Generated names have a fixed beginning and a fixed end; the part between them can be read
off again, and names with different beginnings or ends differ. `DefinedOnce` is what a list
of definitions has to satisfy for those of one kind to be unambiguous.
-/
namespace M65Tool.Lib.Naming

/-! ## Beginnings and ends -/

section Affixes
variable {start ending a b x y s t : String}

theorem pasted_inj : start ++ a ++ ending = start ++ b ++ ending ↔ a = b := by
  rw [String.append_left_inj, String.append_right_inj]

/-- Two names differ if neither end is an end of the other. -/
theorem ends_differ (hs : ¬ s.toList <:+ t.toList) (ht : ¬ t.toList <:+ s.toList) :
    x ++ s ≠ y ++ t := by
  intro heq
  have hlist : x.toList ++ s.toList = y.toList ++ t.toList := by
    rw [← String.toList_append, ← String.toList_append, heq]
  rcases List.suffix_or_suffix_of_suffix (List.suffix_append x.toList s.toList)
    (hlist ▸ List.suffix_append y.toList t.toList) with h | h
  · exact hs h
  · exact ht h

/-- Two names differ if neither beginning is a beginning of the other. -/
theorem starts_differ (hs : ¬ s.toList <+: t.toList) (ht : ¬ t.toList <+: s.toList) :
    s ++ x ≠ t ++ y := by
  intro heq
  have hlist : s.toList ++ x.toList = t.toList ++ y.toList := by
    rw [← String.toList_append, ← String.toList_append, heq]
  rcases List.prefix_or_prefix_of_prefix (List.prefix_append s.toList x.toList)
    (hlist ▸ List.prefix_append t.toList y.toList) with h | h
  · exact hs h
  · exact ht h

/-- A name that is written twice can be read off. -/
theorem doubled_inj (h : a ++ (s ++ (a ++ t)) = b ++ (s ++ (b ++ t))) : a = b := by
  have hlist := congrArg String.toList h
  simp only [String.toList_append] at hlist
  have hlength := congrArg List.length hlist
  simp only [List.length_append] at hlength
  exact String.toList_inj.mp (List.append_inj_left hlist (by omega))

end Affixes

/-- What stands between a beginning and an end that do not overlap. -/
def middle (start ending word : List Char) : Option (List Char) :=
  let front := word.take (word.length - ending.length)
  if ending <:+ word ∧ start <+: front then some (front.drop start.length) else none

theorem middle_eq_some {start ending word x : List Char} :
    middle start ending word = some x ↔ word = start ++ x ++ ending := by
  constructor
  · intro h
    rw [middle] at h
    split at h
    · rename_i hends
      obtain ⟨⟨front, rfl⟩, ⟨inner, hinner⟩⟩ := hends
      rw [List.length_append, Nat.add_sub_cancel, List.take_left] at h hinner
      rw [← hinner, List.drop_left] at h
      rw [← hinner, Option.some.inj h]
    · cases h
  · rintro rfl
    have hfront : (start ++ x ++ ending).take ((start ++ x ++ ending).length - ending.length) =
        start ++ x := by
      rw [List.length_append, Nat.add_sub_cancel, List.take_left]
    rw [middle, if_pos]
    · rw [hfront, List.drop_left]
    · rw [hfront]
      exact ⟨List.suffix_append _ _, List.prefix_append _ _⟩

/-! ## The last part of a path -/

/-- What is behind the last slash. -/
def fileName (path : String) : List Char := (path.toList.reverse.takeWhile (· != '/')).reverse

theorem takeWhile_slash {cs : List Char} (h : '/' ∉ cs) : cs.takeWhile (· != '/') = cs :=
  List.takeWhile_eq_self_iff.mpr fun c hc => by
    simp only [bne_iff_ne]
    rintro rfl
    exact h hc

theorem takeWhile_slash_head (rest : List Char) : ('/' :: rest).takeWhile (· != '/') = [] := rfl

theorem takeWhile_append_slash (cs rest : List Char) :
    (cs ++ '/' :: rest).takeWhile (· != '/') = cs.takeWhile (· != '/') := by
  rw [List.takeWhile_append]
  split
  · rename_i hall
    rw [(List.takeWhile_prefix _).eq_of_length hall, takeWhile_slash_head, List.append_nil]
  · rfl

theorem fileName_of_no_slash {name : String} (h : '/' ∉ name.toList) :
    fileName name = name.toList := by
  rw [fileName, takeWhile_slash (by simpa using h), List.reverse_reverse]

theorem fileName_append (dir name : String) : fileName (dir ++ "/" ++ name) = fileName name := by
  have hlist : (dir ++ "/" ++ name).toList.reverse =
      name.toList.reverse ++ '/' :: dir.toList.reverse := by
    simp [String.toList_append]
  rw [fileName, hlist, takeWhile_append_slash, fileName]

/-! ## Definitions -/

section Definitions
variable {α β : Type} {kind : α → Bool} {text : α → β} {l : List α}

/-- No definition of the kind has the name of another definition. -/
def DefinedOnce (kind : α → Bool) (text : α → β) (l : List α) : Prop :=
  l.Pairwise fun a b => kind a = true ∨ kind b = true → text a ≠ text b

/-- Those of the kind differ from one another, and from the others. -/
theorem definedOnce_iff : DefinedOnce kind text l ↔
    ((l.filter kind).map text).Nodup ∧
      ∀ a ∈ l, kind a = true → ∀ b ∈ l, kind b = false → text a ≠ text b := by
  constructor
  · intro once
    constructor
    · refine List.pairwise_map.mpr ((once.filter kind).imp_of_mem ?_)
      intro a b ha _ hne
      exact hne (Or.inl (List.mem_filter.mp ha).2)
    · intro a ha hkind b hb hother
      have hsymm : Std.Symm fun a b : α => kind a = true ∨ kind b = true → text a ≠ text b :=
        ⟨fun _ _ hne hor => (hne hor.symm).symm⟩
      have hab : a ≠ b := by
        rintro rfl
        rw [hkind] at hother
        cases hother
      exact once.forall ha hb hab (Or.inl hkind)
  · rintro ⟨hnodup, hapart⟩
    induction l with
    | nil => exact List.Pairwise.nil
    | cons a l ih =>
      have hrest : DefinedOnce kind text l := by
        refine ih ?_ fun b hb hkind c hc => hapart b (List.mem_cons_of_mem a hb) hkind c
          (List.mem_cons_of_mem a hc)
        exact hnodup.sublist (((List.sublist_cons_self a l).filter kind).map text)
      refine List.pairwise_cons.mpr ⟨?_, hrest⟩
      intro b hb hor
      cases ha : kind a with
      | false =>
        have hb' : kind b = true := hor.resolve_left (by rw [ha]; exact Bool.false_ne_true)
        exact (hapart b (List.mem_cons_of_mem a hb) hb' a List.mem_cons_self ha).symm
      | true =>
        cases hb' : kind b with
        | false => exact hapart a List.mem_cons_self ha b (List.mem_cons_of_mem a hb) hb'
        | true =>
          rw [List.filter_cons_of_pos ha, List.map_cons] at hnodup
          have hmem : text b ∈ (l.filter kind).map text :=
            List.mem_map_of_mem (List.mem_filter.mpr ⟨hb, hb'⟩)
          intro heq
          exact (List.nodup_cons.mp hnodup).1 (heq ▸ hmem)

/-- Where the names of a kind are told by their text, and other definitions have such names
too, those are to differ from one another as well. -/
theorem nodup_texts_iff [DecidableEq β] {look : β → Bool} (hlook : ∀ a ∈ l, kind a = true →
    look (text a) = true) : ((l.map text).filter look).Nodup ↔
      DefinedOnce kind text l ∧ ((l.filter fun a => look (text a) && !kind a).map text).Nodup := by
  have hperm : ((l.map text).filter look).Perm
      ((l.filter kind).map text ++ (l.filter fun a => look (text a) && !kind a).map text) := by
    have hkind : (l.filter fun a => kind a && look (text a)) = l.filter kind :=
      List.filter_congr fun a ha => by
        cases h : kind a with
        | false => rfl
        | true => rw [hlook a ha h, Bool.and_self]
    have hother : (l.filter fun a => !kind a && look (text a)) =
        l.filter fun a => look (text a) && !kind a :=
      List.filter_congr fun a _ => Bool.and_comm _ _
    have hsplit := (List.filter_append_perm kind (l.filter (look ∘ text))).symm.map text
    rw [List.filter_filter, List.filter_filter, List.map_append] at hsplit
    rw [List.filter_map]
    exact (hkind ▸ hother ▸ hsplit)
  rw [hperm.nodup_iff, List.nodup_append, definedOnce_iff, and_assoc]
  refine and_congr_right' ?_
  rw [and_comm (b := ((l.filter fun a => look (text a) && !kind a).map text).Nodup)]
  refine and_congr_right' ?_
  constructor
  · intro hapart a ha hkind b hb hother heq
    have hb' : b ∈ l.filter fun a => look (text a) && !kind a := by
      rw [List.mem_filter, ← heq, hlook a ha hkind, hother]
      exact ⟨hb, rfl⟩
    exact hapart _ (List.mem_map_of_mem (List.mem_filter.mpr ⟨ha, hkind⟩)) _
      (List.mem_map_of_mem hb') heq
  · intro hapart x hx y hy
    obtain ⟨a, ha, rfl⟩ := List.mem_map.mp hx
    obtain ⟨b, hb, rfl⟩ := List.mem_map.mp hy
    obtain ⟨ha, hkind⟩ := List.mem_filter.mp ha
    obtain ⟨hb, hother⟩ := List.mem_filter.mp hb
    exact hapart a ha hkind b hb (by simpa using (Bool.and_eq_true_iff.mp hother).2)

end Definitions

/-! ## Several names for each of a list -/

section Several
variable {α β : Type} {l : List α}

theorem nodup_pairs {f g : α → β} (hf : Function.Injective f) (hg : Function.Injective g)
    (apart : ∀ a b, f a ≠ g b) (h : l.Nodup) : (l.flatMap fun a => [f a, g a]).Nodup := by
  have hperm : (l.flatMap fun a => [f a, g a]).Perm (l.map f ++ l.map g) := by
    rw [List.map_eq_flatMap, List.map_eq_flatMap]
    exact (List.flatMap_append_perm l (fun a => [f a]) fun a => [g a]).symm
  rw [hperm.nodup_iff, List.nodup_append]
  refine ⟨h.map hf, h.map hg, ?_⟩
  intro x hx y hy
  obtain ⟨a, -, rfl⟩ := List.mem_map.mp hx
  obtain ⟨b, -, rfl⟩ := List.mem_map.mp hy
  exact apart a b

/-- Names of two sorts for each of a list. -/
theorem nodup_flatMap_append {f g : α → List β} (hf : (l.flatMap f).Nodup)
    (hg : (l.flatMap g).Nodup) (apart : ∀ a ∈ l, ∀ b ∈ l, ∀ x ∈ f a, ∀ y ∈ g b, x ≠ y) :
    (l.flatMap fun a => f a ++ g a).Nodup := by
  rw [← (List.flatMap_append_perm l f g).nodup_iff, List.nodup_append]
  refine ⟨hf, hg, ?_⟩
  intro x hx y hy
  obtain ⟨a, ha, hx⟩ := List.mem_flatMap.mp hx
  obtain ⟨b, hb, hy⟩ := List.mem_flatMap.mp hy
  exact apart a ha b hb x hx y hy

end Several
end M65Tool.Lib.Naming
