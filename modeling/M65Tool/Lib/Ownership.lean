import M65Tool.Lib.Effect
import Mathlib.Data.Set.Insert

/-!
# The blocks that a part of a program owns

A heap is a state with its live blocks. A part of a program owns some of them, each
once, and the others are the rest: what the part does to the heap changes the blocks it
owns and leaves the rest as it is. An allocation may be refused at any time.
-/
namespace M65Tool.Lib.Ownership
open Effect

section Blocks
variable {σ A : Type}

/-- How a request is answered: with a block that was not live, or with null. -/
inductive Answer (live : σ → A → Prop) (null : A) (s s' : σ) : A → Prop
  | granted {a : A} (ne_null : a ≠ null) (fresh : ¬ live s a)
      (live_iff : ∀ b, live s' b ↔ b = a ∨ live s b) : Answer live null s s' a
  | refused (live_iff : ∀ b, live s' b ↔ live s b) : Answer live null s s' null

/-- How a request to move a block is answered: with the block where it is or where none
was, or with null, and the block is left. -/
inductive Moved (live : σ → A → Prop) (null old : A) (s s' : σ) : A → Prop
  | granted {a : A} (ne_null : a ≠ null) (fresh : live s a → a = old)
      (live_iff : ∀ b, live s' b ↔ b = a ∨ (b ≠ old ∧ live s b)) : Moved live null old s s' a
  | refused (live_iff : ∀ b, live s' b ↔ live s b) : Moved live null old s s' null

/-- An answer to a state is one to a larger state that has it as a part. -/
theorem Answer.lift {τ : Type} {live : τ → A → Prop} {null a : A} (part : σ → τ) {s s' : σ}
    (answer : Answer live null (part s) (part s') a) :
    Answer (fun s => live (part s)) null s s' a := by
  cases answer with
  | granted ne_null fresh live_iff => exact .granted ne_null fresh live_iff
  | refused live_iff => exact .refused live_iff

theorem Moved.lift {τ : Type} {live : τ → A → Prop} {null old a : A} (part : σ → τ) {s s' : σ}
    (moved : Moved live null old (part s) (part s') a) :
    Moved (fun s => live (part s)) null old s s' a := by
  cases moved with
  | granted ne_null fresh live_iff => exact .granted ne_null fresh live_iff
  | refused live_iff => exact .refused live_iff

/-- The live blocks are these of the part and the rest. -/
structure Owns (live : σ → A → Prop) (rest : Set A) (own : List A) (s : σ) : Prop where
  live_iff : ∀ a, live s a ↔ a ∈ own ∨ a ∈ rest
  nodup : own.Nodup
  apart : ∀ a ∈ own, a ∉ rest

variable {live : σ → A → Prop} {null a old : A} {rest : Set A} {own own' : List A} {s s' : σ}

namespace Owns

theorem live_own (h : Owns live rest own s) (ha : a ∈ own) : live s a :=
  (h.live_iff a).mpr (Or.inl ha)

/-- Owning nothing, the rest is all that is live. -/
theorem nothing : Owns live rest [] s ↔ ∀ a, live s a ↔ a ∈ rest := by
  constructor
  · intro h a
    rw [h.live_iff, or_iff_right List.not_mem_nil]
  · intro h
    refine ⟨fun a => ?_, List.nodup_nil, fun a ha => absurd ha List.not_mem_nil⟩
    rw [h, or_iff_right List.not_mem_nil]

theorem congr (h : Owns live rest own s) (same : ∀ b, live s' b ↔ live s b) :
    Owns live rest own s' :=
  ⟨fun a => (same a).trans (h.live_iff a), h.nodup, h.apart⟩

theorem perm (h : Owns live rest own s) (p : own.Perm own') : Owns live rest own' s where
  live_iff a := by rw [h.live_iff, p.mem_iff]
  nodup := p.nodup_iff.mp h.nodup
  apart a ha := h.apart a (p.mem_iff.mpr ha)

/-- Two blocks change places. -/
theorem swap {b : A} (h : Owns live rest (a :: b :: own) s) : Owns live rest (b :: a :: own) s :=
  h.perm (.swap b a own)

/-- A new block is owned. -/
theorem grant (h : Owns live rest own s) (fresh : ¬ live s a)
    (live_iff : ∀ b, live s' b ↔ b = a ∨ live s b) : Owns live rest (a :: own) s' where
  live_iff b := by rw [live_iff, h.live_iff, List.mem_cons, or_assoc]
  nodup := List.nodup_cons.mpr ⟨fun ha => fresh (h.live_own ha), h.nodup⟩
  apart b hb := by
    rcases List.mem_cons.mp hb with rfl | hown
    · exact fun hrest => fresh ((h.live_iff _).mpr (Or.inr hrest))
    · exact h.apart b hown

/-- A block that is freed is not owned any more. -/
theorem release (h : Owns live rest (a :: own) s) (live_iff : ∀ b, live s' b ↔ b ≠ a ∧ live s b) :
    Owns live rest own s' where
  live_iff b := by
    rw [live_iff, h.live_iff, List.mem_cons]
    constructor
    · rintro ⟨hne, (hab | hown) | hrest⟩
      · exact absurd hab hne
      · exact Or.inl hown
      · exact Or.inr hrest
    · rintro (hown | hrest)
      · refine ⟨?_, Or.inl (Or.inr hown)⟩
        rintro rfl
        exact (List.nodup_cons.mp h.nodup).1 hown
      · refine ⟨?_, Or.inr hrest⟩
        rintro rfl
        exact h.apart _ List.mem_cons_self hrest
  nodup := (List.nodup_cons.mp h.nodup).2
  apart b hb := h.apart b (List.mem_cons_of_mem a hb)

/-- A block that moves is owned where it is then. -/
theorem move (h : Owns live rest (old :: own) s) (fresh : live s a → a = old)
    (live_iff : ∀ b, live s' b ↔ b = a ∨ (b ≠ old ∧ live s b)) :
    Owns live rest (a :: own) s' where
  live_iff b := by
    rw [live_iff, h.live_iff, List.mem_cons, List.mem_cons]
    constructor
    · rintro (hba | ⟨hne, (hold | hown) | hrest⟩)
      · exact Or.inl (Or.inl hba)
      · exact absurd hold hne
      · exact Or.inl (Or.inr hown)
      · exact Or.inr hrest
    · rintro ((hba | hown) | hrest)
      · exact Or.inl hba
      · refine Or.inr ⟨?_, Or.inl (Or.inr hown)⟩
        rintro rfl
        exact (List.nodup_cons.mp h.nodup).1 hown
      · refine Or.inr ⟨?_, Or.inr hrest⟩
        rintro rfl
        exact h.apart _ List.mem_cons_self hrest
  nodup := by
    refine List.nodup_cons.mpr ⟨fun ha => ?_, (List.nodup_cons.mp h.nodup).2⟩
    obtain rfl := fresh (h.live_own (List.mem_cons_of_mem old ha))
    exact (List.nodup_cons.mp h.nodup).1 ha
  apart b hb := by
    rcases List.mem_cons.mp hb with rfl | hown
    · intro hrest
      obtain rfl := fresh ((h.live_iff _).mpr (Or.inr hrest))
      exact h.apart _ List.mem_cons_self hrest
    · exact h.apart b (List.mem_cons_of_mem old hown)

/-- A block that the part loses sight of is one of the rest from then on. -/
theorem lose (h : Owns live rest (a :: own) s) : Owns live (insert a rest) own s where
  live_iff b := by
    rw [h.live_iff, List.mem_cons, Set.mem_insert_iff, or_assoc, or_left_comm]
  nodup := (List.nodup_cons.mp h.nodup).2
  apart b hb hin := by
    rcases Set.mem_insert_iff.mp hin with rfl | hrest
    · exact (List.nodup_cons.mp h.nodup).1 hb
    · exact h.apart b (List.mem_cons_of_mem a hb) hrest

/-- It can be taken back while it lives. -/
theorem regain (h : Owns live (insert a rest) own s) (apart : a ∉ rest) :
    Owns live rest (a :: own) s where
  live_iff b := by
    rw [h.live_iff, List.mem_cons, Set.mem_insert_iff, or_assoc, or_left_comm]
  nodup := by
    refine List.nodup_cons.mpr ⟨fun ha => ?_, h.nodup⟩
    exact h.apart a ha (Set.mem_insert a rest)
  apart b hb := by
    rcases List.mem_cons.mp hb with rfl | hown
    · exact apart
    · exact fun hrest => h.apart b hown (Set.mem_insert_of_mem a hrest)

/-- Some of the blocks are counted among the rest for a while. -/
theorem lend {other : List A} (h : Owns live rest (own ++ other) s) :
    Owns live ({a | a ∈ other} ∪ rest) own s where
  live_iff b := by
    rw [h.live_iff, List.mem_append, Set.mem_union, Set.mem_ofPred_eq, or_assoc]
  nodup := (List.nodup_append.mp h.nodup).1
  apart b hb hin := by
    rcases Set.mem_union .. |>.mp hin with hother | hrest
    · exact (List.nodup_append.mp h.nodup).2.2 b hb b hother rfl
    · exact h.apart b (List.mem_append_left _ hb) hrest

/-- They are the part's again. -/
theorem collect {other : List A} (h : Owns live ({a | a ∈ other} ∪ rest) own s)
    (nodup : other.Nodup) (apart : ∀ a ∈ other, a ∉ rest) : Owns live rest (own ++ other) s where
  live_iff b := by
    rw [h.live_iff, List.mem_append, Set.mem_union, Set.mem_ofPred_eq, or_assoc]
  nodup := by
    refine List.nodup_append.mpr ⟨h.nodup, nodup, fun b hb c hc hbc => ?_⟩
    subst hbc
    exact h.apart b hb (Set.mem_union_left _ hc)
  apart b hb := by
    rcases List.mem_append.mp hb with hown | hother
    · exact fun hrest => h.apart b hown (Set.mem_union_right _ hrest)
    · exact apart b hother

/-- A request leaves the part with one block more, or with what it had. -/
theorem answered (h : Owns live rest own s) (answer : Answer live null s s' a) :
    (a = null ∧ Owns live rest own s') ∨ (a ≠ null ∧ Owns live rest (a :: own) s') := by
  cases answer with
  | granted ne_null fresh live_iff => exact Or.inr ⟨ne_null, h.grant fresh live_iff⟩
  | refused live_iff => exact Or.inl ⟨rfl, h.congr live_iff⟩

theorem answered_move (h : Owns live rest (old :: own) s) (answer : Moved live null old s s' a) :
    (a = null ∧ Owns live rest (old :: own) s') ∨ (a ≠ null ∧ Owns live rest (a :: own) s') := by
  cases answer with
  | granted ne_null fresh live_iff => exact Or.inr ⟨ne_null, h.move fresh live_iff⟩
  | refused live_iff => exact Or.inl ⟨rfl, h.congr live_iff⟩

end Owns
end Blocks

/-! ## The three calls -/

section Calls
variable {ε σ A : Type}

/-- malloc, realloc and free over the live blocks. Nothing is said of the calls that are
given a block which is not live, or of a block that is to have no bytes. -/
structure Heap (live : σ → A → Prop) (null : A) (malloc : Nat → EStateM ε σ A)
    (realloc : A → Nat → EStateM ε σ A) (free : A → EStateM ε σ Unit) : Prop where
  malloc : ∀ n s, ∃ a s', malloc n s = .ok a s' ∧ Answer live null s s' a
  realloc : ∀ old n s, 0 < n → live s old →
    ∃ a s', realloc old n s = .ok a s' ∧ Moved live null old s s' a
  free : ∀ a s, live s a → ∃ s', free a s = .ok () s' ∧ ∀ b, live s' b ↔ b ≠ a ∧ live s b

variable {live : σ → A → Prop} {null a : A} {malloc : Nat → EStateM ε σ A}
  {realloc : A → Nat → EStateM ε σ A} {free : A → EStateM ε σ Unit} {rest : Set A} {own : List A}
  {E : ε → σ → Prop}

namespace Heap
variable (heap : Heap live null malloc realloc free)
include heap

theorem malloc_owns (n : Nat) : Triple (Owns live rest own) (malloc n)
    (fun a s =>
      (a = null ∧ Owns live rest own s) ∨ (a ≠ null ∧ Owns live rest (a :: own) s)) E := by
  intro s h
  obtain ⟨a, s', hrun, answer⟩ := heap.malloc n s
  rw [hrun]
  exact h.answered answer

theorem realloc_owns {n : Nat} (hn : 0 < n) : Triple (Owns live rest (a :: own)) (realloc a n)
    (fun b s => (b = null ∧ Owns live rest (a :: own) s) ∨
      (b ≠ null ∧ Owns live rest (b :: own) s)) E := by
  intro s h
  obtain ⟨b, s', hrun, answer⟩ := heap.realloc a n s hn (h.live_own List.mem_cons_self)
  rw [hrun]
  exact h.answered_move answer

theorem free_owns :
    Triple (Owns live rest (a :: own)) (free a) (fun _ => Owns live rest own) E := by
  intro s h
  obtain ⟨s', hrun, live_iff⟩ := heap.free a s (h.live_own List.mem_cons_self)
  rw [hrun]
  exact h.release live_iff

end Heap
end Calls
end M65Tool.Lib.Ownership
