/-!
# Reasoning about computations with state and faults

`EStateM ε σ` keeps the state when a computation stops early, so a run has one
state whether it returns or not. `bind_ok_inv` peels a successful run apart;
`Triple` is the Hoare triple with a separate postcondition for early stops, and
its rules follow the constructs a translated program is written with.
-/
namespace M65Tool.Lib.Effect
open EStateM (Result)

variable {ε σ α β : Type}

theorem bind_ok_inv {x : EStateM ε σ α} {f : α → EStateM ε σ β} {s s'' : σ} {b : β}
    (h : (x >>= f) s = .ok b s'') : ∃ a s', x s = .ok a s' ∧ f a s' = .ok b s'' := by
  change EStateM.bind x f s = _ at h
  unfold EStateM.bind at h
  cases hx : x s with
  | ok a s' => exact ⟨a, s', rfl, by simpa [hx] using h⟩
  | error e s' => simp [hx] at h

theorem bind_of_ok {x : EStateM ε σ α} {s s' : σ} {a : α} (h : x s = .ok a s')
    (f : α → EStateM ε σ β) : (x >>= f) s = f a s' := by
  change EStateM.bind x f s = _
  simp [EStateM.bind, h]

theorem bind_of_error {x : EStateM ε σ α} {s s' : σ} {e : ε} (h : x s = .error e s')
    (f : α → EStateM ε σ β) : (x >>= f) s = .error e s' := by
  change EStateM.bind x f s = _
  simp [EStateM.bind, h]

@[simp] theorem pure_run (a : α) (s : σ) : (pure a : EStateM ε σ α) s = .ok a s := rfl

@[simp] theorem throw_run (e : ε) (s : σ) : (throw e : EStateM ε σ α) s = .error e s := rfl

@[simp] theorem pure_bind_run (a : α) (f : α → EStateM ε σ β) (s : σ) :
    ((pure a : EStateM ε σ α) >>= f) s = f a s := rfl

@[simp] theorem throw_bind_run (e : ε) (f : α → EStateM ε σ β) (s : σ) :
    ((throw e : EStateM ε σ α) >>= f) s = .error e s := rfl

/-! ## Computations without a state -/

theorem except_bind_ok {x : Except ε α} {f : α → Except ε β} {b : β} (h : (x >>= f) = .ok b) :
    ∃ a, x = .ok a ∧ f a = .ok b := by
  cases x with
  | error e => cases h
  | ok a => exact ⟨a, rfl, h⟩

/-- What is in the list of results is the result of one of the computations. -/
theorem except_mapM_mem {f : α → Except ε β} {xs : List α} {ys : List β}
    (h : xs.mapM f = .ok ys) : ∀ y ∈ ys, ∃ x ∈ xs, f x = .ok y := by
  induction xs generalizing ys with
  | nil =>
    rw [List.mapM_nil] at h
    cases h
    exact fun y hy => absurd hy List.not_mem_nil
  | cons x xs ih =>
    rw [List.mapM_cons] at h
    obtain ⟨y, hy, h⟩ := except_bind_ok h
    obtain ⟨ys', hys, h⟩ := except_bind_ok h
    cases h
    intro z hz
    rcases List.mem_cons.mp hz with rfl | hz
    · exact ⟨x, List.mem_cons_self, hy⟩
    · obtain ⟨x', hx', hz⟩ := ih hys z hz
      exact ⟨x', List.mem_cons_of_mem x hx', hz⟩

/-! ## Hoare triples with a postcondition for early stops -/

/-- From a state in `P`, a run of `x` that returns ends in `Q`, one that stops
early ends in `E`. -/
def Triple (P : σ → Prop) (x : EStateM ε σ α) (Q : α → σ → Prop) (E : ε → σ → Prop) : Prop :=
  ∀ s, P s → match x s with
    | .ok a s' => Q a s'
    | .error e s' => E e s'

namespace Triple
variable {P P' : σ → Prop} {Q Q' : α → σ → Prop} {E : ε → σ → Prop}

theorem of_ok {x : EStateM ε σ α} (h : Triple P x Q E) {s s' : σ} {a : α} (hs : P s)
    (hx : x s = .ok a s') : Q a s' := by
  have := h s hs
  rwa [hx] at this

theorem of_error {x : EStateM ε σ α} (h : Triple P x Q E) {s s' : σ} {e : ε} (hs : P s)
    (hx : x s = .error e s') : E e s' := by
  have := h s hs
  rwa [hx] at this

theorem ret {a : α} (h : ∀ s, P s → Q a s) : Triple P (pure a : EStateM ε σ α) Q E :=
  fun s hs => h s hs

theorem stop {e : ε} (h : ∀ s, P s → E e s) : Triple P (throw e : EStateM ε σ α) Q E :=
  fun s hs => h s hs

theorem seq {R : β → σ → Prop} {x : EStateM ε σ α} {f : α → EStateM ε σ β}
    (hx : Triple P x Q E) (hf : ∀ a, Triple (Q a) (f a) R E) : Triple P (x >>= f) R E := by
  intro s hs
  cases hr : x s with
  | ok a s' =>
    rw [bind_of_ok hr]
    exact hf a s' (hx.of_ok hs hr)
  | error e s' =>
    rw [bind_of_error hr]
    exact hx.of_error hs hr

theorem cond {c : Prop} [Decidable c] {x y : EStateM ε σ α} (hx : c → Triple P x Q E)
    (hy : ¬ c → Triple P y Q E) : Triple P (if c then x else y) Q E := by
  split
  · exact hx ‹_›
  · exact hy ‹_›

theorem weaken {x : EStateM ε σ α} (h : Triple P x Q E) (hP : ∀ s, P' s → P s)
    (hQ : ∀ a s, Q a s → Q' a s) : Triple P' x Q' E := by
  intro s hs
  have := h s (hP s hs)
  cases hr : x s with
  | ok a s' => rw [hr] at this; exact hQ a s' this
  | error e s' => rw [hr] at this; exact this

theorem stops {E' : ε → σ → Prop} {x : EStateM ε σ α} (h : Triple P x Q E)
    (hE : ∀ e s, E e s → E' e s) : Triple P x Q E' := by
  intro s hs
  have := h s hs
  cases hr : x s with
  | ok a s' => rw [hr] at this; exact this
  | error e s' => rw [hr] at this; exact hE e s' this

/-- What is known of the results of a run holds beside the postcondition. -/
theorem knowing {p : α → Prop} {x : EStateM ε σ α} (h : Triple P x Q E)
    (hx : ∀ s a s', x s = .ok a s' → p a) : Triple P x (fun a s => p a ∧ Q a s) E := by
  intro s hs
  have hrun := h s hs
  cases hr : x s with
  | ok a s' => rw [hr] at hrun; exact ⟨hx s a s' hr, hrun⟩
  | error e s' => rw [hr] at hrun; exact hrun

/-- A step that returns without changing the state. -/
theorem past {a : β} {x : EStateM ε σ β} {f : β → EStateM ε σ α} (hx : ∀ s, P s → x s = .ok a s)
    (hf : Triple P (f a) Q E) : Triple P (x >>= f) Q E := by
  intro s hs
  rw [bind_of_ok (hx s hs)]
  exact hf s hs

/-- What is known of a state apart from the state is a hypothesis. -/
theorem given {p : Prop} {x : EStateM ε σ α} (h : p → Triple P x Q E) :
    Triple (fun s => p ∧ P s) x Q E :=
  fun s hs => h hs.1 s hs.2

/-- Where no stop is possible there is a result. -/
theorem returns {x : EStateM ε σ α} (h : Triple P x Q fun _ _ => False) {s : σ} (hs : P s) :
    ∃ a s', x s = .ok a s' ∧ Q a s' := by
  have hx := h s hs
  cases hrun : x s with
  | ok a s' =>
    rw [hrun] at hx
    exact ⟨a, s', rfl, hx⟩
  | error e s' =>
    rw [hrun] at hx
    exact hx.elim

/-- What the state is read for is known behind the read. -/
theorem read {f : σ → EStateM ε σ α} (h : ∀ s, P s → Triple (fun s' => s' = s) (f s) Q E) :
    Triple P (get >>= f) Q E :=
  fun s hs => h s hs s rfl

theorem change {f : σ → σ} {Q : Unit → σ → Prop} (h : ∀ s, P s → Q () (f s)) :
    Triple P (modify f : EStateM ε σ Unit) Q E :=
  fun s hs => h s hs

/-- Of every run something can be said that says nothing. -/
theorem any {x : EStateM ε σ α} : Triple P x (fun _ _ => True) fun _ _ => True := by
  intro s _
  cases x s <;> trivial

/-- A computation that always returns does not stop early. -/
theorem total {x : EStateM ε σ α} (h : ∀ s, ∃ a s', x s = .ok a s' ∧ Q a s') :
    Triple P x Q E := by
  intro s _
  obtain ⟨a, s', hx, hq⟩ := h s
  rw [hx]
  exact hq

theorem avoids {e : ε} {x : EStateM ε σ α} (h : ∀ s s', x s ≠ .error e s') :
    Triple P x (fun _ _ => True) fun e' _ => e' ≠ e := by
  intro s _
  cases hrun : x s with
  | ok a s' => trivial
  | error e' s' =>
    rintro rfl
    exact h s s' hrun

end Triple

/-! ## Computations that only read the state -/

/-- `x` leaves the state as it is, also when it stops early. -/
def Keeps (x : EStateM ε σ α) : Prop :=
  ∀ P : σ → Prop, Triple P x (fun _ => P) (fun _ => P)

namespace Keeps

theorem ret (a : α) : Keeps (pure a : EStateM ε σ α) := fun _ => Triple.ret fun _ hs => hs

theorem stop (e : ε) : Keeps (throw e : EStateM ε σ α) := fun _ => Triple.stop fun _ hs => hs

theorem seq {x : EStateM ε σ α} {f : α → EStateM ε σ β} (hx : Keeps x) (hf : ∀ a, Keeps (f a)) :
    Keeps (x >>= f) :=
  fun P => (hx P).seq fun a => hf a P

theorem cond {c : Prop} [Decidable c] {x y : EStateM ε σ α} (hx : c → Keeps x)
    (hy : ¬ c → Keeps y) : Keeps (if c then x else y) :=
  fun P => Triple.cond (fun hc => hx hc P) fun hc => hy hc P

theorem eq_of_ok {x : EStateM ε σ α} (h : Keeps x) {s s' : σ} {a : α} (hx : x s = .ok a s') :
    s' = s :=
  (h (· = s)).of_ok rfl hx

end Keeps

/-! ## Computations that are given enough fuel -/

/-- From some amount of fuel on the outcome is the same, and satisfies the postcondition
for what it is. -/
def Settles (x : Nat → EStateM ε σ α) (s : σ) (Q : α → σ → Prop) (E : ε → σ → Prop) : Prop :=
  ∃ outcome enough, (∀ fuel ≥ enough, x fuel s = outcome) ∧
    match outcome with
    | .ok a s' => Q a s'
    | .error e s' => E e s'

namespace Settles
variable {Q Q' : α → σ → Prop} {R : β → σ → Prop} {E : ε → σ → Prop}
  {x y : Nat → EStateM ε σ α} {f : Nat → α → EStateM ε σ β} {s s' : σ} {a : α} {e : ε}

theorem congr (same : ∃ enough, ∀ fuel ≥ enough, x fuel s = y fuel s') (h : Settles y s' Q E) :
    Settles x s Q E := by
  obtain ⟨m, hm⟩ := same
  obtain ⟨outcome, n, hn, hout⟩ := h
  refine ⟨outcome, max m n, ?_, hout⟩
  intro fuel hfuel
  rw [hm fuel (Nat.le_trans (Nat.le_max_left m n) hfuel),
    hn fuel (Nat.le_trans (Nat.le_max_right m n) hfuel)]

theorem of_ok (returns : ∃ enough, ∀ fuel ≥ enough, x fuel s = .ok a s') (h : Q a s') :
    Settles x s Q E := by
  obtain ⟨m, hm⟩ := returns
  exact ⟨.ok a s', m, hm, h⟩

theorem of_error (stops : ∃ enough, ∀ fuel ≥ enough, x fuel s = .error e s') (h : E e s') :
    Settles x s Q E := by
  obtain ⟨m, hm⟩ := stops
  exact ⟨.error e s', m, hm, h⟩

theorem of_triple {P : σ → Prop} {x : EStateM ε σ α} (h : Triple P x Q E) (hs : P s) :
    Settles (fun _ => x) s Q E := by
  refine ⟨x s, 0, fun _ _ => rfl, ?_⟩
  have hx := h s hs
  cases hrun : x s with
  | ok a s' => rw [hrun] at hx; exact hx
  | error e s' => rw [hrun] at hx; exact hx

theorem seq (hx : Settles x s Q E)
    (hf : ∀ a s', Q a s' → Settles (fun fuel => f fuel a) s' R E) :
    Settles (fun fuel => x fuel >>= f fuel) s R E := by
  obtain ⟨outcome, m, hm, hout⟩ := hx
  cases outcome with
  | ok a s' =>
    refine congr ⟨m, ?_⟩ (hf a s' hout)
    intro fuel hfuel
    rw [bind_of_ok (hm fuel hfuel)]
  | error e s' =>
    refine of_error ⟨m, ?_⟩ hout
    intro fuel hfuel
    rw [bind_of_error (hm fuel hfuel)]

/-- The first step of a loop takes one unit of fuel. -/
theorem step (h : Settles (fun fuel => x (fuel + 1)) s Q E) : Settles x s Q E := by
  obtain ⟨outcome, n, hn, hout⟩ := h
  refine ⟨outcome, n + 1, ?_, hout⟩
  intro fuel hfuel
  obtain ⟨rest, rfl⟩ : ∃ rest, fuel = rest + 1 := ⟨fuel - 1, by omega⟩
  exact hn rest (by omega)

theorem weaken (h : Settles x s Q E) (hQ : ∀ a s, Q a s → Q' a s) : Settles x s Q' E := by
  obtain ⟨outcome, n, hn, hout⟩ := h
  refine ⟨outcome, n, hn, ?_⟩
  cases outcome with
  | ok a s' => exact hQ a s' hout
  | error e s' => exact hout

theorem stops {E' : ε → σ → Prop} (h : Settles x s Q E) (hE : ∀ e s, E e s → E' e s) :
    Settles x s Q E' := by
  obtain ⟨outcome, n, hn, hout⟩ := h
  refine ⟨outcome, n, hn, ?_⟩
  cases outcome with
  | ok a s' => exact hout
  | error e s' => exact hE e s' hout

/-- Two postconditions of the same computation hold of the one outcome. -/
theorem meet {Q' : α → σ → Prop} {E' : ε → σ → Prop} (h : Settles x s Q E)
    (h' : Settles x s Q' E') :
    (∃ a s', Q a s' ∧ Q' a s') ∨ ∃ e s', E e s' ∧ E' e s' := by
  obtain ⟨outcome, m, hm, hout⟩ := h
  obtain ⟨outcome', n, hn, hout'⟩ := h'
  obtain rfl : outcome = outcome' :=
    (hm (max m n) (Nat.le_max_left m n)).symm.trans (hn (max m n) (Nat.le_max_right m n))
  cases outcome with
  | ok a s' => exact Or.inl ⟨a, s', hout, hout'⟩
  | error e s' => exact Or.inr ⟨e, s', hout, hout'⟩

end Settles
end M65Tool.Lib.Effect
