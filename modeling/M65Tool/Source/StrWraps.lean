import M65Tool.Source.ReadOnly
import M65Tool.Source.StrCtype

/-!
# Splitting on whitespace where the positions wrap around

Source: src/datastruct/str.c:144-173. The positions are unsigned ints, the size of a str is
not. A loop that passes the highest position goes on at the first byte; what a call
returns after that still follows from where the runs of the text end.
-/
namespace M65Tool.Source.StrFunctions
open Mem MapHash StringBuffer Lib.Effect Lib.Splitting

/-- A loop from `n` comes to an end where the run does, or, where an unsigned int does not
count so far, where the run from the first byte does. -/
def EndsAt (test : UInt8 → Bool) (text : List UInt8) (n j : Nat) : Prop :=
  j = runEnd test text n ∨ uintMax < runEnd test text n ∧ j = runEnd test text 0

/-! ## The calls only read -/

section Reads
variable {σ : Type} {ops : MemOps σ} (mem : Memory) (target : Target) (ctype : Ctype)

theorem load_keeps (ptr : Addr) (i : Nat) : Keeps (load mem ptr i : C σ UInt8) := by
  refine .cond (fun _ => .stop _) fun _ => ?_
  cases mem (ptr + UInt64.ofNat i) with
  | none => exact .stop _
  | some b => exact .ret b

theorem loadBytes_keeps (ptr : Addr) (n i : Nat) : Keeps (loadBytes mem ptr n i : C σ (List UInt8)) := by
  induction n generalizing i with
  | zero => exact .ret _
  | succ n ih => exact (load_keeps mem ptr i).seq fun _ => (ih _).seq fun _ => .ret _

theorem spaceAt_keeps (ptr : Addr) (i : Nat) :
    Keeps (spaceAt mem target ctype ptr i : C σ Bool) :=
  (load_keeps mem ptr i).seq fun _ => .cond (fun _ => .ret _) fun _ => .stop _

theorem spaceLoop_keeps (strvalP : Addr) (size : Nat) (answer : Bool) (tests : Nat) (i : UInt32) :
    Keeps (spaceLoop mem target ctype strvalP size answer tests i : C σ UInt32) := by
  induction tests generalizing i with
  | zero => exact .stop _
  | succ tests ih =>
    exact .cond (fun _ => (spaceAt_keeps mem target ctype strvalP _).seq fun _ =>
      .cond (fun _ => ih _) fun _ => .ret _) fun _ => .ret _

theorem popCtype_keeps (reads : ReadsOnly ops) (tests : Nat) (strval part : MemHandle) :
    Keeps (strSplitWhitespacePopCtype mem target ctype ops tests strval part) := by
  refine .cond (fun _ => .ret _) fun _ => (reads strval).seq fun strvalP => ?_
  refine .seq ((spaceAt_keeps mem target ctype strvalP 0).seq fun _ =>
    .cond (fun _ => spaceLoop_keeps mem target ctype _ _ _ _ _) fun _ => .ret _) fun start => ?_
  refine (spaceLoop_keeps mem target ctype _ _ _ _ _).seq fun pos => ?_
  exact (spaceLoop_keeps mem target ctype _ _ _ _ _).seq fun next =>
    .cond (fun _ => .ret _) fun _ => .ret _

end Reads

/-! ## Where the loops end -/

section Loops
variable {σ : Type} {mem : Memory} {target : Target} {ctype : Ctype} {strvalP : Addr}
  {text : List UInt8} {test : UInt8 → Bool} {answer : Bool} {tests : Nat} {s s' : σ}

theorem spaceAt_inv (htext : BytesAt mem strvalP text) {i : Nat} {b : UInt8} {space : Bool}
    (hb : text[i]? = some b)
    (hrun : (spaceAt mem target ctype strvalP i : C σ Bool) s = .ok space s') :
    space = ctype.byteIsspace target b := by
  obtain ⟨b', s1, hload, hrun⟩ := bind_ok_inv hrun
  rw [htext.load_ok hb] at hload
  cases hload
  rw [callIsspace] at hrun
  split at hrun
  · cases hrun
    rfl
  · cases hrun

theorem spaceLoop_inv (htext : BytesAt mem strvalP text)
    (htest : ∀ b, test b = true ↔ ctype.byteIsspace target b = answer) {i j : UInt32}
    (hi : i.toNat ≤ text.length)
    (hrun : (spaceLoop mem target ctype strvalP text.length answer tests i : C σ UInt32) s =
      .ok j s') : EndsAt test text i.toNat j.toNat := by
  induction tests generalizing i s with
  | zero => cases hrun
  | succ tests ih =>
    rw [spaceLoop] at hrun
    split at hrun
    · rename_i hlt
      have hb := List.getElem?_eq_getElem hlt
      obtain ⟨space, s1, hspace, hrun⟩ := bind_ok_inv hrun
      obtain rfl := spaceAt_inv htext hb hspace
      split at hrun
      · rename_i hsame
        have hstep := runEnd_step test hb ((htest _).mpr hsame)
        have hle := le_runEnd test text (i.toNat + 1)
        by_cases hmax : i.toNat = uintMax
        · -- the position wraps around
          have hwrap : (i + 1).toNat = 0 := by
            rw [UInt32.toNat_add, UInt32.toNat_one, hmax]
            rfl
          have hends := ih (by omega) hrun
          rw [hwrap] at hends
          exact .inr ⟨by omega, hends.elim id And.right⟩
        · have hnext : (i + 1).toNat = i.toNat + 1 := by
            have hfits := i.toNat_lt
            unfold uintMax at hmax
            rw [UInt32.toNat_add, UInt32.toNat_one]
            omega
          have hends := ih (by omega) hrun
          rw [hnext] at hends
          unfold EndsAt
          rw [hstep]
          exact hends
      · rename_i hdiffers
        cases hrun
        refine .inl (runEnd_stop test fun x hx => ?_).symm
        rw [hb] at hx
        cases hx
        rw [← Bool.not_eq_true, htest]
        exact hdiffers
    · cases hrun
      exact .inl (Nat.le_antisymm (le_runEnd test text _) ((runEnd_le test hi).trans (by omega)))

theorem spaceLeading_inv (htext : BytesAt mem strvalP text) {start : UInt32}
    (hrun : (spaceLeading mem target ctype strvalP text.length tests : C σ UInt32) s =
      .ok start s') : start.toNat = runEnd (ctype.byteIsspace target) text 0 := by
  obtain ⟨first, s1, hfirst, hrun⟩ := bind_ok_inv hrun
  split at hrun
  · have hends : EndsAt (ctype.byteIsspace target) text 0 start.toNat :=
      spaceLoop_inv htext (fun _ => Iff.rfl) (Nat.zero_le _) hrun
    exact hends.elim id And.right
  · rename_i hspace
    cases hrun
    refine (runEnd_stop _ fun x hx => ?_).symm
    rw [← spaceAt_inv htext hx hfirst, ← Bool.not_eq_true]
    exact hspace

end Loops

/-! ## What a call returns -/

section Pop
variable {σ : Type} {ops : MemOps σ} {mem : Memory} {target : Target} {ctype : Ctype} {s s' : σ}
  {strval part part' rest : MemHandle} {strvalP : Addr} {text : List UInt8} {tests : Nat}
  {start stop next : Nat}

/-- A call that returns has come to the second word, or, where an unsigned int does not
count so far, it is back at the first one. -/
theorem popCtype_inv (hs : StrAt ops mem s strval strvalP text)
    (hstart : runEnd (ctype.byteIsspace target) text 0 = start)
    (hstop : runEnd (fun b => !ctype.byteIsspace target b) text start = stop)
    (hnext : runEnd (ctype.byteIsspace target) text stop = next)
    (hrun : strSplitWhitespacePopCtype mem target ctype ops tests strval part s =
      .ok (rest, part') s') :
    (next ≤ uintMax ∧ part'.size = stop - start ∧
      rest = if next = text.length then .zero else restAt strvalP text next) ∨
    (uintMax < next ∧ 0 < part'.size ∧ rest = restAt strvalP text start) := by
  rw [strSplitWhitespacePopCtype, if_neg (by simp [hs.valid])] at hrun
  obtain ⟨p, s1, hp, hrun⟩ := bind_ok_inv hrun
  rw [hs.memP_eq] at hp
  cases hp
  rw [hs.size_eq] at hrun
  obtain ⟨i, s2, hi, hrun⟩ := bind_ok_inv hrun
  obtain ⟨pos, s3, hpos, hrun⟩ := bind_ok_inv hrun
  obtain ⟨k, s4, hk, hrun⟩ := bind_ok_inv hrun
  have hstartle : start ≤ text.length := hstart ▸ runEnd_le _ (Nat.zero_le _)
  have hstople : stop ≤ text.length := hstop ▸ runEnd_le _ hstartle
  have hnextle : next ≤ text.length := hnext ▸ runEnd_le _ hstople
  have hstartstop : start ≤ stop := hstop ▸ le_runEnd _ _ _
  have hstopnext : stop ≤ next := hnext ▸ le_runEnd _ _ _
  have hlead := spaceLeading_inv hs.bytes_at hi
  rw [hstart] at hlead
  have hfits := i.toNat_lt
  have hpartfits := pos.toNat_lt
  have hkfits := k.toNat_lt
  have hsecond : pos.toNat = stop ∨ uintMax < stop ∧ 0 < start ∧ pos.toNat = 0 := by
    have hends := spaceLoop_inv hs.bytes_at not_isspace_iff (hlead ▸ hstartle) hpos
    rw [hlead, EndsAt, hstop] at hends
    rcases hends with hword | ⟨hfar, hpos⟩
    · exact .inl hword
    have hspaces : 0 < start := by
      refine Nat.pos_of_ne_zero fun hzero => ?_
      rw [hzero] at hstop
      unfold uintMax at hfar
      omega
    refine .inr ⟨hfar, hspaces, hpos.trans (runEnd_stop _ fun x hx => ?_)⟩
    have hpass : ctype.byteIsspace target x = true :=
      runEnd_pass (Nat.le_refl 0) (hstart ▸ hspaces) hx
    rw [hpass]
    rfl
  have hposle : pos.toNat ≤ text.length := by omega
  have hthird : EndsAt (ctype.byteIsspace target) text pos.toNat k.toNat :=
    spaceLoop_inv hs.bytes_at (fun _ => Iff.rfl) hposle hk
  have hlen : (pos - i).toNat = (2 ^ 32 - start + pos.toNat) % 2 ^ 32 := by
    rw [UInt32.toNat_sub, hlead]
  unfold uintMax at *
  rcases Nat.lt_or_ge (2 ^ 32 - 1) next with hfar | hnear
  · have hback : k.toNat = start := by
      rcases hsecond with hword | ⟨-, -, hzero⟩
      · rw [hword, EndsAt, hnext, hstart] at hthird
        exact hthird.elim (fun h => by omega) And.right
      · rw [hzero, EndsAt, hstart] at hthird
        exact hthird.elim id And.right
    have hword : start ≠ stop := by
      rintro rfl
      rw [← hstart, runEnd_again, hstart] at hnext
      omega
    have hsize : 0 < (pos - i).toNat := by
      rw [hlen]
      omega
    rw [hback, if_neg (by omega), subSize_eq hstartle hs.bytes_at.length_lt] at hrun
    cases hrun
    exact .inr ⟨hfar, hsize, rfl⟩
  · have hstopped : pos.toNat = stop := by omega
    rw [hstopped, EndsAt, hnext] at hthird
    have hlast : k.toNat = next := hthird.elim id fun h => by
      unfold uintMax at h
      omega
    have hsize : (pos - i).toNat = stop - start := by
      rw [hlen, hstopped]
      omega
    rw [hlast, hsize] at hrun
    split at hrun
    · rename_i hend
      cases hrun
      exact .inl ⟨hnear, rfl, (if_pos hend).symm⟩
    · rename_i hmore
      rw [subSize_eq hnextle hs.bytes_at.length_lt] at hrun
      cases hrun
      exact .inl ⟨hnear, rfl, (if_neg hmore).symm⟩

end Pop
end M65Tool.Source.StrFunctions
