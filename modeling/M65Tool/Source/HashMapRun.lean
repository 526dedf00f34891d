import M65Tool.Source.HashMapSteps
import M65Tool.Source.ReadOnly

/-!
# Runs of map calls

`MapRun` is every sequence of `map_set`, `map_get` and `map_delete` after `map_create`,
over any allocator; between two calls the state of the allocator may change in any way.
`granting` is the allocator of a run in which no request fails: the run is over where
one does. Of `mem_p` only what mem.c does is used: it reads, and the pointer of a null
handle is null. A call returns where `mem_p` finds the two blocks of the map.
-/
namespace M65Tool.Source.HashMap
open Mem MapHash Lib.Effect

/-- `mem_p` as mem.c has it, over whatever allocators. -/
structure PointerReads {σ : Type} (ops : MemOps σ) : Prop where
  keeps : ReadsOnly ops
  null : ∀ handle s, handle.data = 0 → ops.memP handle s = .ok 0 s

theorem memOps_pointerReads {σ : Type} {libc : Libc σ}
    {spec : MemAllocator → Option (MemAllocatorSpec σ)} (funcs : PFuncsKeep spec) :
    PointerReads (memOps libc spec) where
  keeps := funcs.readsOnly
  null handle s hnull := by
    change memP spec handle s = _
    rw [memP, if_neg (by simpa using hnull)]
    rfl

/-- The entry points in a run in which no request fails. -/
def granting {σ : Type} (ops : MemOps σ) : MemOps σ :=
  { ops with
    memAlloc := fun allocator size => do
      let handle ← ops.memAlloc allocator size
      if memIsValid handle then pure handle else throw .requestFailed }

/-- The plain allocator as mem.c has it: what it answers with is its own, and the pointer of
its handles is in them. -/
structure PlainServes {σ : Type} (ops : MemOps σ) : Prop where
  memAlloc : ∀ n s handle s', ops.memAlloc .plain n s = .ok handle s' → handle.allocator = .plain
  memP : ∀ handle s, handle.allocator = .plain → ops.memP handle s = .ok handle.data s

theorem memOps_plainServes {σ : Type} {libc : Libc σ}
    {spec : MemAllocator → Option (MemAllocatorSpec σ)} (plain : spec .plain = some (plainSpec libc)) :
    PlainServes (memOps libc spec) where
  memAlloc n s handle s' hrun := by
    obtain ⟨a, s1, s2, -, rfl⟩ := memAlloc_inv plain hrun
    rfl
  memP handle s ha := plain_memP plain ha

/-- The map struct and its entries are blocks of allocator `ma`. -/
structure Attached (ma : MemAllocator) (mh : MemHandle) (mp : Map) : Prop where
  map_allocator : mh.allocator = ma
  map_data : mh.data ≠ 0
  entries_allocator : mp.entriesMh.allocator = ma
  entries_data : mp.entriesMh.data ≠ 0

/-- `mem_p` finds the map struct and its entries. -/
def Standing {σ : Type} (ops : MemOps σ) (mh : MemHandle) (mp : Map) (s : σ) : Prop :=
  ∃ entries, derefTable ops mh mp s = .ok entries s

/-- The bytes of the key can be read through `mem_p`. -/
def MapKey.ReadableAt {σ : Type} (ops : MemOps σ) (s : σ) : MapKey → Prop
  | .str key => derefKey ops key s = .ok () s
  | .ptr _ => True

/-- The bytes of the key can be read at any time. -/
def MapKey.Readable {σ : Type} (ops : MemOps σ) (key : MapKey) : Prop := ∀ s, key.ReadableAt ops s

/-- A call on a map. -/
inductive MapCall where
  | set (key : MapKey) (value : MemHandle)
  | get (key : MapKey)
  | delete (key : MapKey)

/-- The call, made on `mp` in some state of the allocator, can return and leave the
second map. -/
inductive MapCall.Leaves {σ : Type} (ops : MemOps σ) (target : Target) (mh : MemHandle)
    (mp : Map) : MapCall → Map → Prop
  | set {key : MapKey} {v : MemHandle} {b : Bool} {mp' : Map} {s s' : σ}
      (call : mapSet ops target mh mp key v s = .ok (b, mp') s') :
      Leaves ops target mh mp (.set key v) mp'
  | get {key : MapKey} {r : MemHandle} {s s' : σ}
      (call : mapGet ops target mh mp key s = .ok r s') : Leaves ops target mh mp (.get key) mp
  | delete {key : MapKey} {b : Bool} {mp' : Map} {s s' : σ}
      (call : mapDelete ops target mh mp key s = .ok (b, mp') s') :
      Leaves ops target mh mp (.delete key) mp'

inductive MapRun {σ : Type} (ops : MemOps σ) (target : Target) (ma : MemAllocator)
    (mh : MemHandle) : Map → Prop
  | create {s s' : σ} {mp : Map}
      (call : mapCreate ops ma s = .ok (mh, some mp) s') : MapRun ops target ma mh mp
  | step {mp mp' : Map} {c : MapCall} (run : MapRun ops target ma mh mp)
      (call : c.Leaves ops target mh mp mp') : MapRun ops target ma mh mp'

/-- The maps that calls from `mp` lead to, if each call is allowed in the map it finds. -/
inductive MapSteps {σ : Type} (ops : MemOps σ) (target : Target) (mh : MemHandle)
    (allowed : Map → MapCall → Prop) (mp : Map) : Map → Prop
  | refl : MapSteps ops target mh allowed mp mp
  | step {mp' mp'' : Map} {c : MapCall} (steps : MapSteps ops target mh allowed mp mp')
      (ok : allowed mp' c) (call : c.Leaves ops target mh mp' mp'') :
      MapSteps ops target mh allowed mp mp''

section Calls
variable {σ : Type} {ops : MemOps σ} {target : Target} {ma : MemAllocator} {mh : MemHandle}
  {mp mp' : Map} {key : MapKey} {h : UInt32} {v r : MemHandle} {b : Bool} {s s' : σ}

/-- The map in the same blocks. -/
theorem Attached.congr (attached : Attached ma mh mp) (same : mp'.entriesMh = mp.entriesMh) :
    Attached ma mh mp' :=
  ⟨attached.map_allocator, attached.map_data, same ▸ attached.entries_allocator,
    same ▸ attached.entries_data⟩

theorem PointerReads.granting (reads : PointerReads ops) : PointerReads (granting ops) :=
  ⟨reads.keeps, reads.null⟩

/-! ## A call returns where the map's blocks are found -/

/-- An access has found a pointer, and changed nothing. -/
theorem PointerReads.deref_inv (reads : PointerReads ops) {handle : MemHandle} {u : Unit}
    (hrun : deref ops handle s = .ok u s') :
    s' = s ∧ ∃ ptr, ptr ≠ 0 ∧ ops.memP handle s = .ok ptr s := by
  obtain ⟨ptr, s1, hptr, hrest⟩ := bind_ok_inv hrun
  obtain rfl := (reads.keeps handle).eq_of_ok hptr
  by_cases hnull : ptr = 0
  · rw [if_pos hnull] at hrest
    cases hrest
  · rw [if_neg hnull] at hrest
    cases hrest
    exact ⟨rfl, ptr, hnull, hptr⟩

theorem standing_of_ok (reads : PointerReads ops) {entries : Addr}
    (hrun : derefTable ops mh mp s = .ok entries s') : Standing ops mh mp s := by
  obtain rfl := (derefTable_keeps reads.keeps mh mp).eq_of_ok hrun
  exact ⟨entries, hrun⟩

theorem Standing.deref (reads : PointerReads ops) (stands : Standing ops mh mp s) :
    deref ops mh s = .ok () s := by
  obtain ⟨entries, hrun⟩ := stands
  obtain ⟨_, s1, hmap, -⟩ := bind_ok_inv hrun
  rw [hmap, (deref_keeps reads.keeps mh).eq_of_ok hmap]

/-- Where the blocks are found their handles are valid. -/
theorem Standing.data (reads : PointerReads ops) (stands : Standing ops mh mp s) :
    mh.data ≠ 0 ∧ mp.entriesMh.data ≠ 0 := by
  obtain ⟨entries, hrun⟩ := stands
  obtain ⟨_, s1, hmap, htable⟩ := bind_ok_inv hrun
  obtain ⟨rfl, ptr, hptr, hmh⟩ := reads.deref_inv hmap
  obtain ⟨entries', s2, hentries, htable⟩ := bind_ok_inv htable
  constructor
  · intro hnull
    rw [reads.null mh s1 hnull] at hmh
    cases hmh
    exact hptr rfl
  · intro hnull
    rw [reads.null _ s1 hnull] at hentries
    cases hentries
    cases htable

theorem Standing.mapIsValid (reads : PointerReads ops) (stands : Standing ops mh mp s) :
    mapIsValid ops mh mp s = .ok true s := by
  obtain ⟨hmap, hentries⟩ := stands.data reads
  rw [HashMap.mapIsValid, if_pos (memIsValid_eq_true.mpr hmap), bind_of_ok (stands.deref reads),
    memIsValid_eq_true.mpr hentries]
  rfl

theorem hashStr_returns {key : Str} (hread : (MapKey.str key).ReadableAt ops s)
    (hh : hashBytes target key.bytes = some h) : hashStr ops target key s = .ok h s := by
  have hderef : derefKey ops key s = .ok () s := hread
  rw [hashStr, bind_of_ok hderef, hh]
  rfl

theorem doGet_returns (stands : Standing ops mh mp s) (hl : lookup mp h = some r) :
    doGet ops mh mp h s = .ok r s := by
  obtain ⟨entries, hrun⟩ := stands
  rw [doGet, bind_of_ok hrun, hl]
  rfl

/-- A lookup by key returns what the table answers for the hash of the key. -/
theorem mapGet_returns (reads : PointerReads ops) (stands : Standing ops mh mp s)
    (hread : key.ReadableAt ops s) (hh : key.hash target = some h) (hl : lookup mp h = some r) :
    mapGet ops target mh mp key s = .ok r s := by
  have hvalid := stands.mapIsValid reads
  cases key with
  | str key =>
    rw [mapGet, mapGetStr, bind_of_ok hvalid, if_pos rfl, bind_of_ok (hashStr_returns hread hh),
      doGet_returns stands hl]
  | ptr key =>
    obtain rfl : hashPtr target key = h := Option.some.inj hh
    rw [mapGet, mapGetPtr, bind_of_ok hvalid, if_pos rfl, doGet_returns stands hl]

theorem mapDelete_eq (hread : key.ReadableAt ops s) (hh : key.hash target = some h) :
    mapDelete ops target mh mp key s = doDelete ops mh mp h s := by
  cases key with
  | str key => rw [mapDelete, mapDeleteStr, bind_of_ok (hashStr_returns hread hh)]
  | ptr key =>
    obtain rfl : hashPtr target key = h := Option.some.inj hh
    rfl

/-! ## What a call that has returned has done -/

/-- The map that `map_create` returns. -/
theorem mapCreate_some (hrun : mapCreate ops ma s = .ok (mh, some mp) s') :
    mh.data ≠ 0 ∧ mp.entriesMh.data ≠ 0 ∧ mp = .created mp.entriesMh := by
  unfold mapCreate at hrun
  obtain ⟨h1, s1, -, hrun⟩ := bind_ok_inv hrun
  by_cases hv : memIsValid h1 = true
  · rw [if_pos hv] at hrun
    obtain ⟨-, s2, -, hrun⟩ := bind_ok_inv hrun
    obtain ⟨h2, s3, -, hrun⟩ := bind_ok_inv hrun
    by_cases hv2 : memIsValid h2 = true
    · rw [if_pos hv2] at hrun
      cases hrun
      exact ⟨memIsValid_eq_true.mp hv, memIsValid_eq_true.mp hv2, rfl⟩
    · rw [if_neg hv2] at hrun
      obtain ⟨-, s4, -, hrun⟩ := bind_ok_inv hrun
      cases hrun
  · rw [if_neg hv] at hrun
    cases hrun

/-- A set has found its map or its value invalid, or has been a `do_set`. -/
theorem mapSet_inv (reads : PointerReads ops)
    (hrun : mapSet ops target mh mp key v s = .ok (b, mp') s') :
    (b = false ∧ mp' = mp ∧ s' = s) ∨
      ∃ h, key.hash target = some h ∧ v.data ≠ 0 ∧ doSet ops mh mp h v s = .ok (b, mp') s' := by
  cases key with
  | str key =>
    obtain ⟨valid, s1, hvalid, hrest⟩ := bind_ok_inv hrun
    obtain rfl := (mapIsValid_keeps reads.keeps mh mp).eq_of_ok hvalid
    cases valid with
    | false =>
      cases hrest
      exact Or.inl ⟨rfl, rfl, rfl⟩
    | true =>
      rw [if_pos rfl] at hrest
      obtain ⟨valuePtr, s2, hptr, hset⟩ := bind_ok_inv hrest
      obtain rfl := (reads.keeps v).eq_of_ok hptr
      by_cases hnull : valuePtr = 0
      · rw [if_pos hnull] at hset
        cases hset
        exact Or.inl ⟨rfl, rfl, rfl⟩
      · rw [if_neg hnull] at hset
        obtain ⟨h, s3, hhash, hdo⟩ := bind_ok_inv hset
        obtain rfl := (hashStr_keeps reads.keeps target key).eq_of_ok hhash
        refine Or.inr ⟨h, hashStr_ok hhash, ?_, hdo⟩
        intro hd
        rw [reads.null v s3 hd] at hptr
        cases hptr
        exact hnull rfl
  | ptr key =>
    obtain ⟨valid, s1, hvalid, hrest⟩ := bind_ok_inv hrun
    obtain rfl := (mapIsValid_keeps reads.keeps mh mp).eq_of_ok hvalid
    cases valid with
    | false =>
      cases hrest
      exact Or.inl ⟨rfl, rfl, rfl⟩
    | true =>
      rw [if_pos rfl] at hrest
      by_cases hv : memIsValid v = true
      · rw [if_pos hv] at hrest
        exact Or.inr ⟨_, rfl, memIsValid_eq_true.mp hv, hrest⟩
      · rw [if_neg hv] at hrest
        cases hrest
        exact Or.inl ⟨rfl, rfl, rfl⟩

theorem mapSet_cases (reads : PointerReads ops)
    (hrun : mapSet ops target mh mp key v s = .ok (b, mp') s') :
    (b = false ∧ mp' = mp) ∨
      ∃ h, key.hash target = some h ∧ v.data ≠ 0 ∧ SetStep mp h v b mp' := by
  rcases mapSet_inv reads hrun with ⟨hb, hmp, -⟩ | ⟨h, hh, hv, hset⟩
  · exact Or.inl ⟨hb, hmp⟩
  · exact Or.inr ⟨h, hh, hv, doSet_step hset⟩

theorem mapDelete_inv (reads : PointerReads ops)
    (hrun : mapDelete ops target mh mp key s = .ok (b, mp') s') :
    ∃ h, key.hash target = some h ∧ doDelete ops mh mp h s = .ok (b, mp') s' := by
  cases key with
  | str key =>
    obtain ⟨h, s1, hhash, hdo⟩ := bind_ok_inv hrun
    obtain rfl := (hashStr_keeps reads.keeps target key).eq_of_ok hhash
    exact ⟨h, hashStr_ok hhash, hdo⟩
  | ptr key => exact ⟨_, rfl, hrun⟩

theorem mapDelete_cases (reads : PointerReads ops)
    (hrun : mapDelete ops target mh mp key s = .ok (b, mp') s') :
    ∃ h, key.hash target = some h ∧ DeleteStep mp h b mp' := by
  obtain ⟨h, hh, hdelete⟩ := mapDelete_inv reads hrun
  exact ⟨h, hh, doDelete_step hdelete⟩

/-- What a get of a valid map returns is what the table answers. -/
theorem mapGet_ok (hmap : mh.data ≠ 0) (hentries : mp.entriesMh.data ≠ 0)
    (hrun : mapGet ops target mh mp key s = .ok r s') :
    ∃ h, key.hash target = some h ∧ lookup mp h = some r := by
  have valid_of : ∀ valid s1, mapIsValid ops mh mp s = .ok valid s1 → valid = true := by
    intro valid s1 hvalid
    rw [HashMap.mapIsValid, if_pos (memIsValid_eq_true.mpr hmap)] at hvalid
    obtain ⟨-, s2, -, hvalid⟩ := bind_ok_inv hvalid
    cases hvalid
    exact memIsValid_eq_true.mpr hentries
  cases key with
  | str key =>
    obtain ⟨valid, s1, hvalid, hrest⟩ := bind_ok_inv hrun
    obtain rfl := valid_of valid s1 hvalid
    rw [if_pos rfl] at hrest
    obtain ⟨h, s2, hhash, hget⟩ := bind_ok_inv hrest
    exact ⟨h, hashStr_ok hhash, doGet_ok hget⟩
  | ptr key =>
    obtain ⟨valid, s1, hvalid, hrest⟩ := bind_ok_inv hrun
    obtain rfl := valid_of valid s1 hvalid
    rw [if_pos rfl] at hrest
    exact ⟨_, rfl, doGet_ok hrest⟩

/-! ## What the calls keep of the entries handle -/

/-- What a resize keeps of the entries handle. -/
def ResizesKeep (ops : MemOps σ) (mh : MemHandle) (P : MemHandle → Prop) : Prop :=
  ∀ mp isGrow b mp' s s', P mp.entriesMh →
    resizeEntriesTable ops mh mp isGrow s = .ok (b, mp') s' → P mp'.entriesMh

theorem resizesKeep_present (reads : PointerReads ops) :
    ResizesKeep ops mh fun entriesMh => entriesMh.data ≠ 0 := by
  intro mp isGrow b mp' s s' present hrun
  unfold resizeEntriesTable at hrun
  obtain ⟨n, s1, -, hrun⟩ := bind_ok_inv hrun
  obtain ⟨newMh, s2, -, hrun⟩ := bind_ok_inv hrun
  obtain ⟨ptr, s3, hptr, hrun⟩ := bind_ok_inv hrun
  by_cases hnull : ptr = 0
  · rw [if_pos hnull] at hrun
    cases hrun
    exact present
  · rw [if_neg hnull] at hrun
    obtain ⟨-, s4, -, hrun⟩ := bind_ok_inv hrun
    obtain ⟨-, s5, -, hrun⟩ := bind_ok_inv hrun
    cases hrun
    intro hdata
    rw [reads.null newMh s2 hdata] at hptr
    cases hptr
    exact hnull rfl

section Entries
variable {P : MemHandle → Prop} (keep : ResizesKeep ops mh P)
include keep

theorem doSet_entries (hp : P mp.entriesMh) (hrun : doSet ops mh mp h v s = .ok (b, mp') s') :
    P mp'.entriesMh := by
  obtain ⟨pos, -, ⟨-, -, rfl⟩ | ⟨-, -, -, rfl⟩ | ⟨-, -, s1, s2, hres⟩⟩ := doSet_inv hrun
  · exact hp
  · exact hp
  · exact keep mp.counted _ _ _ _ _ hp hres

theorem doDelete_entries (hp : P mp.entriesMh)
    (hrun : doDelete ops mh mp h s = .ok (b, mp') s') : P mp'.entriesMh := by
  obtain ⟨pos, -, ⟨-, -, rfl⟩ | ⟨-, -, -, rfl⟩ | ⟨-, -, s1, s2, hres⟩⟩ := doDelete_inv hrun
  · exact hp
  · exact hp
  · exact keep (mp.emptied pos) _ _ _ _ _ hp hres

theorem MapCall.Leaves.entries (reads : PointerReads ops) {c : MapCall}
    (call : c.Leaves ops target mh mp mp') (hp : P mp.entriesMh) : P mp'.entriesMh := by
  cases call with
  | set call =>
    rcases mapSet_inv reads call with ⟨-, rfl, -⟩ | ⟨h, -, -, hset⟩
    · exact hp
    · exact doSet_entries keep hp hset
  | get call => exact hp
  | delete call =>
    obtain ⟨h, -, hdelete⟩ := mapDelete_inv reads call
    exact doDelete_entries keep hp hdelete

end Entries

theorem mapSet_present (reads : PointerReads ops) (present : mp.entriesMh.data ≠ 0)
    (hrun : mapSet ops target mh mp key v s = .ok (b, mp') s') : mp'.entriesMh.data ≠ 0 :=
  (MapCall.Leaves.set hrun).entries (resizesKeep_present reads) reads present

theorem mapDelete_present (reads : PointerReads ops) (present : mp.entriesMh.data ≠ 0)
    (hrun : mapDelete ops target mh mp key s = .ok (b, mp') s') : mp'.entriesMh.data ≠ 0 :=
  (MapCall.Leaves.delete hrun).entries (resizesKeep_present reads) reads present

theorem MapRun.present (reads : PointerReads ops) (run : MapRun ops target ma mh mp) :
    mh.data ≠ 0 ∧ mp.entriesMh.data ≠ 0 := by
  induction run with
  | create call => exact ⟨(mapCreate_some call).1, (mapCreate_some call).2.1⟩
  | step run call ih => exact ⟨ih.1, call.entries (resizesKeep_present reads) reads ih.2⟩

theorem MapSteps.present (reads : PointerReads ops) {allowed : Map → MapCall → Prop}
    (steps : MapSteps ops target mh allowed mp mp') (present : mp.entriesMh.data ≠ 0) :
    mp'.entriesMh.data ≠ 0 := by
  induction steps with
  | refl => exact present
  | step _ _ call ih => exact call.entries (resizesKeep_present reads) reads ih

/-! ## A map over the plain allocator -/

section Plain
variable (serves : PlainServes ops)
include serves

theorem Attached.deref_run (attached : Attached .plain mh mp) (s : σ) :
    deref ops mh s = .ok () s := by
  rw [deref, bind_of_ok (serves.memP mh s attached.map_allocator), if_neg attached.map_data]
  rfl

theorem Attached.mapIsValid_run (attached : Attached .plain mh mp) (s : σ) :
    mapIsValid ops mh mp s = .ok true s := by
  rw [mapIsValid, if_pos (memIsValid_eq_true.mpr attached.map_data),
    bind_of_ok (attached.deref_run serves s), memIsValid_eq_true.mpr attached.entries_data]
  rfl

theorem Attached.derefTable_run (attached : Attached .plain mh mp) (s : σ) :
    derefTable ops mh mp s = .ok mp.entriesMh.data s := by
  rw [derefTable, bind_of_ok (attached.deref_run serves s),
    bind_of_ok (serves.memP _ s attached.entries_allocator), if_neg attached.entries_data]
  rfl

theorem Attached.standing (attached : Attached .plain mh mp) (s : σ) :
    Standing ops mh mp s :=
  ⟨_, attached.derefTable_run serves s⟩

theorem PlainServes.memAllocClear {n : Nat} {handle : MemHandle}
    (hrun : memAllocClear ops .plain n s = .ok handle s') : handle.allocator = .plain := by
  obtain ⟨handle', s1, halloc, hrun⟩ := bind_ok_inv hrun
  have hplain := serves.memAlloc n s handle' s1 halloc
  split at hrun
  · obtain ⟨-, s2, -, hrun⟩ := bind_ok_inv hrun
    cases hrun
    exact hplain
  · cases hrun
    exact hplain

/-- A map that has been created is in two blocks of the plain allocator. -/
theorem mapCreate_attached (hrun : mapCreate ops .plain s = .ok (mh, some mp) s') :
    Attached .plain mh mp := by
  obtain ⟨hmh, hentries, -⟩ := mapCreate_some hrun
  obtain ⟨mh₁, s1, halloc, hrest⟩ := bind_ok_inv hrun
  split at hrest
  · obtain ⟨-, s2, -, hrest⟩ := bind_ok_inv hrest
    obtain ⟨entriesMh, s3, hclear, hrest⟩ := bind_ok_inv hrest
    split at hrest
    · cases hrest
      exact ⟨serves.memAlloc _ _ _ _ halloc, hmh, serves.memAllocClear hclear, hentries⟩
    · obtain ⟨-, s4, -, hrest⟩ := bind_ok_inv hrest
      cases hrest
  · cases hrest

theorem resizesKeep_plain (hmh : mh.allocator = .plain) :
    ResizesKeep ops mh fun entriesMh => entriesMh.allocator = .plain := by
  intro mp isGrow b mp' s s' plain hrun
  unfold resizeEntriesTable at hrun
  obtain ⟨n, s1, -, hrun⟩ := bind_ok_inv hrun
  obtain ⟨newMh, s2, hclear, hrun⟩ := bind_ok_inv hrun
  obtain ⟨ptr, s3, -, hrun⟩ := bind_ok_inv hrun
  split at hrun
  · cases hrun
    exact plain
  · obtain ⟨-, s4, -, hrun⟩ := bind_ok_inv hrun
    obtain ⟨-, s5, -, hrun⟩ := bind_ok_inv hrun
    cases hrun
    exact serves.memAllocClear (hmh ▸ hclear)

theorem MapRun.attached (reads : PointerReads ops)
    (run : MapRun ops target .plain mh mp) : Attached .plain mh mp := by
  induction run with
  | create call => exact mapCreate_attached serves call
  | step run call ih =>
    exact ⟨ih.map_allocator, ih.map_data,
      call.entries (resizesKeep_plain serves ih.map_allocator) reads ih.entries_allocator,
      call.entries (resizesKeep_present reads) reads ih.entries_data⟩

end Plain

/-! ## Runs in which no request fails -/

theorem PlainServes.granting (serves : PlainServes ops) : PlainServes (granting ops) where
  memAlloc n s handle s' hrun := by
    obtain ⟨handle', s1, halloc, hrun⟩ := bind_ok_inv hrun
    split at hrun
    · cases hrun
      exact serves.memAlloc n s handle _ halloc
    · cases hrun
  memP := serves.memP

/-- A resize whose request is granted has not failed: the pointer of the new block has
been written through. -/
theorem resize_granted (reads : PointerReads ops) {isGrow : Bool}
    (hrun : resizeEntriesTable (granting ops) mh mp isGrow s = .ok (b, mp') s') : b = true := by
  unfold resizeEntriesTable at hrun
  obtain ⟨n, s1, -, hrun⟩ := bind_ok_inv hrun
  obtain ⟨newMh, s2, hclear, hrun⟩ := bind_ok_inv hrun
  obtain ⟨ptr, s3, hptr, hrun⟩ := bind_ok_inv hrun
  obtain ⟨handle, s4, halloc, hclear⟩ := bind_ok_inv hclear
  obtain ⟨handle', s5, -, halloc⟩ := bind_ok_inv halloc
  by_cases hv : memIsValid handle' = true
  · rw [if_pos hv] at halloc
    cases halloc
    rw [if_pos hv] at hclear
    obtain ⟨_, s6, hderef, hclear⟩ := bind_ok_inv hclear
    cases hclear
    obtain ⟨rfl, ptr', hne, hfound⟩ := reads.granting.deref_inv hderef
    rw [hfound] at hptr
    cases hptr
    rw [if_neg hne] at hrun
    obtain ⟨-, s7, -, hrun⟩ := bind_ok_inv hrun
    obtain ⟨-, s8, -, hrun⟩ := bind_ok_inv hrun
    cases hrun
    rfl
  · rw [if_neg hv] at halloc
    cases halloc

/-- A granted set has not touched the map, or has succeeded. -/
theorem mapSet_granted (reads : PointerReads ops)
    (hrun : mapSet (granting ops) target mh mp key v s = .ok (b, mp') s') :
    (b = false ∧ mp' = mp) ∨
      ∃ h, key.hash target = some h ∧ b = true ∧ v.data ≠ 0 ∧ SetStep mp h v true mp' := by
  rcases mapSet_inv reads.granting hrun with ⟨rfl, rfl, -⟩ | ⟨h, hh, hv, hset⟩
  · exact Or.inl ⟨rfl, rfl⟩
  · have hstep := doSet_step hset
    obtain rfl : b = true := by
      obtain ⟨pos, -, ⟨-, hb, -⟩ | ⟨-, -, hb, -⟩ | ⟨-, -, s1, s2, hres⟩⟩ := doSet_inv hset
      · exact hb
      · exact hb
      · exact resize_granted reads hres
    exact Or.inr ⟨h, hh, rfl, hv, hstep⟩

/-- A granted delete has not touched the map, or has succeeded. -/
theorem mapDelete_granted (reads : PointerReads ops)
    (hrun : mapDelete (granting ops) target mh mp key s = .ok (b, mp') s') :
    (b = false ∧ mp' = mp) ∨ ∃ h, key.hash target = some h ∧ b = true ∧ DeleteStep mp h true mp' := by
  obtain ⟨h, hh, hdelete⟩ := mapDelete_inv reads.granting hrun
  have hstep := doDelete_step hdelete
  cases b with
  | true => exact Or.inr ⟨h, hh, rfl, hstep⟩
  | false =>
    refine Or.inl ⟨rfl, ?_⟩
    obtain ⟨pos, -, ⟨-, -, hmp⟩ | ⟨-, -, hb, -⟩ | ⟨-, -, s1, s2, hres⟩⟩ := doDelete_inv hdelete
    · exact hmp
    · cases hb
    · exact absurd (resize_granted reads hres) Bool.false_ne_true

/-- What holds of the created map and successful steps keep holds in every state of
a run in which no request fails. -/
theorem MapRun.invariant (reads : PointerReads ops) {P : Map → Prop}
    (created : ∀ entriesMh, P (.created entriesMh))
    (setStep : ∀ mp h v mp', P mp → v.data ≠ 0 → SetStep mp h v true mp' → P mp')
    (deleteStep : ∀ mp h mp', P mp → DeleteStep mp h true mp' → P mp')
    (run : MapRun (granting ops) target ma mh mp) : P mp := by
  induction run with
  | create call =>
    rw [(mapCreate_some call).2.2]
    exact created _
  | step run call ih =>
    cases call with
    | set call =>
      rcases mapSet_granted reads call with ⟨-, rfl⟩ | ⟨h, -, -, hv, hstep⟩
      · exact ih
      · exact setStep _ h _ _ ih hv hstep
    | get call => exact ih
    | delete call =>
      rcases mapDelete_granted reads call with ⟨-, rfl⟩ | ⟨h, -, -, hstep⟩
      · exact ih
      · exact deleteStep _ h _ ih hstep

theorem MapSteps.run {allowed : Map → MapCall → Prop} (run : MapRun ops target ma mh mp)
    (steps : MapSteps ops target mh allowed mp mp') : MapRun ops target ma mh mp' := by
  induction steps with
  | refl => exact run
  | step _ _ call ih => exact ih.step call

/-- What the steps of the allowed calls keep holds after all of them. -/
theorem MapSteps.invariant (reads : PointerReads ops) {allowed : Map → MapCall → Prop}
    {P : Map → Prop}
    (setStep : ∀ mp key h v b mp', P mp → allowed mp (.set key v) → key.hash target = some h →
      v.data ≠ 0 → SetStep mp h v b mp' → P mp')
    (deleteStep : ∀ mp key h b mp', P mp → allowed mp (.delete key) →
      key.hash target = some h → DeleteStep mp h b mp' → P mp')
    (start : P mp) (steps : MapSteps ops target mh allowed mp mp') : P mp' := by
  induction steps with
  | refl => exact start
  | step steps ok call ih =>
    cases call with
    | set call =>
      rcases mapSet_cases reads call with ⟨-, rfl⟩ | ⟨h, hh, hv, hstep⟩
      · exact ih
      · exact setStep _ _ h _ _ _ ih ok hh hv hstep
    | get call => exact ih
    | delete call =>
      obtain ⟨h, hh, hstep⟩ := mapDelete_cases reads call
      exact deleteStep _ _ h _ _ ih ok hh hstep

/-- Every `map_get` of the key that returns, returns `r`; and it returns where the map
and the key are found. -/
structure Answers (ops : MemOps σ) (target : Target) (mh : MemHandle) (mp : Map) (key : MapKey)
    (r : MemHandle) : Prop where
  only : ∀ s r' s', mapGet ops target mh mp key s = .ok r' s' → r' = r
  returns : ∀ s, Standing ops mh mp s → key.ReadableAt ops s →
    mapGet ops target mh mp key s = .ok r s

theorem answers_of_lookup (reads : PointerReads ops) (hmap : mh.data ≠ 0)
    (hentries : mp.entriesMh.data ≠ 0) (hh : key.hash target = some h) (hl : lookup mp h = some r) :
    Answers ops target mh mp key r where
  only s r' s' hrun := by
    obtain ⟨h', hh', hl'⟩ := mapGet_ok hmap hentries hrun
    obtain rfl : h = h' := Option.some.inj (hh.symm.trans hh')
    exact Option.some.inj (hl'.symm.trans hl)
  returns s stands hread := mapGet_returns reads stands hread hh hl

/-! ## Runs that are computed -/

/-- The map and the state after a call that returns. -/
def runCall (ops : MemOps σ) (target : Target) (mh : MemHandle) (mp : Map) (s : σ) :
    MapCall → Option (Map × σ)
  | .set key value =>
    match mapSet ops target mh mp key value s with
    | .ok (_, mp') s' => some (mp', s')
    | .error _ _ => none
  | .get key =>
    match mapGet ops target mh mp key s with
    | .ok _ s' => some (mp, s')
    | .error _ _ => none
  | .delete key =>
    match mapDelete ops target mh mp key s with
    | .ok (_, mp') s' => some (mp', s')
    | .error _ _ => none

theorem runCall_leaves {c : MapCall} (hrun : runCall ops target mh mp s c = some (mp', s')) :
    c.Leaves ops target mh mp mp' := by
  cases c with
  | set key value =>
    simp only [runCall] at hrun
    split at hrun
    · rename_i call
      cases hrun
      exact .set call
    · cases hrun
  | get key =>
    simp only [runCall] at hrun
    split at hrun
    · rename_i call
      cases hrun
      exact .get call
    · cases hrun
  | delete key =>
    simp only [runCall] at hrun
    split at hrun
    · rename_i call
      cases hrun
      exact .delete call
    · cases hrun

/-- Makes the calls one after the other, as long as each passes the test. -/
def runCalls (ops : MemOps σ) (target : Target) (mh : MemHandle) (ok : Map → MapCall → Bool) :
    List MapCall → Map → σ → Option (Map × σ)
  | [], mp, s => some (mp, s)
  | c :: rest, mp, s =>
    if ok mp c then
      (runCall ops target mh mp s c).bind fun r => runCalls ops target mh ok rest r.1 r.2
    else none

theorem runCalls_steps {ok : Map → MapCall → Bool} {allowed : Map → MapCall → Prop}
    (sound : ∀ mp c, ok mp c = true → allowed mp c) {mp₀ : Map} {calls : List MapCall}
    (steps : MapSteps ops target mh allowed mp₀ mp)
    (all : runCalls ops target mh ok calls mp s = some (mp', s')) :
    MapSteps ops target mh allowed mp₀ mp' := by
  induction calls generalizing mp s with
  | nil =>
    cases all
    exact steps
  | cons c rest ih =>
    rw [runCalls] at all
    split at all
    · rename_i hok
      obtain ⟨r, hcall, hrest⟩ := Option.bind_eq_some_iff.mp all
      exact ih (steps.step (sound mp c hok) (runCall_leaves hcall)) hrest
    · cases all

/-- Every call passes. -/
def anyCall (_ : Map) (_ : MapCall) : Bool := true

theorem runCalls_run {calls : List MapCall} (run : MapRun ops target ma mh mp)
    (all : runCalls ops target mh anyCall calls mp s = some (mp', s')) :
    MapRun ops target ma mh mp' := by
  have start : MapSteps ops target mh (fun _ _ => True) mp mp := .refl
  exact (runCalls_steps (fun _ _ _ => trivial) start all).run run

/-- Sets the pointer key of each block to the block. -/
def setBlocks (addrs : List Addr) : List MapCall :=
  addrs.map fun a => .set (.ptr a) ⟨a, 8, .plain⟩

end Calls

/-! ## A plain allocator that never refuses -/

structure BumpHeap where
  next : Nat
  sigint : SigHandler
  deriving DecidableEq, Repr

/-- Every allocation gets the next multiple of 16. -/
def bumpLibc : Libc BumpHeap where
  malloc _ := modifyGet fun s =>
    (UInt64.ofNat (16 * (s.next % 2 ^ 32 + 1)), { s with next := s.next + 1 })
  realloc _ _ := modifyGet fun s =>
    (UInt64.ofNat (16 * (s.next % 2 ^ 32 + 1)), { s with next := s.next + 1 })
  free _ := pure ()
  signal h := modifyGet fun s => (s.sigint, { s with sigint := h })
  staleStore _ _ := pure ()

def bumpOps : MemOps BumpHeap := memOps bumpLibc (baseSpec bumpLibc)

theorem bumpOps_reads : PointerReads bumpOps := memOps_pointerReads (baseSpec_keeps bumpLibc)

/-- The map that `map_create` makes first thing. -/
def bumpMap : Map := .created ⟨32, 1280, .plain⟩
def bumpMapMh : MemHandle := ⟨16, 40, .plain⟩

theorem bumpMap_created :
    mapCreate (granting bumpOps) .plain ⟨0, .dfl⟩ = .ok (bumpMapMh, some bumpMap) ⟨2, .dfl⟩ := rfl

end M65Tool.Source.HashMap
