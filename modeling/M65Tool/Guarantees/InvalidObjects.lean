import M65Tool.Guarantees.StringContents
import M65Tool.Source.HashMapSteps
import M65Tool.Source.PublicCalls

/-!
# INVALID-OBJECTS: which functions fail gracefully on an invalid handle

Given a handle without a pointer, a public function is to return its failure result and
change nothing. All do but those of the map: `map_delete` never asks `map_is_valid`, and the
functions for str keys never ask whether the key is valid. They read an invalid key of some
size through its null pointer, and take one of size 0 for the empty str.
-/
namespace M65Tool.Guarantees.InvalidObjects
open Source Source.Mem Source.MapHash Source.HashMap Source.Machine Source.StringBuffer
  Source.StrFunctions Source.PublicCalls StringContents Lib.Effect

section Property
variable {τ : Type} (ops : MemOps (World τ)) (target : Target) (mem : Memory)
  (isspace : UInt8 → Bool) (rounds : Nat)

/-- Some handle argument has no pointer. -/
def HasInvalid (call : PublicCall) : Prop := ∃ handle ∈ call.handles, memIsValid handle = false

/-- The handles that have a pointer are those of live objects: `mem_p` answers with one. -/
def Sound (call : PublicCall) (w : World τ) : Prop :=
  ∀ handle ∈ call.handles ++ call.innerHandles, memIsValid handle = true →
    ∃ ptr, Reads ops handle ptr w

/-- The call returns the failure result, and leaves the machine and the caller's object as
they were. -/
def Graceful (call : PublicCall) (w : World τ) : Prop :=
  ∃ answer, call.run ops target mem isspace rounds w = .ok (answer, call.passed) w ∧
    call.Fails answer

/-- The search for the hash of the empty str ends at an entry of this kind. -/
def EmptyStrEntry (mp : Map) (P : MapEntry → Prop) : Prop :=
  ∃ pos, findEntryPos mp (hashStart target mapKeyStr) = some pos ∧ P (mp.slot pos)

/-- The calls whose invalid handles the code catches. An invalid str key does no harm to a
map function that stops before it hashes the key, nor, if its size is 0, where the map
has nothing under the empty str. -/
def Guarded : PublicCall → Prop
  | .mapSet mh mp (.str key) value => memIsValid key.handle = false →
      memIsValid mh = false ∨ memIsValid mp.entriesMh = false ∨ memIsValid value = false
  | .mapGet mh mp (.str key) => memIsValid key.handle = false →
      memIsValid mh = false ∨ memIsValid mp.entriesMh = false ∨
      (key.handle.size = 0 ∧ EmptyStrEntry target mp fun entry =>
        entry.keyHash = 0 ∨ memIsValid entry.valueHandle = false)
  | .mapDelete mh mp (.str key) => memIsValid mh = true ∧ memIsValid mp.entriesMh = true ∧
      key.handle.size = 0 ∧ EmptyStrEntry target mp fun entry => entry.keyHash = 0
  | .mapDelete _ _ (.ptr _) => False
  | _ => True

end Property

/-! ## The guards -/

section Guards
variable {σ : Type} {libc : Libc σ} {spec : MemAllocator → Option (MemAllocatorSpec σ)}
  {handle mh bufHandle : MemHandle} {mp : Map} {bufp : Strbuf} {s s' : σ}

theorem memRealloc_invalid (hv : memIsValid handle = false) (size : Nat) :
    (memOps libc spec).memRealloc handle size s = .ok .zero s := by
  change memRealloc libc spec handle size s = _
  rw [memRealloc, if_neg (by rw [hv]; decide)]
  rfl

theorem memFree_invalid (hv : memIsValid handle = false) :
    (memOps libc spec).memFree handle s = .ok .zero s := by
  change memFree libc spec handle s = _
  rw [memFree, if_neg (by rw [hv]; decide)]
  rfl

theorem memP_invalid (hv : memIsValid handle = false) :
    (memOps libc spec).memP handle s = .ok 0 s := by
  change memP spec handle s = _
  rw [memP, if_neg (by rw [hv]; decide)]
  rfl

/-- The access that the graceful functions avoid. -/
theorem deref_invalid (hv : memIsValid handle = false) :
    deref (memOps libc spec) handle s = .error .nullDereference s := by
  rw [deref, bind_of_ok (memP_invalid hv), if_pos rfl]
  rfl

theorem deref_ok_isValid {u : Unit} (hrun : deref (memOps libc spec) handle s = .ok u s') :
    memIsValid handle = true := by
  by_contra hv
  rw [deref_invalid (by simpa using hv)] at hrun
  cases hrun

theorem memDuplicateWithAllocator_invalid (hv : memIsValid handle = false)
    (allocator : MemAllocator) :
    memDuplicateWithAllocator (memOps libc spec) allocator handle s = .ok .zero s := by
  rw [memDuplicateWithAllocator, if_neg (by rw [hv]; decide)]
  rfl

theorem mapIsValid_invalid (hv : memIsValid mh = false) :
    mapIsValid (memOps libc spec) mh mp s = .ok false s := by
  rw [mapIsValid, if_neg (by rw [hv]; decide)]
  rfl

theorem mapIsValid_reads {ptr : Addr} (reads : Reads (memOps libc spec) mh ptr s) :
    mapIsValid (memOps libc spec) mh mp s = .ok (memIsValid mp.entriesMh) s := by
  rw [mapIsValid, if_pos (reads_isValid reads), bind_of_ok (reads_deref reads)]
  rfl

theorem strbufIsValid_invalid (hv : memIsValid bufHandle = false) :
    strbufIsValid (memOps libc spec) bufHandle bufp s = .ok false s := by
  rw [strbufIsValid, if_neg (by rw [hv]; decide)]
  rfl

theorem strbufIsValid_reads {ptr : Addr} (reads : Reads (memOps libc spec) bufHandle ptr s) :
    strbufIsValid (memOps libc spec) bufHandle bufp s = .ok (memIsValid bufp.data) s := by
  rw [strbufIsValid, if_pos (reads_isValid reads), bind_of_ok (reads_deref reads)]
  rfl

theorem doStrbufConcatenate_invalid (hv : memIsValid bufHandle = false) (rounds : Nat)
    (cstr : Region) (length : Nat) :
    doStrbufConcatenate (memOps libc spec) rounds bufHandle bufp cstr length s =
      .ok (false, bufp) s := by
  rw [doStrbufConcatenate, bind_of_ok (strbufIsValid_invalid hv)]
  rfl

end Guards

section Calls
variable {τ : Type} {libc : Libc (World τ)}
  {spec : MemAllocator → Option (MemAllocatorSpec (World τ))} {target : Target} {mem : Memory}
  {isspace : UInt8 → Bool} {rounds : Nat} {call : PublicCall} {mh value : MemHandle} {mp mp' : Map}
  {key : MapKey} {w w' : World τ}

theorem graceful_returns {α : Type} {answer : α → Answer} {x : C (World τ) α} {a : α}
    (run_eq : call.run (memOps libc spec) target mem isspace rounds = returns answer x)
    (passed_eq : call.passed = .nothing) (hx : x w = .ok a w) (fails : call.Fails (answer a)) :
    Graceful (memOps libc spec) target mem isspace rounds call w := by
  refine ⟨answer a, ?_, fails⟩
  rw [run_eq, passed_eq, returns, bind_of_ok hx]
  rfl

theorem graceful_stores {α β : Type} {answer : α → Answer} {passed : β → Passed}
    {x : C (World τ) (α × β)} {a : α} {b : β}
    (run_eq : call.run (memOps libc spec) target mem isspace rounds = stores answer passed x)
    (passed_eq : call.passed = passed b) (hx : x w = .ok (a, b) w) (fails : call.Fails (answer a)) :
    Graceful (memOps libc spec) target mem isspace rounds call w := by
  refine ⟨answer a, ?_, fails⟩
  rw [run_eq, passed_eq, stores, bind_of_ok hx]
  rfl

/-! ## The map functions for str keys, and map_delete -/

/-- An invalid key of some size is read through its null pointer; one of size 0 is not. -/
theorem hashStr_invalid {key : Str} (hv : memIsValid key.handle = false) :
    hashStr (memOps libc spec) target key w =
      if key.handle.size = 0 then .ok (hashStart target mapKeyStr) w
      else .error .nullDereference w := by
  unfold hashStr derefKey
  by_cases hsize : key.handle.size = 0
  · have hbytes : key.bytes = [] := List.length_eq_zero_iff.mp (key.size_eq.trans hsize)
    rw [if_pos hsize, if_pos hsize, hbytes, hashBytes_eq target [] (by decide)]
    rfl
  · rw [if_neg hsize, if_neg hsize, bind_of_error (deref_invalid hv)]

/-- The table is reached through two valid handles. -/
theorem derefTable_ok_isValid {entries : Addr}
    (hrun : derefTable (memOps libc spec) mh mp w = .ok entries w') :
    memIsValid mh = true ∧ memIsValid mp.entriesMh = true := by
  obtain ⟨_, w1, hmh, htable⟩ := bind_ok_inv hrun
  refine ⟨deref_ok_isValid hmh, ?_⟩
  by_contra hv
  rw [bind_of_ok (memP_invalid (by simpa using hv))] at htable
  cases htable

theorem derefTable_reads {ptr entries : Addr} (reads : Reads (memOps libc spec) mh ptr w)
    (readsEntries : Reads (memOps libc spec) mp.entriesMh entries w) :
    derefTable (memOps libc spec) mh mp w = .ok entries w := by
  rw [derefTable, bind_of_ok (reads_deref reads), bind_of_ok readsEntries.2,
    if_neg readsEntries.1]
  rfl

theorem of_graceful_stores {α β : Type} {answer : α → Answer} {passed : β → Passed}
    {x : C (World τ) (α × β)}
    (run_eq : call.run (memOps libc spec) target mem isspace rounds = stores answer passed x)
    (h : Graceful (memOps libc spec) target mem isspace rounds call w) :
    ∃ a b, x w = .ok (a, b) w ∧ call.passed = passed b ∧ call.Fails (answer a) := by
  obtain ⟨result, hrun, hfails⟩ := h
  rw [run_eq] at hrun
  obtain ⟨⟨a, b⟩, w1, hx, hret⟩ := bind_ok_inv hrun
  change EStateM.Result.ok (answer a, passed b) w1 = _ at hret
  injection hret with hpair hw
  injection hpair with hanswer hpassed
  subst hw hanswer
  exact ⟨a, b, hx, hpassed.symm, hfails⟩

theorem of_graceful_returns {α : Type} {answer : α → Answer} {x : C (World τ) α}
    (run_eq : call.run (memOps libc spec) target mem isspace rounds = returns answer x)
    (h : Graceful (memOps libc spec) target mem isspace rounds call w) :
    ∃ a, x w = .ok a w ∧ call.Fails (answer a) := by
  obtain ⟨result, hrun, hfails⟩ := h
  rw [run_eq] at hrun
  obtain ⟨a, w1, hx, hret⟩ := bind_ok_inv hrun
  change EStateM.Result.ok (answer a, Passed.nothing) w1 = _ at hret
  injection hret with hpair hw
  injection hpair with hanswer _
  subst hw hanswer
  exact ⟨a, hx, hfails⟩

/-- Where the other handles are valid, the invalid one is a str key. -/
theorem invalidKey (others : List MemHandle)
    (invalid : ∃ handle ∈ others ++ keyHandles key, memIsValid handle = false)
    (valid : ∀ handle ∈ others, memIsValid handle = true) :
    ∃ strKey, key = .str strKey ∧ memIsValid strKey.handle = false := by
  obtain ⟨handle, hmem, hv⟩ := invalid
  obtain hother | hkey := List.mem_append.mp hmem
  · rw [valid handle hother] at hv
    cases hv
  · cases key with
    | ptr key => cases hkey
    | str key =>
      rw [List.mem_singleton.mp hkey] at hv
      exact ⟨key, rfl, hv⟩

theorem invalidKey_of_map (invalid : ∃ handle ∈ mh :: keyHandles key, memIsValid handle = false)
    (valid : memIsValid mh = true) :
    ∃ strKey, key = .str strKey ∧ memIsValid strKey.handle = false := by
  apply invalidKey [mh] invalid
  intro handle hmem
  rw [List.mem_singleton.mp hmem]
  exact valid

/-- `map_set` on an invalid map, or without a valid value. -/
theorem mapSet_stops (sound : Sound (memOps libc spec) (.mapSet mh mp key value) w)
    (stops : memIsValid mh = false ∨ memIsValid mp.entriesMh = false ∨ memIsValid value = false) :
    mapSet (memOps libc spec) target mh mp key value w = .ok (false, mp) w := by
  have hmap : mapIsValid (memOps libc spec) mh mp w = .ok false w ∨
      (mapIsValid (memOps libc spec) mh mp w = .ok true w ∧ memIsValid value = false) := by
    cases hmh : memIsValid mh with
    | false => exact .inl (mapIsValid_invalid hmh)
    | true =>
      obtain ⟨ptr, reads⟩ := sound mh (by simp [PublicCall.handles]) hmh
      rw [mapIsValid_reads reads]
      cases hentries : memIsValid mp.entriesMh with
      | false => exact .inl rfl
      | true =>
        rw [hmh, hentries] at stops
        exact .inr ⟨rfl, by simpa using stops⟩
  cases key with
  | str key =>
    change mapSetStr (memOps libc spec) target mh mp key value w = _
    obtain hmap | ⟨hmap, hvalue⟩ := hmap
    · rw [mapSetStr, bind_of_ok hmap]
      rfl
    · rw [mapSetStr, bind_of_ok hmap, if_pos rfl, bind_of_ok (memP_invalid hvalue)]
      rfl
  | ptr key =>
    change mapSetPtr (memOps libc spec) target mh mp key value w = _
    obtain hmap | ⟨hmap, hvalue⟩ := hmap
    · rw [mapSetPtr, bind_of_ok hmap]
      rfl
    · rw [mapSetPtr, bind_of_ok hmap, if_pos rfl, if_neg (by rw [hvalue]; decide)]
      rfl

theorem mapSet_graceful_iff (invalid : HasInvalid (.mapSet mh mp key value))
    (sound : Sound (memOps libc spec) (.mapSet mh mp key value) w) :
    Graceful (memOps libc spec) target mem isspace rounds (.mapSet mh mp key value) w ↔
      Guarded target (.mapSet mh mp key value) := by
  by_cases stops : memIsValid mh = false ∨ memIsValid mp.entriesMh = false ∨
      memIsValid value = false
  · refine iff_of_true (graceful_stores rfl rfl (mapSet_stops sound stops) rfl) ?_
    cases key with
    | str key => exact fun _ => stops
    | ptr key => trivial
  · have hvalid : memIsValid mh = true ∧ memIsValid mp.entriesMh = true ∧
        memIsValid value = true := by simpa using stops
    obtain ⟨strKey, rfl, hkey⟩ : ∃ strKey, key = .str strKey ∧ memIsValid strKey.handle = false := by
      apply invalidKey [mh, value] invalid
      intro handle hmem
      obtain rfl | hmem := List.mem_cons.mp hmem
      · exact hvalid.1
      · rw [List.mem_singleton.mp hmem]
        exact hvalid.2.2
    refine iff_of_false ?_ fun guarded => stops (guarded hkey)
    intro graceful
    obtain ⟨b, mp', hset, hpassed, hfails⟩ := of_graceful_stores rfl graceful
    obtain ⟨ptr, reads⟩ := sound mh (by simp [PublicCall.handles]) hvalid.1
    obtain ⟨valuePtr, readsValue⟩ := sound value (by simp [PublicCall.handles]) hvalid.2.2
    change mapSetStr (memOps libc spec) target mh mp strKey value w = _ at hset
    rw [mapSetStr, bind_of_ok (mapIsValid_reads reads), if_pos hvalid.2.1,
      bind_of_ok readsValue.2, if_neg readsValue.1] at hset
    obtain ⟨h, w1, -, hdo⟩ := bind_ok_inv hset
    cases hfails
    cases hpassed
    exact (doSet_step hdo).map_ne rfl

/-- `map_get` on an invalid map. -/
theorem mapGet_stops (sound : Sound (memOps libc spec) (.mapGet mh mp key) w)
    (stops : memIsValid mh = false ∨ memIsValid mp.entriesMh = false) :
    mapGet (memOps libc spec) target mh mp key w = .ok .zero w := by
  have hmap : mapIsValid (memOps libc spec) mh mp w = .ok false w := by
    cases hmh : memIsValid mh with
    | false => exact mapIsValid_invalid hmh
    | true =>
      obtain ⟨ptr, reads⟩ := sound mh (by simp [PublicCall.handles]) hmh
      rw [mapIsValid_reads reads, stops.resolve_left (by rw [hmh]; decide)]
  cases key with
  | str key =>
    change mapGetStr (memOps libc spec) target mh mp key w = _
    rw [mapGetStr, bind_of_ok hmap]
    rfl
  | ptr key =>
    change mapGetPtr (memOps libc spec) target mh mp key w = _
    rw [mapGetPtr, bind_of_ok hmap]
    rfl

/-- What a lookup of the empty str answers. -/
theorem lookup_invalid_iff {h : UInt32} :
    (∃ result, lookup mp h = some result ∧ memIsValid result = false) ↔
      ∃ pos, findEntryPos mp h = some pos ∧
        ((mp.slot pos).keyHash = 0 ∨ memIsValid (mp.slot pos).valueHandle = false) := by
  unfold lookup
  cases findEntryPos mp h with
  | none => simp
  | some pos =>
    by_cases hfree : (mp.slot pos).keyHash = 0
    · simp [hfree, MemHandle.zero]
    · simp [hfree]

theorem mapGet_graceful_iff (invalid : HasInvalid (.mapGet mh mp key))
    (sound : Sound (memOps libc spec) (.mapGet mh mp key) w) :
    Graceful (memOps libc spec) target mem isspace rounds (.mapGet mh mp key) w ↔
      Guarded target (.mapGet mh mp key) := by
  by_cases stops : memIsValid mh = false ∨ memIsValid mp.entriesMh = false
  · refine iff_of_true (graceful_returns rfl rfl (mapGet_stops sound stops) rfl) ?_
    cases key with
    | str key => exact fun _ => stops.imp_right .inl
    | ptr key => trivial
  · have hvalid : memIsValid mh = true ∧ memIsValid mp.entriesMh = true := by simpa using stops
    obtain ⟨strKey, rfl, hkey⟩ := invalidKey_of_map invalid hvalid.1
    obtain ⟨ptr, reads⟩ := sound mh (by simp [PublicCall.handles]) hvalid.1
    obtain ⟨entries, readsEntries⟩ := sound mp.entriesMh
      (by simp [PublicCall.handles, PublicCall.innerHandles, hvalid.1]) hvalid.2
    have hrun : mapGet (memOps libc spec) target mh mp (.str strKey) w =
        (hashStr (memOps libc spec) target strKey >>= fun keyHash =>
          doGet (memOps libc spec) mh mp keyHash) w := by
      change mapGetStr (memOps libc spec) target mh mp strKey w = _
      rw [mapGetStr, bind_of_ok (mapIsValid_reads reads), if_pos hvalid.2]
    have hhash : hashStr (memOps libc spec) target strKey w =
        if strKey.handle.size = 0 then .ok (hashStart target mapKeyStr) w
        else .error .nullDereference w := hashStr_invalid hkey
    constructor
    · intro graceful _
      obtain ⟨result, hget, hfails⟩ := of_graceful_returns rfl graceful
      rw [hrun] at hget
      by_cases hsize : strKey.handle.size = 0
      · rw [if_pos hsize] at hhash
        rw [bind_of_ok hhash] at hget
        exact .inr (.inr ⟨hsize, lookup_invalid_iff.mp ⟨result, doGet_ok hget, hfails⟩⟩)
      · rw [if_neg hsize] at hhash
        rw [bind_of_error hhash] at hget
        cases hget
    · intro guarded
      obtain hmh | hentries | ⟨hsize, hslot⟩ := guarded hkey
      · exact absurd (.inl hmh) stops
      · exact absurd (.inr hentries) stops
      · obtain ⟨result, hlookup, hinvalid⟩ := lookup_invalid_iff.mpr hslot
        refine graceful_returns rfl rfl (a := result) ?_ hinvalid
        rw [if_pos hsize] at hhash
        rw [hrun, bind_of_ok hhash, doGet, bind_of_ok (derefTable_reads reads readsEntries),
          hlookup]
        rfl

/-- `map_delete` answers only through a valid map. -/
theorem mapDelete_ok_isValid {result : Bool × Map}
    (hrun : mapDelete (memOps libc spec) target mh mp key w = .ok result w') :
    memIsValid mh = true ∧ memIsValid mp.entriesMh = true := by
  have hdo : ∃ h w1, doDelete (memOps libc spec) mh mp h w1 = .ok result w' := by
    cases key with
    | ptr key => exact ⟨_, w, hrun⟩
    | str key =>
      obtain ⟨h, w1, -, hdo⟩ := bind_ok_inv hrun
      exact ⟨h, w1, hdo⟩
  obtain ⟨h, w1, hdo⟩ := hdo
  obtain ⟨_, w2, htable, -⟩ := bind_ok_inv hdo
  exact derefTable_ok_isValid htable

theorem mapDelete_graceful_iff (invalid : HasInvalid (.mapDelete mh mp key))
    (sound : Sound (memOps libc spec) (.mapDelete mh mp key) w) :
    Graceful (memOps libc spec) target mem isspace rounds (.mapDelete mh mp key) w ↔
      Guarded target (.mapDelete mh mp key) := by
  constructor
  · intro graceful
    obtain ⟨b, mp', hdelete, hpassed, hfails⟩ := of_graceful_stores rfl graceful
    cases hfails
    cases hpassed
    have hvalid := mapDelete_ok_isValid hdelete
    obtain ⟨strKey, rfl, hkey⟩ := invalidKey_of_map invalid hvalid.1
    obtain ⟨h, w1, hhash, hdo⟩ := bind_ok_inv hdelete
    rw [hashStr_invalid hkey] at hhash
    by_cases hsize : strKey.handle.size = 0
    · rw [if_pos hsize] at hhash
      injection hhash with hh hw
      subst hh hw
      exact ⟨hvalid.1, hvalid.2, hsize, (doDelete_step hdo).free_of_eq rfl⟩
    · rw [if_neg hsize] at hhash
      cases hhash
  · intro guarded
    cases key with
    | ptr key => exact guarded.elim
    | str key =>
      obtain ⟨hmh, hentries, hsize, pos, hfound, hfree⟩ := guarded
      obtain ⟨_, heq, hkey⟩ := invalidKey_of_map invalid hmh
      cases heq
      obtain ⟨ptr, reads⟩ := sound mh (by simp [PublicCall.handles]) hmh
      obtain ⟨entries, readsEntries⟩ := sound mp.entriesMh
        (by simp [PublicCall.handles, PublicCall.innerHandles, hmh]) hentries
      have hhash : hashStr (memOps libc spec) target key w = .ok (hashStart target mapKeyStr) w := by
        rw [hashStr_invalid hkey, if_pos hsize]
      have hdo : doDelete (memOps libc spec) mh mp (hashStart target mapKeyStr) w =
          .ok (false, mp) w := by
        rw [doDelete, bind_of_ok (derefTable_reads reads readsEntries), hfound]
        change (if (mp.slot pos).keyHash = 0 then pure (false, mp) else _ : C _ _) w = _
        rw [if_pos hfree]
        rfl
      refine graceful_stores rfl rfl (a := false) ?_ rfl
      change mapDeleteStr (memOps libc spec) target mh mp key w = _
      rw [mapDeleteStr, bind_of_ok hhash, hdo]

/-! ## The other functions -/

theorem only_invalid {handle : MemHandle}
    (invalid : ∃ handle' ∈ [handle], memIsValid handle' = false) : memIsValid handle = false := by
  obtain ⟨handle', hmem, hv⟩ := invalid
  rw [List.mem_singleton.mp hmem] at hv
  exact hv

theorem either_invalid {first second : MemHandle}
    (invalid : ∃ handle ∈ [first, second], memIsValid handle = false) :
    memIsValid first = false ∨ memIsValid second = false := by
  obtain ⟨handle, hmem, hv⟩ := invalid
  obtain rfl | hmem := List.mem_cons.mp hmem
  · exact .inl hv
  · rw [List.mem_singleton.mp hmem] at hv
    exact .inr hv

theorem memtblIsValid_invalid {mthandle : MemHandle} (hv : memIsValid mthandle = false) :
    memtblIsValid (memOps libc spec) mthandle w = .ok false w := by
  rw [memtblIsValid, if_neg (by rw [hv]; decide)]
  rfl

theorem memtblDestroy_invalid {mthandle : MemHandle} (hv : memIsValid mthandle = false) :
    memtblDestroy (memOps libc spec) rounds mthandle w = .ok () w := by
  rw [memtblDestroy, bind_of_ok (memtblIsValid_invalid hv)]
  rfl

theorem mapDestroy_invalid (hv : memIsValid mh = false) :
    mapDestroy (memOps libc spec) mh mp w = .ok () w := by
  rw [mapDestroy, bind_of_ok (mapIsValid_invalid hv)]
  rfl

theorem mapFirstValueIter_invalid (hv : memIsValid mh = false) :
    mapFirstValueIter (memOps libc spec) mh mp w = .ok .zero w := by
  rw [mapFirstValueIter, bind_of_ok (memP_invalid hv)]
  rfl

theorem mapNextValueIter_invalid {it : MapIter} (hv : memIsValid it.mh = false) :
    mapNextValueIter (memOps libc spec) mp it w = .ok .zero w := by
  rw [mapNextValueIter, bind_of_ok (memP_invalid hv)]
  rfl

theorem mapIterDone_invalid {it : MapIter} (hv : memIsValid it.valueHandle = false) :
    mapIterDone (memOps libc spec) it w = .ok true w := by
  rw [mapIterDone, bind_of_ok (memP_invalid hv)]
  rfl

section Strs
variable {strval first second delim part : MemHandle}

theorem strDuplicateStr_invalid (hv : memIsValid strval = false) :
    strDuplicateStr (memOps libc spec) strval w = .ok .zero w := by
  rw [strDuplicateStr, if_pos (by rw [hv]; decide)]
  rfl

theorem strDestroy_invalid (hv : memIsValid strval = false) :
    strDestroy (memOps libc spec) strval w = .ok () w := by
  rw [strDestroy, bind_of_ok (memFree_invalid hv)]
  rfl

theorem strWriteCstrToBuf_invalid (hv : memIsValid strval = false) (buf : Buffer)
    (bufsize : Nat) :
    strWriteCstrToBuf (memOps libc spec) mem strval buf bufsize w = .ok (.zero, buf) w := by
  rw [strWriteCstrToBuf, if_pos (.inl (by rw [hv]; decide))]
  rfl

theorem strCstr_invalid (hv : memIsValid strval = false) (strCstrBuffer : Buffer) :
    strCstr (memOps libc spec) mem strCstrBuffer strval w = .ok (0, strCstrBuffer) w := by
  rw [strCstr, if_pos (by rw [hv]; decide)]
  rfl

/-- The guard of the functions of two strs. -/
theorem not_both_valid (invalid : memIsValid first = false ∨ memIsValid second = false) :
    ¬ memIsValid first = true ∨ ¬ memIsValid second = true := by
  simpa using invalid

theorem strFind_invalid (invalid : memIsValid first = false ∨ memIsValid second = false) :
    strFind (memOps libc spec) mem rounds first second w = .ok (-1) w := by
  rw [strFind, if_pos (not_both_valid invalid)]
  rfl

/-- The tests of `str_compare` for invalid strs. -/
theorem strCompare_invalid (invalid : memIsValid first = false ∨ memIsValid second = false) :
    strCompare (memOps libc spec) mem target first second w =
      .ok (invalidOrder first second) w := by
  unfold strCompare invalidOrder
  cases hfirst : memIsValid first with
  | false =>
    cases hsecond : memIsValid second with
    | false => rfl
    | true => rfl
  | true =>
    rw [invalid.resolve_left (by rw [hfirst]; decide)]
    rfl

theorem strSplitPop_invalid (invalid : memIsValid strval = false ∨ memIsValid delim = false) :
    strSplitPop (memOps libc spec) mem rounds strval delim part w = .ok (.zero, part) w := by
  rw [strSplitPop, if_pos (not_both_valid invalid)]
  rfl

theorem strSplitWhitespacePop_invalid (hv : memIsValid strval = false) :
    strSplitWhitespacePop (memOps libc spec) mem rounds isspace strval part w =
      .ok (.zero, part) w := by
  rw [strSplitWhitespacePop, if_pos (by rw [hv]; decide)]
  rfl

end Strs

section Strbufs
variable {bufHandle sourcebufHandle : MemHandle} {bufp sourcebufp : Strbuf}

theorem strDuplicateStrbuf_invalid (hv : memIsValid bufHandle = false)
    (allocator : MemAllocator) :
    strDuplicateStrbufWithAllocator (memOps libc spec) bufHandle bufp allocator w =
      .ok .zero w := by
  rw [strDuplicateStrbufWithAllocator, bind_of_ok (strbufIsValid_invalid hv)]
  rfl

theorem strbufDestroy_invalid (hv : memIsValid bufHandle = false) :
    strbufDestroy (memOps libc spec) bufHandle bufp w = .ok () w := by
  rw [strbufDestroy, bind_of_ok (strbufIsValid_invalid hv)]
  rfl

theorem strbufStr_invalid (hv : memIsValid bufHandle = false) :
    strbufStr (memOps libc spec) bufHandle bufp w = .ok .zero w := by
  rw [strbufStr, if_neg (by rw [hv]; decide)]
  rfl

theorem strbufReset_invalid (hv : memIsValid bufHandle = false) :
    strbufReset (memOps libc spec) bufHandle bufp w = .ok bufp w := by
  rw [strbufReset, if_neg (by rw [hv]; decide)]
  rfl

theorem concatenateCstr_invalid (hv : memIsValid bufHandle = false) (cstr : CStr) :
    strbufConcatenateCstr (memOps libc spec) rounds bufHandle bufp cstr w =
      .ok (false, bufp) w := by
  unfold strbufConcatenateCstr
  by_cases hnull : cstr.ptr = 0
  · rw [if_pos hnull]
    rfl
  · rw [if_neg hnull]
    exact doStrbufConcatenate_invalid hv rounds _ _

theorem concatenateStr_invalid {strval : Str}
    (invalid : HasInvalid (.strbufConcatenateStr bufHandle bufp strval))
    (sound : Sound (memOps libc spec) (.strbufConcatenateStr bufHandle bufp strval) w) :
    strbufConcatenateStr (memOps libc spec) rounds bufHandle bufp strval w =
      .ok (false, bufp) w := by
  unfold strbufConcatenateStr
  cases hstr : memIsValid strval.handle with
  | false =>
    rw [if_neg (by rw [strIsValid, hstr]; decide)]
    rfl
  | true =>
    have hbuf := (either_invalid invalid).resolve_right (by rw [hstr]; decide)
    obtain ⟨ptr, reads⟩ := sound strval.handle (by simp [PublicCall.handles]) hstr
    have hvalid : strIsValid strval = true := hstr
    rw [if_pos hvalid, bind_of_ok reads.2]
    exact doStrbufConcatenate_invalid hbuf rounds _ _

/-- The source is looked at before the buffer is. -/
theorem concatenateStrbuf_invalid
    (invalid : HasInvalid (.strbufConcatenateStrbuf bufHandle bufp sourcebufHandle sourcebufp))
    (sound : Sound (memOps libc spec)
      (.strbufConcatenateStrbuf bufHandle bufp sourcebufHandle sourcebufp) w) :
    strbufConcatenateStrbuf (memOps libc spec) rounds bufHandle bufp sourcebufHandle sourcebufp w =
      .ok (false, bufp) w := by
  unfold strbufConcatenateStrbuf
  cases hsource : memIsValid sourcebufHandle with
  | false =>
    rw [bind_of_ok (strbufIsValid_invalid hsource)]
    rfl
  | true =>
    have hbuf := (either_invalid invalid).resolve_right (by rw [hsource]; decide)
    obtain ⟨ptr, reads⟩ := sound sourcebufHandle (by simp [PublicCall.handles]) hsource
    rw [bind_of_ok (strbufIsValid_reads reads)]
    cases hdata : memIsValid sourcebufp.data with
    | false => rfl
    | true =>
      obtain ⟨data, readsData⟩ := sound sourcebufp.data
        (by simp [PublicCall.handles, PublicCall.innerHandles, hsource]) hdata
      rw [if_pos rfl, bind_of_ok (reads_deref reads), bind_of_ok readsData.2]
      exact doStrbufConcatenate_invalid hbuf rounds _ _

theorem concatenatePrintf_invalid (hv : memIsValid bufHandle = false) (fmt : Addr)
    (vsnprintf : Vsnprintf) :
    strbufConcatenatePrintf (memOps libc spec) rounds bufHandle bufp fmt vsnprintf w =
      .ok (false, bufp) w := by
  rw [strbufConcatenatePrintf, bind_of_ok (strbufIsValid_invalid hv)]
  rfl

theorem strbufDuplicate_invalid (hv : memIsValid bufHandle = false) :
    strbufDuplicate (memOps libc spec) rounds bufHandle bufp w = .ok (.zero, none) w := by
  rw [strbufDuplicate, bind_of_ok (strbufIsValid_invalid hv)]
  rfl

end Strbufs

/-- A call whose guard stops it before anything is stored. -/
theorem guarded_returns {α : Type} {answer : α → Answer} {x : C (World τ) α} {a : α}
    (guarded : Guarded target call)
    (run_eq : call.run (memOps libc spec) target mem isspace rounds = returns answer x)
    (passed_eq : call.passed = .nothing) (hx : x w = .ok a w) (fails : call.Fails (answer a)) :
    Graceful (memOps libc spec) target mem isspace rounds call w ↔ Guarded target call :=
  iff_of_true (graceful_returns run_eq passed_eq hx fails) guarded

theorem guarded_stores {α β : Type} {answer : α → Answer} {passed : β → Passed}
    {x : C (World τ) (α × β)} {a : α} {b : β} (guarded : Guarded target call)
    (run_eq : call.run (memOps libc spec) target mem isspace rounds = stores answer passed x)
    (passed_eq : call.passed = passed b) (hx : x w = .ok (a, b) w) (fails : call.Fails (answer a)) :
    Graceful (memOps libc spec) target mem isspace rounds call w ↔ Guarded target call :=
  iff_of_true (graceful_stores run_eq passed_eq hx fails) guarded

/-- A public function given an invalid handle fails gracefully, unless it is one of the map
that does not ask whether the map or the str key is valid. -/
theorem invalid_graceful_iff (invalid : HasInvalid call)
    (sound : Sound (memOps libc spec) call w) :
    Graceful (memOps libc spec) target mem isspace rounds call w ↔ Guarded target call := by
  cases call with
  | mapSet => exact mapSet_graceful_iff invalid sound
  | mapGet => exact mapGet_graceful_iff invalid sound
  | mapDelete => exact mapDelete_graceful_iff invalid sound
  | memRealloc handle size =>
    exact guarded_returns trivial rfl rfl (memRealloc_invalid (only_invalid invalid) size) rfl
  | memFree => exact guarded_returns trivial rfl rfl (memFree_invalid (only_invalid invalid)) rfl
  | memP => exact guarded_returns trivial rfl rfl (memP_invalid (only_invalid invalid)) rfl
  | memSize => exact guarded_returns trivial rfl rfl rfl trivial
  | memIsValid => exact guarded_returns trivial rfl rfl rfl (only_invalid invalid)
  | memDuplicate handle =>
    exact guarded_returns trivial rfl rfl
      (memDuplicateWithAllocator_invalid (only_invalid invalid) handle.allocator) rfl
  | memDuplicateWithAllocator allocator =>
    exact guarded_returns trivial rfl rfl
      (memDuplicateWithAllocator_invalid (only_invalid invalid) allocator) rfl
  | memtblIsValid =>
    exact guarded_returns trivial rfl rfl (memtblIsValid_invalid (only_invalid invalid)) rfl
  | memtblDestroy =>
    exact guarded_returns trivial rfl rfl (memtblDestroy_invalid (only_invalid invalid)) trivial
  | memAllocatorMemtbl =>
    exact guarded_returns trivial rfl rfl rfl (memIsValid_eq_false.mp (only_invalid invalid))
  | mapIsValid =>
    exact guarded_returns trivial rfl rfl (mapIsValid_invalid (only_invalid invalid)) rfl
  | mapDestroy =>
    exact guarded_returns trivial rfl rfl (mapDestroy_invalid (only_invalid invalid)) trivial
  | mapFirstValueIter =>
    exact guarded_returns trivial rfl rfl (mapFirstValueIter_invalid (only_invalid invalid)) rfl
  | mapNextValueIter =>
    exact guarded_returns trivial rfl rfl (mapNextValueIter_invalid (only_invalid invalid)) rfl
  | mapIterDone =>
    exact guarded_returns trivial rfl rfl (mapIterDone_invalid (only_invalid invalid)) rfl
  | mapIterValue => exact guarded_returns trivial rfl rfl rfl (only_invalid invalid)
  | strDuplicateStr =>
    exact guarded_returns trivial rfl rfl (strDuplicateStr_invalid (only_invalid invalid)) rfl
  | strDuplicateStrWithAllocator strval allocator =>
    exact guarded_returns trivial rfl rfl
      (memDuplicateWithAllocator_invalid (only_invalid invalid) allocator) rfl
  | strDuplicateStrbuf bufHandle =>
    exact guarded_returns trivial rfl rfl
      (strDuplicateStrbuf_invalid (only_invalid invalid) bufHandle.allocator) rfl
  | strDuplicateStrbufWithAllocator bufHandle bufp allocator =>
    exact guarded_returns trivial rfl rfl
      (strDuplicateStrbuf_invalid (only_invalid invalid) allocator) rfl
  | strDestroy =>
    exact guarded_returns trivial rfl rfl (strDestroy_invalid (only_invalid invalid)) trivial
  | strWriteCstrToBuf strval buf bufsize =>
    exact guarded_stores trivial rfl rfl
      (strWriteCstrToBuf_invalid (only_invalid invalid) buf bufsize) rfl
  | strCstr strCstrBuffer =>
    exact guarded_stores trivial rfl rfl (strCstr_invalid (only_invalid invalid) strCstrBuffer) rfl
  | strIsValid => exact guarded_returns trivial rfl rfl rfl (only_invalid invalid)
  | strLength => exact guarded_returns trivial rfl rfl rfl trivial
  | strFind => exact guarded_returns trivial rfl rfl (strFind_invalid (either_invalid invalid)) rfl
  | strCompare =>
    exact guarded_returns trivial rfl rfl (strCompare_invalid (either_invalid invalid)) rfl
  | strSplitPop =>
    exact guarded_stores trivial rfl rfl (strSplitPop_invalid (either_invalid invalid)) rfl
  | strSplitWhitespacePop =>
    exact guarded_stores trivial rfl rfl (strSplitWhitespacePop_invalid (only_invalid invalid)) rfl
  | strbufDestroy =>
    exact guarded_returns trivial rfl rfl (strbufDestroy_invalid (only_invalid invalid)) trivial
  | strbufIsValid =>
    exact guarded_returns trivial rfl rfl (strbufIsValid_invalid (only_invalid invalid)) rfl
  | strbufStr => exact guarded_returns trivial rfl rfl (strbufStr_invalid (only_invalid invalid)) rfl
  | strbufReset =>
    exact iff_of_true ⟨.void, bind_of_ok (strbufReset_invalid (only_invalid invalid)) _, trivial⟩
      trivial
  | strbufConcatenateChar =>
    exact guarded_stores trivial rfl rfl
      (doStrbufConcatenate_invalid (only_invalid invalid) rounds _ _) rfl
  | strbufConcatenateCstr bufHandle bufp cstr =>
    exact guarded_stores trivial rfl rfl (concatenateCstr_invalid (only_invalid invalid) cstr) rfl
  | strbufConcatenateStr =>
    exact guarded_stores trivial rfl rfl (concatenateStr_invalid invalid sound) rfl
  | strbufConcatenateStrbuf =>
    exact guarded_stores trivial rfl rfl (concatenateStrbuf_invalid invalid sound) rfl
  | strbufConcatenatePrintf bufHandle bufp fmt vsnprintf =>
    exact guarded_stores trivial rfl rfl
      (concatenatePrintf_invalid (only_invalid invalid) fmt vsnprintf) rfl
  | strbufDuplicate =>
    exact guarded_returns trivial rfl rfl (strbufDuplicate_invalid (only_invalid invalid)) rfl

end Calls

/-! ## A machine without memory -/

def noHeap : HeapOps Unit :=
  ⟨fun _ => pure 0, fun _ _ => pure 0, fun _ => pure (), fun _ _ => throw .deadBlock⟩

def bareOps : MemOps (World Unit) := chainOps noHeap ⟨true⟩ []

def bareWorld : World Unit := ⟨.dfl, [], fun _ => none, fun _ => none, ()⟩

def noMap : Map := ⟨.zero, [], 0, 0⟩

theorem zeroHandle_sound {call : PublicCall} (zero : ∀ handle ∈ call.handles, handle = .zero)
    (inner : call.innerHandles = []) : Sound bareOps call bareWorld := by
  intro handle hmem hv
  rw [inner, List.append_nil] at hmem
  rw [zero handle hmem] at hv
  cases hv

/-- `map_delete_ptr` of the zero handle dereferences its null pointer. -/
theorem mapDelete_zero_handle :
    HasInvalid (.mapDelete .zero noMap (.ptr 4096)) ∧
    Sound bareOps (.mapDelete .zero noMap (.ptr 4096)) bareWorld ∧
    PublicCall.run bareOps ⟨true⟩ (fun _ => none) (fun _ => false) 1
      (.mapDelete .zero noMap (.ptr 4096)) bareWorld = .error .nullDereference bareWorld ∧
    ¬ Graceful bareOps ⟨true⟩ (fun _ => none) (fun _ => false) 1
      (.mapDelete .zero noMap (.ptr 4096)) bareWorld := by
  have hrun : PublicCall.run bareOps ⟨true⟩ (fun _ => none) (fun _ => false) 1
      (.mapDelete .zero noMap (.ptr 4096)) bareWorld = .error .nullDereference bareWorld := rfl
  refine ⟨⟨.zero, List.mem_cons_self, rfl⟩, ?_, hrun, ?_⟩
  · exact zeroHandle_sound (fun handle hmem => List.mem_singleton.mp hmem) rfl
  · intro ⟨answer, hok, _⟩
    rw [hrun] at hok
    cases hok

/-- A str of a literal, which nothing has allocated, and a table with one entries block. -/
def literal : MemHandle := ⟨4096, 3, .notAllocated⟩

def plainMap : Map := ⟨⟨8192, 32 * sizeofMapEntry, .plain⟩, List.replicate 32 ⟨0, .zero⟩, 32, 0⟩

theorem bareOps_reads {handle : MemHandle} (hne : handle.data ≠ 0)
    (base : handle.allocator = .notAllocated ∨ handle.allocator = .plain) :
    Reads bareOps handle handle.data bareWorld := by
  obtain ⟨data, size, allocator⟩ := handle
  refine ⟨hne, ?_⟩
  have hcall : ∀ allocator : MemAllocator, allocator = .notAllocated ∨ allocator = .plain →
      bareOps.memP ⟨data, size, allocator⟩ bareWorld =
        (if memIsValid ⟨data, size, allocator⟩ then pure data else pure 0 : C _ Addr)
          bareWorld := by
    rintro _ (rfl | rfl)
    · rfl
    · rfl
  rw [hcall allocator base, if_pos (memIsValid_eq_true.mpr hne)]
  rfl

/-- A search for an invalid str in a valid one fails gracefully, and setting a value in a
valid map under an invalid str does not. -/
theorem invalid_graceful_iff_mixed :
    Graceful bareOps ⟨true⟩ (fun _ => none) (fun _ => false) 1 (.strFind literal .zero)
      bareWorld ∧
    ¬ Graceful bareOps ⟨true⟩ (fun _ => none) (fun _ => false) 1
      (.mapSet ⟨16384, sizeofMap, .plain⟩ plainMap (.str ⟨.zero, [], rfl⟩) literal) bareWorld := by
  have hliteral : Reads bareOps literal 4096 bareWorld := bareOps_reads (by decide) (Or.inl rfl)
  constructor
  · have sound : Sound bareOps (.strFind literal .zero) bareWorld := by
      intro handle hmem hvalid
      rcases List.mem_cons.mp hmem with rfl | hmem
      · exact ⟨_, hliteral⟩
      · rw [List.mem_singleton.mp hmem] at hvalid
        cases hvalid
    exact (invalid_graceful_iff ⟨.zero, by decide, rfl⟩ sound).mpr trivial
  · have sound : Sound bareOps
        (.mapSet ⟨16384, sizeofMap, .plain⟩ plainMap (.str ⟨.zero, [], rfl⟩) literal)
        bareWorld := by
      intro handle hmem hvalid
      rcases List.mem_cons.mp hmem with rfl | hmem
      · exact ⟨_, bareOps_reads (by decide) (Or.inr rfl)⟩
      · rcases List.mem_cons.mp hmem with rfl | hmem
        · exact ⟨_, hliteral⟩
        · rcases List.mem_cons.mp hmem with rfl | hmem
          · cases hvalid
          · rw [List.mem_singleton.mp hmem]
            exact ⟨_, bareOps_reads (by decide) (Or.inr rfl)⟩
    intro graceful
    have guarded := (invalid_graceful_iff ⟨.zero, by decide, rfl⟩ sound).mp graceful
    rcases guarded rfl with h | h | h
    · cases h
    · cases h
    · cases h

end M65Tool.Guarantees.InvalidObjects
