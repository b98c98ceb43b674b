import Caht.Library.Traced
import Caht.Groups.Inserts

/-! # The accesses of a set of client ids

The functions of `cid_set.c` once more, with the indices at which they read and
write the array of ids.
-/

namespace Caht
open Library Traced

namespace CidAccess

def cidSetInit (junk : ℕ → UInt64) : Traced Access CidSet := do
  let ids ← fill CidSet.emptyVal ((List.range CidSet.initCap).map junk) (CidSet.initCap + 1)
  pure ⟨0, CidSet.initCap, ids⟩

def cidSetExists (set : CidSet) (id : UInt64) : Traced Access Bool := do
  let (found, _) ← Traced.probe CidSet.emptyVal set.ids (set.cap - 1) id set.cap (CidSet.hash id set.cap)
  pure found

def insert (set : CidSet) (id : UInt64) : Traced Access CidSet := do
  let (found, i) ← Traced.probe CidSet.emptyVal set.ids (set.cap - 1) id set.cap (CidSet.hash id set.cap)
  if found then pure set
  else
    let ids ← store set.ids i id
    pure { set with ids := ids, len := set.len + 1 }

/-- One turn of the loop over the old array. -/
def reinsert (oldIds : List UInt64) (set : CidSet) (i : ℕ) : Traced Access CidSet := do
  let id ← load oldIds i
  if id = CidSet.emptyVal then pure set
  else
    let id ← load oldIds i
    insert set id

def cidSetGrow (set : CidSet) (junk : ℕ → UInt64) : Traced Access CidSet := do
  let cap := set.cap * 2
  let ids ← fill CidSet.emptyVal ((List.range cap).map junk) cap
  Traced.runAll (reinsert set.ids) ⟨0, cap, ids⟩ (List.range set.cap)

def cidSetInsert (set : CidSet) (id : UInt64) (junk : ℕ → UInt64) : Traced Access CidSet :=
  if id = CidSet.emptyVal then halt (.exit "illegal value for id (UINT64_MAX)") else
    (if 4 * set.len ≥ 3 * set.cap then cidSetGrow set junk else pure set) >>= fun set =>
      insert set id

/-- The loop reads the slot a second time to copy it. -/
def batchLoop (ids : List UInt64) (batchSize : ℕ) :
    ℕ → ℕ → List UInt64 → Traced Access (ℕ × List UInt64)
  | 0, idx, batch => pure (idx, batch)
  | rest + 1, idx, batch =>
    if batch.length < batchSize then do
      let id ← load ids idx
      if id = CidSet.emptyVal then batchLoop ids batchSize rest (idx + 1) batch
      else
        let id ← load ids idx
        batchLoop ids batchSize rest (idx + 1) (batch ++ [id])
    else pure (idx, batch)

def cidIterNextBatch (iter : CidIter) (batchSize : ℕ) : Traced Access (CidIter × List UInt64) := do
  let (idx, batch) ← batchLoop iter.ids batchSize (iter.len - iter.idx) iter.idx []
  pure ({ iter with idx := idx }, batch)

/-! ## The same functions -/

theorem cidSetInit_result (junk : ℕ → UInt64) :
    (cidSetInit junk).result = .ok (CidSet.cidSetInit junk) := by
  simp [cidSetInit, fill_result, CidSet.cidSetInit, CidSet.fillEmpty]

theorem cidSetExists_result (set : CidSet) (id : UInt64) :
    (cidSetExists set id).result = CidSet.cidSetExists set id := by
  simp only [cidSetExists, bind_result, probe_result, pure_result, CidSet.cidSetExists]

theorem insert_result (set : CidSet) (id : UInt64) :
    (insert set id).result = CidSet.insert set id := by
  simp only [insert, bind_result, probe_result, CidSet.insert]
  congr 1
  funext r
  obtain ⟨found, i⟩ := r
  cases found with
  | true => rfl
  | false => rfl

theorem reinsert_result {oldIds : List UInt64} (set : CidSet) {i : ℕ} (hi : i < oldIds.length) :
    (reinsert oldIds set i).result =
      if oldIds[i] = CidSet.emptyVal then .ok set else CidSet.insert set oldIds[i] := by
  by_cases he : oldIds[i] = CidSet.emptyVal
  · simp [reinsert, load_result hi, he]
  · simp [reinsert, load_result hi, he, insert_result]

/-- The loop over the indices of the old array is the loop over its elements. -/
theorem runAll_reinsert (oldIds : List UInt64) (set : CidSet) :
    Library.runAll (fun set i => (reinsert oldIds set i).result) set (List.range oldIds.length) =
      Library.runAll (fun new id => if id = CidSet.emptyVal then .ok new else CidSet.insert new id)
        set oldIds := by
  have hsuffix : ∀ rest before, before ++ rest = oldIds → ∀ set : CidSet,
      Library.runAll (fun set i => (reinsert oldIds set i).result) set
          (List.range' before.length rest.length) =
        Library.runAll (fun new id => if id = CidSet.emptyVal then .ok new else CidSet.insert new id)
          set rest := by
    intro rest
    induction rest with
    | nil => intros; rfl
    | cons id rest ih =>
      intro before hsplit set
      have hi : before.length < oldIds.length := by
        rw [← hsplit, List.length_append, List.length_cons]
        omega
      have hid : oldIds[before.length] = id := by simp [← hsplit]
      have hrest := ih (before ++ [id]) (by simpa using hsplit)
      rw [List.length_append, List.length_singleton] at hrest
      rw [List.length_cons, List.range'_succ, Library.runAll, Library.runAll, reinsert_result set hi, hid]
      congr 1
      funext set'
      exact hrest set'
  rw [List.range_eq_range']
  exact hsuffix oldIds [] rfl set

theorem cidSetGrow_result {set : CidSet} (hset : set.ids.length = set.cap) (junk : ℕ → UInt64) :
    (cidSetGrow set junk).result = CidSet.cidSetGrow set junk := by
  simp only [cidSetGrow, bind_result, fill_result, ok_bind, runAll_result, ← hset, runAll_reinsert]
  rw [CidSet.cidSetGrow, hset]
  rfl

theorem cidSetInsert_result {set : CidSet} (hset : set.ids.length = set.cap) (id : UInt64)
    (junk : ℕ → UInt64) : (cidSetInsert set id junk).result = CidSet.cidSetInsert set id junk := by
  by_cases hid : id = CidSet.emptyVal
  · simp [cidSetInsert, CidSet.cidSetInsert, hid]
  · by_cases hload : 4 * set.len ≥ 3 * set.cap
    · simp only [cidSetInsert, CidSet.cidSetInsert, if_neg hid, if_pos hload, bind_result,
        cidSetGrow_result hset, insert_result]
    · simp only [cidSetInsert, CidSet.cidSetInsert, if_neg hid, if_neg hload, bind_result,
        pure_result, insert_result]

theorem batchLoop_result {ids : List UInt64} {batchSize rest idx : ℕ} (hrest : rest ≤ ids.length - idx)
    (batch : List UInt64) :
    (batchLoop ids batchSize rest idx batch).result = .ok (CidSet.batchLoop ids batchSize rest idx batch) := by
  induction rest generalizing idx batch with
  | zero => rfl
  | succ rest ih =>
    have hi : idx < ids.length := by omega
    have hnext : rest ≤ ids.length - (idx + 1) := by omega
    by_cases hfull : batch.length < batchSize
    · by_cases he : ids[idx] = CidSet.emptyVal
      · simp [batchLoop, CidSet.batchLoop, hfull, load_result hi, hi, he, ih hnext]
      · simp [batchLoop, CidSet.batchLoop, hfull, load_result hi, hi, he, ih hnext]
    · simp [batchLoop, CidSet.batchLoop, hfull]

theorem cidIterNextBatch_result {iter : CidIter} (hiter : iter.len ≤ iter.ids.length) (batchSize : ℕ) :
    (cidIterNextBatch iter batchSize).result = .ok (CidSet.cidIterNextBatch iter batchSize) := by
  simp [cidIterNextBatch, CidSet.cidIterNextBatch,
    batchLoop_result (show iter.len - iter.idx ≤ iter.ids.length - iter.idx by omega)]

/-! ## Where they reach -/

/-- The array has `cap` elements, and at least one. -/
structure Sized (set : CidSet) : Prop where
  array : set.ids.length = set.cap
  pos : 0 < set.cap

section
variable {set : CidSet}

theorem Sized.mask_lt (h : Sized set) : set.cap - 1 < set.ids.length := by
  have hpos := h.pos
  rw [h.array]
  omega

theorem Sized.hash_lt (h : Sized set) (id : UInt64) : CidSet.hash id set.cap < set.ids.length :=
  Nat.and_le_right.trans_lt h.mask_lt

theorem Sized.exists_within (h : Sized set) (id : UInt64) :
    (cidSetExists set id).Within Access.InBounds :=
  (probe_within h.mask_lt _ (h.hash_lt id)).bind fun _ _ => within_pure _

theorem Sized.insert_within (h : Sized set) (id : UInt64) :
    (insert set id).Within Access.InBounds := by
  refine (probe_within h.mask_lt _ (h.hash_lt id)).bind fun ⟨found, i⟩ hprobe => ?_
  rw [probe_result] at hprobe
  cases found with
  | true => exact within_pure _
  | false =>
    have hi := probe_index h.mask_lt (h.hash_lt id) hprobe
    exact (store_within hi id).bind fun _ _ => within_pure _

theorem Sized.insert (h : Sized set) {id : UInt64} {set' : CidSet}
    (hins : CidSet.insert set id = .ok set') : Sized set' := by
  obtain ⟨⟨found, i⟩, -, hret⟩ := bind_ok_iff.mp hins
  cases found with
  | true =>
    obtain rfl : set = set' := by simpa using hret
    exact h
  | false =>
    obtain rfl : { set with ids := set.ids.set i id, len := set.len + 1 } = set' := by simpa using hret
    exact ⟨by simpa using h.array, h.pos⟩

/-- The loop over the old array stays inside it and keeps the new one in shape. -/
theorem Sized.reinsert (h : Sized set) {oldIds : List UInt64} {i : ℕ} (hi : i < oldIds.length) :
    (reinsert oldIds set i).Within Access.InBounds ∧
      ∀ set', (reinsert oldIds set i).result = .ok set' → Sized set' := by
  refine ⟨(load_within hi).bind fun id _ => ?_, ?_⟩
  · by_cases he : id = CidSet.emptyVal
    · rw [if_pos he]
      exact within_pure _
    · rw [if_neg he]
      exact (load_within hi).bind fun id _ => h.insert_within id
  · intro set' hres
    rw [reinsert_result set hi] at hres
    by_cases he : oldIds[i] = CidSet.emptyVal
    · rw [if_pos he, Except.ok.injEq] at hres
      exact hres ▸ h
    · rw [if_neg he] at hres
      exact h.insert hres

theorem Sized.grow_within (h : Sized set) (junk : ℕ → UInt64) :
    (cidSetGrow set junk).Within Access.InBounds := by
  have hpos := h.pos
  refine (fill_within (by simp)).bind fun ids hids => ?_
  rw [fill_result, Except.ok.injEq] at hids
  refine runAll_within (I := Sized) (fun new i hi hnew => hnew.reinsert ?_) ⟨?_, by simpa using hpos⟩
  · rw [h.array]
    exact List.mem_range.mp hi
  · have hlen := CidSet.fillEmpty_eq ((List.range (set.cap * 2)).map junk) (set.cap * 2) (by simp)
    rw [CidSet.fillEmpty, hids] at hlen
    simp [hlen]

theorem sized_of_table {s : Finset UInt64} (h : set.Table s) : Sized set := by
  obtain ⟨k, hk⟩ := h.pow
  exact ⟨h.length, hk ▸ Nat.two_pow_pos k⟩

theorem cidSetInsert_within {s : Finset UInt64} (h : set.Table s) (id : UInt64) (junk : ℕ → UInt64) :
    (cidSetInsert set id junk).Within Access.InBounds := by
  have hsized := sized_of_table h
  by_cases hid : id = CidSet.emptyVal
  · rw [cidSetInsert, if_pos hid]
    exact within_halt _
  · rw [cidSetInsert, if_neg hid]
    by_cases hload : 4 * set.len ≥ 3 * set.cap
    · rw [if_pos hload]
      refine (hsized.grow_within junk).bind fun grown hgrown => ?_
      obtain ⟨set', hgrow, ht, -⟩ := h.grow junk
      rw [cidSetGrow_result h.length, hgrow, Except.ok.injEq] at hgrown
      exact (sized_of_table (hgrown ▸ ht)).insert_within id
    · rw [if_neg hload]
      refine (within_pure set).bind fun same hsame => ?_
      rw [pure_result, Except.ok.injEq] at hsame
      exact hsame ▸ hsized.insert_within id

end

theorem batchLoop_within {ids : List UInt64} {batchSize rest idx : ℕ} (hrest : rest ≤ ids.length - idx)
    (batch : List UInt64) : (batchLoop ids batchSize rest idx batch).Within Access.InBounds := by
  induction rest generalizing idx batch with
  | zero => exact within_pure _
  | succ rest ih =>
    have hi : idx < ids.length := by omega
    have hnext : rest ≤ ids.length - (idx + 1) := by omega
    by_cases hfull : batch.length < batchSize
    · rw [batchLoop, if_pos hfull]
      refine (load_within hi).bind fun id _ => ?_
      by_cases he : id = CidSet.emptyVal
      · rw [if_pos he]
        exact ih hnext batch
      · rw [if_neg he]
        exact (load_within hi).bind fun id _ => ih hnext _
    · rw [batchLoop, if_neg hfull]
      exact within_pure _

theorem cidIterNextBatch_within {iter : CidIter} (hiter : iter.len ≤ iter.ids.length) (batchSize : ℕ) :
    (cidIterNextBatch iter batchSize).Within Access.InBounds :=
  (batchLoop_within (by omega) []).bind fun _ _ => within_pure _

end CidAccess

/-! ## Sequences of calls -/

/-- A set and the iterators made over it, each with the array it was made for. -/
structure CidUse where
  set : CidSet
  iters : List CidIter

/-- The iterator over the same array with other contents. -/
def CidIter.seeing (it : CidIter) (mem : ℕ → UInt64) : CidIter :=
  { it with ids := (List.range it.ids.length).map mem }

/-- A call on a set. An iterator may be used after later inserts, which write to its
array or free it, so a call of `cid_iter_next_batch` comes with what its array then
holds, `mem`. -/
inductive CidCall where
  | setInsert (id : UInt64) (junk : ℕ → UInt64)
  | setExists (id : UInt64)
  | setIter
  | nextBatch (i batchSize : ℕ) (mem : ℕ → UInt64)

def CidCall.run (u : CidUse) : CidCall → Traced Access CidUse
  | .setInsert id junk => do
    let set ← CidAccess.cidSetInsert u.set id junk
    pure { u with set := set }
  | .setExists id => do
    let _ ← CidAccess.cidSetExists u.set id
    pure u
  | .setIter => pure { u with iters := u.iters ++ [u.set.cidSetIter] }
  | .nextBatch i batchSize mem =>
    match u.iters[i]? with
    | none => halt .undefined
    | some it => do
      let (it', _) ← CidAccess.cidIterNextBatch (it.seeing mem) batchSize
      pure { u with iters := u.iters.set i it' }

/-- The calls of a program that does not insert `UINT64_MAX` and asks only iterators
it has made, of which there are `n` already. -/
def CidCall.Legal : ℕ → List CidCall → Prop
  | _, [] => True
  | n, .setInsert id _ :: calls => id ≠ CidSet.emptyVal ∧ Legal n calls
  | n, .setExists _ :: calls => Legal n calls
  | n, .setIter :: calls => Legal (n + 1) calls
  | n, .nextBatch i _ _ :: calls => i < n ∧ Legal n calls

/-- `cid_set_init`, and the calls after it. -/
def cidSetUse (junk : ℕ → UInt64) (calls : List CidCall) : Traced Access CidUse := do
  let set ← CidAccess.cidSetInit junk
  Traced.runAll CidCall.run ⟨set, []⟩ calls

/-- The set is one that inserts lead to, and each iterator stops at the end of its array. -/
structure CidUse.Sound (u : CidUse) : Prop where
  set : ∃ s, u.set.Compact s
  iters : ∀ it ∈ u.iters, it.len ≤ it.ids.length

section
variable {u u' : CidUse}

theorem CidUse.Sound.seeing (h : u.Sound) {i : ℕ} {it : CidIter} (hi : u.iters[i]? = some it)
    (mem : ℕ → UInt64) : (it.seeing mem).len ≤ (it.seeing mem).ids.length := by
  simpa [CidIter.seeing] using h.iters it (List.mem_of_getElem? hi)

theorem CidUse.Sound.within (h : u.Sound) (c : CidCall) : (c.run u).Within Access.InBounds := by
  obtain ⟨s, hset⟩ := h.set
  cases c with
  | setInsert id junk =>
    exact (CidAccess.cidSetInsert_within hset.wf.table id junk).bind fun _ _ => within_pure _
  | setExists id =>
    exact ((CidAccess.sized_of_table hset.wf.table).exists_within id).bind fun _ _ => within_pure _
  | setIter => exact within_pure _
  | nextBatch i batchSize mem =>
    cases hi : u.iters[i]? with
    | none =>
      simp only [CidCall.run, hi]
      exact within_halt _
    | some it =>
      simp only [CidCall.run, hi]
      exact (CidAccess.cidIterNextBatch_within (h.seeing hi mem) batchSize).bind fun _ _ => within_pure _

theorem CidUse.Sound.step (h : u.Sound) {c : CidCall} (hrun : (c.run u).result = .ok u') :
    u'.Sound := by
  obtain ⟨s, hset⟩ := h.set
  cases c with
  | setInsert id junk =>
    simp only [CidCall.run, bind_result, CidAccess.cidSetInsert_result hset.wf.table.length,
      pure_result] at hrun
    obtain ⟨set', hins, hret⟩ := bind_ok_iff.mp hrun
    have hid : id ≠ CidSet.emptyVal := by
      rintro rfl
      simp [CidSet.cidSetInsert] at hins
    obtain ⟨set'', hins', hset'⟩ := hset.insert ⟨id, junk⟩ hid
    obtain rfl := Except.ok.inj (hins.symm.trans hins')
    obtain rfl := Except.ok.inj hret
    exact ⟨⟨_, hset'⟩, h.iters⟩
  | setExists id =>
    simp only [CidCall.run, bind_result, pure_result] at hrun
    obtain ⟨-, -, hret⟩ := bind_ok_iff.mp hrun
    obtain rfl := Except.ok.inj hret
    exact h
  | setIter =>
    obtain rfl := Except.ok.inj hrun
    refine ⟨h.set, fun it hit => ?_⟩
    rcases List.mem_append.mp hit with hit | hit
    · exact h.iters it hit
    · rw [List.mem_singleton.mp hit]
      exact hset.wf.table.length.ge
  | nextBatch i batchSize mem =>
    cases hi : u.iters[i]? with
    | none => simp [CidCall.run, hi] at hrun
    | some it =>
      simp only [CidCall.run, hi, bind_result, CidAccess.cidIterNextBatch_result (h.seeing hi mem),
        ok_bind, pure_result, Except.ok.injEq] at hrun
      obtain rfl := hrun
      refine ⟨h.set, fun it' hit' => ?_⟩
      rcases List.mem_or_eq_of_mem_set hit' with hit' | rfl
      · exact h.iters it' hit'
      · exact h.seeing hi mem

theorem CidUse.Sound.returns (h : u.Sound) {c : CidCall} {calls : List CidCall}
    (hlegal : CidCall.Legal u.iters.length (c :: calls)) :
    ∃ u', (c.run u).result = .ok u' ∧ CidCall.Legal u'.iters.length calls := by
  obtain ⟨s, hset⟩ := h.set
  cases c with
  | setInsert id junk =>
    obtain ⟨set', hins, -⟩ := hset.insert ⟨id, junk⟩ hlegal.1
    have hres : (CidAccess.cidSetInsert u.set id junk).result = .ok set' := by
      rw [CidAccess.cidSetInsert_result hset.wf.table.length]
      exact hins
    exact ⟨{ u with set := set' }, by simp [CidCall.run, hres], hlegal.2⟩
  | setExists id =>
    exact ⟨u, by simp [CidCall.run, CidAccess.cidSetExists_result, hset.search], hlegal⟩
  | setIter => exact ⟨_, rfl, by simpa [CidCall.Legal] using hlegal⟩
  | nextBatch i batchSize mem =>
    obtain ⟨it, hi⟩ : ∃ it, u.iters[i]? = some it := ⟨_, List.getElem?_eq_getElem hlegal.1⟩
    have hres := CidAccess.cidIterNextBatch_result (h.seeing hi mem) batchSize
    refine ⟨{ u with iters := u.iters.set i (CidSet.cidIterNextBatch (it.seeing mem) batchSize).1 },
      ?_, by simpa using hlegal.2⟩
    simp only [CidCall.run, hi, bind_result, hres, ok_bind, pure_result]

end

theorem CidAccess.cidSetInit_log (junk : ℕ → UInt64) :
    (cidSetInit junk).log = (List.range 9).map fun i => ⟨i, 8⟩ := by
  rw [cidSetInit, bind_log (fill_result _ _ _), fill_log, pure_log, List.append_nil, List.length_map,
    List.length_range]
  rfl

theorem CidUse.sound_init (junk : ℕ → UInt64) : CidUse.Sound ⟨CidSet.cidSetInit junk, []⟩ :=
  ⟨⟨∅, CidSet.compact_init junk⟩, by simp⟩

/-- In every run of legal calls exactly one access is out of bounds: the last store
of `cid_set_init`, to the ninth of eight elements. A read through an iterator counts
against the array the iterator has, also when an insert has freed that array since. -/
theorem cidSet_out_of_bounds (junk : ℕ → UInt64) (calls : List CidCall) (h : CidCall.Legal 0 calls) :
    (∃ u, (cidSetUse junk calls).result = .ok u) ∧
      ¬ (cidSetUse junk calls).Within Access.InBounds ∧
      (cidSetUse junk calls).log.filter (fun a => ¬ a.InBounds) = [⟨8, 8⟩] := by
  have hinit := CidAccess.cidSetInit_result junk
  have hlog : (cidSetUse junk calls).log = (CidAccess.cidSetInit junk).log ++
      (Traced.runAll CidCall.run ⟨CidSet.cidSetInit junk, []⟩ calls).log := bind_log hinit _
  have hrest : (Traced.runAll CidCall.run ⟨CidSet.cidSetInit junk, []⟩ calls).Within Access.InBounds :=
    runAll_within (I := CidUse.Sound) (fun u c _ hu => ⟨hu.within c, fun u' => hu.step⟩)
      (CidUse.sound_init junk)
  have hout : (cidSetUse junk calls).log.filter (fun a => ¬ a.InBounds) = [⟨8, 8⟩] := by
    have hnone : (Traced.runAll CidCall.run ⟨CidSet.cidSetInit junk, []⟩ calls).log.filter
        (fun a => ¬ a.InBounds) = [] := by
      rw [List.filter_eq_nil_iff]
      intro a ha
      simpa using hrest a ha
    rw [hlog, List.filter_append, hnone, List.append_nil, CidAccess.cidSetInit_log]
    decide
  refine ⟨?_, ?_, hout⟩
  · obtain ⟨u, hrun, -⟩ := runAll_total (f := fun u c => (CidCall.run u c).result)
      (I := fun calls u => u.Sound ∧ CidCall.Legal u.iters.length calls)
      (by
        rintro c calls u ⟨hu, hlegal⟩
        obtain ⟨u', hres, hlegal'⟩ := hu.returns hlegal
        exact ⟨u', hres, hu.step hres, hlegal'⟩)
      ⟨CidUse.sound_init junk, h⟩
    refine ⟨u, ?_⟩
    rw [cidSetUse, bind_result, hinit, ok_bind, runAll_result]
    exact hrun
  · intro hin
    have hmem : (⟨8, 8⟩ : Access) ∈ (cidSetUse junk calls).log.filter (fun a => ¬ a.InBounds) := by
      rw [hout]
      exact List.mem_singleton_self _
    exact absurd (hin _ (List.mem_filter.mp hmem).1) (by decide)

/-- An iterator is asked again after a later insert. -/
theorem cidSet_out_of_bounds_stale_iterator :
    ¬ (cidSetUse (fun _ => 7) [.setInsert 1 fun _ => 0, .setIter, .setInsert 9 fun _ => 0,
        .setExists 9, .nextBatch 0 2 fun _ => 3]).Within Access.InBounds :=
  (cidSet_out_of_bounds _ _ (by simp [CidCall.Legal, CidSet.emptyVal])).2.1

/-- A set that is only initialised. -/
theorem cidSetInit_out_of_bounds :
    ¬ ∀ a ∈ (cidSetUse (fun _ => 0) []).log, a.index < a.size := by
  decide

end Caht
