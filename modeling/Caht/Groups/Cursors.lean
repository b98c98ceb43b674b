import Caht.Library.Sweep
import Caht.Groups.Inserts

/-! # Iterators and inserts

`cid_iter_next_batch` cuts the members of a set into batches so that the caller can do
something else in between, and what it does may insert into the set. An iterator points
to the array the set had when it was made. `cid_set_insert` fills slots of that array, or
frees it when the set grows.
-/

namespace Caht
open Library CidSet

/-- `struct cid_iter`, with a pointer to the array of that number. -/
structure CidRef where
  idx : ℕ
  len : ℕ
  array : ℕ

/-- An iterator with its past: the set it was made for, the ids it has returned, and how
many it was asked for. -/
structure CidWalk where
  it : CidRef
  origin : CidSet
  got : List UInt64
  asked : ℕ

/-- A set and the iterators made for it. `array` is the number of the array `set->ids`
points to, the last one that was allocated. The others have been freed. -/
structure CidMem where
  set : CidSet
  array : ℕ
  walks : List CidWalk

inductive CursorCall where
  | setInsert (id : UInt64) (junk : ℕ → UInt64)
  | setIter
  | nextBatch (i batchSize : ℕ)

namespace CidMem

/-- A new array is allocated when the set is three quarters full. -/
def setInsert (m : CidMem) (id : UInt64) (junk : ℕ → UInt64) : Outcome CidMem := do
  let set ← cidSetInsert m.set id junk
  .ok { m with set := set, array := if 4 * m.set.len ≥ 3 * m.set.cap then m.array + 1 else m.array }

def setIter (m : CidMem) : CidMem :=
  { m with walks := m.walks ++ [⟨⟨0, m.set.cap, m.array⟩, m.set, [], 0⟩] }

/-- Without a slot to read or room in the batch the call does not look at the array. -/
def nextBatch (m : CidMem) (it : CidRef) (batchSize : ℕ) : Outcome (CidRef × List UInt64) :=
  if it.array = m.array then
    let (it', batch) := cidIterNextBatch ⟨it.idx, it.len, m.set.ids⟩ batchSize
    .ok ({ it with idx := it'.idx }, batch)
  else if it.idx < it.len ∧ 0 < batchSize then .error .undefined
  else .ok (it, [])

def call (m : CidMem) : CursorCall → Outcome CidMem
  | .setInsert id junk => m.setInsert id junk
  | .setIter => .ok m.setIter
  | .nextBatch i batchSize =>
    match m.walks[i]? with
    | none => .error .undefined
    | some w => do
      let (it, batch) ← m.nextBatch w.it batchSize
      .ok { m with walks := m.walks.set i ⟨it, w.origin, w.got ++ batch, w.asked + batchSize⟩ }

/-- `cid_set_init` -/
def init (junk : ℕ → UInt64) : CidMem := ⟨cidSetInit junk, 0, []⟩

end CidMem

/-- The call reads through an iterator whose array was freed. The set has another capacity
then than the iterator. -/
def CursorCall.Dangling (m : CidMem) : CursorCall → Prop
  | .nextBatch i batchSize =>
    ∃ w ∈ m.walks[i]?, w.it.len ≠ m.set.cap ∧ w.it.idx < w.it.len ∧ 0 < batchSize
  | _ => False

/-- Inserts are not for the id that marks empty slots, and batches are read through one of
the `n` iterators there are. -/
def CursorCall.Legal : ℕ → List CursorCall → Prop
  | _, [] => True
  | n, .setInsert id _ :: calls => id ≠ emptyVal ∧ Legal n calls
  | n, .setIter :: calls => Legal (n + 1) calls
  | n, .nextBatch i _ :: calls => i < n ∧ Legal n calls

/-! ## One call -/

section
variable {set set' : CidSet} {s : Finset UInt64}

theorem probe_false {ids : List UInt64} {mask : ℕ} {id : UInt64} {fuel i j : ℕ}
    (h : probe emptyVal ids mask id fuel i = .ok (false, j)) : ids[j]? = some emptyVal := by
  induction fuel generalizing i with
  | zero => cases h
  | succ fuel ih =>
    rw [probe] at h
    cases hv : ids[i]? with
    | none => simp [hv] at h
    | some v =>
      simp only [hv] at h
      split_ifs at h with he hid
      · obtain ⟨-, rfl⟩ := Prod.mk.inj (Except.ok.inj h)
        rw [hv, he]
      · cases h
      · exact ih h

theorem CidSet.insert_filled {id : UInt64} (h : set.insert id = .ok set') :
    Filled emptyVal set.ids set'.ids ∧ set'.cap = set.cap := by
  obtain ⟨⟨found, i⟩, hprobe, hret⟩ := bind_ok_iff.mp h
  cases found with
  | true =>
    obtain rfl := Except.ok.inj hret
    exact ⟨.refl _ _, rfl⟩
  | false =>
    obtain rfl := Except.ok.inj hret
    exact ⟨.set (probe_false hprobe) id, rfl⟩

/-- An insert into a set that is not three quarters full leaves the array where it is, and
any other one doubles the capacity. -/
theorem CidSet.insert_array (h : set.Wf s) {id : UInt64} {junk : ℕ → UInt64}
    (hins : cidSetInsert set id junk = .ok set') :
    (4 * set.len < 3 * set.cap → Filled emptyVal set.ids set'.ids ∧ set'.cap = set.cap) ∧
      (3 * set.cap ≤ 4 * set.len → set'.cap = 2 * set.cap) := by
  rw [CidSet.cidSetInsert] at hins
  split_ifs at hins with hid hfull
  · obtain ⟨set₁, hgrow, hins⟩ := bind_ok_iff.mp hins
    obtain ⟨set₂, hgrow', -, hcap⟩ := h.table.grow junk
    obtain rfl := Except.ok.inj (hgrow.symm.trans hgrow')
    have hcap' := (CidSet.insert_filled hins).2
    exact ⟨fun hlt => absurd hfull (not_le.mpr hlt), fun _ => by omega⟩
  · rw [ok_bind] at hins
    exact ⟨fun _ => CidSet.insert_filled hins, fun hle => absurd hle hfull⟩

theorem CidSet.batchLoop_idx (ids : List UInt64) (n rest idx : ℕ) (batch : List UInt64) :
    idx ≤ (batchLoop ids n rest idx batch).1 ∧
      ((batchLoop ids n rest idx batch).2.length < n → (batchLoop ids n rest idx batch).1 = idx + rest) := by
  induction rest generalizing idx batch with
  | zero => simp [batchLoop]
  | succ rest ih =>
    by_cases hfull : batch.length < n
    · simp only [batchLoop, if_pos hfull]
      obtain ⟨hle, hend⟩ := ih (idx + 1)
        (if ids.getD idx emptyVal = emptyVal then batch else batch ++ [ids.getD idx emptyVal])
      exact ⟨by omega, fun hlt => by rw [hend hlt]; omega⟩
    · simp only [batchLoop, if_neg hfull]
      exact ⟨le_rfl, fun hlt => absurd hlt hfull⟩

/-- A batch is what is stored in the slots that were passed. -/
theorem CidSet.nextBatch_spec {ids : List UInt64} {idx n : ℕ} (hidx : idx ≤ ids.length) :
    ∃ idx' batch, cidIterNextBatch ⟨idx, ids.length, ids⟩ n = (⟨idx', ids.length, ids⟩, batch) ∧
      idx ≤ idx' ∧ idx' ≤ ids.length ∧ batch = stored emptyVal ((ids.drop idx).take (idx' - idx)) ∧
      batch.length ≤ n ∧ (batch.length < n → idx' = ids.length) := by
  obtain ⟨idx', hle, hfst, hsnd, hrest⟩ := batchLoop_eq ids n (ids.length - idx) idx []
    (Nat.add_sub_cancel' hidx) (Nat.zero_le n)
  obtain ⟨hge, hend⟩ := batchLoop_idx ids n (ids.length - idx) idx []
  rw [List.nil_append, List.length_nil, Nat.sub_zero] at hsnd
  rw [List.length_nil, Nat.sub_zero] at hrest
  rw [hfst] at hge hend
  refine ⟨idx', (stored emptyVal (ids.drop idx)).take n, ?_, hge, hle, ?_, List.length_take_le _ _, ?_⟩
  · simp only [cidIterNextBatch, hfst, hsnd]
  · -- both are what comes before the slots that are left
    have hsplit : stored emptyVal ((ids.drop idx).take (idx' - idx)) ++ stored emptyVal (ids.drop idx') =
        stored emptyVal (ids.drop idx) := by
      rw [← stored_append]
      congr 1
      have hdrop : ids.drop idx' = (ids.drop idx).drop (idx' - idx) := by
        rw [List.drop_drop, Nat.add_sub_cancel' hge]
      rw [hdrop, List.take_append_drop]
    have htake : (stored emptyVal (ids.drop idx)).take n ++ stored emptyVal (ids.drop idx') =
        stored emptyVal (ids.drop idx) := by
      rw [hrest, List.take_append_drop]
    exact List.append_cancel_right (htake.trans hsplit.symm)
  · intro hlt
    rw [hsnd] at hend
    have hlast := hend hlt
    omega

end

/-! ## Runs -/

/-- `slots` is what the array of the iterator holds, or held when it was freed. -/
structure CidWalk.Sound (w : CidWalk) (m : CidMem) (slots : List UInt64) : Prop where
  origin : ∃ s, w.origin.Compact s
  array_le : w.it.array ≤ m.array
  cap_le : w.it.len ≤ m.set.cap
  current : w.it.array = m.array ↔ w.it.len = m.set.cap
  slots_eq : w.it.array = m.array → slots = m.set.ids
  length : slots.length = w.it.len
  nodup : (stored emptyVal slots).Nodup
  subset : ∀ id ∈ stored emptyVal slots, id ∈ stored emptyVal m.set.ids
  sweep : Sweep emptyVal w.origin.ids slots w.it.idx w.got
  idx_le : w.it.idx ≤ w.it.len
  full : w.it.idx < w.it.len → w.got.length = w.asked

structure CidMem.Sound (m : CidMem) : Prop where
  set : ∃ s, m.set.Compact s
  walks : ∀ w ∈ m.walks, ∃ slots, w.Sound m slots

section
variable {m m' : CidMem} {w : CidWalk} {slots : List UInt64}

theorem CidWalk.Sound.insert (h : w.Sound m slots) {s s' : Finset UInt64} (hs : m.set.Compact s)
    {id : UInt64} {junk : ℕ → UInt64} {set' : CidSet} (hins : cidSetInsert m.set id junk = .ok set')
    (hs' : set'.Compact s') (hsub : s ⊆ s') :
    ∃ slots', w.Sound { m with set := set', array :=
      if 4 * m.set.len ≥ 3 * m.set.cap then m.array + 1 else m.array } slots' := by
  obtain ⟨hkeep, hgrow⟩ := CidSet.insert_array hs.wf hins
  have hmem : ∀ id ∈ stored emptyVal m.set.ids, id ∈ stored emptyVal set'.ids := fun id hid =>
    (hs'.wf.table.mem id).mpr (hsub ((hs.wf.table.mem id).mp hid))
  have hcap := hs.wf.cap
  have hle := h.array_le
  have hcap' := h.cap_le
  by_cases hfull : 4 * m.set.len ≥ 3 * m.set.cap
  · have hdouble := hgrow hfull
    simp only [if_pos hfull]
    refine ⟨slots, ⟨h.origin, ?_, ?_, ?_, ?_, h.length, h.nodup, ?_, h.sweep, h.idx_le, h.full⟩⟩
    · exact hle.trans (Nat.le_succ _)
    · simp only
      omega
    · simp only
      omega
    · intro heq
      simp only at heq
      omega
    · exact fun id hid => hmem id (h.subset id hid)
  · obtain ⟨hfill, hsame⟩ := hkeep (not_le.mp hfull)
    simp only [if_neg hfull]
    by_cases hcur : w.it.array = m.array
    · obtain rfl := h.slots_eq hcur
      refine ⟨set'.ids, ⟨h.origin, hle, ?_, ?_, fun _ => rfl, ?_, ?_, fun _ hid => hid,
        h.sweep.fill hfill, h.idx_le, h.full⟩⟩
      · simp only [hsame]
        exact hcap'
      · simp only [hsame]
        exact h.current
      · exact hfill.length_eq.symm.trans h.length
      · exact hs'.wf.table.probed.stored_nodup
    · refine ⟨slots, ⟨h.origin, hle, ?_, ?_, fun heq => absurd heq hcur, h.length, h.nodup,
        fun id hid => hmem id (h.subset id hid), h.sweep, h.idx_le, h.full⟩⟩
      · simp only [hsame]
        exact hcap'
      · simp only [hsame]
        exact h.current

theorem CidMem.Sound.setInsert (h : m.Sound) {id : UInt64} (hid : id ≠ emptyVal)
    (junk : ℕ → UInt64) : ∃ m', m.setInsert id junk = .ok m' ∧ m'.Sound ∧ m'.walks = m.walks := by
  obtain ⟨s, hs⟩ := h.set
  obtain ⟨set', hins, hs'⟩ := hs.insert ⟨id, junk⟩ hid
  refine ⟨_, bind_ok_iff.mpr ⟨set', hins, rfl⟩, ⟨⟨_, hs'⟩, fun w hw => ?_⟩, rfl⟩
  obtain ⟨slots, hslots⟩ := h.walks w hw
  exact hslots.insert hs hins hs' Finset.subset_union_left

theorem CidMem.Sound.setIter (h : m.Sound) : m.setIter.Sound := by
  obtain ⟨s, hs⟩ := h.set
  refine ⟨⟨s, hs⟩, fun w hw => ?_⟩
  rcases List.mem_append.mp hw with hw | hw
  · obtain ⟨slots, hw⟩ := h.walks w hw
    exact ⟨slots, { hw with }⟩
  · obtain rfl := List.mem_singleton.mp hw
    exact ⟨m.set.ids, ⟨⟨s, hs⟩, le_rfl, le_rfl, iff_of_true rfl rfl, fun _ => rfl,
      hs.wf.table.length, hs.wf.table.probed.stored_nodup, fun _ hid => hid,
      Sweep.start emptyVal m.set.ids, Nat.zero_le _, fun _ => rfl⟩⟩

theorem CidWalk.Sound.nextBatch (h : w.Sound m slots) (hcur : w.it.array = m.array) (n : ℕ) :
    ∃ it batch, m.nextBatch w.it n = .ok (it, batch) ∧
      CidWalk.Sound ⟨it, w.origin, w.got ++ batch, w.asked + n⟩ m slots := by
  obtain rfl := h.slots_eq hcur
  obtain ⟨idx', batch, hnext, hge, hle, hbatch, hlen, hshort⟩ :=
    CidSet.nextBatch_spec (n := n) (h.idx_le.trans_eq h.length.symm)
  rw [h.length] at hnext
  have hit : m.nextBatch w.it n = .ok ({ w.it with idx := idx' }, batch) := by
    rw [CidMem.nextBatch, if_pos hcur, hnext]
  refine ⟨_, batch, hit, { h with
    sweep := ?_
    idx_le := hle.trans_eq h.length
    full := ?_ }⟩
  · rw [hbatch]
    exact h.sweep.advance hge
  · intro hlt
    have hlt' : idx' < m.set.ids.length := hlt.trans_eq h.length.symm
    have hall : batch.length = n := by
      by_contra hne
      exact absurd (hshort (lt_of_le_of_ne hlen hne)) (Nat.ne_of_lt hlt')
    have hprev := h.full (lt_of_le_of_lt hge hlt)
    rw [List.length_append, hprev, hall]

theorem CidWalk.Sound.idle (h : w.Sound m slots) {n : ℕ} (hread : ¬ (w.it.idx < w.it.len ∧ 0 < n)) :
    CidWalk.Sound ⟨w.it, w.origin, w.got ++ [], w.asked + n⟩ m slots := by
  refine { h with
    sweep := ?_
    full := ?_ }
  · rw [List.append_nil]
    exact h.sweep
  · intro hlt
    have hn : n = 0 := by
      by_contra hne
      exact hread ⟨hlt, Nat.pos_of_ne_zero hne⟩
    rw [List.append_nil, h.full hlt, hn, Nat.add_zero]

theorem CidMem.Sound.set_walk (h : m.Sound) {w' : CidWalk} (hw' : w'.Sound m slots) (i : ℕ) :
    CidMem.Sound { m with walks := m.walks.set i w' } := by
  refine ⟨h.set, fun u hu => ?_⟩
  rcases List.mem_or_eq_of_mem_set hu with hu | rfl
  · obtain ⟨slots', hu⟩ := h.walks u hu
    exact ⟨slots', { hu with }⟩
  · exact ⟨slots, { hw' with }⟩

/-- A call returns unless it reads what was freed. -/
theorem CidMem.Sound.call (h : m.Sound) {c : CursorCall} {calls : List CursorCall}
    (hlegal : CursorCall.Legal m.walks.length (c :: calls)) :
    (c.Dangling m ∧ m.call c = .error .undefined) ∨
      (¬ c.Dangling m ∧ ∃ m', m.call c = .ok m' ∧ m'.Sound ∧
        CursorCall.Legal m'.walks.length calls) := by
  cases c with
  | setInsert id junk =>
    obtain ⟨hid, hlegal⟩ := hlegal
    obtain ⟨m', hins, hm', hwalks⟩ := h.setInsert hid junk
    exact .inr ⟨fun hd => hd, m', hins, hm', by rwa [hwalks]⟩
  | setIter => exact .inr ⟨fun hd => hd, _, rfl, h.setIter, by simpa [CidMem.setIter, CursorCall.Legal] using hlegal⟩
  | nextBatch i n =>
    obtain ⟨hlt, hlegal⟩ := hlegal
    have hlegal' : ∀ w', CursorCall.Legal (m.walks.set i w').length calls := by
      intro w'
      rwa [List.length_set]
    have hi : m.walks[i]? = some m.walks[i] := List.getElem?_eq_getElem hlt
    generalize m.walks[i] = w at hi
    obtain ⟨slots, hw⟩ := h.walks w (List.mem_of_getElem? hi)
    have hdang : (CursorCall.nextBatch i n).Dangling m ↔
        w.it.len ≠ m.set.cap ∧ w.it.idx < w.it.len ∧ 0 < n := by
      simp [CursorCall.Dangling, hi]
    have hfreed : w.it.len ≠ m.set.cap ↔ w.it.array ≠ m.array := not_congr hw.current.symm
    rw [hdang, hfreed]
    by_cases hcur : w.it.array = m.array
    · obtain ⟨it, batch, hnext, hw'⟩ := hw.nextBatch hcur n
      exact .inr ⟨fun hd => hd.1 hcur, _, by simp only [CidMem.call, hi, hnext, ok_bind],
        h.set_walk hw' i, hlegal' _⟩
    · by_cases hread : w.it.idx < w.it.len ∧ 0 < n
      · refine .inl ⟨⟨hcur, hread⟩, ?_⟩
        simp only [CidMem.call, hi, CidMem.nextBatch, if_neg hcur, if_pos hread, error_bind]
      · refine .inr ⟨fun hd => hread hd.2, _, ?_, h.set_walk (hw.idle hread) i, hlegal' _⟩
        simp only [CidMem.call, hi, CidMem.nextBatch, if_neg hcur, if_neg hread, ok_bind]

/-- What an iterator has returned, in terms of what `cid_set_exists` answers. A batch that
was not full says that the iterator is at the end. -/
theorem CidMem.Sound.walk (h : m.Sound) (hw : w ∈ m.walks) :
    w.got.Nodup ∧ (∀ id ∈ w.got, cidSetExists m.set id = .ok true) ∧
      (w.got.length < w.asked → ∀ id, cidSetExists w.origin id = .ok true → id ∈ w.got) := by
  obtain ⟨slots, hw⟩ := h.walks w hw
  obtain ⟨s, hs⟩ := h.set
  obtain ⟨s₀, hs₀⟩ := hw.origin
  refine ⟨hw.sweep.nodup hw.nodup, fun id hid => ?_, fun hshort id hid => ?_⟩
  · have hmem := (hs.wf.table.mem id).mp (hw.subset id (hw.sweep.mem_stored hid))
    rw [hs.search, decide_eq_true hmem]
  · rw [hs₀.search, Except.ok.injEq, decide_eq_true_eq] at hid
    have hend : slots.length ≤ w.it.idx := by
      rw [hw.length]
      by_contra hlt
      exact absurd (hw.full (not_le.mp hlt)) (Nat.ne_of_lt hshort)
    exact hw.sweep.complete hend ((hs₀.wf.table.mem id).mpr hid)

end

theorem CidMem.sound_init (junk : ℕ → UInt64) : (CidMem.init junk).Sound :=
  ⟨⟨∅, compact_init junk⟩, by simp [CidMem.init]⟩

theorem CidMem.Sound.runAll {m m' : CidMem} (h : m.Sound) {pre post : List CursorCall}
    (hlegal : CursorCall.Legal m.walks.length (pre ++ post))
    (hrun : runAll CidMem.call m pre = .ok m') : m'.Sound ∧ CursorCall.Legal m'.walks.length post := by
  induction pre generalizing m with
  | nil =>
    obtain rfl := Except.ok.inj hrun
    exact ⟨h, hlegal⟩
  | cons c pre ih =>
    obtain ⟨m₁, hcall, hrun⟩ := bind_ok_iff.mp hrun
    obtain ⟨-, hstop⟩ | ⟨-, m₂, hcall₂, hm₂, hlegal₂⟩ := h.call hlegal
    · rw [hcall] at hstop
      cases hstop
    · obtain rfl := Except.ok.inj (hcall.symm.trans hcall₂)
      exact ih hm₂ hlegal₂ hrun

/-- Whatever is inserted between the batches, an iterator repeats no id and returns only
members, and after a batch that was not full it has returned all that were members when it
was made. The run goes wrong in one way: a batch is read after the set has grown. -/
theorem cidIter_under_inserts (junk : ℕ → UInt64) {calls : List CursorCall}
    (hlegal : CursorCall.Legal 0 calls) :
    (∀ m, runAll CidMem.call (CidMem.init junk) calls = .ok m → ∀ w ∈ m.walks,
      w.got.Nodup ∧ (∀ id ∈ w.got, cidSetExists m.set id = .ok true) ∧
        (w.got.length < w.asked → ∀ id, cidSetExists w.origin id = .ok true → id ∈ w.got)) ∧
      ∀ e, runAll CidMem.call (CidMem.init junk) calls = .error e ↔ e = .undefined ∧
        ∃ pre c post m, calls = pre ++ c :: post ∧
          runAll CidMem.call (CidMem.init junk) pre = .ok m ∧ c.Dangling m := by
  have hinit := CidMem.sound_init junk
  refine ⟨fun m hrun w hw => ?_, fun e => ?_⟩
  · rw [← List.append_nil calls] at hlegal
    exact (hinit.runAll hlegal hrun).1.walk hw
  rw [runAll_error_iff]
  constructor
  · rintro ⟨pre, c, post, m, rfl, hpre, hstop⟩
    obtain ⟨hm, hc⟩ := hinit.runAll hlegal hpre
    obtain ⟨hdang, hcall⟩ | ⟨-, m', hcall, -⟩ := hm.call hc
    · rw [hcall, Except.error.injEq] at hstop
      exact ⟨hstop.symm, pre, c, post, m, rfl, hpre, hdang⟩
    · rw [hcall] at hstop
      cases hstop
  · rintro ⟨rfl, pre, c, post, m, rfl, hpre, hdang⟩
    obtain ⟨hm, hc⟩ := hinit.runAll hlegal hpre
    obtain ⟨-, hcall⟩ | ⟨hsafe, -⟩ := hm.call hc
    · exact ⟨pre, c, post, m, rfl, hpre, hcall⟩
    · exact absurd hdang hsafe

/-- An id is inserted into a slot the iterator has yet to read. -/
theorem cidIter_under_inserts_ahead :
    ∃ m, runAll CidMem.call (CidMem.init fun _ => 7) [.setInsert 5 fun _ => 0, .setInsert 9 fun _ => 0,
        .setIter, .nextBatch 0 1, .setInsert 2 fun _ => 0, .nextBatch 0 4] = .ok m ∧
      m.walks.map CidWalk.got = [[5, 2, 9]] ∧
      ∀ w ∈ m.walks, w.got.Nodup ∧ (∀ id ∈ w.got, cidSetExists m.set id = .ok true) ∧
        (w.got.length < w.asked → ∀ id, cidSetExists w.origin id = .ok true → id ∈ w.got) := by
  have hgot : ((runAll CidMem.call (CidMem.init fun _ => 7) [.setInsert 5 fun _ => 0,
      .setInsert 9 fun _ => 0, .setIter, .nextBatch 0 1, .setInsert 2 fun _ => 0,
      .nextBatch 0 4]).toOption.map fun m => m.walks.map CidWalk.got) = some [[5, 2, 9]] := by
    decide
  obtain ⟨m, hrun, hgot⟩ := Option.map_eq_some_iff.mp hgot
  rw [toOption_eq_some] at hrun
  refine ⟨m, hrun, hgot, (cidIter_under_inserts _ ?_).1 m hrun⟩
  simp [CursorCall.Legal, emptyVal]

end Caht
