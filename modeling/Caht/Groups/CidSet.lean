import Caht.Library.Probing
import Mathlib.Data.Finset.Card
import Mathlib.Data.List.GetD

/-! # Sets of client ids

`cid_set.c`: an open-addressing hash set of 64-bit ids, in which `UINT64_MAX`
marks an empty slot. `ids` is the allocated array; a store past its end changes
none of its slots. The load test compares `len` with `cap * 0.75` in double
precision, which is the exact comparison `4 * len ≥ 3 * cap` for every table
that fits in memory. A failed `malloc` ends the process.
-/

namespace Caht
open Library

structure CidSet where
  len : ℕ
  cap : ℕ
  ids : List UInt64
  deriving DecidableEq, Repr

structure CidIter where
  idx : ℕ
  len : ℕ
  ids : List UInt64
  deriving DecidableEq, Repr

namespace CidSet

def initCap : ℕ := 8
def hashMult : UInt64 := 11400714819323198485
def emptyVal : UInt64 := 0xFFFFFFFFFFFFFFFF

def hash (cid : UInt64) (cap : ℕ) : ℕ := (cid * hashMult).toNat &&& (cap - 1)

/-- `for (i = 0; i < n; i++) ids[i] = EMPTY_VAL;` -/
def fillEmpty (ids : List UInt64) (n : ℕ) : List UInt64 :=
  (List.range n).foldl (fun ids i => ids.set i emptyVal) ids

/-- The loop runs up to and including `cap`, one store past the end of the array. -/
def cidSetInit (junk : ℕ → UInt64) : CidSet :=
  ⟨0, initCap, fillEmpty ((List.range initCap).map junk) (initCap + 1)⟩

def cidSetExists (set : CidSet) (id : UInt64) : Outcome Bool := do
  let (found, _) ← probe emptyVal set.ids (set.cap - 1) id set.cap (hash id set.cap)
  .ok found

def insert (set : CidSet) (id : UInt64) : Outcome CidSet := do
  let (found, i) ← probe emptyVal set.ids (set.cap - 1) id set.cap (hash id set.cap)
  if found then .ok set else .ok { set with ids := set.ids.set i id, len := set.len + 1 }

def cidSetGrow (set : CidSet) (junk : ℕ → UInt64) : Outcome CidSet :=
  let cap := set.cap * 2
  let new : CidSet := ⟨0, cap, fillEmpty ((List.range cap).map junk) cap⟩
  runAll (fun new id => if id = emptyVal then .ok new else insert new id) new set.ids

def cidSetInsert (set : CidSet) (id : UInt64) (junk : ℕ → UInt64) : Outcome CidSet :=
  if id = emptyVal then .error (.exit "illegal value for id (UINT64_MAX)") else
    (if 4 * set.len ≥ 3 * set.cap then cidSetGrow set junk else .ok set) >>= fun set =>
      insert set id

def cidSetIter (set : CidSet) : CidIter := ⟨0, set.cap, set.ids⟩

/-- The loop of `cid_iter_next_batch` with `rest` slots to go: a full batch stops
it before the next slot is looked at. -/
def batchLoop (ids : List UInt64) (batchSize : ℕ) : ℕ → ℕ → List UInt64 → ℕ × List UInt64
  | 0, idx, batch => (idx, batch)
  | rest + 1, idx, batch =>
    if batch.length < batchSize then
      let id := ids.getD idx emptyVal
      batchLoop ids batchSize rest (idx + 1) (if id = emptyVal then batch else batch ++ [id])
    else (idx, batch)

def cidIterNextBatch (iter : CidIter) (batchSize : ℕ) : CidIter × List UInt64 :=
  let (idx, batch) := batchLoop iter.ids batchSize (iter.len - iter.idx) iter.idx []
  ({ iter with idx := idx }, batch)

/-- The batches successive calls return, one call per batch size. -/
def batches (iter : CidIter) : List ℕ → List (List UInt64)
  | [] => []
  | n :: sizes => (cidIterNextBatch iter n).2 :: batches (cidIterNextBatch iter n).1 sizes

/-! ## The set it stands for -/

theorem fillEmpty_eq (ids : List UInt64) (n : ℕ) (h : ids.length ≤ n) :
    fillEmpty ids n = List.replicate ids.length emptyVal := by
  have hset : ∀ k, (List.range k).foldl (fun l i => l.set i emptyVal) ids =
      List.replicate (min k ids.length) emptyVal ++ ids.drop k := by
    intro k
    induction k with
    | zero => simp
    | succ k ih =>
      rw [List.range_succ, List.foldl_append, ih, List.foldl_cons, List.foldl_nil]
      by_cases hk : k < ids.length
      · rw [min_eq_left hk.le, min_eq_left hk, List.drop_eq_getElem_cons hk,
          List.set_append_right _ _ (by simp), List.length_replicate, Nat.sub_self,
          List.set_cons_zero, List.replicate_succ', List.append_assoc, List.singleton_append]
      · rw [min_eq_right (by omega), min_eq_right (by omega), List.drop_of_length_le (by omega),
          List.drop_of_length_le (by omega), List.append_nil, List.set_eq_of_length_le (by simp; omega)]
  rw [fillEmpty, hset, min_eq_right h, List.drop_of_length_le h, List.append_nil]

/-- The home slot before it is cut down to the table. -/
def home (id : UInt64) : ℕ := (id * hashMult).toNat

theorem hash_eq (id : UInt64) (k : ℕ) : hash id (2 ^ k) = home id % 2 ^ k := by
  rw [hash, Nat.and_two_pow_sub_one_eq_mod, home]

/-- A table of the right shape that holds exactly the ids of `s`. -/
structure Table (set : CidSet) (s : Finset UInt64) : Prop where
  pow : ∃ k, set.cap = 2 ^ k
  length : set.ids.length = set.cap
  probed : Probed emptyVal home set.ids
  len : set.len = (stored emptyVal set.ids).length
  mem : ∀ id, id ∈ stored emptyVal set.ids ↔ id ∈ s

theorem Table.len_eq_card {set : CidSet} {s : Finset UInt64} (h : set.Table s) :
    set.len = s.card := by
  have hs : s = (stored emptyVal set.ids).toFinset := by
    ext id
    rw [List.mem_toFinset, h.mem]
  rw [h.len, hs, List.toFinset_card_of_nodup h.probed.stored_nodup]

theorem table_empty (k : ℕ) (junk : ℕ → UInt64) (n : ℕ) (hn : 2 ^ k ≤ n) :
    Table ⟨0, 2 ^ k, fillEmpty ((List.range (2 ^ k)).map junk) n⟩ ∅ := by
  have hfill : fillEmpty ((List.range (2 ^ k)).map junk) n = List.replicate (2 ^ k) emptyVal := by
    rw [fillEmpty_eq _ _ (by simpa using hn)]
    simp
  rw [hfill]
  refine ⟨⟨k, rfl⟩, by simp, probed_replicate _, ?_, ?_⟩
  · simp [stored]
  · simp [stored]

theorem Table.insert {set : CidSet} {s : Finset UInt64} (h : set.Table s) {id : UInt64}
    (hid : id ≠ emptyVal) (hroom : set.len < set.cap) :
    ∃ set', set.insert id = .ok set' ∧ set'.Table (s ∪ {id}) ∧ set'.cap = set.cap := by
  obtain ⟨k, hk⟩ := h.pow
  have hlen : set.ids.length = 2 ^ k := h.length.trans hk
  have hempty : emptyVal ∈ set.ids := empty_mem_of_stored_lt (by rw [← h.len, h.length]; exact hroom)
  obtain ⟨d, hd, v, hv, hprobe, hocc, hres⟩ := h.probed.search hlen hempty id
  have hprobe' : probe emptyVal set.ids (set.cap - 1) id set.cap (hash id set.cap) =
      .ok (decide (v ≠ emptyVal), (home id + d) % set.ids.length) := by
    rw [hk, hash_eq, ← hlen]
    exact hprobe
  rcases hres with ⟨rfl, hnew⟩ | ⟨hne, rfl⟩
  · have hp := stored_set hv hid
    refine ⟨{ set with ids := set.ids.set ((home id + d) % set.ids.length) id, len := set.len + 1 },
      by simp [CidSet.insert, hprobe'], ⟨⟨k, hk⟩, by simpa using h.length,
        h.probed.set hd hocc hid (hnew hid), ?_, ?_⟩, rfl⟩
    · rw [hp.length_eq, List.length_cons, h.len]
    · intro a
      rw [hp.mem_iff, List.mem_cons, h.mem, Finset.mem_union, Finset.mem_singleton, or_comm]
  · refine ⟨set, by simp [CidSet.insert, hprobe', hne], ⟨⟨k, hk⟩, h.length, h.probed, h.len, ?_⟩, rfl⟩
    intro a
    have hmem : v ∈ s := (h.mem v).mp (mem_stored.mpr ⟨List.mem_of_getElem? hv, hne⟩)
    rw [h.mem, Finset.union_eq_left.mpr (Finset.singleton_subset_iff.mpr hmem)]

/-- The rehash moves every id of `l`, in turn, into a table with room for all. -/
theorem Table.runAll_insert {l : List UInt64} {set : CidSet} {s : Finset UInt64} (h : set.Table s)
    (hroom : set.len + l.length ≤ set.cap) :
    ∃ set', runAll (fun new id => if id = emptyVal then .ok new else new.insert id) set l = .ok set' ∧
      set'.Table (s ∪ (stored emptyVal l).toFinset) ∧ set'.cap = set.cap := by
  induction l generalizing set s with
  | nil => exact ⟨set, rfl, by simpa [stored] using h, rfl⟩
  | cons id l ih =>
    rw [List.length_cons] at hroom
    by_cases hid : id = emptyVal
    · obtain ⟨set', hrun, ht, hcap⟩ := ih h (by omega)
      subst hid
      exact ⟨set', by simpa [runAll] using hrun, by rwa [stored_cons_empty], hcap⟩
    · obtain ⟨set₁, hins, ht₁, hcap₁⟩ := h.insert hid (by omega)
      have hle : set₁.len ≤ set.len + 1 := by
        rw [ht₁.len_eq_card, h.len_eq_card]
        exact (Finset.card_union_le _ _).trans (by simp)
      obtain ⟨set', hrun, ht, hcap⟩ := ih ht₁ (by omega)
      refine ⟨set', by simpa [runAll, hid, hins] using hrun, ?_, hcap.trans hcap₁⟩
      have hu : s ∪ {id} ∪ (stored emptyVal l).toFinset =
          s ∪ (stored emptyVal (id :: l)).toFinset := by
        rw [stored_cons_of_ne hid, List.toFinset_cons, Finset.union_assoc, Finset.insert_eq]
      rwa [hu] at ht

theorem Table.grow {set : CidSet} {s : Finset UInt64} (h : set.Table s) (junk : ℕ → UInt64) :
    ∃ set', cidSetGrow set junk = .ok set' ∧ set'.Table s ∧ set'.cap = set.cap * 2 := by
  obtain ⟨k, hk⟩ := h.pow
  have hcap : set.cap * 2 = 2 ^ (k + 1) := by rw [hk, pow_succ]
  have hnew : Table ⟨0, set.cap * 2, fillEmpty ((List.range (set.cap * 2)).map junk) (set.cap * 2)⟩ ∅ := by
    rw [hcap]
    exact table_empty (k + 1) junk _ le_rfl
  obtain ⟨set', hrun, ht, hc⟩ := hnew.runAll_insert (l := set.ids) (by
    simp only [h.length]
    omega)
  have hs : (∅ : Finset UInt64) ∪ (stored emptyVal set.ids).toFinset = s := by
    ext a
    rw [Finset.empty_union, List.mem_toFinset, h.mem]
  exact ⟨set', hrun, hs ▸ ht, hc⟩

/-- The invariant between calls: a table of at least eight slots that is at most
three quarters full. -/
structure Wf (set : CidSet) (s : Finset UInt64) : Prop where
  table : set.Table s
  cap : 8 ≤ set.cap
  load : 4 * set.len ≤ 3 * set.cap

theorem wf_init (junk : ℕ → UInt64) : (cidSetInit junk).Wf ∅ :=
  ⟨table_empty 3 junk 9 (by norm_num), le_rfl, by simp [cidSetInit]⟩

/-- `cid_set_insert` returns for every id but `UINT64_MAX`, and adds it. The table
grows only when it was three quarters full. -/
theorem Wf.cidSetInsert {set : CidSet} {s : Finset UInt64} (h : set.Wf s) {id : UInt64}
    (hid : id ≠ emptyVal) (junk : ℕ → UInt64) :
    ∃ set', cidSetInsert set id junk = .ok set' ∧ set'.Wf (s ∪ {id}) ∧
      (set'.cap = set.cap ∨ 3 * set.cap ≤ 4 * set.len ∧ set'.cap = set.cap * 2) := by
  have hload := h.load
  have hcap8 := h.cap
  obtain ⟨set₁, hgrow, ht₁, hcap₁, hlt⟩ : ∃ set₁,
      (if 4 * set.len ≥ 3 * set.cap then cidSetGrow set junk else .ok set) = .ok set₁ ∧
      set₁.Table s ∧
      (set₁.cap = set.cap ∨ 3 * set.cap ≤ 4 * set.len ∧ set₁.cap = set.cap * 2) ∧
      4 * set₁.len < 3 * set₁.cap := by
    by_cases hfull : 4 * set.len ≥ 3 * set.cap
    · obtain ⟨set₁, hg, ht, hc⟩ := h.table.grow junk
      refine ⟨set₁, by rw [if_pos hfull, hg], ht, .inr ⟨hfull, hc⟩, ?_⟩
      rw [ht.len_eq_card, ← h.table.len_eq_card, hc]
      omega
    · exact ⟨set, by rw [if_neg hfull], h.table, .inl rfl, by omega⟩
  obtain ⟨set₂, hins, ht₂, hcap₂⟩ := ht₁.insert hid (by omega)
  refine ⟨set₂, ?_, ⟨ht₂, by omega, ?_⟩, hcap₂ ▸ hcap₁⟩
  · rw [CidSet.cidSetInsert, if_neg hid, hgrow]
    exact hins
  · obtain ⟨k, hk⟩ := ht₁.pow
    have hle : set₂.len ≤ set₁.len + 1 := by
      rw [ht₂.len_eq_card, ht₁.len_eq_card]
      exact (Finset.card_union_le _ _).trans (by simp)
    -- the capacity is a multiple of four, so one more id still fits under the bound
    obtain ⟨j, rfl⟩ : ∃ j, k = j + 2 := by
      refine ⟨k - 2, ?_⟩
      by_contra hk2
      have hk1 : k ≤ 1 := by omega
      have hpow : 2 ^ k ≤ 2 ^ 1 := Nat.pow_le_pow_right (by norm_num) hk1
      omega
    rw [pow_add] at hk
    omega

/-! ## Iteration -/

theorem batchLoop_eq (ids : List UInt64) (n rest idx : ℕ) (batch : List UInt64)
    (hr : idx + rest = ids.length) (hb : batch.length ≤ n) :
    ∃ idx' ≤ ids.length, (batchLoop ids n rest idx batch).1 = idx' ∧
      (batchLoop ids n rest idx batch).2 =
        batch ++ (stored emptyVal (ids.drop idx)).take (n - batch.length) ∧
      stored emptyVal (ids.drop idx') = (stored emptyVal (ids.drop idx)).drop (n - batch.length) := by
  induction rest generalizing idx batch with
  | zero =>
    refine ⟨idx, by omega, rfl, ?_, ?_⟩ <;>
      simp [batchLoop, List.drop_of_length_le (show ids.length ≤ idx by omega), stored]
  | succ rest ih =>
    have hlt : idx < ids.length := by omega
    have hget : ids.getD idx emptyVal = ids[idx] := List.getD_eq_getElem _ _ hlt
    have hdrop := List.drop_eq_getElem_cons hlt
    by_cases hfull : batch.length < n
    · by_cases hid : ids[idx] = emptyVal
      · obtain ⟨idx', hle, h₁, h₂, h₃⟩ := ih (idx + 1) batch (by omega) hb
        have hs : stored emptyVal (ids.drop idx) = stored emptyVal (ids.drop (idx + 1)) := by
          rw [hdrop, hid, stored_cons_empty]
        refine ⟨idx', hle, ?_, ?_, ?_⟩
        · simpa only [batchLoop, if_pos hfull, hget, if_pos hid] using h₁
        · simpa only [batchLoop, if_pos hfull, hget, if_pos hid, hs] using h₂
        · rw [hs]
          exact h₃
      · obtain ⟨idx', hle, h₁, h₂, h₃⟩ := ih (idx + 1) (batch ++ [ids[idx]]) (by omega)
          (by simp; omega)
        have hs : stored emptyVal (ids.drop idx) = ids[idx] :: stored emptyVal (ids.drop (idx + 1)) := by
          rw [hdrop, stored_cons_of_ne hid]
        obtain ⟨m, hm⟩ : ∃ m, n - batch.length = m + 1 := ⟨n - batch.length - 1, by omega⟩
        have hm' : n - (batch ++ [ids[idx]]).length = m := by
          rw [List.length_append, List.length_singleton]
          omega
        rw [hm'] at h₂ h₃
        refine ⟨idx', hle, ?_, ?_, ?_⟩
        · simpa only [batchLoop, if_pos hfull, hget, if_neg hid] using h₁
        · rw [hs, hm, List.take_succ_cons]
          simpa only [batchLoop, if_pos hfull, hget, if_neg hid, List.append_assoc,
            List.singleton_append] using h₂
        · rw [hs, hm, List.drop_succ_cons]
          exact h₃
    · have hz : n - batch.length = 0 := by omega
      refine ⟨idx, by omega, ?_, ?_, ?_⟩ <;> simp [batchLoop, hfull, hz]

theorem batches_flatten (ids : List UInt64) (idx : ℕ) (hidx : idx ≤ ids.length) (sizes : List ℕ) :
    (batches ⟨idx, ids.length, ids⟩ sizes).flatten =
      (stored emptyVal (ids.drop idx)).take sizes.sum := by
  induction sizes generalizing idx with
  | nil => simp [batches]
  | cons n sizes ih =>
    obtain ⟨idx', hle, h₁, h₂, h₃⟩ := batchLoop_eq ids n (ids.length - idx) idx [] (by omega)
      (Nat.zero_le _)
    have hnext : (cidIterNextBatch ⟨idx, ids.length, ids⟩ n).1 = ⟨idx', ids.length, ids⟩ := by
      simp [cidIterNextBatch, h₁]
    have hbatch : (cidIterNextBatch ⟨idx, ids.length, ids⟩ n).2 =
        (stored emptyVal (ids.drop idx)).take n := by
      simpa [cidIterNextBatch] using h₂
    rw [List.length_nil, Nat.sub_zero] at h₃
    rw [batches, hnext, hbatch, List.flatten_cons, ih idx' hle, h₃, List.sum_cons, List.take_add]

end CidSet

end Caht
