import Caht.Groups.Inserts

/-! # Batches of client ids

`cid_iter_next_batch` with the array its caller passes: what each call of a
sequence returns and writes.
-/

namespace Caht
open Library CidSet

/-- A call of `cid_iter_next_batch`, with what the memory at `batch` holds before it. -/
structure BatchCall where
  size : ℕ
  batch : ℕ → UInt64

/-- What a call returns, and what the memory at `batch` holds after it. -/
structure Batch where
  count : ℕ
  batch : ℕ → UInt64

/-- The entries a caller takes from the array. -/
def Batch.entries (b : Batch) : List UInt64 := (List.range b.count).map b.batch

namespace CidSet

/-- The loop of `cid_iter_next_batch` with `rest` slots to go and `i` entries written. -/
def fillLoop (ids : List UInt64) (batchSize : ℕ) : ℕ → ℕ → ℕ → (ℕ → UInt64) → ℕ × ℕ × (ℕ → UInt64)
  | 0, idx, i, batch => (idx, i, batch)
  | rest + 1, idx, i, batch =>
    if i < batchSize then
      let id := ids.getD idx emptyVal
      if id = emptyVal then fillLoop ids batchSize rest (idx + 1) i batch
      else fillLoop ids batchSize rest (idx + 1) (i + 1) (Function.update batch i id)
    else (idx, i, batch)

def fillNextBatch (iter : CidIter) (c : BatchCall) : CidIter × Batch :=
  let (idx, i, batch) := fillLoop iter.ids c.size (iter.len - iter.idx) iter.idx 0 c.batch
  ({ iter with idx := idx }, ⟨i, batch⟩)

/-- The results of successive calls. -/
def fillBatches (iter : CidIter) : List BatchCall → List Batch
  | [] => []
  | c :: calls => (fillNextBatch iter c).2 :: fillBatches (fillNextBatch iter c).1 calls

end CidSet

/-! ## Dealing out a list -/

/-- The memory `batch` with `l` written to the front of it. -/
def writtenOver (l : List UInt64) (batch : ℕ → UInt64) : ℕ → UInt64 := fun j => l.getD j (batch j)

/-- The call is answered with the list `l`. -/
def BatchCall.answer (c : BatchCall) (l : List UInt64) : Batch := ⟨l.length, writtenOver l c.batch⟩

/-- The entries of `l` in order, each call taking as many as it asks for while there are any. -/
def deal (l : List UInt64) : List BatchCall → List Batch
  | [] => []
  | c :: calls => c.answer (l.take c.size) :: deal (l.drop c.size) calls

def asked (calls : List BatchCall) : ℕ := (calls.map BatchCall.size).sum

@[simp] theorem asked_cons (c : BatchCall) (calls : List BatchCall) :
    asked (c :: calls) = c.size + asked calls := by
  simp [asked]

theorem update_writtenOver (l : List UInt64) (batch : ℕ → UInt64) (id : UInt64) :
    Function.update (writtenOver l batch) l.length id = writtenOver (l ++ [id]) batch := by
  funext j
  rcases lt_trichotomy j l.length with hj | rfl | hj
  · rw [Function.update_of_ne hj.ne, writtenOver, writtenOver, List.getD_append _ _ _ _ hj]
  · simp [writtenOver]
  · rw [Function.update_of_ne hj.ne', writtenOver, writtenOver, List.getD_eq_default _ _ hj.le,
      List.getD_eq_default _ _ (by simpa using hj)]

@[simp] theorem answer_count (c : BatchCall) (l : List UInt64) : (c.answer l).count = l.length := rfl

theorem answer_entries (c : BatchCall) (l : List UInt64) : (c.answer l).entries = l := by
  apply List.ext_getElem
  · simp [Batch.entries, BatchCall.answer]
  · intro j hj hj'
    simp [Batch.entries, BatchCall.answer, writtenOver, hj']

theorem answer_batch (c : BatchCall) (l : List UInt64) {j : ℕ} (hj : (c.answer l).count ≤ j) :
    (c.answer l).batch j = c.batch j :=
  List.getD_eq_default _ _ hj

theorem deal_entries (l : List UInt64) (calls : List BatchCall) :
    (deal l calls).flatMap Batch.entries = l.take (asked calls) := by
  induction calls generalizing l with
  | nil => simp [deal, asked]
  | cons c calls ih => rw [deal, List.flatMap_cons, answer_entries, ih, asked_cons, List.take_add]

theorem deal_counts (l : List UInt64) (calls : List BatchCall) :
    ((deal l calls).map Batch.count).sum = min (asked calls) l.length := by
  have hlen := congrArg List.length (deal_entries l calls)
  rw [List.length_flatMap, List.length_take] at hlen
  rw [← hlen]
  congr 1
  apply List.map_congr_left
  intro b _
  simp [Batch.entries]

theorem deal_take (l : List UInt64) (calls : List BatchCall) (k : ℕ) :
    (deal l calls).take k = deal l (calls.take k) := by
  induction calls generalizing l k with
  | nil => simp [deal]
  | cons c calls ih =>
    cases k with
    | zero => rfl
    | succ k => rw [deal, List.take_succ_cons, List.take_succ_cons, deal, ih]

theorem deal_get (l : List UInt64) {calls : List BatchCall} {k : ℕ} {c : BatchCall}
    (hc : calls[k]? = some c) :
    (deal l calls)[k]? = some (c.answer ((l.drop (asked (calls.take k))).take c.size)) := by
  induction calls generalizing l k with
  | nil => simp at hc
  | cons c' calls ih =>
    cases k with
    | zero =>
      obtain rfl : c' = c := by simpa using hc
      simp [deal, asked]
    | succ k =>
      rw [List.getElem?_cons_succ] at hc
      rw [deal, List.getElem?_cons_succ, ih _ hc, List.take_succ_cons, asked_cons, List.drop_drop]

/-! ## The loop deals out the members -/

namespace CidSet

theorem fillLoop_eq (ids : List UInt64) (batchSize rest idx : ℕ) (out : List UInt64)
    (batch : ℕ → UInt64) :
    fillLoop ids batchSize rest idx out.length (writtenOver out batch) =
      ((batchLoop ids batchSize rest idx out).1, (batchLoop ids batchSize rest idx out).2.length,
        writtenOver (batchLoop ids batchSize rest idx out).2 batch) := by
  induction rest generalizing idx out with
  | zero => rfl
  | succ rest ih =>
    by_cases hfull : out.length < batchSize
    · by_cases he : ids.getD idx emptyVal = emptyVal
      · simp only [fillLoop, batchLoop, if_pos hfull, if_pos he]
        exact ih (idx + 1) out
      · have hnext := ih (idx + 1) (out ++ [ids.getD idx emptyVal])
        rw [List.length_append, List.length_singleton] at hnext
        simp only [fillLoop, batchLoop, if_pos hfull, if_neg he, update_writtenOver]
        exact hnext
    · simp only [fillLoop, batchLoop, if_neg hfull]

theorem fillNextBatch_eq (iter : CidIter) (c : BatchCall) :
    fillNextBatch iter c =
      ((cidIterNextBatch iter c.size).1, c.answer (cidIterNextBatch iter c.size).2) := by
  have hloop := fillLoop_eq iter.ids c.size (iter.len - iter.idx) iter.idx [] c.batch
  have hnil : writtenOver [] c.batch = c.batch := by
    funext j
    simp [writtenOver]
  rw [List.length_nil, hnil] at hloop
  rw [fillNextBatch, hloop]
  rfl

theorem fillBatches_eq_deal (ids : List UInt64) {idx : ℕ} (hidx : idx ≤ ids.length)
    (calls : List BatchCall) :
    fillBatches ⟨idx, ids.length, ids⟩ calls = deal (stored emptyVal (ids.drop idx)) calls := by
  induction calls generalizing idx with
  | nil => rfl
  | cons c calls ih =>
    obtain ⟨idx', hle, hidx', hbatch, hrest⟩ := batchLoop_eq ids c.size (ids.length - idx) idx []
      (by omega) (Nat.zero_le _)
    rw [List.length_nil, Nat.sub_zero] at hbatch hrest
    rw [List.nil_append] at hbatch
    have hnext : fillNextBatch ⟨idx, ids.length, ids⟩ c =
        (⟨idx', ids.length, ids⟩, c.answer ((stored emptyVal (ids.drop idx)).take c.size)) := by
      simp only [fillNextBatch_eq, cidIterNextBatch, hidx', hbatch]
    rw [fillBatches, hnext, ih hle, deal, hrest]

end CidSet

/-- The calls return the members, each of them once: what each call returns and
writes, what they return together, and when they have returned everything. -/
structure Enumerates (members : Finset UInt64) (calls : List BatchCall) (results : List Batch) :
    Prop where
  length : results.length = calls.length
  count : ∀ (k : ℕ) (c : BatchCall) (r : Batch), calls[k]? = some c → results[k]? = some r →
    r.count = min c.size (members.card - ((results.take k).map Batch.count).sum)
  frame : ∀ (k : ℕ) (c : BatchCall) (r : Batch), calls[k]? = some c → results[k]? = some r →
    ∀ j, r.count ≤ j → r.batch j = c.batch j
  nodup : (results.flatMap Batch.entries).Nodup
  subset : ∀ id ∈ results.flatMap Batch.entries, id ∈ members
  nonempty : emptyVal ∉ results.flatMap Batch.entries
  all : members.card ≤ asked calls →
    ∀ id ∈ members, (results.flatMap Batch.entries).count id = 1
  all_const : ∀ b, 1 ≤ b → (∀ c ∈ calls, c.size = b) → calls.length = (members.card + b - 1) / b →
    ∀ id ∈ members, (results.flatMap Batch.entries).count id = 1
  later : ∀ (k : ℕ) (r : Batch), members.card ≤ asked (calls.take k) → results[k]? = some r → r.count = 0

theorem asked_const {calls : List BatchCall} {b : ℕ} (h : ∀ c ∈ calls, c.size = b) :
    asked calls = calls.length * b := by
  induction calls with
  | nil => simp [asked]
  | cons c calls ih =>
    rw [asked_cons, ih fun c hc => h c (List.mem_cons_of_mem _ hc), h c List.mem_cons_self,
      List.length_cons, Nat.succ_mul, Nat.add_comm]

theorem deal_length (l : List UInt64) (calls : List BatchCall) :
    (deal l calls).length = calls.length := by
  induction calls generalizing l with
  | nil => rfl
  | cons c calls ih => rw [deal, List.length_cons, List.length_cons, ih]

theorem deal_enumerates {l : List UInt64} (hnd : l.Nodup) (hne : emptyVal ∉ l) (calls : List BatchCall) :
    Enumerates l.toFinset calls (deal l calls) := by
  have hcard : l.toFinset.card = l.length := List.toFinset_card_of_nodup hnd
  have hall : l.toFinset.card ≤ asked calls →
      ∀ id ∈ l.toFinset, ((deal l calls).flatMap Batch.entries).count id = 1 := by
    intro hasked id hid
    rw [deal_entries, List.take_of_length_le (hcard ▸ hasked)]
    exact List.count_eq_one_of_mem hnd (List.mem_toFinset.mp hid)
  constructor
  case length => exact deal_length l calls
  case count =>
    intro k c r hc hr
    rw [deal_get l hc, Option.some.injEq] at hr
    rw [deal_take, deal_counts, hcard, ← hr, answer_count, List.length_take, List.length_drop]
    omega
  case frame =>
    intro k c r hc hr j hj
    rw [deal_get l hc, Option.some.injEq] at hr
    subst hr
    exact answer_batch _ _ hj
  case nodup => exact deal_entries l calls ▸ hnd.sublist (List.take_sublist _ _)
  case subset =>
    intro id hid
    rw [deal_entries] at hid
    exact List.mem_toFinset.mpr (List.mem_of_mem_take hid)
  case nonempty => exact deal_entries l calls ▸ fun hid => hne (List.mem_of_mem_take hid)
  case all => exact hall
  case all_const =>
    intro b hb hconst hlen
    refine hall ?_
    rw [asked_const hconst, hlen]
    have hdiv := Nat.lt_div_mul_add (a := l.toFinset.card + b - 1) (b := b) hb
    omega
  case later =>
    intro k r hasked hr
    have hk : k < calls.length := deal_length l calls ▸ (List.getElem?_eq_some_iff.mp hr).1
    rw [deal_get l (List.getElem?_eq_getElem hk), Option.some.injEq] at hr
    rw [← hr, answer_count, List.length_take, List.length_drop]
    omega

/-- `cid_set_insert` does not return from an insert of `UINT64_MAX`. -/
theorem ids_ne_of_runAll {set set' : CidSet} {calls : List CidInsert}
    (h : runAll CidInsert.run set calls = .ok set') : ∀ c ∈ calls, c.id ≠ emptyVal := by
  induction calls generalizing set with
  | nil => simp
  | cons c calls ih =>
    obtain ⟨set₁, hins, hrest⟩ := bind_ok_iff.mp h
    intro c' hc'
    rcases List.mem_cons.mp hc' with rfl | hc'
    · intro he
      simp [CidInsert.run, cidSetInsert, he] at hins
    · exact ih hrest c' hc'

/-- For every set inserts lead to and every sequence of batch sizes, the batches
are the members of the set, each once, in as few calls as the sizes allow. -/
theorem cidIterNextBatch_enumerates {junk : ℕ → UInt64} {calls : List CidInsert} {set : CidSet}
    (h : runAll CidInsert.run (cidSetInit junk) calls = .ok set) (batches : List BatchCall) :
    set.len = (insertedIds calls).card ∧
      Enumerates (insertedIds calls) batches (fillBatches set.cidSetIter batches) := by
  obtain ⟨set', hrun, hset⟩ := (compact_init junk).runAll (ids_ne_of_runAll h)
  obtain rfl := Except.ok.inj (hrun.symm.trans h)
  rw [Finset.empty_union] at hset
  have hmem : (stored emptyVal set'.ids).toFinset = insertedIds calls := by
    ext id
    rw [List.mem_toFinset, hset.wf.table.mem]
  have hdeal := fillBatches_eq_deal set'.ids (Nat.zero_le _) batches
  rw [List.drop_zero, hset.wf.table.length] at hdeal
  refine ⟨hset.wf.table.len_eq_card, ?_⟩
  rw [cidSetIter, hdeal, ← hmem]
  exact deal_enumerates hset.wf.table.probed.stored_nodup (by simp [stored]) batches

/-- Three members in batches of two: the second call writes one entry, the third none. -/
theorem cidIterNextBatch_enumerates_three :
    ∃ set, runAll CidInsert.run (cidSetInit fun _ => 7) [⟨5, fun _ => 0⟩, ⟨9, fun _ => 0⟩, ⟨1, fun _ => 0⟩] =
        .ok set ∧ set.len = 3 ∧
      Enumerates {5, 9, 1} [⟨2, fun _ => 0⟩, ⟨2, fun _ => 4⟩, ⟨2, fun _ => 4⟩]
        (fillBatches set.cidSetIter [⟨2, fun _ => 0⟩, ⟨2, fun _ => 4⟩, ⟨2, fun _ => 4⟩]) := by
  have hids : ∀ c ∈ ([⟨5, fun _ => 0⟩, ⟨9, fun _ => 0⟩, ⟨1, fun _ => 0⟩] : List CidInsert),
      c.id ≠ emptyVal := by
    simp [emptyVal]
  obtain ⟨set, hrun, -⟩ := (compact_init fun _ => 7).runAll hids
  obtain ⟨hlen, henum⟩ := cidIterNextBatch_enumerates hrun
    [⟨2, fun _ => 0⟩, ⟨2, fun _ => 4⟩, ⟨2, fun _ => 4⟩]
  exact ⟨set, hrun, hlen, henum⟩

end Caht
