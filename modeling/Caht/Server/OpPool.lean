import Caht.Library.Outcome
import Mathlib.Tactic

/-! # The pool of operations

`op.c` and `op_pool.c`. Entry `i` of the array `ops` is assigned once, when the
`i`-th operation is allocated, so a pointer to an `Operation` is its index and
`ops` is the list of the operations themselves; `ops_next_idx` is its length and
`free_len` the length of `free_ops_idx`. A failed allocation ends the process.
-/

namespace Caht
open Library

inductive OpType where
  | accept
  | read
  | write
  deriving DecidableEq, Repr

structure Operation where
  poolId : ℕ
  type : OpType
  clientId : UInt64
  clientFd : ℤ
  bufCap : ℕ
  bufLen : ℕ
  bufRef : Option ℕ
  processed : ℕ
  deriving DecidableEq, Repr

structure OpPool where
  opsCap : ℕ
  ops : List Operation
  freeCap : ℕ
  freeOpsIdx : List ℕ
  deriving DecidableEq, Repr

def opPoolInitWithCap (opsCap freeCap : ℕ) : OpPool := ⟨opsCap, [], freeCap, []⟩

def opPoolInit : OpPool := opPoolInitWithCap 1024 256

def opPoolGet (pool : OpPool) (poolId : ℕ) : Outcome ℕ :=
  if poolId < pool.ops.length then .ok poolId else .error .assertion

/-- `junk` is what `malloc` left in the block of a new operation. -/
def opPoolNewEntry (pool : OpPool) (junk : ℕ → Operation) : Outcome (OpPool × ℕ) :=
  match pool.freeOpsIdx.getLast? with
  | some poolId =>
    match pool.ops[poolId]? with
    | none => .error .undefined
    | some op =>
      if op.poolId = poolId then
        .ok ({ pool with freeOpsIdx := pool.freeOpsIdx.dropLast }, poolId)
      else .error .assertion
  | none =>
    let idx := pool.ops.length
    let op := { junk idx with poolId := idx, clientFd := -1, bufRef := none }
    .ok ({ pool with
      opsCap := if idx = pool.opsCap then pool.opsCap * 2 else pool.opsCap
      ops := pool.ops ++ [op] }, idx)

def opPoolReturn (pool : OpPool) (op : ℕ) : Outcome OpPool :=
  match pool.ops[op]? with
  | none => .error .undefined
  | some o =>
    if o.bufRef ≠ none ∨ o.clientFd ≠ -1 then .error .assertion else
      .ok { pool with
        freeCap := if pool.freeOpsIdx.length = pool.freeCap then pool.freeCap * 2 else pool.freeCap
        freeOpsIdx := pool.freeOpsIdx ++ [o.poolId] }

/-- The entries that are not on the free list. -/
def OpPool.inUse (pool : OpPool) : List ℕ :=
  (List.range pool.ops.length).filter fun i => i ∉ pool.freeOpsIdx

/-- A store through a pointer to an operation. -/
def OpPool.update (pool : OpPool) (op : ℕ) (f : Operation → Operation) : OpPool :=
  { pool with ops := pool.ops.modify op f }

/-! ## What the calls do -/

/-- The contract of the pool, for the set of operations that are in use. -/
structure OpPool.Wf (pool : OpPool) (used : ℕ → Prop) : Prop where
  id : ∀ (i : ℕ) o, pool.ops[i]? = some o → o.poolId = i
  used_lt : ∀ i, used i → i < pool.ops.length
  free : ∀ i, i ∈ pool.freeOpsIdx ↔ i < pool.ops.length ∧ ¬ used i
  nodup : pool.freeOpsIdx.Nodup
  returned : ∀ i ∈ pool.freeOpsIdx, ∀ o, pool.ops[i]? = some o → o.bufRef = none ∧ o.clientFd = -1
  ops_le : pool.ops.length ≤ pool.opsCap
  opsCap_pos : 0 < pool.opsCap
  free_le : pool.freeOpsIdx.length ≤ pool.freeCap
  freeCap_pos : 0 < pool.freeCap

section
variable {pool : OpPool} {used : ℕ → Prop}

theorem opPoolInit_wf : opPoolInit.Wf fun _ => False := by
  constructor <;> simp [opPoolInit, opPoolInitWithCap]

theorem OpPool.Wf.congr {used' : ℕ → Prop} (h : pool.Wf used) (he : ∀ i, used' i ↔ used i) :
    pool.Wf used' := by
  obtain rfl : used' = used := funext fun i => propext (he i)
  exact h

theorem OpPool.Wf.mem_inUse (h : pool.Wf used) {i : ℕ} : i ∈ pool.inUse ↔ used i := by
  rw [OpPool.inUse, List.mem_filter, List.mem_range, decide_eq_true_eq, h.free]
  exact ⟨fun hi => by_contra fun hn => hi.2 ⟨hi.1, hn⟩, fun hi => ⟨h.used_lt i hi, fun hf => hf.2 hi⟩⟩

theorem OpPool.Wf.get (h : pool.Wf used) {i : ℕ} (hi : used i) : opPoolGet pool i = .ok i := by
  rw [opPoolGet, if_pos (h.used_lt i hi)]

theorem OpPool.update_getElem? (pool : OpPool) (i j : ℕ) (f : Operation → Operation) :
    (pool.update i f).ops[j]? = if j = i then (pool.ops[j]?).map f else pool.ops[j]? := by
  rw [OpPool.update, List.getElem?_modify]
  by_cases h : j = i
  · simp [h]
  · simp [h, Ne.symm h]

/-- A user of the pool may store anything but `pool_id` in an operation it holds. -/
theorem OpPool.Wf.update (h : pool.Wf used) {i : ℕ} (hi : used i) {f : Operation → Operation}
    (hf : ∀ o, (f o).poolId = o.poolId) : (pool.update i f).Wf used := by
  have hlen : (pool.update i f).ops.length = pool.ops.length := by simp [OpPool.update]
  refine ⟨?_, fun j hj => hlen ▸ h.used_lt j hj, fun j => hlen ▸ h.free j, h.nodup, ?_,
    hlen ▸ h.ops_le, h.opsCap_pos, h.free_le, h.freeCap_pos⟩
  · intro j o ho
    rw [OpPool.update_getElem?] at ho
    split at ho
    · obtain ⟨o', ho', rfl⟩ := Option.map_eq_some_iff.mp ho
      rw [hf]
      exact h.id j o' ho'
    · exact h.id j o ho
  · intro j hj o ho
    have hne : j ≠ i := fun he => ((h.free j).mp hj).2 (he ▸ hi)
    rw [OpPool.update_getElem?, if_neg hne] at ho
    exact h.returned j hj o ho

/-- What `op_pool_new_entry` returns: an operation nobody uses, without a buffer
or a descriptor. -/
structure OpPool.Entered (pool : OpPool) (used : ℕ → Prop) (pool' : OpPool) (i : ℕ) : Prop where
  wf : pool'.Wf fun j => j = i ∨ used j
  unused : ¬ used i
  entry : ∃ o, pool'.ops[i]? = some o ∧ o.poolId = i ∧ o.clientFd = -1 ∧ o.bufRef = none
  same : ∀ j, used j → pool'.ops[j]? = pool.ops[j]?

theorem OpPool.Wf.newEntry_recycled (h : pool.Wf used) {rest : List ℕ} {i : ℕ}
    (hf : pool.freeOpsIdx = rest ++ [i]) (junk : ℕ → Operation) :
    opPoolNewEntry pool junk = .ok ({ pool with freeOpsIdx := rest }, i) ∧
      pool.Entered used { pool with freeOpsIdx := rest } i := by
  have hi : i ∈ pool.freeOpsIdx := by rw [hf]; simp
  obtain ⟨hlt, hun⟩ := (h.free i).mp hi
  have hget := List.getElem?_eq_getElem hlt
  have hn := h.nodup
  rw [hf, List.nodup_append] at hn
  have hoff : i ∉ rest := fun hm => hn.2.2 i hm i (by simp) rfl
  have hret := h.returned i hi _ hget
  refine ⟨?_, ⟨h.id, ?_, ?_, hn.1, ?_, h.ops_le, h.opsCap_pos, ?_, h.freeCap_pos⟩, hun,
    ⟨_, hget, h.id i _ hget, hret.2, hret.1⟩, fun _ _ => rfl⟩
  · simp [opPoolNewEntry, hf, hget, h.id i _ hget]
  · rintro j (rfl | hj)
    · exact hlt
    · exact h.used_lt j hj
  · intro j
    have hj := h.free j
    rw [hf, List.mem_append, List.mem_singleton] at hj
    constructor
    · intro hm
      obtain ⟨hl, hu⟩ := hj.mp (.inl hm)
      exact ⟨hl, not_or.mpr ⟨fun he => hoff (he ▸ hm), hu⟩⟩
    · rintro ⟨hl, hu⟩
      exact (hj.mpr ⟨hl, fun hx => hu (.inr hx)⟩).resolve_right fun he => hu (.inl he)
  · intro j hj
    exact h.returned j (by rw [hf]; exact List.mem_append_left _ hj)
  · have hle := h.free_le
    rw [hf, List.length_append, List.length_singleton] at hle
    simp only
    omega

theorem OpPool.Wf.newEntry_allocated (h : pool.Wf used) (hf : pool.freeOpsIdx = [])
    (junk : ℕ → Operation) :
    ∃ pool', opPoolNewEntry pool junk = .ok (pool', pool.ops.length) ∧
      pool.Entered used pool' pool.ops.length := by
  have hle := h.ops_le
  have hpos := h.opsCap_pos
  have hun : ¬ used pool.ops.length := fun hu => lt_irrefl _ (h.used_lt _ hu)
  have hnew : opPoolNewEntry pool junk = .ok ({ pool with
      opsCap := if pool.ops.length = pool.opsCap then pool.opsCap * 2 else pool.opsCap
      ops := pool.ops ++ [{ junk pool.ops.length with
        poolId := pool.ops.length, clientFd := -1, bufRef := none }] }, pool.ops.length) := by
    simp [opPoolNewEntry, hf]
  refine ⟨_, hnew, ⟨?_, ?_, ?_, h.nodup, ?_, ?_, ?_, h.free_le, h.freeCap_pos⟩, hun, ?_, ?_⟩
  · intro j o ho
    by_cases hj : j < pool.ops.length
    · rw [List.getElem?_append_left hj] at ho
      exact h.id j o ho
    · have hlt := (List.getElem?_eq_some_iff.mp ho).1
      rw [List.length_append, List.length_singleton] at hlt
      obtain rfl : j = pool.ops.length := by omega
      rw [List.getElem?_append_right le_rfl, Nat.sub_self, List.getElem?_cons_zero,
        Option.some.injEq] at ho
      rw [← ho]
  · rintro j (rfl | hj)
    · simp
    · have hlt := h.used_lt j hj
      simp only [List.length_append, List.length_singleton]
      omega
  · intro j
    have hj := h.free j
    rw [hf] at hj ⊢
    simp only [List.not_mem_nil, false_iff, not_and, not_not, List.length_append,
      List.length_singleton] at hj ⊢
    intro hlt
    by_cases he : j = pool.ops.length
    · exact .inl he
    · exact .inr (hj (by omega))
  · intro j hj
    rw [hf] at hj
    simp at hj
  · simp only [List.length_append, List.length_singleton]
    split <;> omega
  · simp only
    split <;> omega
  · refine ⟨{ junk pool.ops.length with poolId := pool.ops.length, clientFd := -1, bufRef := none },
      ?_, rfl, rfl, rfl⟩
    simp
  · intro j hj
    exact List.getElem?_append_left (h.used_lt j hj)

theorem OpPool.Wf.newEntry (h : pool.Wf used) (junk : ℕ → Operation) :
    ∃ pool' i, opPoolNewEntry pool junk = .ok (pool', i) ∧ pool.Entered used pool' i := by
  rcases List.eq_nil_or_concat pool.freeOpsIdx with hnil | ⟨rest, i, hrest⟩
  · obtain ⟨pool', hnew, he⟩ := h.newEntry_allocated hnil junk
    exact ⟨pool', _, hnew, he⟩
  · rw [List.concat_eq_append] at hrest
    exact ⟨_, i, h.newEntry_recycled hrest junk⟩

/-- Returning an operation in use, after its buffer and descriptor were given up. -/
theorem OpPool.Wf.return (h : pool.Wf used) {i : ℕ} (hi : used i) {o : Operation}
    (ho : pool.ops[i]? = some o) (hbuf : o.bufRef = none) (hfd : o.clientFd = -1) :
    ∃ pool', opPoolReturn pool i = .ok pool' ∧ pool'.Wf (fun j => used j ∧ j ≠ i) ∧
      pool'.ops = pool.ops := by
  have hid := h.id i o ho
  have hle := h.free_le
  have hpos := h.freeCap_pos
  have hoff : i ∉ pool.freeOpsIdx := fun hm => ((h.free i).mp hm).2 hi
  have hret : opPoolReturn pool i = .ok { pool with
      freeCap := if pool.freeOpsIdx.length = pool.freeCap then pool.freeCap * 2 else pool.freeCap
      freeOpsIdx := pool.freeOpsIdx ++ [o.poolId] } := by
    simp [opPoolReturn, ho, hbuf, hfd]
  refine ⟨_, hret, ⟨h.id, ?_, ?_, ?_, ?_, h.ops_le, h.opsCap_pos, ?_, ?_⟩, rfl⟩
  · exact fun j hj => h.used_lt j hj.1
  · intro j
    rw [hid, List.mem_append, List.mem_singleton, h.free j]
    constructor
    · rintro (⟨hl, hu⟩ | rfl)
      · exact ⟨hl, fun hx => hu hx.1⟩
      · exact ⟨h.used_lt _ hi, fun hx => hx.2 rfl⟩
    · rintro ⟨hl, hu⟩
      by_cases he : j = i
      · exact .inr he
      · exact .inl ⟨hl, fun hx => hu ⟨hx, he⟩⟩
  · rw [hid]
    exact (List.perm_append_singleton i _).nodup_iff.mpr (List.nodup_cons.mpr ⟨hoff, h.nodup⟩)
  · intro j hj o' ho'
    rw [hid, List.mem_append, List.mem_singleton] at hj
    rcases hj with hj | rfl
    · exact h.returned j hj o' ho'
    · obtain rfl := Option.some.inj (ho.symm.trans ho')
      exact ⟨hbuf, hfd⟩
  · simp only [List.length_append, List.length_singleton]
    split <;> omega
  · simp only
    split <;> omega

end

end Caht
