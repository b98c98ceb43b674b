import Caht.Library.Vec
import Caht.Server.OpPool

/-! # The pool of operations in memory

`op_pool.c` once more, with its two arrays and with pointers that are whatever
addresses `malloc` returns. `ops_cap`, `ops_next_idx` and `ops` are the array
`ops`, and `free_cap`, `free_len` and `free_ops_idx` the array `freeOps`. The list
of operations the server is modelled with is what these arrays stand for.
-/

namespace Caht
open Library

structure PoolMem where
  heap : ℕ → Option Operation
  ops : Vec ℕ
  freeOps : Vec ℕ

namespace PoolMem

def opPoolInitWithCap (opsCap freeCap : ℕ) (junk : ℕ → ℕ) : PoolMem :=
  ⟨fun _ => none, Vec.malloc opsCap junk, Vec.malloc freeCap junk⟩

def deref (m : PoolMem) (op : ℕ) : Outcome Operation :=
  match m.heap op with
  | some o => .ok o
  | none => .error .undefined

def opPoolGet (m : PoolMem) (poolId : ℕ) : Outcome ℕ :=
  if poolId < m.ops.len then m.ops.load poolId else .error .assertion

/-- `addr` is the address `malloc` returns if a new operation is allocated, and
`block` what is found there. -/
def opPoolNewEntry (m : PoolMem) (addr : ℕ) (block : Operation) (junk : ℕ → ℕ) :
    Outcome (PoolMem × ℕ) :=
  if m.freeOps.len ≠ 0 then do
    let (freeOps, poolId) ← m.freeOps.pop
    let op ← m.ops.load poolId
    let o ← m.deref op
    if o.poolId = poolId then .ok ({ m with freeOps := freeOps }, op) else .error .assertion
  else do
    let o := { block with poolId := m.ops.len, clientFd := -1, bufRef := none }
    let ops ← m.ops.push addr junk
    .ok ({ m with heap := Function.update m.heap addr (some o), ops := ops }, addr)

def opPoolReturn (m : PoolMem) (op : ℕ) (junk : ℕ → ℕ) : Outcome PoolMem := do
  let o ← m.deref op
  if o.bufRef ≠ none ∨ o.clientFd ≠ -1 then .error .assertion else do
    let freeOps ← m.freeOps.push o.poolId junk
    .ok { m with freeOps := freeOps }

/-- A store through a pointer to an operation. -/
def write (m : PoolMem) (op : ℕ) (f : Operation → Operation) : PoolMem :=
  { m with heap := Function.update m.heap op ((m.heap op).map f) }

/-! ## The list of operations the arrays stand for -/

/-- The array `ops` holds the addresses `addrs`, each of another operation of the
pool, and the array `free_ops_idx` its free list. -/
structure Models (m : PoolMem) (pool : OpPool) (addrs : List ℕ) : Prop where
  ops : m.ops.Holds addrs
  opsCap : m.ops.cap = pool.opsCap
  free : m.freeOps.Holds pool.freeOpsIdx
  freeCap : m.freeOps.cap = pool.freeCap
  nodup : addrs.Nodup
  blocks : addrs.map m.heap = pool.ops.map some

theorem init_models {opsCap freeCap : ℕ} (hops : 1 ≤ opsCap) (hfree : 1 ≤ freeCap) (junk : ℕ → ℕ) :
    (opPoolInitWithCap opsCap freeCap junk).Models (Caht.opPoolInitWithCap opsCap freeCap) [] :=
  ⟨Vec.holds_malloc hops junk, rfl, Vec.holds_malloc hfree junk, rfl, List.nodup_nil, rfl⟩

section
variable {m : PoolMem} {pool : OpPool} {addrs : List ℕ}

theorem Models.length (h : m.Models pool addrs) : addrs.length = pool.ops.length := by
  simpa using congrArg List.length h.blocks

theorem Models.opsLen (h : m.Models pool addrs) : m.ops.len = pool.ops.length :=
  h.ops.len.trans h.length

theorem Models.heap_eq (h : m.Models pool addrs) {i op : ℕ} (hi : addrs[i]? = some op) :
    m.heap op = pool.ops[i]? := by
  have hb := congrArg (fun l => l[i]?) h.blocks
  simp only [List.getElem?_map, hi, Option.map_some] at hb
  cases ho : pool.ops[i]? with
  | none => simp [ho] at hb
  | some o =>
    rw [ho, Option.map_some, Option.some.injEq] at hb
    exact hb

theorem Models.get (h : m.Models pool addrs) {i op : ℕ} (hi : addrs[i]? = some op) :
    m.opPoolGet i = .ok op := by
  have hlt := (List.getElem?_eq_some_iff.mp hi).1
  rw [opPoolGet, h.ops.len, if_pos hlt, h.ops.load hi]

theorem Models.fresh (h : m.Models pool addrs) {addr : ℕ} (hnew : m.heap addr = none) :
    addr ∉ addrs := by
  intro hmem
  obtain ⟨k, hk, hke⟩ := List.getElem_of_mem hmem
  have hb := h.heap_eq (by rw [List.getElem?_eq_getElem hk, hke])
  rw [hnew, List.getElem?_eq_getElem (h.length ▸ hk)] at hb
  cases hb

/-- A new operation goes to the end of the array, under the address `malloc` gave it. -/
theorem Models.newEntry_allocated (h : m.Models pool addrs) (hnil : pool.freeOpsIdx = [])
    {addr : ℕ} (hnew : m.heap addr = none) (block : Operation) (junk : ℕ → ℕ) {pool' : OpPool}
    {i : ℕ} (hcall : Caht.opPoolNewEntry pool (fun _ => block) = .ok (pool', i)) :
    ∃ m', m.opPoolNewEntry addr block junk = .ok (m', addr) ∧ m'.Models pool' (addrs ++ [addr]) ∧
      (addrs ++ [addr])[i]? = some addr := by
  have hzero : m.freeOps.len = 0 := by rw [h.free.len, hnil, List.length_nil]
  have hoff := h.fresh hnew
  obtain ⟨ops, hpush, hops, hcap⟩ := h.ops.push addr junk
  simp only [Caht.opPoolNewEntry, hnil, List.getLast?_nil, Except.ok.injEq, Prod.mk.injEq] at hcall
  obtain ⟨rfl, rfl⟩ := hcall
  refine ⟨{ m with
      heap := Function.update m.heap addr (some { block with
        poolId := m.ops.len, clientFd := -1, bufRef := none })
      ops := ops }, by simp [opPoolNewEntry, hzero, hpush], ⟨hops, ?_, ?_, h.freeCap, ?_, ?_⟩, ?_⟩
  · rw [hcap, h.length, h.opsCap]
  · simpa [hnil] using h.free
  · exact (List.perm_append_singleton addr _).nodup_iff.mpr (List.nodup_cons.mpr ⟨hoff, h.nodup⟩)
  · have hsame : ∀ o, addrs.map (Function.update m.heap addr (some o)) = addrs.map m.heap := by
      intro o
      apply List.map_congr_left
      intro a ha
      have hne : a ≠ addr := fun he => hoff (he ▸ ha)
      exact Function.update_of_ne hne _ _
    simp only [List.map_append, hsame, h.blocks, List.map_singleton, Function.update_self, h.opsLen]
  · rw [← h.length]
    simp

theorem Models.newEntry_recycled (h : m.Models pool addrs) {rest : List ℕ} {j : ℕ}
    (hrest : pool.freeOpsIdx = rest ++ [j]) (addr : ℕ) (block : Operation) (junk : ℕ → ℕ)
    {pool' : OpPool} {i : ℕ}
    (hcall : Caht.opPoolNewEntry pool (fun _ => block) = .ok (pool', i)) :
    ∃ m' op, m.opPoolNewEntry addr block junk = .ok (m', op) ∧ m'.Models pool' addrs ∧
      addrs[i]? = some op := by
  have hpos : m.freeOps.len ≠ 0 := by rw [h.free.len, hrest]; simp
  obtain ⟨freeOps, hpop, hholds, hcap⟩ := (hrest ▸ h.free).pop
  simp only [Caht.opPoolNewEntry, hrest, List.getLast?_append, List.getLast?_singleton,
    Option.some_or, List.dropLast_concat] at hcall
  cases ho : pool.ops[j]? with
  | none => simp [ho] at hcall
  | some o =>
    simp only [ho] at hcall
    split at hcall
    case isFalse => cases hcall
    case isTrue hid =>
      simp only [Except.ok.injEq, Prod.mk.injEq] at hcall
      obtain ⟨rfl, rfl⟩ := hcall
      have hj : j < addrs.length := h.length ▸ (List.getElem?_eq_some_iff.mp ho).1
      have hop := List.getElem?_eq_getElem hj
      have hheap := (h.heap_eq hop).trans ho
      refine ⟨{ m with freeOps := freeOps }, addrs[j], ?_,
        ⟨h.ops, h.opsCap, hholds, hcap.trans h.freeCap, h.nodup, h.blocks⟩, hop⟩
      simp [opPoolNewEntry, hpos, hpop, h.ops.load hop, deref, hheap, hid]

theorem Models.newEntry (h : m.Models pool addrs) {addr : ℕ} (hnew : m.heap addr = none)
    (block : Operation) (junk : ℕ → ℕ) {pool' : OpPool} {i : ℕ}
    (hcall : Caht.opPoolNewEntry pool (fun _ => block) = .ok (pool', i)) :
    ∃ m' op addrs', m.opPoolNewEntry addr block junk = .ok (m', op) ∧ m'.Models pool' addrs' ∧
      addrs'[i]? = some op ∧ (pool.freeOpsIdx = [] ∧ addrs' = addrs ++ [op] ∨
        pool.freeOpsIdx ≠ [] ∧ addrs' = addrs) := by
  rcases List.eq_nil_or_concat pool.freeOpsIdx with hnil | ⟨rest, j, hrest⟩
  · obtain ⟨m', hrun, hm, hi⟩ := h.newEntry_allocated hnil hnew block junk hcall
    exact ⟨m', addr, _, hrun, hm, hi, .inl ⟨hnil, rfl⟩⟩
  · rw [List.concat_eq_append] at hrest
    obtain ⟨m', op, hrun, hm, hi⟩ := h.newEntry_recycled hrest addr block junk hcall
    exact ⟨m', op, addrs, hrun, hm, hi, .inr ⟨by simp [hrest], rfl⟩⟩

theorem Models.return (h : m.Models pool addrs) {i op : ℕ} (hi : addrs[i]? = some op) (junk : ℕ → ℕ)
    {pool' : OpPool} (hcall : Caht.opPoolReturn pool i = .ok pool') :
    ∃ m', m.opPoolReturn op junk = .ok m' ∧ m'.Models pool' addrs ∧ m'.heap = m.heap := by
  have hheap := h.heap_eq hi
  cases ho : pool.ops[i]? with
  | none => simp [Caht.opPoolReturn, ho] at hcall
  | some o =>
    rw [ho] at hheap
    simp only [Caht.opPoolReturn, ho] at hcall
    split at hcall
    case isTrue => cases hcall
    case isFalse hok =>
      rw [Except.ok.injEq] at hcall
      subst hcall
      obtain ⟨freeOps, hpush, hholds, hcap⟩ := h.free.push o.poolId junk
      refine ⟨{ m with freeOps := freeOps }, ?_,
        ⟨h.ops, h.opsCap, hholds, ?_, h.nodup, h.blocks⟩, rfl⟩
      · simp only [opPoolReturn, deref, hheap, ok_bind, if_neg hok, hpush]
      · rw [hcap, h.freeCap]

theorem write_heap (m : PoolMem) (op : ℕ) (f : Operation → Operation) (a : ℕ) :
    (m.write op f).heap a = if a = op then (m.heap a).map f else m.heap a := by
  simp only [PoolMem.write, Function.update_apply]
  split_ifs with ha
  · rw [ha]
  · rfl

theorem Models.write (h : m.Models pool addrs) {i op : ℕ} (hi : addrs[i]? = some op)
    (f : Operation → Operation) : (m.write op f).Models (pool.update i f) addrs := by
  refine ⟨h.ops, h.opsCap, h.free, h.freeCap, h.nodup, ?_⟩
  apply List.ext_getElem?
  intro j
  have hb := congrArg (fun l => l[j]?) h.blocks
  simp only [List.getElem?_map] at hb ⊢
  rw [OpPool.update_getElem?]
  cases ha : addrs[j]? with
  | none =>
    rw [ha, Option.map_none] at hb
    cases ho : pool.ops[j]? with
    | none => simp
    | some o => simp [ho] at hb
  | some a =>
    have hiff : a = op ↔ j = i := by
      constructor
      · rintro rfl
        exact (List.getElem?_inj (List.getElem?_eq_some_iff.mp ha).1 h.nodup).mp (ha.trans hi.symm)
      · rintro rfl
        exact Option.some.inj (ha.symm.trans hi)
    rw [ha, Option.map_some] at hb
    rw [Option.map_some, write_heap]
    simp only [hiff]
    cases ho : pool.ops[j]? with
    | none => simp [ho] at hb
    | some o =>
      rw [ho, Option.map_some, Option.some.injEq] at hb
      split_ifs <;> simp [hb]

end

end PoolMem

/-! ## Users of the pool -/

/-- What users of the pool do: take an operation, store into one they hold, return one. -/
inductive PoolCall where
  | newEntry (addr : ℕ) (block : Operation) (junk : ℕ → ℕ)
  | write (op : ℕ) (f : Operation → Operation)
  | giveBack (op : ℕ) (junk : ℕ → ℕ)

/-- The pool, the operations in use, and the most there ever were of them at a time. -/
structure PoolUse where
  mem : PoolMem
  inUse : Finset ℕ
  peak : ℕ

namespace PoolUse

def init (opsCap freeCap : ℕ) (junk : ℕ → ℕ) : PoolUse :=
  ⟨PoolMem.opPoolInitWithCap opsCap freeCap junk, ∅, 0⟩

def call (u : PoolUse) : PoolCall → Outcome PoolUse
  | .newEntry addr block junk => do
    let (mem, op) ← u.mem.opPoolNewEntry addr block junk
    .ok ⟨mem, insert op u.inUse, max u.peak (insert op u.inUse).card⟩
  | .write op f => .ok { u with mem := u.mem.write op f }
  | .giveBack op junk => do
    let mem ← u.mem.opPoolReturn op junk
    .ok { u with mem := mem, inUse := u.inUse.erase op }

/-- `malloc` returns unused memory. Users store only into operations they hold,
never to `pool_id`, and return them without a buffer and without a descriptor. -/
def Allowed (u : PoolUse) : PoolCall → Prop
  | .newEntry addr _ _ => u.mem.heap addr = none
  | .write op f => op ∈ u.inUse ∧ ∀ o, (f o).poolId = o.poolId
  | .giveBack op _ => op ∈ u.inUse ∧ ∃ o, u.mem.heap op = some o ∧ o.bufRef = none ∧ o.clientFd = -1

def AllowedRun (u : PoolUse) : List PoolCall → Prop
  | [] => True
  | c :: calls => u.Allowed c ∧ ∀ u', u.call c = .ok u' → AllowedRun u' calls

theorem getElem?_of_prefix {l l' : List ℕ} (h : l <+: l') {i a : ℕ} (hi : l[i]? = some a) :
    l'[i]? = some a := by
  obtain ⟨hlt, he⟩ := List.getElem?_eq_some_iff.mp hi
  rw [List.prefix_iff_getElem?.mp h i hlt, he]

structure Inv (u : PoolUse) (pool : OpPool) (addrs : List ℕ) : Prop where
  models : u.mem.Models pool addrs
  wf : pool.Wf fun i => ∃ op ∈ u.inUse, addrs[i]? = some op
  mem : ∀ op ∈ u.inUse, op ∈ addrs
  peak : addrs.length = u.peak

theorem init_inv {opsCap freeCap : ℕ} (hops : 1 ≤ opsCap) (hfree : 1 ≤ freeCap) (junk : ℕ → ℕ) :
    (init opsCap freeCap junk).Inv (opPoolInitWithCap opsCap freeCap) [] := by
  refine ⟨PoolMem.init_models hops hfree junk, ?_, by simp [init], rfl⟩
  constructor <;> simp [opPoolInitWithCap]
  · omega
  · omega

section
variable {u : PoolUse} {pool : OpPool} {addrs : List ℕ}

theorem Inv.index (h : u.Inv pool addrs) {op : ℕ} (hop : op ∈ u.inUse) :
    ∃ i : ℕ, addrs[i]? = some op := by
  obtain ⟨i, hi, hie⟩ := List.getElem_of_mem (h.mem op hop)
  exact ⟨i, by rw [List.getElem?_eq_getElem hi, hie]⟩

theorem Inv.subset (h : u.Inv pool addrs) : u.inUse ⊆ addrs.toFinset := by
  intro op hop
  exact List.mem_toFinset.mpr (h.mem op hop)

/-- With an empty free list every operation is in use, otherwise one is not. -/
theorem Inv.card (h : u.Inv pool addrs) :
    if pool.freeOpsIdx = [] then u.inUse.card = addrs.length else u.inUse.card < addrs.length := by
  rw [← List.toFinset_card_of_nodup h.models.nodup]
  split_ifs with hnil
  · congr 1
    apply h.subset.antisymm
    intro op hop
    obtain ⟨i, hi, hie⟩ := List.getElem_of_mem (List.mem_toFinset.mp hop)
    by_contra hno
    have hfree : i ∈ pool.freeOpsIdx := by
      refine (h.wf.free i).mpr ⟨h.models.length ▸ hi, ?_⟩
      rintro ⟨op', hop', hi'⟩
      rw [List.getElem?_eq_getElem hi, hie, Option.some.injEq] at hi'
      exact hno (hi' ▸ hop')
    simp [hnil] at hfree
  · obtain ⟨i, hfree⟩ := List.exists_mem_of_ne_nil _ hnil
    obtain ⟨hlt, hun⟩ := (h.wf.free i).mp hfree
    rw [← h.models.length] at hlt
    apply Finset.card_lt_card
    refine Finset.ssubset_iff_subset_ne.mpr ⟨h.subset, ?_⟩
    intro he
    have hmem : addrs[i] ∈ u.inUse := by simp [he]
    exact hun ⟨addrs[i], hmem, List.getElem?_eq_getElem hlt⟩

/-- What `op_pool_new_entry` hands out was not in use, and has neither a
descriptor nor a buffer. -/
theorem Inv.newEntry (h : u.Inv pool addrs) {addr : ℕ} (hnew : u.mem.heap addr = none)
    (block : Operation) (junk : ℕ → ℕ) :
    ∃ mem op o pool' addrs', u.mem.opPoolNewEntry addr block junk = .ok (mem, op) ∧
      op ∉ u.inUse ∧ mem.heap op = some o ∧ o.clientFd = -1 ∧ o.bufRef = none ∧ addrs <+: addrs' ∧
      Inv ⟨mem, insert op u.inUse, max u.peak (insert op u.inUse).card⟩ pool' addrs' := by
  obtain ⟨pool', i, hcall, hent⟩ := h.wf.newEntry fun _ => block
  obtain ⟨mem, op, addrs', hrun, hm, hi, hgrow⟩ := h.models.newEntry hnew block junk hcall
  have hpre : addrs <+: addrs' := by
    rcases hgrow with ⟨-, rfl⟩ | ⟨-, rfl⟩
    · exact List.prefix_append _ _
    · exact List.prefix_rfl
  have hinj : ∀ (j k : ℕ) a, addrs'[j]? = some a → addrs'[k]? = some a → j = k := by
    intro j k a hj hk
    exact (List.getElem?_inj (List.getElem?_eq_some_iff.mp hj).1 hm.nodup).mp (hj.trans hk.symm)
  have hkeep : ∀ (j : ℕ) a, addrs[j]? = some a → addrs'[j]? = some a := by
    intro j a hj
    exact getElem?_of_prefix hpre hj
  have hun : op ∉ u.inUse := by
    intro hop
    obtain ⟨k, hk⟩ := h.index hop
    obtain rfl := hinj k i op (hkeep k op hk) hi
    exact hent.unused ⟨op, hop, hk⟩
  obtain ⟨o, ho, -, hfd, hbuf⟩ := hent.entry
  refine ⟨mem, op, o, pool', addrs', hrun, hun, (hm.heap_eq hi).trans ho, hfd, hbuf, hpre, hm, ?_, ?_, ?_⟩
  · refine hent.wf.congr fun j => ?_
    constructor
    · rintro ⟨a, ha, hj⟩
      rcases Finset.mem_insert.mp ha with rfl | ha
      · exact .inl (hinj j i a hj hi)
      · obtain ⟨k, hk⟩ := h.index ha
        obtain rfl := hinj j k a hj (hkeep k a hk)
        exact .inr ⟨a, ha, hk⟩
    · rintro (rfl | ⟨a, ha, hj⟩)
      · exact ⟨op, Finset.mem_insert_self _ _, hi⟩
      · exact ⟨a, Finset.mem_insert_of_mem ha, hkeep j a hj⟩
  · intro a ha
    rcases Finset.mem_insert.mp ha with rfl | ha
    · exact List.mem_of_getElem? hi
    · exact hpre.subset (h.mem a ha)
  · have hcard := h.card
    have hpeak := h.peak
    simp only [Finset.card_insert_of_notMem hun]
    rcases hgrow with ⟨hnil, rfl⟩ | ⟨hne, rfl⟩
    · rw [if_pos hnil] at hcard
      rw [List.length_append, List.length_singleton]
      omega
    · rw [if_neg hne] at hcard
      omega

theorem Inv.giveBack (h : u.Inv pool addrs) {op : ℕ} (hop : op ∈ u.inUse) {o : Operation}
    (ho : u.mem.heap op = some o) (hbuf : o.bufRef = none) (hfd : o.clientFd = -1) (junk : ℕ → ℕ) :
    ∃ mem pool', u.mem.opPoolReturn op junk = .ok mem ∧
      Inv { u with mem := mem, inUse := u.inUse.erase op } pool' addrs := by
  obtain ⟨i, hi⟩ := h.index hop
  have hops := (h.models.heap_eq hi).symm.trans ho
  obtain ⟨pool', hcall, hwf, -⟩ := h.wf.return ⟨op, hop, hi⟩ hops hbuf hfd
  obtain ⟨mem, hrun, hm, -⟩ := h.models.return hi junk hcall
  refine ⟨mem, pool', hrun, hm, hwf.congr fun j => ?_, ?_, h.peak⟩
  · constructor
    · rintro ⟨a, ha, hj⟩
      obtain ⟨hne, ha⟩ := Finset.mem_erase.mp ha
      refine ⟨⟨a, ha, hj⟩, ?_⟩
      rintro rfl
      exact hne (Option.some.inj (hj.symm.trans hi))
    · rintro ⟨⟨a, ha, hj⟩, hne⟩
      refine ⟨a, Finset.mem_erase.mpr ⟨?_, ha⟩, hj⟩
      rintro rfl
      have hlt := (List.getElem?_eq_some_iff.mp hj).1
      exact hne ((List.getElem?_inj hlt h.models.nodup).mp (hj.trans hi.symm))
  · intro a ha
    exact h.mem a (Finset.mem_of_mem_erase ha)

theorem Inv.call (h : u.Inv pool addrs) {c : PoolCall} (hc : u.Allowed c) :
    ∃ u' pool' addrs', u.call c = .ok u' ∧ u'.Inv pool' addrs' ∧ addrs <+: addrs' := by
  cases c with
  | newEntry addr block junk =>
    obtain ⟨mem, op, o, pool', addrs', hrun, -, -, -, -, hpre, h'⟩ := h.newEntry hc block junk
    exact ⟨_, pool', addrs', by simp [PoolUse.call, hrun], h', hpre⟩
  | write op f =>
    obtain ⟨hop, hid⟩ := hc
    obtain ⟨i, hi⟩ := h.index hop
    exact ⟨_, pool.update i f, addrs, rfl,
      ⟨h.models.write hi f, h.wf.update ⟨op, hop, hi⟩ hid, h.mem, h.peak⟩, List.prefix_rfl⟩
  | giveBack op junk =>
    obtain ⟨hop, o, ho, hbuf, hfd⟩ := hc
    obtain ⟨mem, pool', hrun, h'⟩ := h.giveBack hop ho hbuf hfd junk
    exact ⟨_, pool', addrs, by simp [PoolUse.call, hrun], h', List.prefix_rfl⟩

theorem Inv.runAll (h : u.Inv pool addrs) {calls : List PoolCall} (hcalls : u.AllowedRun calls) :
    ∃ u' pool' addrs', runAll PoolUse.call u calls = .ok u' ∧ u'.Inv pool' addrs' ∧
      addrs <+: addrs' := by
  obtain ⟨u', hrun, -, pool', addrs', h', hpre⟩ := runAll_total
    (I := fun l (u : PoolUse) => u.AllowedRun l ∧ ∃ pool' addrs', u.Inv pool' addrs' ∧ addrs <+: addrs')
    (by
      rintro c l u ⟨hcalls, pool₁, addrs₁, h₁, hpre₁⟩
      obtain ⟨u₂, pool₂, addrs₂, hc, h₂, hpre₂⟩ := h₁.call hcalls.1
      exact ⟨u₂, hc, hcalls.2 u₂ hc, pool₂, addrs₂, h₂, hpre₁.trans hpre₂⟩)
    ⟨hcalls, pool, addrs, h, List.prefix_rfl⟩
  exact ⟨u', pool', addrs', hrun, h', hpre⟩

end

/-- What holds of the arrays between calls. -/
structure Sound (u : PoolUse) : Prop where
  ops_le : u.mem.ops.len ≤ u.mem.ops.cap ∧ u.mem.ops.data.length = u.mem.ops.cap
  free_le : u.mem.freeOps.len ≤ u.mem.freeOps.cap ∧ u.mem.freeOps.data.length = u.mem.freeOps.cap
  id : ∀ i < u.mem.ops.len, ∃ op o, u.mem.ops.data[i]? = some op ∧ u.mem.heap op = some o ∧ o.poolId = i
  nodup : (u.mem.freeOps.data.take u.mem.freeOps.len).Nodup
  free : ∀ i, i ∈ u.mem.freeOps.data.take u.mem.freeOps.len ↔
    i < u.mem.ops.len ∧ ∀ op, u.mem.ops.data[i]? = some op → op ∉ u.inUse
  get : ∀ op ∈ u.inUse, ∃ o, u.mem.heap op = some o ∧ u.mem.opPoolGet o.poolId = .ok op
  peak : u.mem.ops.len = u.peak

end PoolUse

end Caht
