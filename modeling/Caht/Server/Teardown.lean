import Caht.Library.Ledger
import Caht.ClientMap.History
import Caht.Server.SlabCounts
import Caht.Server.Connections

/-! # Giving memory back

`client_map_deinit`, `slab_deinit`, `op_pool_deinit`, and the calls `main` makes of them
after `server_start`, whose loop has no way out. Each frees what it can reach. A slab
reaches the buffers on its stack only, so those that are held stay allocated.
-/

namespace Caht
open Library Protocol

/-- What `malloc` and `calloc` returned, by its use. -/
inductive Block where
  | op (i : ℕ)
  | ops
  | freeOpsIdx
  | node (p : ℕ)
  | buckets
  | free
  | buf (b : ℕ)
  | bufRefs64
  | bufRefs2k
  deriving DecidableEq, Repr

def clientMapDeinit (cm : ClientMap) (mem : Finset Block) : Outcome (Finset Block) := do
  let mem ← runAll (fun mem i => readBlock mem .buckets >>= fun _ =>
    freeFrom ClientInfo.next cm.nodes .node cm.nodes.length (cm.buckets.getD i none) mem)
    mem (List.range cm.bucketsCap)
  let mem ← freeBlock mem .buckets
  let mem ← runAll (fun mem p => readBlock mem .free >>= fun _ => freeBlock mem (.node p)) mem cm.free
  freeBlock mem .free

/-- `bufRefs` is the array of the slab. -/
def slabDeinit (s : Slab) (bufRefs : Block) (mem : Finset Block) : Outcome (Finset Block) := do
  let mem ← runAll (fun mem b => readBlock mem bufRefs >>= fun _ => freeBlock mem (.buf b)) mem s.bufRefs
  freeBlock mem bufRefs

def opPoolDeinit (pool : OpPool) (mem : Finset Block) : Outcome (Finset Block) := do
  let mem ← runAll (fun mem i => readBlock mem .ops >>= fun _ => freeBlock mem (.op i)) mem
    (List.range pool.ops.length)
  let mem ← freeBlock mem .ops
  freeBlock mem .freeOpsIdx

/-- The last calls of `main`. -/
def Server.deinit (srv : Server) (mem : Finset Block) : Outcome (Finset Block) := do
  let mem ← opPoolDeinit srv.pool mem
  let mem ← clientMapDeinit srv.clients mem
  let mem ← slabDeinit srv.slab64 .bufRefs64 mem
  slabDeinit srv.slab2k .bufRefs2k mem

/-- The blocks of the pool. -/
def OpPool.blocks (pool : OpPool) : Finset Block :=
  insert .ops (insert .freeOpsIdx ((Finset.range pool.ops.length).image .op))

/-- The blocks of the map. -/
def ClientMap.blocks (cm : ClientMap) : Finset Block :=
  insert .buckets (insert .free ((Finset.range cm.nodes.length).image .node))

/-- The array of a slab and the buffers on its stack. -/
def Slab.blocks (s : Slab) (bufRefs : Block) : Finset Block :=
  insert bufRefs (s.bufRefs.toFinset.image .buf)

/-- The buffers of both slabs, with the two arrays. -/
def Server.bufBlocks (srv : Server) : Finset Block :=
  insert .bufRefs64 (insert .bufRefs2k ((Finset.range srv.heap.length).image .buf))

/-- All that the server has allocated. -/
def Server.blocks (srv : Server) : Finset Block :=
  srv.pool.blocks ∪ (srv.clients.blocks ∪ srv.bufBlocks)

/-! ## What each call frees -/

section
variable {mem : Finset Block}

theorem flatMap_getD_eq_flatten {α : Type} (chains : List (List α)) :
    (List.range chains.length).flatMap (fun i => chains.getD i []) = chains.flatten := by
  have hmap : (List.range chains.length).map (fun i => chains.getD i []) = chains := by
    apply List.ext_getElem
    · simp
    · intro i _ hi
      simp [hi]
  rw [List.flatMap_def, hmap]

/-- The blocks a map frees, in order. -/
def ClientMap.frees (cm : ClientMap) (chains : List (List ℕ)) : List Block :=
  chains.flatten.map .node ++ [.buckets] ++ cm.free.map .node ++ [.free]

theorem ClientMap.Wf.deinit {cm : ClientMap} {chains : List (List ℕ)} (h : cm.Wf chains)
    (hbuckets : .buckets ∈ mem) (hfree : .free ∈ mem) :
    clientMapDeinit cm mem = runAll freeBlock mem (cm.frees chains) := by
  have hchains : runAll (fun mem i => readBlock mem Block.buckets >>= fun _ =>
      freeFrom ClientInfo.next cm.nodes .node cm.nodes.length (cm.buckets.getD i none) mem)
      mem (List.range cm.bucketsCap) = runAll freeBlock mem (chains.flatten.map .node) := by
    rw [runAll_read_free (g := fun i => (chains.getD i []).map Block.node), ← h.chains_length,
      ← List.map_flatMap, flatMap_getD_eq_flatten]
    · intro mem i hi
      have hc := h.linked i (List.mem_range.mp hi)
      exact freeFrom_eq hc (hc.length_le (h.chain_nodup i)) mem
    · simp
    · exact hbuckets
  rw [clientMapDeinit, hchains, ClientMap.frees, runAll_concat, runAll_append, runAll_concat]
  cases hrun : runAll freeBlock mem (chains.flatten.map Block.node) with
  | error e => rfl
  | ok mem₁ =>
    simp only [ok_bind]
    cases hb : freeBlock mem₁ Block.buckets with
    | error e => rfl
    | ok mem₂ =>
      have hrun₂ : runAll freeBlock mem (chains.flatten.map .node ++ [Block.buckets]) = .ok mem₂ := by
        rw [runAll_concat, hrun, ok_bind, hb]
      rw [ok_bind, ok_bind, runAll_read_each (by simp) (mem_of_runAll_free hrun₂ hfree (by simp))]

theorem ClientMap.Wf.frees_nodup {cm : ClientMap} {chains : List (List ℕ)} (h : cm.Wf chains) :
    (cm.frees chains).Nodup := by
  have hnd : ((chains.flatten ++ cm.free).map Block.node).Nodup :=
    h.nodup.map fun p q he => Block.node.inj he
  have hperm : (cm.frees chains).Perm
      (.buckets :: .free :: (chains.flatten ++ cm.free).map Block.node) := by
    rw [ClientMap.frees, List.map_append]
    refine (List.perm_append_singleton _ _).trans ?_
    refine (List.Perm.cons _ ?_).trans (List.Perm.swap _ _ _)
    rw [List.append_assoc]
    exact List.perm_middle
  rw [hperm.nodup_iff, List.nodup_cons, List.nodup_cons]
  exact ⟨by simp, by simp, hnd⟩

theorem ClientMap.Wf.frees_toFinset {cm : ClientMap} {chains : List (List ℕ)} (h : cm.Wf chains) :
    (cm.frees chains).toFinset = cm.blocks := by
  have hall : ∀ p, (p ∈ chains.flatten ∨ p ∈ cm.free) ↔ p < cm.nodes.length := by
    intro p
    rw [← List.mem_append, h.places.mem_iff, List.mem_range]
  ext b
  cases b with
  | node p => simpa [ClientMap.frees, ClientMap.blocks] using hall p
  | _ => simp [ClientMap.frees, ClientMap.blocks]

theorem ClientMap.Wf.deinit_ok {cm : ClientMap} {chains : List (List ℕ)} (h : cm.Wf chains)
    (hsub : cm.blocks ⊆ mem) : clientMapDeinit cm mem = .ok (mem \ cm.blocks) := by
  rw [h.deinit (hsub (by simp [ClientMap.blocks])) (hsub (by simp [ClientMap.blocks])),
    ← h.frees_toFinset]
  apply runAll_free_ok h.frees_nodup
  rw [h.frees_toFinset]
  exact hsub

theorem slabDeinit_ok {s : Slab} {bufRefs : Block} (hnd : s.bufRefs.Nodup)
    (harr : ∀ b, bufRefs ≠ .buf b) (hsub : s.blocks bufRefs ⊆ mem) :
    slabDeinit s bufRefs mem = .ok (mem \ s.blocks bufRefs) := by
  have hmem : bufRefs ∈ mem := hsub (by simp [Slab.blocks])
  have hrun : slabDeinit s bufRefs mem =
      runAll freeBlock mem (s.bufRefs.map .buf ++ [bufRefs]) := by
    rw [slabDeinit, runAll_read_each (fun b _ => harr b) hmem, runAll_concat]
  have hset : (s.bufRefs.map Block.buf ++ [bufRefs]).toFinset = s.blocks bufRefs := by
    ext b
    simp [Slab.blocks]
  rw [hrun, ← hset]
  apply runAll_free_ok
  · have hoff : bufRefs ∉ s.bufRefs.map .buf := by simpa [eq_comm] using fun b _ => harr b
    rw [(List.perm_append_singleton _ _).nodup_iff, List.nodup_cons]
    exact ⟨hoff, hnd.map fun b c he => Block.buf.inj he⟩
  · rw [hset]
    exact hsub

theorem opPoolDeinit_ok {pool : OpPool} (hsub : pool.blocks ⊆ mem) :
    opPoolDeinit pool mem = .ok (mem \ pool.blocks) := by
  have hmem : Block.ops ∈ mem := hsub (by simp [OpPool.blocks])
  have hrun : opPoolDeinit pool mem = runAll freeBlock mem
      ((List.range pool.ops.length).map .op ++ [.ops] ++ [.freeOpsIdx]) := by
    rw [opPoolDeinit, runAll_read_each (by simp) hmem, runAll_concat, runAll_concat]
    cases runAll freeBlock mem ((List.range pool.ops.length).map .op) <;> rfl
  have hset : ((List.range pool.ops.length).map Block.op ++ [Block.ops] ++ [Block.freeOpsIdx]).toFinset =
      pool.blocks := by
    ext b
    cases b <;> simp [OpPool.blocks]
  rw [hrun, ← hset]
  apply runAll_free_ok
  · have hnd : ((List.range pool.ops.length).map Block.op).Nodup :=
      List.nodup_range.map fun i j he => Block.op.inj he
    rw [(List.perm_append_singleton _ _).nodup_iff, List.nodup_cons,
      (List.perm_append_singleton _ _).nodup_iff, List.nodup_cons]
    exact ⟨by simp, by simp, hnd⟩
  · rw [hset]
    exact hsub

end

/-! ## A map and a slab at the end of their use -/

/-- Whatever was done with the map, its memory is that of as many nodes as there ever
were clients at a time and of two arrays. `client_map_deinit` frees each of these
blocks once and reads none of them after that; a second call reads freed memory. -/
theorem client_map_deinit_frees_all (cap : ℕ) {cm : ClientMap} {h : History}
    (hr : MapReaches cap cm h) {others : Finset Block} (hothers : Disjoint others cm.blocks) :
    cm.blocks.card = h.peak + 2 ∧
      clientMapDeinit cm (others ∪ cm.blocks) = .ok others ∧
      clientMapDeinit cm others = .error .undefined := by
  have hi := mapInv_reaches hr
  obtain ⟨chains, hw, -⟩ := hi.represents
  refine ⟨?_, ?_, ?_⟩
  · have hnodes : ((Finset.range cm.nodes.length).image Block.node).card = h.peak := by
      rw [Finset.card_image_of_injective _ fun p q he => Block.node.inj he, Finset.card_range, hi.peak]
    rw [ClientMap.blocks, Finset.card_insert_of_notMem (by simp),
      Finset.card_insert_of_notMem (by simp), hnodes]
  · rw [hw.deinit_ok Finset.subset_union_right, Finset.union_sdiff_right,
      hothers.sdiff_eq_left]
  · have hoff : Block.buckets ∉ others :=
      fun hm => Finset.disjoint_left.mp hothers hm (by simp [ClientMap.blocks])
    obtain ⟨n, hn⟩ : ∃ n, cm.bucketsCap = n + 1 := ⟨cm.bucketsCap - 1, by have := hw.cap_pos; omega⟩
    rw [clientMapDeinit, hn, List.range_succ_eq_map, runAll]
    simp [readBlock, hoff]

/-- A map with two clients in one bucket and a node in the free array. -/
theorem client_map_deinit_frees_all_collision :
    ∃ cm h, MapReaches (2 ^ 4) cm h ∧ cm.free = [2] ∧
      clientMapDeinit cm (∅ ∪ cm.blocks) = .ok ∅ ∧ cm.blocks.card = 5 := by
  have h₁ : MapReaches (2 ^ 4) _ _ := .call (.newEntry 1 .zero) (.init rfl) trivial rfl
  have h₂ : MapReaches (2 ^ 4) _ _ := .call (.newEntry 17 .zero) h₁ trivial rfl
  have h₃ : MapReaches (2 ^ 4) _ _ := .call (.newEntry 33 .zero) h₂ trivial rfl
  have h₄ : MapReaches (2 ^ 4) _ _ := .call (.delete 33) h₃ (by decide) rfl
  obtain ⟨hcard, hdeinit, -⟩ := client_map_deinit_frees_all (2 ^ 4) h₄ (Finset.disjoint_empty_left _)
  exact ⟨_, _, h₄, rfl, hdeinit, hcard⟩

/-- What a slab whose blocks are those from `base` on has allocated. -/
def SlabUse.blocks (u : SlabUse) (base : ℕ) (bufRefs : Block) : Finset Block :=
  insert bufRefs ((Finset.Ico base u.heap.length).image .buf)

/-- `slab_deinit` frees the array and the buffers whose references were all released.
A buffer some of whose references are owed stays allocated. -/
theorem slab_deinit_leaks_owed (heap : List BufRef) (bufCap slabCap : ℕ) (hcap : 1 ≤ slabCap)
    (junk : ℕ → ℕ → UInt8) (calls : List SlabCall)
    (hcalls : (SlabUse.init heap bufCap slabCap junk).AllowedRun calls) {bufRefs : Block}
    (harr : ∀ b, bufRefs ≠ .buf b) :
    ∃ u, runAll SlabUse.call (SlabUse.init heap bufCap slabCap junk) calls = .ok u ∧
      ∀ others, Disjoint others (u.blocks heap.length bufRefs) →
        slabDeinit u.slab bufRefs (others ∪ u.blocks heap.length bufRefs) =
          .ok (others ∪ u.live.image .buf) := by
  obtain ⟨u, hrun, h⟩ := (SlabUse.init_inv heap bufCap hcap junk).runAll hcalls
  refine ⟨u, hrun, fun others hothers => ?_⟩
  have hstack : ∀ b ∈ u.slab.bufRefs, heap.length ≤ b ∧ b < u.heap.length :=
    fun b hb => ((h.stack b).mp hb).1
  have hsub : u.slab.blocks bufRefs ⊆ u.blocks heap.length bufRefs := by
    intro b hb
    simp only [Slab.blocks, SlabUse.blocks, Finset.mem_insert, Finset.mem_image, List.mem_toFinset,
      Finset.mem_Ico] at hb ⊢
    rcases hb with rfl | ⟨c, hc, rfl⟩
    · exact .inl rfl
    · exact .inr ⟨c, hstack c hc, rfl⟩
  have hleft : u.blocks heap.length bufRefs \ u.slab.blocks bufRefs = u.live.image .buf := by
    ext b
    simp only [Slab.blocks, SlabUse.blocks, Finset.mem_sdiff, Finset.mem_insert, Finset.mem_image,
      List.mem_toFinset, Finset.mem_Ico, h.mem_live]
    constructor
    · rintro ⟨rfl | ⟨c, hc, rfl⟩, hoff⟩
      · exact absurd (.inl rfl) hoff
      · refine ⟨c, fun hzero => hoff (.inr ⟨c, (h.stack c).mpr ⟨hc, hzero⟩, rfl⟩), rfl⟩
    · rintro ⟨c, hc, rfl⟩
      refine ⟨.inr ⟨c, ⟨(h.owed c hc).1, h.lt hc⟩, rfl⟩, ?_⟩
      rintro (he | ⟨d, hd, he⟩)
      · exact harr c he.symm
      · obtain rfl := Block.buf.inj he
        exact hc ((h.stack d).mp hd).2
  rw [slabDeinit_ok h.wf.nodup harr (hsub.trans Finset.subset_union_right), Finset.union_sdiff_distrib,
    hleft, (Finset.disjoint_of_subset_right hsub hothers).sdiff_eq_left]

/-- Of a buffer with two references one is released before the slab goes. -/
theorem slab_deinit_leaks_owed_shared :
    ∃ u, runAll SlabUse.call (SlabUse.init [] 4 2 fun _ _ => 0)
        [.acquire 2 fun _ _ => 0, .acquire 1 fun _ _ => 0, .release 1, .release 0] = .ok u ∧
      slabDeinit u.slab .bufRefs64 (∅ ∪ u.blocks 0 .bufRefs64) = .ok (∅ ∪ u.live.image .buf) ∧
      u.live = {1} := by
  obtain ⟨u, hrun, hdeinit⟩ := slab_deinit_leaks_owed [] 4 2 (by decide) (fun _ _ => 0)
    [.acquire 2 fun _ _ => 0, .acquire 1 fun _ _ => 0, .release 1, .release 0]
    (by decide +kernel) (fun b => show Block.bufRefs64 ≠ .buf b by simp)
  have heval : (runAll SlabUse.call (SlabUse.init [] 4 2 fun _ _ => 0)
      [.acquire 2 fun _ _ => 0, .acquire 1 fun _ _ => 0, .release 1, .release 0]).map
      SlabUse.live = .ok {1} := by
    decide +kernel
  rw [hrun] at heval
  exact ⟨u, hrun, hdeinit ∅ (Finset.disjoint_empty_left _), Except.ok.inj heval⟩

/-! ## The server -/

/-- The buffers on neither stack are those of the operations in use. -/
theorem Server.Models.mem_leaked {srv : Server} {v : View} (h : srv.Models v) (b : ℕ) :
    (b < srv.heap.length ∧ b ∉ srv.slab64.bufRefs ∧ b ∉ srv.slab2k.bufRefs) ↔
      ∃ i x, v.ops i = some x ∧ x.bref = b := by
  constructor
  · rintro ⟨hlt, h64, h2k⟩
    exact ((h.bufs.cover b hlt).resolve_left h64).resolve_left h2k
  · rintro ⟨i, x, hx, rfl⟩
    exact ⟨h.bufs.lt hx, h.bufs.off i x hx⟩

theorem Server.blocks_disjoint (srv : Server) :
    Disjoint srv.pool.blocks (srv.clients.blocks ∪ srv.bufBlocks) ∧
      Disjoint srv.clients.blocks srv.bufBlocks := by
  simp only [Finset.disjoint_left]
  constructor
  · intro b hb
    cases b <;> simp_all [OpPool.blocks, ClientMap.blocks, Server.bufBlocks]
  · intro b hb
    cases b <;> simp_all [ClientMap.blocks, Server.bufBlocks]

/-- Each of the four calls finds what it frees, and the first two free it all. -/
theorem Server.Models.deinit {srv : Server} {v : View} (h : srv.Models v) :
    ∃ mem, srv.deinit srv.blocks = .ok mem ∧
      ∀ b, b ∈ mem ↔ ∃ i x, v.ops i = some x ∧ b = .buf x.bref := by
  obtain ⟨m, ⟨chains, hw, -⟩, -⟩ := h.clients
  obtain ⟨hpm, hmb⟩ := srv.blocks_disjoint
  have hpool : opPoolDeinit srv.pool srv.blocks = .ok (srv.clients.blocks ∪ srv.bufBlocks) := by
    rw [Server.blocks, opPoolDeinit_ok Finset.subset_union_left, Finset.union_sdiff_cancel_left hpm]
  have hmap : clientMapDeinit srv.clients (srv.clients.blocks ∪ srv.bufBlocks) = .ok srv.bufBlocks := by
    rw [hw.deinit_ok Finset.subset_union_left, Finset.union_sdiff_cancel_left hmb]
  have hsub64 : srv.slab64.blocks .bufRefs64 ⊆ srv.bufBlocks := by
    intro b hb
    have hlt := fun b => h.bufs.wf.lt (b := b)
    cases b <;> simp_all [Server.bufBlocks, Slab.blocks]
  have hsub2k : srv.slab2k.blocks .bufRefs2k ⊆ srv.bufBlocks \ srv.slab64.blocks .bufRefs64 := by
    intro b hb
    have hlt := fun b => h.bufs.wf'.lt (b := b)
    have hapart := fun b => h.bufs.symm.apart (b := b)
    cases b <;> simp_all [Server.bufBlocks, Slab.blocks]
  refine ⟨(srv.bufBlocks \ srv.slab64.blocks .bufRefs64) \ srv.slab2k.blocks .bufRefs2k, ?_, ?_⟩
  · simp only [Server.deinit, hpool, hmap, ok_bind, slabDeinit_ok h.bufs.wf.nodup (by simp) hsub64,
      slabDeinit_ok h.bufs.wf'.nodup (by simp) hsub2k]
  · intro b
    cases b with
    | buf b => simpa [Server.bufBlocks, Slab.blocks, and_assoc, eq_comm] using h.mem_leaked b
    | _ => simp [Server.bufBlocks, Slab.blocks]

/-- In whatever state of a run the calls at the end of `main` were made, they would free
nothing twice and read nothing they have freed. What they would leave allocated is one
buffer for each operation on its way. -/
theorem server_deinit_leaks_in_flight (w : World) (hr : Reachable w) :
    ∃ mem, w.srv.deinit w.srv.blocks = .ok mem ∧ mem.card = w.poolIds.length ∧
      ∀ b, b ∈ mem ↔ ∃ i o bref, w.op i = some o ∧ o.bufRef = some bref ∧ b = .buf bref := by
  obtain ⟨v, hw, -⟩ := hr.serving
  obtain ⟨mem, hrun, hmem⟩ := hw.models.deinit
  refine ⟨mem, hrun, ?_, ?_⟩
  · have hnd : w.poolIds.Nodup := by
      rw [World.poolIds, World.tickets, ← hw.models.sq]
      exact hw.owns.nodup
    rw [← List.toFinset_card_of_nodup hnd]
    symm
    refine Finset.card_bij (fun i _ => .buf (((v.ops i).map Held.bref).getD 0)) ?_ ?_ ?_
    · intro i hi
      obtain ⟨x, hx⟩ := Option.ne_none_iff_exists'.mp ((hw.mem_poolIds i).mp (List.mem_toFinset.mp hi))
      exact (hmem _).mpr ⟨i, x, hx, by simp [hx]⟩
    · intro i hi j hj he
      obtain ⟨x, hx⟩ := Option.ne_none_iff_exists'.mp ((hw.mem_poolIds i).mp (List.mem_toFinset.mp hi))
      obtain ⟨y, hy⟩ := Option.ne_none_iff_exists'.mp ((hw.mem_poolIds j).mp (List.mem_toFinset.mp hj))
      simp only [hx, hy, Option.map_some, Option.getD_some, Block.buf.injEq] at he
      exact hw.models.bufs.inj i j x y hx hy he
    · intro b hb
      obtain ⟨i, x, hx, rfl⟩ := (hmem b).mp hb
      have hi : i ∈ w.poolIds := (hw.mem_poolIds i).mpr (by simp [hx])
      exact ⟨i, List.mem_toFinset.mpr hi, by simp [hx]⟩
  · intro b
    rw [hmem]
    constructor
    · rintro ⟨i, x, hx, rfl⟩
      exact ⟨i, x.operation i, x.bref, hw.op_eq_some.mpr ⟨x, hx, rfl⟩, rfl, rfl⟩
    · rintro ⟨i, o, bref, ho, hb, rfl⟩
      obtain ⟨x, hx, rfl⟩ := hw.op_eq_some.mp ho
      obtain rfl := Option.some.inj hb
      exact ⟨i, x, hx, rfl⟩

/-- A receive, an accept and a send are on their way. -/
theorem server_deinit_leaks_in_flight_reply : ∃ w mem, Reachable w ∧
    w.srv.deinit w.srv.blocks = .ok mem ∧ mem.card = 3 := by
  have hrun : (World.runMain 3 .zero ([.serve .zero] ++ Action.complete 0 5 [] ++
      Action.complete 0 14 [0, 14, 1, 0, 0, 0, 0, 0, 0, 0, 7, 97, 98, 99])).map
        (fun w => w.poolIds.length) = some 3 := by
    decide +kernel
  obtain ⟨w, hw, hlen⟩ := Option.map_eq_some_iff.mp hrun
  have hr := World.runMain_reachable (by decide) hw
  obtain ⟨mem, hdeinit, hcard, -⟩ := server_deinit_leaks_in_flight w hr
  exact ⟨w, mem, hr, hdeinit, hcard.trans hlen⟩

end Caht
