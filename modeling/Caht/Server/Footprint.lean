import Caht.Server.Cells
import Caht.Server.Departures

/-! # Memory follows the load

What the server has allocated is set by the most that was ever in use at one time, however
long it runs.
-/

namespace Caht
open Library Protocol

/-! ## What is in use -/

/-- The operations in use that have a buffer of capacity `k`. -/
def World.holders (w : World) (k : ℕ) : List ℕ :=
  w.poolIds.filter fun i => (w.op i).any fun o => o.bufCap = k

/-- At most `m` replies and `n` accepts and receives are in use. -/
def World.Within (m n : ℕ) (w : World) : Prop :=
  (w.holders 64).length ≤ m ∧ (w.holders 2048).length ≤ n

instance (m n : ℕ) (w : World) : Decidable (w.Within m n) :=
  inferInstanceAs (Decidable (_ ∧ _))

/-- How many buffers of `k` bytes are allocated. -/
def World.buffers (w : World) (k : ℕ) : ℕ := (w.srv.heap.map fun r => r.buf.length).count k

section
variable {w w' : World} {v : View} {caps : List ℕ} {a : Action}

theorem World.Owned.mem_holders (h : w.Owned v) {i k : ℕ} :
    i ∈ w.holders k ↔ ∃ x, v.ops i = some x ∧ x.bufCap = k := by
  rw [World.holders, List.mem_filter, h.mem_poolIds, h.op]
  cases hi : v.ops i with
  | none => simp
  | some x => simp [Held.operation]

theorem World.Owned.bufCap (h : w.Owned v) {i : ℕ} {x : Held} (hi : v.ops i = some x) :
    x.bufCap = 64 ∨ x.bufCap = 2048 := by
  rw [← h.models.cap64, ← h.models.cap2k]
  exact h.models.bufs.bufCap i x hi

/-- An operation is on the free list or has a buffer of one of the two capacities. -/
theorem World.Owned.ops_le (h : w.Owned v) : w.srv.pool.ops.length ≤
    ((w.holders 64).length + (w.holders 2048).length) + w.srv.pool.freeOpsIdx.length := by
  have hsub : List.range w.srv.pool.ops.length ⊆
      (w.holders 64 ++ w.holders 2048) ++ w.srv.pool.freeOpsIdx := by
    intro i hi
    rw [List.mem_append, List.mem_append, h.mem_holders, h.mem_holders, h.models.pool.free]
    cases hx : v.ops i with
    | none => exact .inr ⟨List.mem_range.mp hi, by simp⟩
    | some x => exact .inl ((h.bufCap hx).imp (fun hc => ⟨x, rfl, hc⟩) fun hc => ⟨x, rfl, hc⟩)
  have hle := (List.nodup_range.subperm hsub).length_le
  rwa [List.length_range, List.length_append, List.length_append] at hle

/-- Every block has the length that goes with its slab. -/
theorem World.Owned.caps_eq (h : w.Owned v) (hs : w.srv.cells.Sorted caps) :
    (w.srv.heap.map fun r => r.buf.length) = caps := by
  apply List.ext_getElem?
  intro b
  rw [List.getElem?_map]
  by_cases hlt : b < w.srv.heap.length
  · have hslab : ∀ (s : Slab) k, s.Wf w.srv.heap → s.bufCap = k → b ∈ s.bufRefs → caps[b]? = some k →
        (w.srv.heap[b]?).map (fun r => r.buf.length) = caps[b]? := by
      intro s k hwf hcap hb hk
      obtain ⟨r, hr, hlen⟩ := hwf.sized b hb
      rw [hr, Option.map_some, hlen, hcap, hk]
    rcases h.models.bufs.cover b hlt with h64 | h2k | ⟨i, x, hx, rfl⟩
    · exact hslab _ _ h.models.bufs.wf h.models.cap64 h64 (hs.free 64 b h64)
    · exact hslab _ _ h.models.bufs.wf' h.models.cap2k h2k (hs.free 2048 b h2k)
    · have hcap := hs.held (some x.bref, x.bufCap)
        (List.mem_map.mpr ⟨_, List.mem_of_getElem? (h.models.op i x hx), rfl⟩) x.bref rfl
      rw [h.models.bufs.block i x hx, hcap, Option.map_some, h.models.bufs.length i x hx]
  · have hlen := hs.length
    simp only [Server.cells] at hlen
    rw [List.getElem?_eq_none (by omega), List.getElem?_eq_none (by omega), Option.map_none]

theorem count_eq_length_filter (l : List ℕ) (k : ℕ) :
    l.count k = ((List.range l.length).filter fun b => l[b]? = some k).length := by
  induction l using List.reverseRecOn with
  | nil => rfl
  | append_singleton l a ih =>
    rw [List.count_append, ih, List.length_append, List.length_singleton, List.range_succ,
      List.filter_append, List.length_append]
    congr 1
    · congr 1
      apply List.filter_congr
      intro b hb
      rw [List.getElem?_append_left (List.mem_range.mp hb)]
    · by_cases ha : a = k <;> simp [ha]

/-- A block is on the stack of its slab or held by one operation. -/
theorem World.Owned.bufs_le (h : w.Owned v) (hs : w.srv.cells.Sorted caps) (k : ℕ) :
    caps.count k ≤ (w.holders k).length + (w.srv.cells.freeBufs k).length := by
  have hsub : (List.range caps.length).filter (fun b => caps[b]? = some k) ⊆
      (w.holders k).map (fun i => ((w.op i).bind Operation.bufRef).getD 0) ++ w.srv.cells.freeBufs k := by
    intro b hb
    obtain ⟨hlt, hb⟩ := List.mem_filter.mp hb
    rw [List.mem_range, hs.length] at hlt
    replace hb : caps[b]? = some k := of_decide_eq_true hb
    rcases h.models.bufs.cover b hlt with h64 | h2k | ⟨i, x, hx, rfl⟩
    · have hcap := hs.free 64 b h64
      obtain rfl := Option.some.inj (hcap.symm.trans hb)
      exact List.mem_append_right _ h64
    · have hcap := hs.free 2048 b h2k
      obtain rfl := Option.some.inj (hcap.symm.trans hb)
      exact List.mem_append_right _ h2k
    · have hcap := hs.held (some x.bref, x.bufCap)
        (List.mem_map.mpr ⟨_, List.mem_of_getElem? (h.models.op i x hx), rfl⟩) x.bref rfl
      obtain rfl := Option.some.inj (hcap.symm.trans hb)
      refine List.mem_append_left _ (List.mem_map.mpr ⟨i, h.mem_holders.mpr ⟨x, hx, rfl⟩, ?_⟩)
      rw [h.op, hx]
      rfl
  have hle := ((List.nodup_range.filter _).subperm hsub).length_le
  rwa [← count_eq_length_filter, List.length_append, List.length_map] at hle

theorem World.Owned.client_holder (h : w.Owned v) (hs : w.Serving v) (hu : v.Unwrapped) {id : UInt64}
    (hc : v.clients id ≠ none) : ∃ i ∈ w.holders 2048, ∃ x, v.ops i = some x ∧ x.clientId = id := by
  have hholder : ∀ i x, v.ops i = some x → x.type ≠ .write → i ∈ w.holders 2048 := by
    intro i x hx ht
    refine h.mem_holders.mpr ⟨x, hx, ?_⟩
    obtain ⟨t, ht', rfl⟩ := List.mem_map.mp ((h.owns.used i).mp (by simp [hx]))
    have hfit := (h.owns.fits t ht' x hx).1
    cases hreq : t.sqe.request with
    | accept =>
      rw [hreq] at hfit
      exact hfit.2.2
    | recv =>
      rw [hreq] at hfit
      exact hfit.2.2.2.1
    | send =>
      rw [hreq] at hfit
      exact absurd hfit.1 ht
  cases hs.census.unwrapped_life hu id with
  | fresh hn => exact absurd hn hc
  | gone hn => exact absurd hn hc
  | pending _ hi hx ht => exact ⟨_, hholder _ _ hi (by simp [ht]), _, hi, hx⟩
  | connected hcon => exact ⟨_, hholder _ _ hcon.op (by simp [hcon.type]), _, hcon.op, hcon.clientId⟩

theorem World.Owned.nodes_le (h : w.Owned v) (hs : w.Serving v) (hu : v.Unwrapped) :
    w.srv.clients.nodes.length ≤ (w.holders 2048).length + w.srv.clients.free.length := by
  obtain ⟨m, ⟨chains, hw, hm⟩, hclients⟩ := h.models.clients
  have hsub : List.range w.srv.clients.nodes.length ⊆
      (w.holders 2048).map (fun i => (((v.ops i).bind fun x => v.clients x.clientId).map Client.node).getD 0) ++
        w.srv.clients.free := by
    intro p hp
    rcases List.mem_append.mp (hw.places.mem_iff.mpr hp) with hchain | hfree
    · obtain ⟨n, hn⟩ : ∃ n, w.srv.clients.nodes[p]? = some n :=
        ⟨_, List.getElem?_eq_getElem (List.mem_range.mp hp)⟩
      have hid := (hm _ p).mpr ⟨hchain, _, hn, rfl⟩
      have hc : v.clients n.clientId = some (n.client p) := by
        rw [hclients, hid, Option.bind_some, ClientMap.clientAt, hn, Option.map_some]
      obtain ⟨i, hi, x, hx, hxid⟩ := h.client_holder hs hu (by rw [hc]; simp)
      refine List.mem_append_left _ (List.mem_map.mpr ⟨i, hi, ?_⟩)
      rw [hx, Option.bind_some, hxid, hc]
      rfl
    · exact List.mem_append_right _ hfree
  have hle := (List.nodup_range.subperm hsub).length_le
  rwa [List.length_range, List.length_append, List.length_map] at hle

/-! ## Runs -/

theorem World.perform_cells (w : World) (s : Submitted) (res : ℤ) (data : List UInt8) :
    (w.perform s res data).srv.cells = w.srv.cells := by
  unfold World.perform
  split
  · split <;> rfl
  · simp [Server.cells]
  · split <;> rfl

theorem World.Steps.turns (h : w.Steps a w') (hs : w.srv.cells.Sorted caps) :
    w.srv.cells.Turns caps w'.srv.cells := by
  cases h with
  | @execute i s res data =>
    rw [show World.srv _ = (w.perform s res data).srv from rfl, w.perform_cells]
    exact hs.draws_refl.turns
  | post => exact hs.draws_refl.turns
  | submit => exact hs.draws_refl.turns
  | turn => exact hs.draws_refl.turns
  | handle _ _ h => exact handleCqe_turns hs h

/-- How many of each kind there are at the beginning. -/
def Supply.initial : Supply → ℕ
  | .ops => 0
  | .bufs k => if k = 64 ∨ k = 2048 then slabInitLen else 0
  | .nodes => 0

/-- What `m` replies and `n` accepts and receives need of each kind. -/
def Supply.load (m n : ℕ) : Supply → ℕ
  | .ops => m + n
  | .bufs k => if k = 64 then m else n
  | .nodes => n

theorem serverInit_sorted {serverFd : ℤ} {junk : Junk} {srv : Server}
    (h : serverInit serverFd junk = .ok srv) :
    ∃ caps, srv.cells.Sorted caps ∧ ∀ p, (srv.cells.stock caps p).made ≤ p.initial := by
  obtain ⟨clients, hmap, h⟩ := bind_ok_iff.mp h
  obtain rfl := Except.ok.inj hmap
  obtain rfl := Except.ok.inj h
  refine ⟨List.replicate 64 64 ++ List.replicate 64 2048, ⟨rfl, by simp [Server.cells, slabInitLen],
    ?_, ?_, by simp [Server.cells, opPoolInit, opPoolInitWithCap]⟩, ?_⟩
  · intro k hk
    simpa using hk
  · intro k b hb
    by_cases h64 : k = 64
    · subst h64
      have hlt : b < 64 := by simpa [Server.cells, slabInit, slabInitCap, slabInitLen] using hb
      rw [List.getElem?_append_left (by simpa using hlt), List.getElem?_replicate, if_pos hlt]
    by_cases h2k : k = 2048
    · subst h2k
      obtain ⟨j, hj, rfl⟩ : ∃ j < 64, 64 + j = b := by
        simpa [Server.cells, slabInit, slabInitCap, slabInitLen] using hb
      rw [List.getElem?_append_right (by simp), List.getElem?_replicate, if_pos (by simpa using hj)]
    · simp [Server.cells, h64, h2k] at hb
  · intro p
    cases p with
    | ops => exact le_rfl
    | nodes => exact le_rfl
    | bufs k =>
      have hcount : ∀ a : ℕ, (List.replicate 64 a).count k = if a = k then 64 else 0 := by
        intro a
        rw [List.count_replicate]
        simp only [beq_iff_eq]
      simp only [Cells.stock, List.count_append, hcount, Supply.initial, slabInitLen]
      split_ifs <;> omega

theorem World.start_draws {serverFd : ℤ} {junk : Junk} (h : World.start serverFd junk = .ok w) :
    ∃ c caps, Cells.Draws c caps w.srv.cells ∧ ∀ p, (c.stock caps p).made ≤ Supply.initial p := by
  obtain ⟨srv, hinit, h⟩ := bind_ok_iff.mp h
  obtain ⟨srv', hacc, h⟩ := bind_ok_iff.mp h
  obtain rfl := Except.ok.inj h
  obtain ⟨caps, hs, hmade⟩ := serverInit_sorted hinit
  have hdraw := addAccept_draws hs hacc
  exact ⟨srv.cells, caps, hdraw, hmade⟩

theorem World.Owned.made_le (h : w.Owned v) (hserv : w.Serving v) (hs : w.srv.cells.Sorted caps)
    {m n : ℕ} (hmn : w.Within m n) {p : Supply} (hp : p = .nodes → w.srv.accepts < 2 ^ 64 - 1) :
    (w.srv.cells.stock caps p).made ≤ p.load m n + (w.srv.cells.stock caps p).free := by
  obtain ⟨hm, hn⟩ := hmn
  cases p with
  | ops =>
    have hle := h.ops_le
    simp only [Cells.stock, Server.cells, List.length_map, Supply.load]
    omega
  | bufs k =>
    have hle := h.bufs_le hs k
    have hload : (w.holders k).length ≤ if k = 64 then m else n := by
      split
      · subst k
        exact hm
      · cases hl : w.holders k with
        | nil => exact Nat.zero_le n
        | cons i l =>
          obtain ⟨x, hx, hk⟩ := h.mem_holders.mp (hl ▸ List.mem_cons_self)
          obtain rfl : 2048 = k := ((h.bufCap hx).resolve_left (by omega)).symm.trans hk
          exact hl ▸ hn
    simp only [Cells.stock, Supply.load]
    omega
  | nodes =>
    have hle := h.nodes_le hserv (hserv.unwrapped h (hp rfl))
    simp only [Cells.stock, Server.cells, Supply.load]
    omega

/-- However long the server runs: if between completions there never were more than `m`
replies and `n` accepts and receives, then it has allocated no more than `m + n + 1`
operations, `m + 1` small and `n + 1` large buffers or the 64 of each it began with, and
`n + 1` nodes. -/
theorem memory_follows_load (m n : ℕ) {w : World} (hr : Run (fun w _ => w.Within m n) w)
    (hw : w.Within m n) :
    w.srv.pool.ops.length ≤ m + n + 1 ∧
      w.buffers 64 ≤ max 64 (m + 1) ∧ w.buffers 2048 ≤ max 64 (n + 1) ∧
      w.srv.heap.length = w.buffers 64 + w.buffers 2048 ∧
      (w.srv.accepts < 2 ^ 64 - 1 → w.srv.clients.nodes.length ≤ n + 1) := by
  have hmade : ∃ caps v, w.Owned v ∧ w.srv.cells.Sorted caps ∧ ∀ p, (p = .nodes → w.srv.accepts < 2 ^ 64 - 1) →
      (w.srv.cells.stock caps p).made ≤ max (Supply.initial p) (p.load m n + 1) := by
    induction hr with
    | start hfd h =>
      obtain ⟨v, hown, hserv⟩ := (Run.start hfd h : Reachable _).serving
      obtain ⟨c, caps, ⟨caps', hs', hdraw⟩, hinit⟩ := World.start_draws h
      refine ⟨caps', v, hown, hs', fun p hp => ?_⟩
      exact (hdraw p).turns.made_le ((hinit p).trans (le_max_left _ _)) (hown.made_le hserv hs' hw hp)
    | @step w w' a hr ha h ih =>
      obtain ⟨v, hown, -⟩ := hr.serving
      obtain ⟨v', hown', hserv'⟩ := (Run.step hr ha h).serving
      obtain ⟨caps, -, -, hs, hle⟩ := ih ha
      obtain ⟨caps', hs', hturn⟩ := (World.steps_of_step h).turns hs
      refine ⟨caps', v', hown', hs', fun p hp => ?_⟩
      have hbefore := hle p fun he => lt_of_le_of_lt (World.accepts_step hown h).1 (hp he)
      exact (hturn p).made_le hbefore (hown'.made_le hserv' hs' hw hp)
  obtain ⟨caps, v, hown, hs, hle⟩ := hmade
  have hbuffers : ∀ k, w.buffers k = caps.count k := fun k => by rw [World.buffers, hown.caps_eq hs]
  have hheap : w.srv.heap.length = caps.count 64 + caps.count 2048 :=
    hs.length.symm.trans hs.length_eq_counts
  have h64 := hle (.bufs 64) (by simp)
  have h2k := hle (.bufs 2048) (by simp)
  rw [hbuffers, hbuffers]
  refine ⟨?_, h64, h2k, hheap, fun hacc => ?_⟩
  · have hops := hle .ops (by simp)
    simpa [Cells.stock, Server.cells, Supply.initial, Supply.load] using hops
  · have hnodes := hle .nodes fun _ => hacc
    simpa [Cells.stock, Server.cells, Supply.initial, Supply.load] using hnodes

/-- Three messages on one connection; two replies have been sent and the third is on its
way. -/
theorem memory_follows_load_three : ∃ w, Run (fun w _ => w.Within 1 2) w ∧
    w.conns.map List.length = [24] ∧ w.srv.pool.ops.length ≤ 4 ∧ w.buffers 64 ≤ 64 ∧ w.buffers 2048 ≤ 64 ∧
    w.srv.clients.nodes.length ≤ 3 := by
  have hrun : (World.runMainWhile (fun w _ => w.Within 1 2) 3 .zero ([.serve .zero] ++
      Action.complete 0 5 [] ++
      Action.complete 0 12 [0, 12, 1, 0, 0, 0, 0, 0, 0, 0, 7, 97] ++ Action.complete 1 12 [] ++
      Action.complete 1 12 [0, 12, 1, 0, 0, 0, 0, 0, 0, 0, 8, 97] ++ Action.complete 1 12 [] ++
      Action.complete 1 12 [0, 12, 1, 0, 0, 0, 0, 0, 0, 0, 9, 97])).map
      (fun w => (decide (w.Within 1 2), w.srv.accepts, w.conns.map List.length)) =
      some (true, 1, [24]) := by
    decide +kernel
  obtain ⟨w, hw, hres⟩ := Option.map_eq_some_iff.mp hrun
  simp only [Prod.mk.injEq, decide_eq_true_eq] at hres
  obtain ⟨hwithin, hacc, hconns⟩ := hres
  have hr := World.runMainWhile_run (by decide) hw
  obtain ⟨hops, h64, h2k, -, hnodes⟩ := memory_follows_load 1 2 hr hwithin
  exact ⟨w, hr, hconns, hops, h64, h2k, hnodes (by omega)⟩

end

end Caht
