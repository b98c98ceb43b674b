import Caht.Library.Stock
import Caht.Server.Model

/-! # What is allocated one by one

Operations, buffers and nodes of the client map are never given back to the system. A new
one is allocated only when none is free, and the handling of a completion gives back at
most one of each.
-/

namespace Caht
open Library Protocol

/-- The memory of a server without its contents: of each operation its buffer and the
capacity recorded for it, of each slab its stack. -/
structure Cells where
  sizes : ℕ × ℕ
  blocks : ℕ
  freeBufs : ℕ → List ℕ
  ops : List (Option ℕ × ℕ)
  freeOps : List ℕ
  nodes : ℕ
  freeNodes : List ℕ

def Server.cells (srv : Server) : Cells where
  sizes := (srv.slab64.bufCap, srv.slab2k.bufCap)
  blocks := srv.heap.length
  freeBufs k := if k = 64 then srv.slab64.bufRefs else if k = 2048 then srv.slab2k.bufRefs else []
  ops := srv.pool.ops.map fun o => (o.bufRef, o.bufCap)
  freeOps := srv.pool.freeOpsIdx
  nodes := srv.clients.nodes.length
  freeNodes := srv.clients.free

/-- What is allocated one by one: operations, buffers of one capacity, and nodes. -/
inductive Supply where
  | ops
  | bufs (k : ℕ)
  | nodes
  deriving DecidableEq

theorem mem_modify {α : Type} {f : α → α} {l : List α} {i : ℕ} {a : α} (h : a ∈ l.modify i f) :
    a ∈ l ∨ ∃ b ∈ l, a = f b := by
  obtain ⟨j, hj⟩ := List.mem_iff_getElem?.mp h
  rw [List.getElem?_modify] at hj
  split at hj
  · obtain ⟨b, hb, rfl⟩ := Option.map_eq_some_iff.mp hj
    exact .inr ⟨b, List.mem_of_getElem? hb, rfl⟩
  · exact .inl (List.mem_of_getElem? (by simpa using hj))

theorem map_modify {α β : Type} {f : α → α} {g : α → β} {h : β → β} (hf : ∀ a, g (f a) = h (g a))
    (l : List α) (i : ℕ) : (l.modify i f).map g = (l.map g).modify i h := by
  apply List.ext_getElem?
  intro j
  simp only [List.getElem?_map, List.getElem?_modify]
  split
  · cases l[j]? with
    | none => rfl
    | some a => exact congrArg some (hf a)
  · simp

namespace Cells
variable {c c' c₁ : Cells} {caps caps₁ : List ℕ}

/-- `caps` are the capacities the blocks were allocated with. -/
def stock (c : Cells) (caps : List ℕ) : Supply → Stock
  | .ops => ⟨c.ops.length, c.freeOps.length⟩
  | .bufs k => ⟨caps.count k, (c.freeBufs k).length⟩
  | .nodes => ⟨c.nodes, c.freeNodes.length⟩

/-- Each buffer is used and given back under the capacity it was allocated with. -/
structure Sorted (c : Cells) (caps : List ℕ) : Prop where
  sizes : c.sizes = (64, 2048)
  length : caps.length = c.blocks
  known : ∀ k ∈ caps, k = 64 ∨ k = 2048
  free : ∀ k, ∀ b ∈ c.freeBufs k, caps[b]? = some k
  held : ∀ x ∈ c.ops, ∀ b ∈ x.1, caps[b]? = some x.2

/-- Operations, buffers and nodes were taken. -/
def Draws (c : Cells) (caps : List ℕ) (c' : Cells) : Prop :=
  ∃ caps', c'.Sorted caps' ∧ ∀ p, (c.stock caps p).Draws (c'.stock caps' p)

/-- At most one operation, buffer and node was given back. -/
def Returns (c : Cells) (caps : List ℕ) (c' : Cells) : Prop :=
  c'.Sorted caps ∧ ∀ p, (c.stock caps p).Returns (c'.stock caps p)

def Turns (c : Cells) (caps : List ℕ) (c' : Cells) : Prop :=
  ∃ caps', c'.Sorted caps' ∧ ∀ p, (c.stock caps p).Turns (c'.stock caps' p)

theorem Sorted.draws_refl (h : c.Sorted caps) : c.Draws caps c :=
  ⟨caps, h, fun p => .refl (c.stock caps p)⟩

theorem Draws.trans (h : c.Draws caps c₁) (h' : ∀ caps₁, c₁.Sorted caps₁ → c₁.Draws caps₁ c') :
    c.Draws caps c' := by
  obtain ⟨caps₁, hs₁, hp₁⟩ := h
  obtain ⟨caps', hs', hp'⟩ := h' caps₁ hs₁
  exact ⟨caps', hs', fun p => (hp₁ p).trans (hp' p)⟩

theorem Draws.turns (h : c.Draws caps c') : c.Turns caps c' := by
  obtain ⟨caps', hs, hp⟩ := h
  exact ⟨caps', hs, fun p => (hp p).turns⟩

theorem Returns.turns (h : c.Returns caps c') : c.Turns caps c' :=
  ⟨caps, h.1, fun p => (h.2 p).turns⟩

theorem Draws.trans_turns (h : c.Draws caps c₁)
    (h' : ∀ caps₁, c₁.Sorted caps₁ → c₁.Turns caps₁ c') : c.Turns caps c' := by
  obtain ⟨caps₁, hs₁, hp₁⟩ := h
  obtain ⟨caps', hs', hp'⟩ := h' caps₁ hs₁
  exact ⟨caps', hs', fun p => (hp₁ p).trans_turns (hp' p)⟩

theorem Sorted.length_eq_counts (h : c.Sorted caps) : caps.length = caps.count 64 + caps.count 2048 := by
  have hknown := h.known
  clear h
  induction caps with
  | nil => rfl
  | cons k caps ih =>
    have hlen := ih fun l hl => hknown l (List.mem_cons_of_mem _ hl)
    rcases hknown k List.mem_cons_self with rfl | rfl <;> simp [hlen] <;> omega

theorem Sorted.takeOp (h : c.Sorted caps) {ops : List (Option ℕ × ℕ)} {free : List ℕ} {k : ℕ}
    (htake : (ops = c.ops ∧ free.length ≤ c.freeOps.length) ∨
      (ops = c.ops ++ [(none, k)] ∧ free = [])) :
    c.Draws caps { c with ops := ops, freeOps := free } := by
  refine ⟨caps, { h with held := ?_ }, fun p => ?_⟩
  · rcases htake with ⟨rfl, -⟩ | ⟨rfl, -⟩
    · exact h.held
    · intro x hx b hb
      rcases List.mem_append.mp hx with hx | hx
      · exact h.held x hx b hb
      · obtain rfl := List.mem_singleton.mp hx
        cases hb
  · cases p with
    | ops =>
      rcases htake with ⟨rfl, hle⟩ | ⟨-, rfl⟩
      · exact .inl ⟨rfl, hle⟩
      · exact .inr rfl
    | bufs => exact .refl _
    | nodes => exact .refl _

theorem Sorted.takeBuf (h : c.Sorted caps) {k b blocks : ℕ} {free : List ℕ} (hk : k = 64 ∨ k = 2048)
    (htake : (c.freeBufs k = free ++ [b] ∧ blocks = c.blocks) ∨
      (c.freeBufs k = [] ∧ free = [] ∧ b = c.blocks ∧ blocks = c.blocks + 1)) (i : ℕ) :
    c.Draws caps { c with
      blocks := blocks
      freeBufs := Function.update c.freeBufs k free
      ops := c.ops.modify i fun _ => (some b, k) } := by
  have hstocks : ∀ caps', (caps' = caps ∨ caps' = caps ++ [k]) →
      (free = [] ∨ caps' = caps ∧ free.length ≤ (c.freeBufs k).length) → ∀ p,
      (c.stock caps p).Draws (stock { c with
        blocks := blocks
        freeBufs := Function.update c.freeBufs k free
        ops := c.ops.modify i fun _ => (some b, k) } caps' p) := by
    intro caps' hcaps hfree p
    cases p with
    | ops => exact .inl ⟨List.length_modify .., le_rfl⟩
    | nodes => exact .refl _
    | bufs l =>
      by_cases hl : l = k
      · subst hl
        simp only [stock, Function.update_self]
        rcases hfree with rfl | ⟨rfl, hle⟩
        · exact .inr rfl
        · exact .inl ⟨rfl, hle⟩
      · simp only [stock, Function.update_of_ne hl]
        refine .inl ⟨?_, le_rfl⟩
        rcases hcaps with rfl | rfl
        · rfl
        · simp [List.count_append, Ne.symm hl]
  rcases htake with ⟨hfree, rfl⟩ | ⟨hfree, rfl, rfl, rfl⟩
  · have hmem : ∀ q ∈ free, q ∈ c.freeBufs k := fun q hq => hfree ▸ List.mem_append_left _ hq
    refine ⟨caps, ⟨h.sizes, h.length, h.known, fun l q hq => ?_, fun x hx q hq => ?_⟩,
      hstocks caps (.inl rfl) (.inr ⟨rfl, by simp [hfree]⟩)⟩
    · by_cases hl : l = k
      · subst hl
        exact h.free l q (hmem q (by simpa using hq))
      · exact h.free l q (by simpa [hl] using hq)
    · rcases mem_modify hx with hx | ⟨-, -, rfl⟩
      · exact h.held x hx q hq
      · obtain rfl := Option.some.inj hq
        exact h.free k _ (hfree ▸ List.mem_append_right _ List.mem_cons_self)
  · have hold : ∀ (q l : ℕ), caps[q]? = some l → (caps ++ [k])[q]? = some l := by
      intro q l hq
      rw [List.getElem?_append_left (List.getElem?_eq_some_iff.mp hq).1, hq]
    refine ⟨caps ++ [k], ⟨h.sizes, by simp [h.length], ?_, fun l q hq => ?_, fun x hx q hq => ?_⟩,
      hstocks _ (.inr rfl) (.inl rfl)⟩
    · intro l hl
      rcases List.mem_append.mp hl with hl | hl
      · exact h.known l hl
      · rwa [List.mem_singleton.mp hl]
    · by_cases hl : l = k
      · simp [hl] at hq
      · exact hold q l (h.free l q (by simpa [hl] using hq))
    · rcases mem_modify hx with hx | ⟨-, -, rfl⟩
      · exact hold q x.2 (h.held x hx q hq)
      · obtain rfl := Option.some.inj hq
        simp [← h.length]

theorem Sorted.takeNode (h : c.Sorted caps) {nodes : ℕ} {free : List ℕ}
    (htake : (nodes = c.nodes ∧ free.length ≤ c.freeNodes.length) ∨ free = []) :
    c.Draws caps { c with nodes := nodes, freeNodes := free } := by
  refine ⟨caps, { h with }, fun p => ?_⟩
  cases p with
  | ops => exact .refl _
  | bufs => exact .refl _
  | nodes =>
    rcases htake with ⟨rfl, hle⟩ | rfl
    · exact .inl ⟨rfl, hle⟩
    · exact .inr rfl

/-- An operation is returned, and its buffer `b` is if that was the last reference. -/
theorem Sorted.giveOp (h : c.Sorted caps) {k b : ℕ} {free : List ℕ} (hb : caps[b]? = some k)
    (hgive : free = c.freeBufs k ∨ free = c.freeBufs k ++ [b]) (i j : ℕ) :
    c.Returns caps { c with
      freeBufs := Function.update c.freeBufs k free
      ops := c.ops.modify i fun x => (none, x.2)
      freeOps := c.freeOps ++ [j] } := by
  refine ⟨⟨h.sizes, h.length, h.known, fun l q hq => ?_, fun x hx q hq => ?_⟩, fun p => ?_⟩
  · by_cases hl : l = k
    · subst hl
      replace hq : q ∈ free := by simpa using hq
      rcases hgive with rfl | rfl
      · exact h.free l q hq
      · rcases List.mem_append.mp hq with hq | hq
        · exact h.free l q hq
        · rwa [List.mem_singleton.mp hq]
    · exact h.free l q (by simpa [hl] using hq)
  · rcases mem_modify hx with hx | ⟨y, -, rfl⟩
    · exact h.held x hx q hq
    · exact absurd hq (by simp)
  · cases p with
    | ops => exact ⟨List.length_modify .., (List.length_append ..).le⟩
    | nodes => exact .refl _
    | bufs l =>
      by_cases hl : l = k
      · subst hl
        refine ⟨rfl, ?_⟩
        simp only [stock, Function.update_self]
        rcases hgive with rfl | rfl
        · exact Nat.le_succ _
        · exact (List.length_append ..).le
      · simp only [stock, Function.update_of_ne hl]
        exact .refl _

end Cells

/-! ## What the functions of the server take and give back -/

section
variable {srv srv' : Server} {caps : List ℕ} {op n : ℕ} {fd : ℤ} {id : UInt64} {junk : Junk}

theorem Server.cells_updateOp (srv : Server) (op : ℕ) {f : Operation → Operation}
    (hf : ∀ o, (f o).bufRef = o.bufRef ∧ (f o).bufCap = o.bufCap) :
    (srv.updateOp op f).cells = srv.cells := by
  have hops : (srv.pool.ops.modify op f).map (fun o => (o.bufRef, o.bufCap)) =
      srv.pool.ops.map fun o => (o.bufRef, o.bufCap) := by
    rw [map_modify (h := id) fun o => Prod.ext (hf o).1 (hf o).2]
    exact List.modify_id _ _
  simp only [Server.cells, Server.updateOp, OpPool.update, hops]

theorem Server.cells_setBuf (srv : Server) (bref : Option ℕ) (buf : List UInt8) :
    (srv.setBuf bref buf).cells = srv.cells := by
  cases bref with
  | none => rfl
  | some b => simp [Server.cells, Server.setBuf]

theorem Server.cells_write (srv : Server) (info : ℕ) (f : ClientInfo → ClientInfo) :
    Server.cells { srv with clients := srv.clients.write info f } = srv.cells := by
  simp [Server.cells, ClientMap.write]

@[simp] theorem Server.cells_log (srv : Server) (e : Event) : (srv.log e).cells = srv.cells := rfl

@[simp] theorem Server.cells_prep (srv : Server) (sqe : Sqe) : (srv.prep sqe).cells = srv.cells := rfl

theorem prep_cells {o : Operation} {g : ℕ → Server} {c : Cells} (hg : ∀ bref, (g bref).cells = c)
    (h : (match o.bufRef with
      | none => .error .undefined
      | some bref => .ok (g bref) : Outcome Server) = .ok srv') : srv'.cells = c := by
  cases hb : o.bufRef with
  | none => simp [hb] at h
  | some bref =>
    simp only [hb] at h
    obtain rfl := Except.ok.inj h
    exact hg bref

theorem addSend_cells {r : Response} (h : addSend srv op fd id r = .ok srv') :
    srv'.cells = srv.cells := by
  obtain ⟨-, -, h⟩ := bind_ok_iff.mp h
  obtain ⟨o, -, h⟩ := bind_ok_iff.mp h
  refine prep_cells (fun bref => ?_) h
  rw [Server.cells_prep, Server.cells_log]
  exact srv.cells_updateOp op fun _ => ⟨rfl, rfl⟩

theorem addRecv_cells (h : addRecv srv op fd = .ok srv') : srv'.cells = srv.cells := by
  obtain ⟨-, -, h⟩ := bind_ok_iff.mp h
  obtain ⟨o, -, h⟩ := bind_ok_iff.mp h
  refine prep_cells (fun bref => ?_) h
  rw [Server.cells_prep]
  exact srv.cells_updateOp op fun _ => ⟨rfl, rfl⟩

theorem resumeSend_cells (h : resumeSend srv op n = .ok srv') : srv'.cells = srv.cells := by
  obtain ⟨-, -, h⟩ := bind_ok_iff.mp h
  obtain ⟨o, -, h⟩ := bind_ok_iff.mp h
  refine prep_cells (fun bref => ?_) h
  rw [Server.cells_prep]
  exact srv.cells_updateOp op fun _ => ⟨rfl, rfl⟩

theorem resumeRecv_cells (h : resumeRecv srv op n = .ok srv') : srv'.cells = srv.cells := by
  obtain ⟨-, -, h⟩ := bind_ok_iff.mp h
  obtain ⟨o, -, h⟩ := bind_ok_iff.mp h
  refine prep_cells (fun bref => ?_) h
  rfl

theorem newEntry_draws (hs : srv.cells.Sorted caps) {pool : OpPool}
    (h : opPoolNewEntry srv.pool junk.op = .ok (pool, op)) :
    srv.cells.Draws caps (Server.cells { srv with pool := pool }) := by
  rw [opPoolNewEntry] at h
  cases hlast : srv.pool.freeOpsIdx.getLast? with
  | some i =>
    simp only [hlast] at h
    cases hi : srv.pool.ops[i]? with
    | none => simp [hi] at h
    | some o =>
      simp only [hi] at h
      split_ifs at h
      obtain ⟨rfl, -⟩ := Prod.mk.inj (Except.ok.inj h)
      exact hs.takeOp (k := 0) (.inl ⟨rfl, by simp [Server.cells]⟩)
  | none =>
    simp only [hlast] at h
    obtain ⟨rfl, -⟩ := Prod.mk.inj (Except.ok.inj h)
    exact hs.takeOp (.inr ⟨by simp [Server.cells]; rfl, List.getLast?_eq_none_iff.mp hlast⟩)

theorem slabAcquire_cases (heap : List BufRef) (s : Slab) (ref : ℕ) (junk : ℕ → ℕ → UInt8) :
    ∃ heap' s' b, slabAcquire heap s ref junk = (heap', s', b) ∧ s'.bufCap = s.bufCap ∧
      ((s.bufRefs = s'.bufRefs ++ [b] ∧ heap'.length = heap.length) ∨
        (s.bufRefs = [] ∧ s'.bufRefs = [] ∧ b = heap.length ∧ heap'.length = heap.length + 1)) := by
  rcases List.eq_nil_or_concat s.bufRefs with hnil | ⟨rest, b, hrest⟩
  · exact ⟨_, s, heap.length, by simp only [slabAcquire, hnil, List.getLast?_nil]; rfl, rfl,
      .inr ⟨hnil, hnil, rfl, by simp [setRef_length]⟩⟩
  · rw [List.concat_eq_append] at hrest
    exact ⟨setRef heap b ref, { s with bufRefs := rest }, b, by simp [slabAcquire, hrest], rfl,
      .inl ⟨hrest, setRef_length ..⟩⟩

theorem acquireSmallBuf_draws (hs : srv.cells.Sorted caps) (op ref : ℕ) (junk : Junk) :
    srv.cells.Draws caps (acquireSmallBuf srv op ref junk).cells := by
  obtain ⟨heap, s, b, hacq, hcap, htake⟩ := slabAcquire_cases srv.heap srv.slab64 ref junk.buf
  have hsize : srv.slab64.bufCap = 64 := congrArg Prod.fst hs.sizes
  have hcells : (acquireSmallBuf srv op ref junk).cells = { srv.cells with
      blocks := heap.length
      freeBufs := Function.update srv.cells.freeBufs 64 s.bufRefs
      ops := srv.cells.ops.modify op fun _ => (some b, 64) } := by
    simp only [acquireSmallBuf, hacq, Server.cells, Server.updateOp, OpPool.update, slabBufCap,
      hcap, hsize]
    congr 1
    · funext k
      by_cases hk : k = 64 <;> simp [hk]
    · refine map_modify (fun o => ?_) _ _
      rfl
  rw [hcells]
  exact hs.takeBuf (.inl rfl) htake op

theorem acquireLargeBuf_draws (hs : srv.cells.Sorted caps) (op ref : ℕ) (junk : Junk) :
    srv.cells.Draws caps (acquireLargeBuf srv op ref junk).cells := by
  obtain ⟨heap, s, b, hacq, hcap, htake⟩ := slabAcquire_cases srv.heap srv.slab2k ref junk.buf
  have hsize : srv.slab2k.bufCap = 2048 := congrArg Prod.snd hs.sizes
  have hcells : (acquireLargeBuf srv op ref junk).cells = { srv.cells with
      blocks := heap.length
      freeBufs := Function.update srv.cells.freeBufs 2048 s.bufRefs
      ops := srv.cells.ops.modify op fun _ => (some b, 2048) } := by
    simp only [acquireLargeBuf, hacq, Server.cells, Server.updateOp, OpPool.update, slabBufCap,
      hcap, hsize]
    congr 1
    · funext k
      by_cases hk : k = 2048 <;> simp [hk]
    · refine map_modify (fun o => ?_) _ _
      rfl
  rw [hcells]
  exact hs.takeBuf (.inr rfl) htake op

theorem sendResponse_draws {r : Response} {ser : ℕ → List UInt8 → Outcome (ℕ × List UInt8)}
    (h : sendResponse srv fd id r ser junk = .ok srv') {c : Cells} (hc : srv.cells = c)
    (hs : c.Sorted caps) : c.Draws caps srv'.cells := by
  subst hc
  obtain ⟨⟨pool, op⟩, hnew, h⟩ := bind_ok_iff.mp h
  obtain ⟨o, -, h⟩ := bind_ok_iff.mp h
  obtain ⟨buf, -, h⟩ := bind_ok_iff.mp h
  obtain ⟨⟨len, buf'⟩, -, h⟩ := bind_ok_iff.mp h
  have hcells : srv'.cells = (acquireSmallBuf { srv with pool := pool } op 1 junk).cells := by
    rw [addSend_cells h]
    refine (Server.cells_updateOp _ _ fun o => ?_).trans (Server.cells_setBuf _ o.bufRef buf')
    exact ⟨rfl, rfl⟩
  rw [hcells]
  exact (newEntry_draws hs hnew).trans fun _ hs₁ => acquireSmallBuf_draws hs₁ op 1 junk

theorem handle_draws (hs : srv.cells.Sorted caps) {info off len : ℕ} {msgt : UInt8} {seqid : UInt64}
    {ret : ℤ} (h : handle srv info op off len msgt seqid junk = .ok (srv', ret)) :
    srv.cells.Draws caps srv'.cells := by
  obtain ⟨o, -, h⟩ := bind_ok_iff.mp h
  obtain ⟨buf, -, h⟩ := bind_ok_iff.mp h
  dsimp only at h
  split_ifs at h
  · obtain ⟨srv₁, hsend, h⟩ := bind_ok_iff.mp h
    obtain ⟨rfl, -⟩ := Prod.mk.inj (Except.ok.inj h)
    exact sendResponse_draws hsend rfl hs
  · obtain ⟨srv₁, hsend, h⟩ := bind_ok_iff.mp h
    obtain ⟨rfl, -⟩ := Prod.mk.inj (Except.ok.inj h)
    exact sendResponse_draws hsend rfl hs
  · obtain ⟨srv₁, hsend, h⟩ := bind_ok_iff.mp h
    obtain ⟨rfl, -⟩ := Prod.mk.inj (Except.ok.inj h)
    exact sendResponse_draws hsend (srv.cells_write info _) hs
  · obtain ⟨rfl, -⟩ := Prod.mk.inj (Except.ok.inj h)
    exact hs.draws_refl

theorem clientMapNewEntry_cases {cm cm' : ClientMap} {node : ClientInfo} {info : Option ℕ}
    (h : clientMapNewEntry cm id node = .ok (cm', info)) :
    (cm'.nodes.length = cm.nodes.length ∧ cm'.free.length ≤ cm.free.length) ∨ cm'.free = [] := by
  obtain ⟨found, -, h⟩ := bind_ok_iff.mp h
  cases found with
  | some p =>
    obtain ⟨rfl, -⟩ := Prod.mk.inj (Except.ok.inj h)
    exact .inl ⟨rfl, le_rfl⟩
  | none =>
    obtain ⟨rfl, -⟩ := Prod.mk.inj (Except.ok.inj h)
    cases hfree : cm.free with
    | nil => exact .inr (by simp)
    | cons p rest => exact .inl (by simp)

theorem newEntry_map_draws {clients : ClientMap} {info : Option ℕ} {node : ClientInfo}
    (h : clientMapNewEntry srv.clients id node = .ok (clients, info)) {c : Cells} (hc : srv.cells = c)
    (hs : c.Sorted caps) (p : ℕ) (f : ClientInfo → ClientInfo) :
    c.Draws caps (Server.cells { srv with clients := clients.write p f }) := by
  subst hc
  have hdraw := hs.takeNode (clientMapNewEntry_cases h)
  rwa [Server.cells_write { srv with clients := clients } p f]

theorem addAccept_draws (hs : srv.cells.Sorted caps) (h : addAccept srv id junk = .ok srv') :
    srv.cells.Draws caps srv'.cells := by
  obtain ⟨-, -, h⟩ := bind_ok_iff.mp h
  obtain ⟨⟨pool, op⟩, hnew, h⟩ := bind_ok_iff.mp h
  obtain ⟨⟨clients, info⟩, hmap, h⟩ := bind_ok_iff.mp h
  cases info with
  | none => cases h
  | some p =>
    obtain ⟨o, -, h⟩ := bind_ok_iff.mp h
    obtain rfl := Except.ok.inj h
    refine (newEntry_draws hs hnew).trans fun _ hs₁ => ?_
    refine (acquireLargeBuf_draws hs₁ op 1 junk).trans fun _ hs₂ => ?_
    exact newEntry_map_draws hmap (Server.cells_updateOp _ op fun _ => ⟨rfl, rfl⟩) hs₂ p _

theorem slabRelease_cases {heap heap' : List BufRef} {s s' : Slab} {b : ℕ}
    (h : slabRelease heap s b = .ok (heap', s')) : heap'.length = heap.length ∧ s'.bufCap = s.bufCap ∧
      (s'.bufRefs = s.bufRefs ∨ s'.bufRefs = s.bufRefs ++ [b]) := by
  rw [slabRelease] at h
  cases hb : heap[b]? with
  | none => simp [hb] at h
  | some r =>
    simp only [hb] at h
    split at h
    · obtain ⟨rfl, rfl⟩ := Prod.mk.inj (Except.ok.inj h)
      exact ⟨setRef_length .., rfl, .inl rfl⟩
    · obtain ⟨rfl, rfl⟩ := Prod.mk.inj (Except.ok.inj h)
      exact ⟨setRef_length .., rfl, .inr rfl⟩

theorem opPoolReturn_cases {pool pool' : OpPool} (h : opPoolReturn pool op = .ok pool') :
    ∃ j, pool'.ops = pool.ops ∧ pool'.freeOpsIdx = pool.freeOpsIdx ++ [j] := by
  rw [opPoolReturn] at h
  cases ho : pool.ops[op]? with
  | none => simp [ho] at h
  | some o =>
    simp only [ho] at h
    split at h
    · cases h
    · obtain rfl := Except.ok.inj h
      exact ⟨o.poolId, rfl, rfl⟩

theorem releaseBuf_cells {k b : ℕ} (hk : k = 64 ∨ k = 2048)
    (h : releaseBuf srv k b = .ok srv') : ∃ free, (free = srv.cells.freeBufs k ∨
      free = srv.cells.freeBufs k ++ [b]) ∧ srv'.pool = srv.pool ∧ srv'.clients = srv.clients ∧
      srv'.cells = { srv.cells with freeBufs := Function.update srv.cells.freeBufs k free } := by
  rcases hk with rfl | rfl
  · obtain ⟨⟨heap, s⟩, hrel, h⟩ := bind_ok_iff.mp h
    obtain rfl := Except.ok.inj h
    obtain ⟨hlen, hcap, hgive⟩ := slabRelease_cases hrel
    refine ⟨s.bufRefs, hgive, rfl, rfl, ?_⟩
    simp only [Server.cells, hlen, hcap]
    congr 1
    funext l
    by_cases hl : l = 64 <;> simp [hl]
  · obtain ⟨⟨heap, s⟩, hrel, h⟩ := bind_ok_iff.mp h
    obtain rfl := Except.ok.inj h
    obtain ⟨hlen, hcap, hgive⟩ := slabRelease_cases hrel
    refine ⟨s.bufRefs, hgive, rfl, rfl, ?_⟩
    simp only [Server.cells, hlen, hcap]
    congr 1
    funext l
    by_cases hl : l = 2048 <;> simp [hl]

theorem return_cells {pool : OpPool} (h : opPoolReturn (srv.updateOp op fun o =>
      { o with clientFd := -1, bufRef := none }).pool op = .ok pool) :
    ∃ j, Server.cells { (srv.updateOp op fun o => { o with clientFd := -1, bufRef := none }) with
        pool := pool } = { srv.cells with
      ops := srv.cells.ops.modify op fun x => (none, x.2)
      freeOps := srv.cells.freeOps ++ [j] } := by
  obtain ⟨j, hops, hfree⟩ := opPoolReturn_cases h
  refine ⟨j, ?_⟩
  simp only [Server.cells, hops, hfree]
  congr 1
  refine map_modify (fun o => ?_) _ _
  rfl

theorem freeOp_returns (hs : srv.cells.Sorted caps) (h : freeOp srv op = .ok srv') :
    srv'.clients = srv.clients ∧ srv.cells.Returns caps srv'.cells := by
  obtain ⟨o, hop, h⟩ := bind_ok_iff.mp h
  cases hb : o.bufRef with
  | none => simp [hb] at h
  | some b =>
    simp only [hb] at h
    obtain ⟨srv₁, hrel, h⟩ := bind_ok_iff.mp h
    obtain ⟨pool, hret, h⟩ := bind_ok_iff.mp h
    obtain rfl := Except.ok.inj h
    have hmem : (some b, o.bufCap) ∈ srv.cells.ops := by
      rw [Server.getOp] at hop
      cases ho : srv.pool.ops[op]? with
      | none => simp [ho] at hop
      | some o' =>
        simp only [ho, Except.ok.injEq] at hop
        subst hop
        exact List.mem_map.mpr ⟨o', List.mem_of_getElem? ho, by rw [hb]⟩
    have hcap : caps[b]? = some o.bufCap := hs.held _ hmem b rfl
    obtain ⟨free, hgive, hpool, hclients, hcells⟩ :=
      releaseBuf_cells (hs.known _ (List.mem_of_getElem? hcap)) hrel
    obtain ⟨j, hret⟩ := return_cells hret
    refine ⟨hclients, ?_⟩
    rw [hret, hcells]
    exact hs.giveOp hcap hgive op j

theorem clientMapDelete_cases {cm cm' : ClientMap} {found : Bool}
    (h : clientMapDelete cm id = .ok (cm', found)) :
    cm'.nodes.length = cm.nodes.length ∧ cm'.free.length ≤ cm.free.length + 1 := by
  have hadd : ∀ (cm : ClientMap) p, (clientMapAddFree cm p).nodes.length = cm.nodes.length ∧
      (clientMapAddFree cm p).free.length = cm.free.length + 1 := by
    intro cm p
    simp [clientMapAddFree]
  unfold clientMapDelete at h
  split at h
  · cases h
  split at h
  · cases h
  split at h
  · obtain ⟨rfl, -⟩ := Prod.mk.inj (Except.ok.inj h)
    exact ⟨(hadd _ _).1, (hadd _ _).2.le⟩
  obtain ⟨place, -, h⟩ := bind_ok_iff.mp h
  split at h
  · obtain ⟨rfl, -⟩ := Prod.mk.inj (Except.ok.inj h)
    exact ⟨rfl, Nat.le_succ _⟩
  split at h
  · cases h
  · obtain ⟨rfl, -⟩ := Prod.mk.inj (Except.ok.inj h)
    exact ⟨(hadd _ _).1.trans (List.length_modify ..), (hadd _ _).2.le⟩

theorem mustClose_cells (h : mustClose srv fd = .ok srv') :
    srv'.cells = srv.cells ∧ srv'.clients = srv.clients := by
  unfold mustClose at h
  split at h
  · cases h
  · obtain rfl := Except.ok.inj h
    exact ⟨rfl, rfl⟩

theorem disconnectAndFreeOp_turns (hs : srv.cells.Sorted caps) {info : Option ℕ}
    (h : disconnectAndFreeOp srv info op = .ok srv') : srv.cells.Turns caps srv'.cells := by
  cases info with
  | none => exact (freeOp_returns hs h).2.turns
  | some p =>
    obtain ⟨o, -, h⟩ := bind_ok_iff.mp h
    obtain ⟨srv₁, hclose, h⟩ := bind_ok_iff.mp h
    obtain ⟨⟨clients, found⟩, hdel, h⟩ := bind_ok_iff.mp h
    obtain ⟨hcells, hmap⟩ := mustClose_cells hclose
    rw [hmap] at hdel
    obtain ⟨hnodes, hfree⟩ := clientMapDelete_cases hdel
    have hcells' : (Server.log { srv₁ with clients := clients } (.closed o.clientId o.clientFd)).cells =
        { srv.cells with nodes := clients.nodes.length, freeNodes := clients.free } := by
      rw [← hcells]
      rfl
    have hs₁ : (Server.log { srv₁ with clients := clients }
        (.closed o.clientId o.clientFd)).cells.Sorted caps := by
      rw [hcells']
      exact { hs with }
    obtain ⟨hclients, hs', hret⟩ := freeOp_returns hs₁ h
    rw [hcells'] at hret
    refine Cells.Returns.turns ⟨hs', fun p => ?_⟩
    cases p with
    | ops => exact hret .ops
    | bufs k => exact hret (.bufs k)
    | nodes =>
      simp only [Cells.stock, Server.cells, hclients]
      exact ⟨hnodes, hfree⟩

/-- Whatever the messages are, replies are all that is taken, and one operation is
given back at most. -/
theorem recvLoop_cells_turns {info fuel off rest : ℕ} (hs : srv.cells.Sorted caps)
    (h : recvLoop info op junk fuel srv off rest = .ok srv') : srv.cells.Turns caps srv'.cells := by
  induction fuel generalizing srv caps off rest with
  | zero => cases h
  | succ fuel ih =>
    rw [recvLoop] at h
    split at h
    · rw [resumeRecv_cells h]
      exact hs.draws_refl.turns
    · obtain ⟨o, -, h⟩ := bind_ok_iff.mp h
      obtain ⟨buf, -, h⟩ := bind_ok_iff.mp h
      dsimp only at h
      split at h
      · exact disconnectAndFreeOp_turns hs h
      split at h
      · -- a part of a message, at the front of the buffer already or moved there
        rw [resumeRecv_cells h]
        split
        · rw [Server.cells_setBuf]
          exact hs.draws_refl.turns
        · exact hs.draws_refl.turns
      · obtain ⟨⟨srv₁, ret⟩, hhandle, h⟩ := bind_ok_iff.mp h
        dsimp only at h
        split at h
        · exact (handle_draws hs hhandle).trans_turns fun _ hs₁ => disconnectAndFreeOp_turns hs₁ h
        · exact (handle_draws hs hhandle).trans_turns fun _ hs₁ => ih hs₁ h

theorem handleAccept_draws (hs : srv.cells.Sorted caps) {info : ℕ}
    (h : handleAccept srv fd info op junk = .ok srv') : srv.cells.Draws caps srv'.cells := by
  obtain ⟨srv₁, hrecv, h⟩ := bind_ok_iff.mp h
  obtain ⟨srv₂, hacc, h⟩ := bind_ok_iff.mp h
  obtain rfl := Except.ok.inj h
  have hcells : srv₁.cells = srv.cells := (addRecv_cells hrecv).trans (srv.cells_write info _)
  have hdraw := addAccept_draws (hcells ▸ hs) hacc
  rw [hcells] at hdraw
  exact hdraw

theorem handleRecv_turns {info : ℕ} (hs : srv.cells.Sorted caps)
    (h : handleRecv srv info op n junk = .ok srv') : srv.cells.Turns caps srv'.cells := by
  rw [handleRecv] at h
  split at h
  · exact disconnectAndFreeOp_turns hs h
  · exact recvLoop_cells_turns hs h

theorem handleSend_turns (hs : srv.cells.Sorted caps) (h : handleSend srv op n = .ok srv') :
    srv.cells.Turns caps srv'.cells := by
  obtain ⟨o, -, h⟩ := bind_ok_iff.mp h
  split at h
  · rw [resumeSend_cells h]
    exact hs.draws_refl.turns
  · exact (freeOp_returns hs h).2.turns

theorem handleCqe_turns (hs : srv.cells.Sorted caps) {cqe : Cqe}
    (h : handleCqe srv cqe junk = .ok srv') : srv.cells.Turns caps srv'.cells := by
  obtain ⟨op, -, h⟩ := bind_ok_iff.mp h
  obtain ⟨o, -, h⟩ := bind_ok_iff.mp h
  obtain ⟨info, -, h⟩ := bind_ok_iff.mp h
  rw [← srv.cells_log (.completed o.clientId o.type cqe.res cqe.data)] at hs ⊢
  generalize srv.log (.completed o.clientId o.type cqe.res cqe.data) = srv₁ at hs h ⊢
  unfold dispatch at h
  split at h
  · exact disconnectAndFreeOp_turns hs h
  cases info with
  | none => exact (freeOp_returns hs h).2.turns
  | some info =>
    cases hty : o.type with
    | accept =>
      rw [hty] at h
      exact (handleAccept_draws hs h).turns
    | read =>
      rw [hty] at h
      exact handleRecv_turns hs h
    | write =>
      rw [hty] at h
      exact handleSend_turns hs h

end

end Caht
