import Caht.Server.Model
import Caht.ClientMap.Refinement
import Caht.Protocol.RoundTrip

/-! # What the server's memory stands for

A `View` forgets how the pool, the slabs and the client map are laid out: an
operation in use comes with the bytes of the buffer it alone holds, and clients
are a partial map. `Models` relates a server to its view; it is the ownership
discipline of the program, and each step of `server.c` keeps it.
-/

namespace Caht
open Library Protocol

/-- An operation in use, with the buffer it holds. -/
structure Held where
  type : OpType
  clientId : UInt64
  clientFd : ℤ
  bufCap : ℕ
  bufLen : ℕ
  processed : ℕ
  bref : ℕ
  buf : List UInt8

def Held.operation (h : Held) (poolId : ℕ) : Operation :=
  ⟨poolId, h.type, h.clientId, h.clientFd, h.bufCap, h.bufLen, some h.bref, h.processed⟩

/-- The entry of a client in the map. -/
structure Client where
  node : ℕ
  fd : ℤ
  addr : SockaddrIn
  addrLen : ℕ
  username : List UInt8

/-- The node `p`, as an entry. -/
def ClientInfo.client (n : ClientInfo) (p : ℕ) : Client :=
  ⟨p, n.clientFd, n.clientAddr, n.clientAddrLen, n.username⟩

/-- The entry after `memcpy(info->username, ..)` and the terminating zero. -/
def Client.rename (c : Client) (name : List UInt8) : Client :=
  { c with username := writeAt (writeAt c.username 0 name) name.length [0] }

structure View where
  entries : ℕ
  serverFd : ℤ
  ops : ℕ → Option Held
  clients : UInt64 → Option Client
  sq : List Sqe
  fds : ℤ → Option File
  nextClientId : UInt64
  trace : List Event

namespace View

def log (v : View) (e : Event) : View := { v with trace := v.trace ++ [e] }

def prep (v : View) (sqe : Sqe) : View := { v with sq := v.sq ++ [sqe] }

def setOp (v : View) (i : ℕ) (h : Option Held) : View := { v with ops := Function.update v.ops i h }

def setClient (v : View) (id : UInt64) (c : Option Client) : View :=
  { v with clients := Function.update v.clients id c }

def close (v : View) (fd : ℤ) : View := { v with fds := Function.update v.fds fd none }

theorem setOp_self (v : View) (i : ℕ) (h : Option Held) : (v.setOp i h).ops i = h := by
  simp [setOp]

theorem setOp_setOp (v : View) (i : ℕ) (h h' : Option Held) :
    (v.setOp i h).setOp i h' = v.setOp i h' := by
  simp [setOp]

theorem setClient_self (v : View) (id : UInt64) (c : Option Client) :
    (v.setClient id c).clients id = c := by
  simp [setClient]

theorem setClient_setClient (v : View) (id : UInt64) (c c' : Option Client) :
    (v.setClient id c).setClient id c' = v.setClient id c' := by
  simp [setClient]

end View

def ClientMap.clientAt (cm : ClientMap) (p : ℕ) : Option Client :=
  (cm.nodes[p]?).map fun n => n.client p

/-- Every buffer is on the stack of the slab of its size or held by one operation. -/
structure Buffers (heap : List BufRef) (s t : Slab) (ops : ℕ → Option Held) : Prop where
  wf : s.Wf heap
  wf' : t.Wf heap
  caps : s.bufCap ≠ t.bufCap
  block : ∀ i h, ops i = some h → heap[h.bref]? = some ⟨1, h.buf⟩
  length : ∀ i h, ops i = some h → h.buf.length = h.bufCap
  bufCap : ∀ i h, ops i = some h → h.bufCap = s.bufCap ∨ h.bufCap = t.bufCap
  inj : ∀ i j h h', ops i = some h → ops j = some h' → h.bref = h'.bref → i = j
  off : ∀ i h, ops i = some h → h.bref ∉ s.bufRefs ∧ h.bref ∉ t.bufRefs
  cover : ∀ b < heap.length, b ∈ s.bufRefs ∨ b ∈ t.bufRefs ∨ ∃ i h, ops i = some h ∧ h.bref = b

/-- The operation `x` of entry `i` is on the free list, and its buffer on the stack of
the slab of its capacity. -/
structure Server.Returned (srv : Server) (i : ℕ) (x : Held) : Prop where
  op : i ∈ srv.pool.freeOpsIdx
  buf : x.bufCap = 64 ∧ x.bref ∈ srv.slab64.bufRefs ∨ x.bufCap = 2048 ∧ x.bref ∈ srv.slab2k.bufRefs

structure Server.Models (srv : Server) (v : View) : Prop where
  entries : v.entries = srv.ring.entries
  serverFd : v.serverFd = srv.serverFd
  sq : v.sq = srv.ring.sq
  fds : v.fds = srv.fds
  nextClientId : v.nextClientId = srv.nextClientId
  trace : v.trace = srv.trace
  pool : srv.pool.Wf fun i => v.ops i ≠ none
  op : ∀ i h, v.ops i = some h → srv.pool.ops[i]? = some (h.operation i)
  bufs : Buffers srv.heap srv.slab64 srv.slab2k v.ops
  cap64 : srv.slab64.bufCap = 64
  cap2k : srv.slab2k.bufCap = 2048
  clients : ∃ m, srv.clients.Represents m ∧
    ∀ id, v.clients id = (m id).bind srv.clients.clientAt

theorem update_eq_some_iff {α β : Type} [DecidableEq α] {f : α → Option β} {a b : α} {o : Option β}
    {y : β} : Function.update f a o b = some y ↔ (b = a ∧ o = some y) ∨ (b ≠ a ∧ f b = some y) := by
  by_cases h : b = a
  · subst h
    simp
  · simp [h]

/-! ## Buffers -/

section
variable {heap : List BufRef} {s t : Slab} {ops : ℕ → Option Held}

theorem Buffers.symm (h : Buffers heap s t ops) : Buffers heap t s ops :=
  ⟨h.wf', h.wf, h.caps.symm, h.block, h.length, fun i x hx => (h.bufCap i x hx).symm, h.inj,
    fun i x hx => (h.off i x hx).symm, fun b hb => or_left_comm.mp (h.cover b hb)⟩

/-- A block on one stack is not on the other, whose blocks have another size. -/
theorem Buffers.apart (h : Buffers heap s t ops) {b : ℕ} (hb : b ∈ s.bufRefs) : b ∉ t.bufRefs := by
  intro hb'
  obtain ⟨r, hr, hl⟩ := h.wf.sized b hb
  obtain ⟨r', hr', hl'⟩ := h.wf'.sized b hb'
  obtain rfl := Option.some.inj (hr.symm.trans hr')
  exact h.caps (hl.symm.trans hl')

theorem Buffers.lt (h : Buffers heap s t ops) {i : ℕ} {x : Held} (hx : ops i = some x) :
    x.bref < heap.length := (List.getElem?_eq_some_iff.mp (h.block i x hx)).1

theorem Slab.Wf.lt (h : s.Wf heap) {b : ℕ} (hb : b ∈ s.bufRefs) : b < heap.length := by
  obtain ⟨r, hr, -⟩ := h.sized b hb
  exact (List.getElem?_eq_some_iff.mp hr).1

theorem Buffers.acquire (h : Buffers heap s t ops) {heap' : List BufRef} {s' : Slab} {b : ℕ}
    {buf : List UInt8} (ha : s.Acquired heap 1 heap' s' b buf) {i : ℕ} (hi : ops i = none) {x : Held}
    (hb : x.bref = b) (hbuf : x.buf = buf) (hcap : x.bufCap = s.bufCap) :
    Buffers heap' s' t (Function.update ops i (some x)) := by
  have hold : ∀ j y, ops j = some y → y.bref ≠ b := by
    intro j y hy he
    rcases ha.source with hs | hs
    · exact (h.off j y hy).1 (he ▸ hs)
    · exact lt_irrefl _ (hs ▸ he ▸ h.lt hy)
  have hbt : b ∉ t.bufRefs := by
    rcases ha.source with hs | hs
    · exact h.apart hs
    · exact fun hm => lt_irrefl _ (hs ▸ h.wf'.lt hm)
  refine ⟨ha.wf, h.wf'.congr ha.same (List.Sublist.refl _) hbt rfl rfl, ha.bufCap ▸ h.caps,
    ?_, ?_, ?_, ?_, ?_, ?_⟩
  · intro j y hy
    rcases update_eq_some_iff.mp hy with ⟨-, ⟨⟩⟩ | ⟨-, hy⟩
    · rw [hb, hbuf]
      exact ha.block
    · rw [ha.same _ (h.lt hy) (hold j y hy)]
      exact h.block j y hy
  · intro j y hy
    rcases update_eq_some_iff.mp hy with ⟨-, ⟨⟩⟩ | ⟨-, hy⟩
    · rw [hbuf, hcap]
      exact ha.length
    · exact h.length j y hy
  · intro j y hy
    rw [ha.bufCap]
    rcases update_eq_some_iff.mp hy with ⟨-, ⟨⟩⟩ | ⟨-, hy⟩
    · exact .inl hcap
    · exact h.bufCap j y hy
  · intro j k y z hy hz he
    rcases update_eq_some_iff.mp hy with ⟨rfl, ⟨⟩⟩ | ⟨hj, hy'⟩ <;>
      rcases update_eq_some_iff.mp hz with ⟨rfl, ⟨⟩⟩ | ⟨hk, hz'⟩
    · rfl
    · exact absurd (he.symm.trans hb) (hold k z hz')
    · exact absurd (he.trans hb) (hold j y hy')
    · exact h.inj j k y z hy' hz' he
  · intro j y hy
    rcases update_eq_some_iff.mp hy with ⟨-, ⟨⟩⟩ | ⟨-, hy⟩
    · exact ⟨hb ▸ ha.off, hb ▸ hbt⟩
    · exact ⟨fun hm => (h.off j y hy).1 (ha.sub _ hm), (h.off j y hy).2⟩
  · intro q hq
    by_cases hqb : q = b
    · exact .inr (.inr ⟨i, x, by simp, hb.trans hqb.symm⟩)
    rcases h.cover q ((ha.grown q hq).resolve_left hqb) with hs | ht | ⟨j, y, hy, hyq⟩
    · exact .inl ((ha.keep q hs).resolve_left hqb)
    · exact .inr (.inl ht)
    · have hji : j ≠ i := fun he => by simp [he, hi] at hy
      exact .inr (.inr ⟨j, y, by simp [hji, hy], hyq⟩)

theorem Buffers.release (h : Buffers heap s t ops) {i : ℕ} {x : Held} (hx : ops i = some x)
    (hcap : x.bufCap = s.bufCap) :
    ∃ heap' s', slabRelease heap s x.bref = .ok (heap', s') ∧ s'.bufCap = s.bufCap ∧
      Buffers heap' s' t (Function.update ops i none) ∧ x.bref ∈ s'.bufRefs := by
  obtain ⟨heap', s', hrel, hwf, hsc, hrefs, hsame, hlen⟩ :=
    h.wf.release (h.block i x hx) ((h.length i x hx).trans hcap) (h.off i x hx).1
  have hcase : ∀ j y, Function.update ops i none j = some y → j ≠ i ∧ ops j = some y := by
    intro j y hy
    simpa using update_eq_some_iff.mp hy
  have hother : ∀ j y, j ≠ i → ops j = some y → y.bref ≠ x.bref := fun j y hj hy he =>
    hj (h.inj j i y x hy hx he)
  refine ⟨heap', s', hrel, hsc, ⟨hwf, ?_, hsc ▸ h.caps, ?_, ?_, ?_, ?_, ?_, ?_⟩, by simp [hrefs]⟩
  · exact h.wf'.congr hsame (List.Sublist.refl _) (h.off i x hx).2 rfl rfl
  · intro j y hy
    obtain ⟨hj, hy⟩ := hcase j y hy
    rw [hsame _ (h.lt hy) (hother j y hj hy)]
    exact h.block j y hy
  · intro j y hy
    exact h.length j y (hcase j y hy).2
  · intro j y hy
    rw [hsc]
    exact h.bufCap j y (hcase j y hy).2
  · intro j k y z hy hz
    exact h.inj j k y z (hcase j y hy).2 (hcase k z hz).2
  · intro j y hy
    obtain ⟨hj, hy⟩ := hcase j y hy
    rw [hrefs, List.mem_append, List.mem_singleton]
    exact ⟨not_or.mpr ⟨(h.off j y hy).1, hother j y hj hy⟩, (h.off j y hy).2⟩
  · intro q hq
    rw [hrefs, List.mem_append, List.mem_singleton]
    rcases h.cover q (hlen ▸ hq) with hs | ht | ⟨j, y, hy, rfl⟩
    · exact .inl (.inl hs)
    · exact .inr (.inl ht)
    · by_cases hj : j = i
      · subst hj
        obtain rfl := Option.some.inj (hx.symm.trans hy)
        exact .inl (.inr rfl)
      · exact .inr (.inr ⟨j, y, by simp [hj, hy], rfl⟩)

theorem Buffers.modify (h : Buffers heap s t ops) {i : ℕ} {x y : Held} (hx : ops i = some x)
    (hb : y.bref = x.bref) (hcap : y.bufCap = x.bufCap) (hlen : y.buf.length = y.bufCap) :
    Buffers (heap.modify x.bref fun r => { r with buf := y.buf }) s t
      (Function.update ops i (some y)) := by
  have hsame : SameBut heap (heap.modify x.bref fun r => { r with buf := y.buf }) x.bref := by
    intro q _ hne
    simp [Ne.symm hne]
  refine ⟨h.wf.congr hsame (List.Sublist.refl _) (h.off i x hx).1 rfl rfl,
    h.wf'.congr hsame (List.Sublist.refl _) (h.off i x hx).2 rfl rfl, h.caps, ?_, ?_, ?_, ?_, ?_, ?_⟩
  · intro j z hz
    rcases update_eq_some_iff.mp hz with ⟨-, ⟨⟩⟩ | ⟨hj, hz⟩
    · simp [hb, h.block i x hx]
    · rw [hsame _ (h.lt hz) (fun he => hj (h.inj j i z x hz hx he))]
      exact h.block j z hz
  · intro j z hz
    rcases update_eq_some_iff.mp hz with ⟨-, ⟨⟩⟩ | ⟨-, hz⟩
    · exact hlen
    · exact h.length j z hz
  · intro j z hz
    rcases update_eq_some_iff.mp hz with ⟨-, ⟨⟩⟩ | ⟨-, hz⟩
    · rw [hcap]
      exact h.bufCap i x hx
    · exact h.bufCap j z hz
  · intro j k z w hz hw he
    rcases update_eq_some_iff.mp hz with ⟨rfl, ⟨⟩⟩ | ⟨hj, hz'⟩ <;>
      rcases update_eq_some_iff.mp hw with ⟨rfl, ⟨⟩⟩ | ⟨hk, hw'⟩
    · rfl
    · exact h.inj j k x w hx hw' (hb.symm.trans he)
    · exact h.inj j k z x hz' hx (he.trans hb)
    · exact h.inj j k z w hz' hw' he
  · intro j z hz
    rcases update_eq_some_iff.mp hz with ⟨-, ⟨⟩⟩ | ⟨-, hz⟩
    · rw [hb]
      exact h.off i x hx
    · exact h.off j z hz
  · intro q hq
    rw [List.length_modify] at hq
    rcases h.cover q hq with hs | ht | ⟨j, z, hz, rfl⟩
    · exact .inl hs
    · exact .inr (.inl ht)
    · by_cases hj : j = i
      · subst hj
        obtain rfl := Option.some.inj (hx.symm.trans hz)
        exact .inr (.inr ⟨j, y, by simp, hb⟩)
      · exact .inr (.inr ⟨j, z, by simp [hj, hz], rfl⟩)

end

/-! ## The steps of the program, on the view -/

namespace Server.Models
variable {srv : Server} {v : View} {i : ℕ} {x : Held}

theorem getOp (h : srv.Models v) (hi : v.ops i = some x) : srv.getOp i = .ok (x.operation i) := by
  rw [Server.getOp, h.op i x hi]

theorem getBuf (h : srv.Models v) (hi : v.ops i = some x) :
    srv.getBuf (some x.bref) = .ok x.buf := by
  simp [Server.getBuf, h.bufs.block i x hi]

theorem log (h : srv.Models v) (e : Event) : (srv.log e).Models (v.log e) where
  __ := h
  trace := congrArg (· ++ [e]) h.trace

theorem prep (h : srv.Models v) (sqe : Sqe) : (srv.prep sqe).Models (v.prep sqe) where
  __ := h
  sq := congrArg (· ++ [sqe]) h.sq

theorem updateOp (h : srv.Models v) (hi : v.ops i = some x) {f : Operation → Operation}
    (hid : ∀ o, (f o).poolId = o.poolId) {y : Held} (hf : f (x.operation i) = y.operation i)
    (hb : y.bref = x.bref) (hcap : y.bufCap = x.bufCap) (hbuf : y.buf = x.buf) :
    (srv.updateOp i f).Models (v.setOp i (some y)) where
  __ := h
  pool := by
    refine (h.pool.update (by simp [hi]) hid).congr fun j => ?_
    by_cases hj : j = i
    · simp [View.setOp, hj, hi]
    · simp [View.setOp, hj]
  op := by
    intro j z hz
    rw [Server.updateOp, OpPool.update_getElem?]
    rcases update_eq_some_iff.mp hz with ⟨rfl, ⟨⟩⟩ | ⟨hj, hz⟩
    · rw [if_pos rfl, h.op j x hi, Option.map_some, hf]
    · rw [if_neg hj, h.op j z hz]
  bufs := by
    have hm := h.bufs.modify hi hb hcap (by rw [hbuf, h.bufs.length i x hi, hcap])
    have hsame : srv.heap.modify x.bref (fun r => { r with buf := y.buf }) = srv.heap := by
      apply List.ext_getElem?
      intro q
      by_cases hq : q = x.bref
      · subst hq
        simp [h.bufs.block i x hi, hbuf]
      · simp [Ne.symm hq]
    rwa [hsame] at hm

theorem setBuf (h : srv.Models v) (hi : v.ops i = some x) {buf : List UInt8}
    (hlen : buf.length = x.bufCap) :
    (srv.setBuf (some x.bref) buf).Models (v.setOp i (some { x with buf := buf })) where
  __ := h
  pool := h.pool.congr fun j => by
    by_cases hj : j = i
    · simp [View.setOp, hj, hi]
    · simp [View.setOp, hj]
  op := by
    intro j z hz
    rcases update_eq_some_iff.mp hz with ⟨rfl, ⟨⟩⟩ | ⟨hj, hz⟩
    · exact h.op j x hi
    · exact h.op j z hz
  bufs := h.bufs.modify (y := { x with buf := buf }) hi rfl rfl hlen

/-- What an operation of the pool is once it has a buffer. -/
private theorem entered_models (h : srv.Models v) {pool' : OpPool} {heap' : List BufRef}
    {s64 s2k : Slab} {y : Held} {f : Operation → Operation}
    (he : srv.pool.Entered (fun j => v.ops j ≠ none) pool' i) (hid : ∀ o, (f o).poolId = o.poolId)
    (hf : ∀ o, pool'.ops[i]? = some o → f o = y.operation i)
    (hbufs : Buffers heap' s64 s2k (Function.update v.ops i (some y)))
    (h64 : s64.bufCap = 64) (h2k : s2k.bufCap = 2048) :
    ({ srv with pool := pool', heap := heap', slab64 := s64, slab2k := s2k }.updateOp i f).Models
      (v.setOp i (some y)) where
  __ := h
  pool := by
    refine (he.wf.update (.inl rfl) hid).congr fun j => ?_
    by_cases hj : j = i
    · simp [View.setOp, hj]
    · simp [View.setOp, hj]
  op := by
    intro j z hz
    rw [Server.updateOp, OpPool.update_getElem?]
    rcases update_eq_some_iff.mp hz with ⟨rfl, ⟨⟩⟩ | ⟨hj, hz⟩
    · obtain ⟨o, ho, -⟩ := he.entry
      rw [if_pos rfl, ho, Option.map_some, hf o ho]
    · rw [if_neg hj]
      simp only
      rw [he.same j (by simp [hz]), h.op j z hz]
  bufs := hbufs
  cap64 := h64
  cap2k := h2k

theorem newSmall (h : srv.Models v) (junk : Junk) :
    ∃ pool' i y, opPoolNewEntry srv.pool junk.op = .ok (pool', i) ∧ v.ops i = none ∧
      y.bufCap = 64 ∧ (acquireSmallBuf { srv with pool := pool' } i 1 junk).Models
        (v.setOp i (some y)) := by
  obtain ⟨pool', i, hnew, he⟩ := h.pool.newEntry junk.op
  obtain ⟨heap', s', b, buf, hacq, ha⟩ := h.bufs.wf.acquire 1 junk.buf
  obtain ⟨o, ho, hid, -, -⟩ := he.entry
  have hi : v.ops i = none := by simpa using he.unused
  have hcap : s'.bufCap = 64 := ha.bufCap.trans h.cap64
  refine ⟨pool', i, ⟨o.type, o.clientId, o.clientFd, 64, o.bufLen, o.processed, b, buf⟩, hnew, hi,
    rfl, ?_⟩
  have hm := h.entered_models (f := fun o => { o with bufRef := some b, bufCap := slabBufCap s' })
    (y := ⟨o.type, o.clientId, o.clientFd, 64, o.bufLen, o.processed, b, buf⟩) he (fun _ => rfl)
    (fun o' ho' => ?_) (h.bufs.acquire ha hi rfl rfl h.cap64.symm) hcap h.cap2k
  · simpa only [acquireSmallBuf, hacq] using hm
  · obtain rfl := Option.some.inj (ho.symm.trans ho')
    simp [Held.operation, slabBufCap, hcap, hid]

theorem newLarge (h : srv.Models v) (junk : Junk) :
    ∃ pool' i y, opPoolNewEntry srv.pool junk.op = .ok (pool', i) ∧ v.ops i = none ∧
      y.bufCap = 2048 ∧ (acquireLargeBuf { srv with pool := pool' } i 1 junk).Models
        (v.setOp i (some y)) := by
  obtain ⟨pool', i, hnew, he⟩ := h.pool.newEntry junk.op
  obtain ⟨heap', s', b, buf, hacq, ha⟩ := h.bufs.wf'.acquire 1 junk.buf
  obtain ⟨o, ho, hid, -, -⟩ := he.entry
  have hi : v.ops i = none := by simpa using he.unused
  have hcap : s'.bufCap = 2048 := ha.bufCap.trans h.cap2k
  refine ⟨pool', i, ⟨o.type, o.clientId, o.clientFd, 2048, o.bufLen, o.processed, b, buf⟩, hnew, hi,
    rfl, ?_⟩
  have hm := h.entered_models (f := fun o => { o with bufRef := some b, bufCap := slabBufCap s' })
    (y := ⟨o.type, o.clientId, o.clientFd, 2048, o.bufLen, o.processed, b, buf⟩) he (fun _ => rfl)
    (fun o' ho' => ?_) (h.bufs.symm.acquire ha hi rfl rfl h.cap2k.symm).symm h.cap64 hcap
  · simpa only [acquireLargeBuf, hacq] using hm
  · obtain rfl := Option.some.inj (ho.symm.trans ho')
    simp [Held.operation, slabBufCap, hcap, hid]

private theorem releaseBuf (h : srv.Models v) (hi : v.ops i = some x) :
    ∃ heap' s64 s2k, Caht.releaseBuf srv x.bufCap x.bref =
        .ok { srv with heap := heap', slab64 := s64, slab2k := s2k } ∧
      Buffers heap' s64 s2k (Function.update v.ops i none) ∧ s64.bufCap = 64 ∧
      s2k.bufCap = 2048 ∧
      (x.bufCap = 64 ∧ x.bref ∈ s64.bufRefs ∨ x.bufCap = 2048 ∧ x.bref ∈ s2k.bufRefs) := by
  rcases h.bufs.bufCap i x hi with hcap | hcap
  · obtain ⟨heap', s', hrel, hs', hb, hmem⟩ := h.bufs.release hi hcap
    refine ⟨heap', s', srv.slab2k, ?_, hb, hs'.trans h.cap64, h.cap2k, .inl ⟨hcap.trans h.cap64, hmem⟩⟩
    rw [Caht.releaseBuf, hcap, h.cap64, if_neg (by norm_num), hrel]
    rfl
  · obtain ⟨heap', s', hrel, hs', hb, hmem⟩ := h.bufs.symm.release hi hcap
    refine ⟨heap', srv.slab64, s', ?_, hb.symm, h.cap64, hs'.trans h.cap2k,
      .inr ⟨hcap.trans h.cap2k, hmem⟩⟩
    rw [Caht.releaseBuf, hcap, h.cap2k, if_pos (by norm_num), hrel]
    rfl

theorem freeOp (h : srv.Models v) (hi : v.ops i = some x) :
    ∃ srv', Caht.freeOp srv i = .ok srv' ∧ srv'.Models (v.setOp i none) ∧ srv'.Returned i x := by
  obtain ⟨heap', s64, s2k, hrel, hb, h64, h2k, hmem⟩ := h.releaseBuf hi
  have hused : v.ops i ≠ none := by simp [hi]
  have hupd := h.pool.update (f := fun o => { o with clientFd := -1, bufRef := none }) hused
    fun _ => rfl
  have hop : (srv.pool.update i fun o => { o with clientFd := -1, bufRef := none }).ops[i]? =
      some { x.operation i with clientFd := -1, bufRef := none } := by
    rw [OpPool.update_getElem?, if_pos rfl, h.op i x hi, Option.map_some]
  obtain ⟨pool', hret, hwf, hops⟩ := hupd.return hused hop rfl rfl
  refine ⟨{ srv with heap := heap', slab64 := s64, slab2k := s2k, pool := pool' }, ?_, ?_, ?_⟩
  · have hop' : srv.getOp i = .ok (x.operation i) := h.getOp hi
    simp only [Caht.freeOp, hop', ok_bind]
    simp only [Held.operation, hrel, ok_bind, Server.updateOp, hret]
  · refine { h with pool := ?_, op := ?_, bufs := hb, cap64 := h64, cap2k := h2k }
    · refine hwf.congr fun j => ?_
      by_cases hj : j = i
      · simp [View.setOp, hj]
      · simp [View.setOp, hj]
    · intro j z hz
      rcases update_eq_some_iff.mp hz with ⟨-, ⟨⟩⟩ | ⟨hj, hz⟩
      simp only [hops]
      rw [OpPool.update_getElem?, if_neg hj, h.op j z hz]
  · refine ⟨(hwf.free i).mpr ⟨?_, by simp⟩, hmem⟩
    rw [hops]
    exact (List.getElem?_eq_some_iff.mp hop).1

/-- What `free_op` changes: the count of the buffer goes from one to zero, and the buffer
and the operation are put on the stack of their slab and on the free list. -/
theorem freeOp_eq (h : srv.Models v) (hi : v.ops i = some x) :
    ∃ srv', Caht.freeOp srv i = .ok srv' ∧ srv'.heap = setRef srv.heap x.bref 0 ∧
      srv'.pool.freeOpsIdx = srv.pool.freeOpsIdx ++ [i] ∧
      (srv'.slab64.bufRefs, srv'.slab2k.bufRefs) = if x.bufCap = 64
        then (srv.slab64.bufRefs ++ [x.bref], srv.slab2k.bufRefs)
        else (srv.slab64.bufRefs, srv.slab2k.bufRefs ++ [x.bref]) := by
  have hrel : ∀ s : Slab, slabRelease srv.heap s x.bref = .ok (setRef srv.heap x.bref 0, { s with
      cap := if s.cap = s.bufRefs.length then s.cap * 2 else s.cap
      bufRefs := s.bufRefs ++ [x.bref] }) := fun s => by
    simp [slabRelease, h.bufs.block i x hi, sizeSub]
  have hop : (srv.pool.update i fun o => { o with clientFd := -1, bufRef := none }).ops[i]? =
      some { x.operation i with clientFd := -1, bufRef := none } := by
    rw [OpPool.update_getElem?, if_pos rfl, h.op i x hi, Option.map_some]
  have hget : srv.getOp i = .ok (x.operation i) := h.getOp hi
  rcases h.bufs.bufCap i x hi with hcap | hcap
  · rw [h.cap64] at hcap
    simp only [Caht.freeOp, hget, ok_bind]
    simp only [Held.operation, Caht.releaseBuf, hcap, gt_iff_lt, lt_irrefl, if_false, hrel, ok_bind,
      Server.updateOp, opPoolReturn, hop]
    exact ⟨_, rfl, rfl, rfl, rfl⟩
  · rw [h.cap2k] at hcap
    simp only [Caht.freeOp, hget, ok_bind]
    simp only [Held.operation, Caht.releaseBuf, hcap, if_pos (by norm_num : 2048 > 64), hrel, ok_bind,
      Server.updateOp, opPoolReturn, hop]
    exact ⟨_, rfl, rfl, rfl, rfl⟩

/-! ### Clients -/

variable {id : UInt64} {c : Client}

theorem clientMapGet (h : srv.Models v) (id : UInt64) :
    Caht.clientMapGet srv.clients id = .ok ((v.clients id).map Client.node) := by
  obtain ⟨m, hm, hv⟩ := h.clients
  rw [hm.get, hv]
  cases hid : m id with
  | none => rfl
  | some p =>
    obtain ⟨n, hn, -⟩ := hm.clientId hid
    simp [ClientMap.clientAt, hn, ClientInfo.client]

theorem clientInfo (h : srv.Models v) (hc : v.clients id = some c) :
    ∃ n, srv.clients.nodes[c.node]? = some n ∧ n.clientId = id ∧ n.client c.node = c := by
  obtain ⟨m, hm, hv⟩ := h.clients
  rw [hv] at hc
  obtain ⟨p, hp, hat⟩ := Option.bind_eq_some_iff.mp hc
  obtain ⟨n, hn, hid⟩ := hm.clientId hp
  simp only [ClientMap.clientAt, hn, Option.map_some, Option.some.injEq] at hat
  subst hat
  exact ⟨n, hn, hid, rfl⟩

theorem clientMapDelete (h : srv.Models v) (hc : v.clients id = some c) :
    ∃ cm, Caht.clientMapDelete srv.clients id = .ok (cm, true) ∧
      Models { srv with clients := cm } (v.setClient id none) := by
  obtain ⟨m, hm, hv⟩ := h.clients
  obtain ⟨p, hp⟩ : ∃ p, m id = some p := by
    cases hid : m id with
    | none => simp [hv, hid] at hc
    | some p => exact ⟨p, rfl⟩
  obtain ⟨cm, hdel, hr⟩ := hm.delete hp
  refine ⟨cm, hdel, { h with clients := ⟨_, hr.represents, fun a => ?_⟩ }⟩
  by_cases ha : a = id
  · simp [View.setClient, ha]
  · simp only [View.setClient, Function.update_of_ne ha, hv]
    cases hma : m a with
    | none => rfl
    | some q =>
      have hk := hr.kept a q ha hma
      simpa [ClientMap.clientAt, ClientMap.infoAt, ClientInfo.client, Function.comp_def] using
        congrArg (Option.map fun n : ClientInfo => n.client q) hk.symm

theorem clientMapNewEntry_false (h : srv.Models v) (hc : v.clients id = some c) (junk : ClientInfo) :
    Caht.clientMapNewEntry srv.clients id junk = .ok (srv.clients, none) := by
  obtain ⟨m, hm, hv⟩ := h.clients
  cases hid : m id with
  | none => simp [hv, hid] at hc
  | some p => exact hm.newEntry_false hid junk

theorem clientMapNewEntry (h : srv.Models v) (hc : v.clients id = none) (junk : ClientInfo) :
    ∃ cm c, Caht.clientMapNewEntry srv.clients id junk = .ok (cm, some c.node) ∧
      Models { srv with clients := cm } (v.setClient id (some c)) := by
  obtain ⟨m, hm, hv⟩ := h.clients
  have hid : m id = none := by
    cases hid : m id with
    | none => rfl
    | some p =>
      obtain ⟨n, hn, -⟩ := hm.clientId hid
      simp [hv, hid, ClientMap.clientAt, hn] at hc
  obtain ⟨cm, p, hnew, he⟩ := hm.newEntry hid junk
  obtain ⟨n, hn, -⟩ := he.represents.clientId (Function.update_self id (some p) m)
  refine ⟨cm, n.client p, hnew, { h with clients := ⟨_, he.represents, fun a => ?_⟩ }⟩
  by_cases ha : a = id
  · simp [View.setClient, ha, ClientMap.clientAt, hn]
  · simp only [View.setClient, Function.update_of_ne ha, hv]
    cases hma : m a with
    | none => rfl
    | some q =>
      have hk := he.kept a q hma
      simpa [ClientMap.clientAt, ClientMap.infoAt, ClientInfo.client, Function.comp_def] using
        congrArg (Option.map fun n : ClientInfo => n.client q) hk.symm

theorem writeClient (h : srv.Models v) (hc : v.clients id = some c) {f : ClientInfo → ClientInfo}
    {d : Client} (hf : ∀ n : ClientInfo, n.client c.node = c → (f n).client c.node = d) :
    Models { srv with clients := srv.clients.write c.node f } (v.setClient id (some d)) := by
  obtain ⟨m, hm, hv⟩ := h.clients
  obtain ⟨p, hp⟩ : ∃ p, m id = some p := by
    cases hid : m id with
    | none => simp [hv, hid] at hc
    | some p => exact ⟨p, rfl⟩
  obtain ⟨n, hn, -⟩ := hm.clientId hp
  have hcn : n.client p = c := by
    simpa [hv, hp, ClientMap.clientAt, hn] using hc
  obtain rfl : c.node = p := by rw [← hcn]; rfl
  refine { h with clients := ⟨m, hm.write hp f, fun a => ?_⟩ }
  by_cases ha : a = id
  · subst ha
    have hcf := hf n hcn
    simp [View.setClient, hp, ClientMap.clientAt, ClientMap.write_node, hn, ← hcf, ClientInfo.client]
  · simp only [View.setClient, Function.update_of_ne ha, hv]
    cases hma : m a with
    | none => rfl
    | some q =>
      have hq : q ≠ c.node := fun he => ha (hm.inj hma (he ▸ hp))
      simp [ClientMap.clientAt, ClientMap.write_node, hq]

theorem mustClose (h : srv.Models v) {fd : ℤ} {f : File} (hfd : v.fds fd = some f) :
    ∃ srv', Caht.mustClose srv fd = .ok srv' ∧ srv'.Models (v.close fd) := by
  refine ⟨{ srv with fds := Function.update srv.fds fd none }, by
    simp [Caht.mustClose, ← h.fds, hfd], { h with fds := ?_ }⟩
  simp only [View.close, h.fds]

end Server.Models

end Caht
