import Caht.Server.View

/-! # Short writes

One send operation from `add_send` to `free_op`, for any length of its message and
any counts the kernel reports for it. Between two completions the server does
anything else, as long as it leaves the operation alone.
-/

namespace Caht
open Library Protocol

/-- The operation `i` is being sent: `add_send` was called for it with the descriptor `fd`,
with `n` bytes of the contents `buf` of its buffer `b`. `req` is its last request, `ws` are
the ranges (offset and count) reported as written since, and `out` are the bytes the kernel
found there. -/
inductive Sending (i n : ℕ) (fd : ℤ) (b : ℕ) (buf : List UInt8) :
    Server → Request → List (ℕ × ℕ) → List UInt8 → Prop
  | added {srv srv' : Server} {o : Operation} {id : UInt64} {r : Response} {req : Request}
      (ho : srv.pool.ops[i]? = some o) (hid : o.poolId = i) (hn : o.bufLen = n)
      (hb : o.bufRef = some b) (hbuf : srv.getBuf (some b) = .ok buf)
      (hrun : addSend srv i fd id r = .ok srv')
      (hreq : srv'.ring.sq = srv.ring.sq ++ [⟨i, req⟩]) : Sending i n fd b buf srv' req [] []
  | other {srv srv' : Server} {req : Request} {ws : List (ℕ × ℕ)} {out : List UInt8}
      (h : Sending i n fd b buf srv req ws out) (hop : srv'.pool.ops[i]? = srv.pool.ops[i]?)
      (hbuf : srv'.getBuf (some b) = srv.getBuf (some b)) : Sending i n fd b buf srv' req ws out
  | wrote {srv srv' : Server} {fd' : ℤ} {b' off len c : ℕ} {bytes : List UInt8} {req : Request}
      {ws : List (ℕ × ℕ)} {out : List UInt8} (h : Sending i n fd b buf srv (.send fd' b' off len) ws out)
      (hbytes : srv.getBuf (some b') = .ok bytes) (hc : c ≤ len)
      (hrun : handleSend srv i c = .ok srv') (hreq : srv'.ring.sq = srv.ring.sq ++ [⟨i, req⟩]) :
      Sending i n fd b buf srv' req (ws ++ [(off, c)]) (out ++ (bytes.drop off).take c)

/-- Each range starts where the one before it ends. -/
def Consecutive : ℕ → List (ℕ × ℕ) → Prop
  | _, [] => True
  | off, w :: ws => w.1 = off ∧ Consecutive (off + w.2) ws

def written (ws : List (ℕ × ℕ)) : ℕ := (ws.map Prod.snd).sum

theorem consecutive_append (off : ℕ) (ws ws' : List (ℕ × ℕ)) :
    Consecutive off (ws ++ ws') ↔ Consecutive off ws ∧ Consecutive (off + written ws) ws' := by
  induction ws generalizing off with
  | nil => simp [Consecutive, written]
  | cons w ws ih =>
    simp only [List.cons_append, Consecutive, ih, written, List.map_cons, List.sum_cons, and_assoc,
      Nat.add_assoc]

theorem written_append (ws : List (ℕ × ℕ)) (w : ℕ × ℕ) : written (ws ++ [w]) = written ws + w.2 := by
  simp [written]

/-! ## One completion -/

section
variable {srv : Server} {i : ℕ} {o : Operation}

theorem addSend_ok (ho : srv.pool.ops[i]? = some o) {fd : ℤ} {id : UInt64} {r : Response}
    {srv' : Server} (h : addSend srv i fd id r = .ok srv') :
    ∃ b, o.bufRef = some b ∧ srv'.ring.sq = srv.ring.sq ++ [⟨o.poolId, .send fd b 0 o.bufLen⟩] ∧
      srv'.pool.ops[i]? =
        some { o with clientId := id, processed := 0, clientFd := fd, type := .write } ∧
      srv'.heap = srv.heap := by
  obtain ⟨-, -, h⟩ := bind_ok_iff.mp h
  have hop : (srv.updateOp i fun o => { o with
      clientId := id, processed := 0, clientFd := fd, type := .write }).pool.ops[i]? =
        some { o with clientId := id, processed := 0, clientFd := fd, type := .write } := by
    rw [Server.updateOp, OpPool.update_getElem?, if_pos rfl, ho, Option.map_some]
  simp only [Server.getOp, hop, ok_bind] at h
  cases hb : o.bufRef with
  | none =>
    simp only [hb] at h
    cases h
  | some b =>
    simp only [hb, Except.ok.injEq] at h
    subst h
    refine ⟨b, rfl, rfl, ?_, rfl⟩
    rw [← hb]
    exact hop

theorem resumeSend_eq (ho : srv.pool.ops[i]? = some o) {b : ℕ} (hb : o.bufRef = some b) (c : ℕ) :
    resumeSend srv i c = srv.getSqe >>= fun _ =>
      .ok ((srv.updateOp i fun o => { o with processed := o.processed + c }).prep
        ⟨o.poolId, .send o.clientFd b (o.processed + c) (sizeSub o.bufLen (o.processed + c))⟩) := by
  have hop : (srv.updateOp i fun o => { o with processed := o.processed + c }).pool.ops[i]? =
      some { o with processed := o.processed + c } := by
    rw [Server.updateOp, OpPool.update_getElem?, if_pos rfl, ho, Option.map_some]
  simp only [resumeSend, Server.getOp, hop, ok_bind, hb]

theorem freeOp_ring {srv' : Server} (h : freeOp srv i = .ok srv') : srv'.ring = srv.ring := by
  obtain ⟨o, -, h⟩ := bind_ok_iff.mp h
  cases hb : o.bufRef with
  | none =>
    simp only [hb] at h
    cases h
  | some b =>
    simp only [hb] at h
    obtain ⟨srv₁, hrel, h⟩ := bind_ok_iff.mp h
    obtain ⟨pool, -, h⟩ := bind_ok_iff.mp h
    have hring : srv₁.ring = srv.ring := by
      unfold releaseBuf at hrel
      split at hrel <;>
      · obtain ⟨x, -, hx⟩ := bind_ok_iff.mp hrel
        rw [← Except.ok.inj hx]
    rw [← Except.ok.inj h]
    exact hring

/-- The completeness test and the resumption use one count: what was processed
before the completion and what it reports. -/
theorem handleSend_eq (ho : srv.pool.ops[i]? = some o) (hle : o.processed ≤ o.bufLen)
    (h64 : o.bufLen < 2 ^ 64) (c : ℕ) :
    handleSend srv i c =
      if o.processed + c < o.bufLen then resumeSend srv i c else freeOp srv i := by
  have hsub : sizeSub o.bufLen o.processed = o.bufLen - o.processed := sizeSub_of_le hle h64
  have hinc : opIsIncomplete o c = decide (o.processed + c < o.bufLen) := by
    rw [opIsIncomplete, hsub]
    exact decide_eq_decide.mpr (by omega)
  have hop : srv.getOp i = .ok o := by rw [Server.getOp, ho]
  rw [handleSend, hop, ok_bind, hinc]
  by_cases hlt : o.processed + c < o.bufLen
  · rw [if_pos hlt, if_pos (decide_eq_true hlt)]
  · rw [if_neg hlt, if_neg (by simpa using hlt)]

end

/-! ## All completions of one send -/

/-- What holds of an operation that is being sent. -/
structure Progress (i n : ℕ) (fd : ℤ) (b : ℕ) (buf : List UInt8) (srv : Server) (off len : ℕ)
    (ws : List (ℕ × ℕ)) (out : List UInt8) : Prop where
  consecutive : Consecutive 0 ws
  written : written ws = off
  rest : off + len = n
  pos : 0 < len
  out : out = buf.take off
  buf : srv.getBuf (some b) = .ok buf
  op : ∃ o, srv.pool.ops[i]? = some o ∧ o.poolId = i ∧ o.bufRef = some b ∧ o.clientFd = fd ∧
    o.bufLen = n ∧ o.processed = off

section
variable {i n : ℕ} {fd : ℤ} {b : ℕ} {buf : List UInt8} {srv : Server} {req : Request}
  {ws : List (ℕ × ℕ)} {out : List UInt8}

/-- A completion that leaves some of the message unwritten asks for the rest of it, and
changes nothing else. -/
theorem Progress.resume {off len : ℕ} (h : Progress i n fd b buf srv off len ws out) (h64 : n < 2 ^ 64)
    {c : ℕ} (hc : off + c < n) :
    handleSend srv i c = srv.getSqe >>= fun _ =>
      .ok ((srv.updateOp i fun o => { o with processed := o.processed + c }).prep
        ⟨i, .send fd b (off + c) (n - (off + c))⟩) := by
  obtain ⟨o, ho, hid, hb, hfd, hn, hproc⟩ := h.op
  have hrest := h.rest
  have hsub : sizeSub o.bufLen (o.processed + c) = n - (off + c) := by
    rw [sizeSub_of_le (by omega) (by omega), hn, hproc]
  rw [handleSend_eq ho (by omega) (by omega), if_pos (by omega), resumeSend_eq ho hb, hsub, hproc, hid, hfd]

theorem Sending.progress (hpos : 1 ≤ n) (h64 : n < 2 ^ 64) (h : Sending i n fd b buf srv req ws out) :
    ∃ off len, req = .send fd b off len ∧ Progress i n fd b buf srv off len ws out := by
  induction h with
  | @added srv srv' o id r req ho hid hn hb hbuf hrun hreq =>
    obtain ⟨b', hb', hsq, hop, hheap⟩ := addSend_ok ho hrun
    obtain rfl := Option.some.inj (hb.symm.trans hb')
    have hlast := List.append_cancel_left (hsq.symm.trans hreq)
    simp only [List.cons.injEq, Sqe.mk.injEq, and_true] at hlast
    refine ⟨0, n, by rw [← hlast.2, hn], trivial, rfl, Nat.zero_add n, hpos, rfl, ?_, _, hop, hid, hb,
      rfl, hn, rfl⟩
    rw [← hbuf, Server.getBuf, Server.getBuf, hheap]
  | other h hop hbuf ih =>
    obtain ⟨off, len, hreq, hp⟩ := ih
    exact ⟨off, len, hreq, { hp with buf := hbuf.trans hp.buf, op := hop ▸ hp.op }⟩
  | @wrote srv srv' fd' b' off len c bytes req ws out h hbytes hc hrun hreq ih =>
    obtain ⟨off', len', hsend, hp⟩ := ih
    simp only [Request.send.injEq] at hsend
    obtain ⟨rfl, rfl, rfl, rfl⟩ := hsend
    obtain rfl := Except.ok.inj (hp.buf.symm.trans hbytes)
    obtain ⟨o, ho, hid, hb, hfd, hn, hproc⟩ := hp.op
    have hrest := hp.rest
    by_cases hlt : off + c < n
    · rw [hp.resume h64 hlt] at hrun
      obtain ⟨-, -, hrun⟩ := bind_ok_iff.mp hrun
      rw [Except.ok.injEq] at hrun
      subst hrun
      have hsq := List.append_cancel_left hreq
      simp only [List.cons.injEq, Sqe.mk.injEq, and_true, true_and] at hsq
      refine ⟨off + c, n - (off + c), hsq.symm, ?_, ?_, by omega, by omega, ?_, hp.buf,
        { o with processed := o.processed + c }, ?_, hid, hb, hfd, hn, by simp only [hproc]⟩
      · exact (consecutive_append 0 ws _).mpr ⟨hp.consecutive, by rw [hp.written, Nat.zero_add], trivial⟩
      · rw [written_append, hp.written]
      · rw [hp.out, List.take_add]
      · change (srv.updateOp i fun o => { o with processed := o.processed + c }).pool.ops[i]? = _
        rw [Server.updateOp, OpPool.update_getElem?, if_pos rfl, ho, Option.map_some]
    · rw [handleSend_eq ho (by omega) (by omega), if_neg (by omega)] at hrun
      rw [freeOp_ring hrun] at hreq
      simp at hreq

end

/-- The ranges reported are consecutive, and the bytes found there are the beginning of the
message. All requests are for the descriptor and the buffer `add_send` was given. The count
kept in the operation is what was written, no subtraction wraps, the request pending is for
all of the rest, and it is not empty. The next completion frees the operation when it
completes the message, and only then; otherwise the rest is requested, and neither the pool
nor a slab gets anything back. -/
theorem short_writes {i n : ℕ} (hpos : 1 ≤ n) (h64 : n < 2 ^ 64) {fd : ℤ} {b : ℕ} {buf : List UInt8}
    {srv : Server} {req : Request} {ws : List (ℕ × ℕ)} {out : List UInt8}
    (h : Sending i n fd b buf srv req ws out) :
    ∃ off len, req = .send fd b off len ∧ Consecutive 0 ws ∧ off = written ws ∧ off + len = n ∧
      0 < len ∧ out = buf.take off ∧ out <+: buf.take n ∧
      ∃ o, srv.pool.ops[i]? = some o ∧ o.bufRef = some b ∧ o.clientFd = fd ∧ o.bufLen = n ∧
        o.processed = off ∧ sizeSub o.bufLen o.processed = o.bufLen - o.processed ∧
        ∀ c ≤ len,
          (off + c = n → handleSend srv i c = freeOp srv i ∧
            ∀ v x, srv.Models v → v.ops i = some x →
              ∃ srv', freeOp srv i = .ok srv' ∧ srv'.Models (v.setOp i none) ∧ srv'.Returned i x) ∧
          (off + c < n → sizeSub o.bufLen (o.processed + c) = n - (off + c) ∧
            if srv.ring.sq.length < srv.ring.entries then
              ∃ srv', handleSend srv i c = .ok srv' ∧
                srv'.ring.sq = srv.ring.sq ++ [⟨i, .send fd b (off + c) (n - (off + c))⟩] ∧
                srv'.pool.freeOpsIdx = srv.pool.freeOpsIdx ∧ srv'.heap = srv.heap ∧
                srv'.slab64 = srv.slab64 ∧ srv'.slab2k = srv.slab2k ∧
                Sending i n fd b buf srv' (.send fd b (off + c) (n - (off + c))) (ws ++ [(off, c)])
                  (out ++ (buf.drop off).take c)
            else handleSend srv i c = .error (.exit "SQ is full")) := by
  obtain ⟨off, len, rfl, hp⟩ := h.progress hpos h64
  obtain ⟨o, ho, hid, hb, hfd, hn, hproc⟩ := hp.op
  have hrest := hp.rest
  refine ⟨off, len, rfl, hp.consecutive, hp.written.symm, hp.rest, hp.pos, hp.out, ?_, o, ho, hb, hfd, hn,
    hproc, sizeSub_of_le (by omega) (by omega), ?_⟩
  · rw [hp.out]
    exact List.take_prefix_take_left (by omega)
  intro c hc
  refine ⟨fun hall => ?_, fun hlt => ?_⟩
  · have heq := handleSend_eq ho (by omega) (by omega) c
    rw [if_neg (by omega)] at heq
    exact ⟨heq, fun v x hv hx => hv.freeOp hx⟩
  · refine ⟨by rw [sizeSub_of_le (by omega) (by omega), hn, hproc], ?_⟩
    have heq := hp.resume h64 hlt
    split_ifs with hroom
    · rw [Server.getSqe, if_pos hroom, ok_bind] at heq
      exact ⟨_, heq, rfl, rfl, rfl, rfl, rfl, .wrote h hp.buf hc heq rfl⟩
    · rw [Server.getSqe, if_neg hroom, error_bind] at heq
      exact heq

/-- A server whose only operation holds a message of twelve bytes. -/
def twelveBytes : Server :=
  ⟨⟨8, []⟩, ⟨0, [], 0, [], []⟩, ⟨1, 64, []⟩, ⟨1, 2048, []⟩,
    ⟨1, [⟨0, .accept, 0, -1, 64, 12, some 0, 0⟩], 1, []⟩, 3, 2,
    [⟨1, (List.range 64).map UInt8.ofNat⟩], fun _ => none, []⟩

/-- Five bytes are written at first, none the second time, and then the rest. -/
theorem short_writes_none_between :
    ∃ srv, Sending 0 12 7 0 ((List.range 64).map UInt8.ofNat) srv (.send 7 0 5 7) [(0, 5), (5, 0)]
      [0, 1, 2, 3, 4] ∧ handleSend srv 0 7 = freeOp srv 0 := by
  obtain ⟨srv₀, hrun⟩ : ∃ srv, addSend twelveBytes 0 7 1 (.serverError 5 .failure) = .ok srv := ⟨_, rfl⟩
  obtain ⟨b, hb, hsq, -, hheap⟩ := addSend_ok rfl hrun
  obtain rfl := Option.some.inj hb
  have hempty : ∀ srv : Server, Server.getBuf { srv with ring := ⟨8, []⟩ } (some 0) = srv.getBuf (some 0) :=
    fun _ => rfl
  have h₀ : Sending 0 12 7 0 _ { srv₀ with ring := ⟨8, []⟩ } (.send 7 0 0 12) [] [] :=
    .other (.added rfl rfl rfl rfl rfl hrun hsq) rfl (hempty srv₀)
  obtain ⟨_, _, ⟨⟩, -, -, -, -, -, -, o₀, -, -, -, -, -, -, hnext₀⟩ :=
    short_writes (by norm_num) (by norm_num) h₀
  obtain ⟨srv₁, -, -, -, -, -, -, h₁⟩ := ((hnext₀ 5 (by norm_num)).2 (by norm_num)).2
  have h₁' : Sending 0 12 7 0 _ { srv₁ with ring := ⟨8, []⟩ } (.send 7 0 5 7) [(0, 5)] [0, 1, 2, 3, 4] :=
    .other h₁ rfl (hempty srv₁)
  obtain ⟨_, _, ⟨⟩, -, -, -, -, -, -, o₁, -, -, -, -, -, -, hnext₁⟩ :=
    short_writes (by norm_num) (by norm_num) h₁'
  obtain ⟨srv₂, -, -, -, -, -, -, h₂⟩ := ((hnext₁ 0 (by norm_num)).2 (by norm_num)).2
  obtain ⟨_, _, ⟨⟩, -, -, -, -, -, -, o₂, -, -, -, -, -, -, hnext₂⟩ :=
    short_writes (by norm_num) (by norm_num) h₂
  exact ⟨srv₂, h₂, ((hnext₂ 7 (by norm_num)).1 (by norm_num)).1⟩

end Caht
