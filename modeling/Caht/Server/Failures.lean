import Caht.Server.Connections

/-! # Failed operations

A completion with a negative result goes to `disconnect_and_free_op`, whichever type
its operation has. For a receive or a send this drops the client and nothing else.
An accept still has the descriptor `-1`, which `must_close` cannot close.
-/

namespace Caht
open Library Protocol

/-- The state after the next completion, with `srv` the server that handled it. -/
def World.after (w : World) (srv : Server) : World := { w with srv := srv, cq := w.cq.tail }

/-- What is to become of the server when the operation `o` in entry `i` fails: the
operation and its buffer are free again, its client is gone with its descriptor,
which was open, everything of other clients is as it was, and there is one accept. -/
structure World.Dropped (w : World) (i : ℕ) (o : Operation) (srv : Server) : Prop where
  freed : i ∈ srv.pool.freeOpsIdx
  released : ∀ b, o.bufRef = some b → b ∈ srv.slab64.bufRefs ∨ b ∈ srv.slab2k.bufRefs
  closed : (w.srv.info o.clientId = none ∧ srv.fds = w.srv.fds) ∨
    ∃ n k, w.srv.info o.clientId = some n ∧ o.clientFd = n.clientFd ∧
      w.srv.fds o.clientFd = some (.conn k) ∧ srv.fds = Function.update w.srv.fds o.clientFd none
  removed : srv.info o.clientId = none
  others : ∀ c, c ≠ o.clientId → srv.info c = w.srv.info c
  ops : ∀ j, j ≠ i → (w.after srv).op j = w.op j
  accept : ∃ a o', (w.after srv).op a = some o' ∧ o'.type = .accept ∧
    ∀ j o'', (w.after srv).op j = some o'' → o''.type = .accept → j = a

/-- The completion is handled as it should be. -/
def World.Survives (w : World) (cqe : Cqe) (junk : Junk) : Prop :=
  ∃ o srv, w.op cqe.sqe.userData = some o ∧ handleCqe w.srv cqe junk = .ok srv ∧
    w.Dropped cqe.sqe.userData o srv

section
variable {w : World} {v v' : View} {srv : Server} {i : ℕ} {x : Held} {cqe : Cqe} {junk : Junk}

/-! ## Nothing is given back to the system -/

theorem slabRelease_length {heap heap' : List BufRef} {s s' : Slab} {b : ℕ}
    (h : slabRelease heap s b = .ok (heap', s')) : heap'.length = heap.length := by
  unfold slabRelease at h
  split at h
  · cases h
  · dsimp only at h
    split at h <;> cases h <;> simp [setRef]

theorem releaseBuf_length {srv srv' : Server} {cap b : ℕ} (h : releaseBuf srv cap b = .ok srv') :
    srv'.heap.length = srv.heap.length ∧ srv'.pool = srv.pool := by
  unfold releaseBuf at h
  split at h
  all_goals
    obtain ⟨⟨heap, s⟩, hrel, hok⟩ := bind_ok_iff.mp h
    cases hok
    exact ⟨slabRelease_length hrel, rfl⟩

theorem opPoolReturn_length {pool pool' : OpPool} {i : ℕ} (h : opPoolReturn pool i = .ok pool') :
    pool'.ops.length = pool.ops.length := by
  unfold opPoolReturn at h
  split at h
  · cases h
  · split at h <;> cases h
    rfl

theorem freeOp_length {srv srv' : Server} {op : ℕ} (h : freeOp srv op = .ok srv') :
    srv'.heap.length = srv.heap.length ∧ srv'.pool.ops.length = srv.pool.ops.length := by
  obtain ⟨o, -, h⟩ := bind_ok_iff.mp h
  split at h
  · cases h
  · obtain ⟨srv₁, hrel, h⟩ := bind_ok_iff.mp h
    obtain ⟨pool, hret, h⟩ := bind_ok_iff.mp h
    obtain ⟨hheap, hpool⟩ := releaseBuf_length hrel
    have hops := opPoolReturn_length hret
    obtain rfl := Except.ok.inj h
    refine ⟨hheap, hops.trans ?_⟩
    rw [← hpool]
    exact List.length_modify ..

theorem disconnectAndFreeOp_length {srv srv' : Server} {info : Option ℕ} {op : ℕ}
    (h : disconnectAndFreeOp srv info op = .ok srv') :
    srv'.heap.length = srv.heap.length ∧ srv'.pool.ops.length = srv.pool.ops.length := by
  unfold disconnectAndFreeOp at h
  split at h
  · exact freeOp_length h
  · obtain ⟨o, -, h⟩ := bind_ok_iff.mp h
    obtain ⟨srv₁, hclose, h⟩ := bind_ok_iff.mp h
    obtain ⟨⟨clients, found⟩, -, h⟩ := bind_ok_iff.mp h
    have hsame : srv₁.heap = srv.heap ∧ srv₁.pool = srv.pool := by
      unfold mustClose at hclose
      split at hclose <;> cases hclose
      exact ⟨rfl, rfl⟩
    rw [← hsame.1, ← hsame.2]
    have hlen := freeOp_length h
    exact hlen

theorem Server.Models.handleCqe_length {srv' : Server} (h : srv.Models v)
    (hi : v.ops cqe.sqe.userData = some x) (hres : cqe.res < 0)
    (hok : Caht.handleCqe srv cqe junk = .ok srv') :
    srv'.heap.length = srv.heap.length ∧ srv'.pool.ops.length = srv.pool.ops.length := by
  rw [h.handleCqe_eq hi] at hok
  simp only [dispatch, if_pos hres] at hok
  have hlen := disconnectAndFreeOp_length hok
  exact hlen

/-! ## The operation of a failed completion -/

theorem Server.Models.freed {srv' : Server} (h : srv.Models v) (h' : srv'.Models v')
    (hi : v.ops i = some x) (hi' : v'.ops i = none)
    (hsub : ∀ j y, v'.ops j = some y → v.ops j = some y) (hheap : srv'.heap.length = srv.heap.length)
    (hpool : i < srv'.pool.ops.length) : i ∈ srv'.pool.freeOpsIdx ∧
      (x.bref ∈ srv'.slab64.bufRefs ∨ x.bref ∈ srv'.slab2k.bufRefs) := by
  refine ⟨(h'.pool.free i).mpr ⟨hpool, by simp [hi']⟩, ?_⟩
  rcases h'.bufs.cover x.bref (hheap ▸ h.bufs.lt hi) with hb | hb | ⟨j, y, hj, hb⟩
  · exact .inl hb
  · exact .inr hb
  · obtain rfl := h.bufs.inj j i y x (hsub j y hj) hi hb
    exact absurd (hi'.symm.trans hj) (by simp)

/-- A failed receive or send, or any failed operation of a client that is gone. -/
theorem World.Serving.dropped (h : w.Serving v) (hw : w.Owned v) (hu : v.Unwrapped)
    (hw' : (w.after srv).Owned v') (hi : v.ops i = some x) (ht : x.type ≠ .accept)
    (hlen : srv.heap.length = w.srv.heap.length ∧ srv.pool.ops.length = w.srv.pool.ops.length)
    (hops : v'.ops = Function.update v.ops i none)
    (hcl : v'.clients = Function.update v.clients x.clientId none)
    (hfds : v'.fds = if v.clients x.clientId = none then v.fds
      else Function.update v.fds x.clientFd none) :
    w.Dropped i (x.operation i) srv := by
  have hsub : ∀ j y, v'.ops j = some y → v.ops j = some y := by
    intro j y hy
    rw [hops] at hy
    rcases update_eq_some_iff.mp hy with ⟨-, ⟨⟩⟩ | ⟨-, hy⟩
    exact hy
  obtain ⟨hfree, hrel⟩ := hw.models.freed hw'.models hi (by rw [hops, Function.update_self]) hsub hlen.1
    (hlen.2 ▸ hw.models.pool.used_lt i (by simp [hi]))
  have hm' : srv.Models v' := hw'.models
  refine ⟨hfree, ?_, ?_, ?_, ?_, ?_, ?_⟩
  · rintro b ⟨⟩
    exact hrel
  · rw [← hw.models.fds, ← hm'.fds, hfds]
    by_cases hc : v.clients x.clientId = none
    · exact .inl ⟨hw.models.info_eq_none.mpr hc, if_pos hc⟩
    · obtain ⟨cl, k, hcl', hfd, hk⟩ := h.open_fd hu hi ht hc
      have hinfo := hw.models.info x.clientId
      rw [hcl', Option.map_some] at hinfo
      exact .inr ⟨_, k, hinfo, hfd, hk, if_neg hc⟩
  · exact hm'.info_eq_none.mpr (by rw [hcl]; exact Function.update_self ..)
  · intro c hc
    replace hc : c ≠ x.clientId := hc
    rw [hw.models.info, hm'.info, hcl, Function.update_of_ne hc]
  · intro j hj
    rw [hw.op, hw'.op, hops, Function.update_of_ne hj]
  · obtain ⟨a, y, hy, hyt, -⟩ := h.accepting hu
    have hai : a ≠ i := by
      rintro rfl
      obtain rfl := Option.some.inj (hi.symm.trans hy)
      exact ht hyt
    refine ⟨a, y.operation a, ?_, hyt, ?_⟩
    · rw [hw'.op, hops, Function.update_of_ne hai, hy, Option.map_some]
    · intro j o ho hot
      obtain ⟨z, hz, rfl⟩ := hw'.op_eq_some.mp ho
      exact h.oneAccept j a z y (hsub j z hz) hy hot hyt

theorem World.Serving.survives {cq : List Cqe} (h : w.Serving v) (hw : w.Owned v) (hu : v.Unwrapped)
    (hcq : w.cq = cqe :: cq) (hres : cqe.res < 0) (hi : v.ops cqe.sqe.userData = some x)
    (ht : x.type ≠ .accept) : w.Survives cqe junk := by
  cases hsrv : handleCqe w.srv cqe junk with
  | error e =>
    obtain ⟨y, hy, hfail⟩ := hw.fails hcq hsrv
    obtain rfl := Option.some.inj (hi.symm.trans hy)
    cases hfail with
    | close hc _ hfd =>
      obtain ⟨cl, k, -, -, hk⟩ := h.open_fd hu hi ht fun hn => absurd (hc.symm.trans hn) (by simp)
      exact absurd (hk.symm.trans hfd) (by simp)
    | full hres' => omega
    | loop hres' => omega
    | taken _ hres' => omega
  | ok srv =>
    obtain ⟨y, v', hy, hh, hw'⟩ := hw.handle w.pc hcq hsrv
    obtain rfl := Option.some.inj (hi.symm.trans hy)
    have hafter : (w.after srv).Owned v' := by
      simpa only [World.after, hcq, List.tail_cons] using hw'
    have hlen := hw.models.handleCqe_length hi hres hsrv
    refine ⟨_, srv, hw.op_eq_some.mpr ⟨x, hi, rfl⟩, hsrv, ?_⟩
    cases hh with
    | stale hc =>
      refine h.dropped hw hu hafter hi ht hlen rfl ?_ (if_pos hc).symm
      exact (Function.update_eq_self_iff.mpr hc.symm).symm
    | dropped hc =>
      refine h.dropped hw hu hafter hi ht hlen rfl rfl (if_neg fun hn => ?_).symm
      exact absurd (hc.symm.trans hn) (by simp)
    | accepted _ hres' => omega
    | received _ hres' => omega
    | resumed _ hres' => omega
    | sent _ hres' => omega

/-- A failed accept ends the process, or would leave the server without one. -/
theorem World.Serving.not_survives {cq : List Cqe} (h : w.Serving v) (hw : w.Owned v)
    (hcq : w.cq = cqe :: cq) (hres : cqe.res < 0) (hi : v.ops cqe.sqe.userData = some x)
    (ht : x.type = .accept) : ¬ w.Survives cqe junk := by
  rintro ⟨o, srv, -, hsrv, hd⟩
  obtain ⟨y, v', hy, hh, hw'⟩ := hw.handle w.pc hcq hsrv
  obtain rfl := Option.some.inj (hi.symm.trans hy)
  have hafter : (w.after srv).Owned v' := by
    simpa only [World.after, hcq, List.tail_cons] using hw'
  cases hh with
  | stale hc =>
    obtain ⟨a, o', ho', hot, -⟩ := hd.accept
    obtain ⟨z, hz, rfl⟩ := hafter.op_eq_some.mp ho'
    rcases update_eq_some_iff.mp hz with ⟨-, ⟨⟩⟩ | ⟨hne, hz⟩
    exact hne (h.oneAccept a _ z x hz hi hot ht)
  | dropped _ _ hfd => exact hfd (h.census.accept hw hi ht)
  | accepted _ hres' => omega
  | received _ hres' => omega
  | resumed _ hres' => omega
  | sent _ hres' => omega

/-- A failed accept is not survived. While fewer than `2 ^ 64 - 1` connections have
been accepted, every other failed operation is. -/
theorem failed_operation_survived (w : World) (hr : Reachable w) (cqe : Cqe) (cq : List Cqe)
    (hcq : w.cq = cqe :: cq) (hres : cqe.res < 0) (o : Operation)
    (ho : w.op cqe.sqe.userData = some o) (junk : Junk) :
    (w.srv.accepts < 2 ^ 64 - 1 → (w.Survives cqe junk ↔ o.type ≠ .accept)) ∧
    (o.type = .accept → ¬ w.Survives cqe junk) := by
  obtain ⟨v, hw, h⟩ := hr.serving
  obtain ⟨x, hx, rfl⟩ := hw.op_eq_some.mp ho
  have hnot : x.type = .accept → ¬ w.Survives cqe junk := h.not_survives hw hcq hres hx
  refine ⟨fun hacc => ⟨fun hs ht => hnot ht hs, fun ht => ?_⟩, hnot⟩
  exact h.survives hw (h.unwrapped hw hacc) hcq hres hx ht

/-- The first accept fails, say because too many files are open: the server exits. -/
theorem failed_accept_exits : ∃ w cqe o, Reachable w ∧ w.cq = [cqe] ∧ cqe.res = -24 ∧
    w.op cqe.sqe.userData = some o ∧ o.type = .accept ∧
    handleCqe w.srv cqe .zero = .error (.exit "handle_recv close client_fd") ∧
    ¬ w.Survives cqe .zero := by
  have hrun : (World.runMain 3 .zero [.serve .zero, .execute 0 (-24) [], .post 0]).map
      (fun w => w.cq.map fun cqe => (cqe.res, (w.op cqe.sqe.userData).map Operation.type,
        match handleCqe w.srv cqe .zero with | .ok _ => none | .error e => some e)) =
      some [(-24, some .accept, some (.exit "handle_recv close client_fd"))] := by
    decide +kernel
  obtain ⟨w, hw, hres⟩ := Option.map_eq_some_iff.mp hrun
  obtain ⟨cqe, hcq, hcqe⟩ := List.map_eq_singleton_iff.mp hres
  simp only [Prod.mk.injEq, Option.map_eq_some_iff] at hcqe
  obtain ⟨hneg, ⟨o, ho, hot⟩, hexit⟩ := hcqe
  have hhandle : handleCqe w.srv cqe .zero = .error (.exit "handle_recv close client_fd") := by
    cases he : handleCqe w.srv cqe .zero with
    | ok srv => simp [he] at hexit
    | error e => simpa [he] using hexit
  refine ⟨w, cqe, o, World.runMain_reachable (by decide) hw, hcq, hneg, ho, hot, hhandle, ?_⟩
  rintro ⟨_, srv, -, hok, -⟩
  exact absurd (hhandle.symm.trans hok) (by simp)

/-- The connection of a client is reset. -/
theorem failed_operation_survived_reset : ∃ w cqe, Reachable w ∧ w.cq = [cqe] ∧ cqe.res = -104 ∧
    w.Survives cqe .zero := by
  have hrun : (World.runMain 3 .zero ([.serve .zero] ++ Action.complete 0 5 [] ++
      [.execute 0 (-104) [], .post 0])).map (fun w => (w.srv.accepts, w.cq.map fun cqe =>
        (cqe.res, (w.op cqe.sqe.userData).map Operation.type))) = some (1, [(-104, some .read)]) := by
    decide +kernel
  obtain ⟨w, hw, hres⟩ := Option.map_eq_some_iff.mp hrun
  obtain ⟨hacc, hcqes⟩ := Prod.mk.inj hres
  obtain ⟨cqe, hcq, hcqe⟩ := List.map_eq_singleton_iff.mp hcqes
  simp only [Prod.mk.injEq, Option.map_eq_some_iff] at hcqe
  obtain ⟨hneg, o, ho, hot⟩ := hcqe
  have hr := World.runMain_reachable (by decide) hw
  have hthm := failed_operation_survived w hr cqe [] hcq (by omega) o ho .zero
  exact ⟨w, cqe, hr, hcq, hneg, (hthm.1 (by omega)).mpr (by rw [hot]; decide)⟩

end

end Caht
