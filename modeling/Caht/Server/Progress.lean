import Caht.Library.Ranking
import Caht.Server.Capacity
import Caht.Server.Failures

/-! # Progress

The server stops by itself in two ways only: an accept fails, or the queue is too short
for what a completion asks for. While it sleeps in `io_uring_wait_cqe`, everything it
waits for is with the kernel. What the kernel posts is handled after a number of steps
of the server that depends on the place in the completion queue alone.
-/

namespace Caht
open Library Protocol

/-! ## The end of the process -/

section
variable {srv : Server} {w : World} {v : View} {x : Held} {cqe : Cqe} {e : Halt}

/-- The message of every exit, with what has been found then. -/
theorem Server.Models.handleCqe_stops (h : srv.Models v) (hi : v.ops cqe.sqe.userData = some x)
    (hcap : x.type = .read → cqe.res.toNat ≤ x.bufCap) {junk : Junk}
    (he : Caht.handleCqe srv cqe junk = .error e) :
    e = .exit "SQ is full" ∨ e = .undefined ∨
      (e = .exit "handle_recv close client_fd" ∧ v.clients x.clientId ≠ none ∧
        v.fds x.clientFd = none ∧ (x.type = .accept → cqe.res < 0)) := by
  have hlog := h.log (x.completed cqe)
  have hclose : ∀ c, v.clients x.clientId = some c → v.clients x.clientId ≠ none := by
    intro c hc
    rw [hc]
    exact Option.some_ne_none c
  cases (h.handleCqe hi hcap junk).error he with
  | close hc hres hfd =>
    refine .inr (.inr ⟨rfl, hclose _ hc, hfd, fun ht => ?_⟩)
    rcases hres with hres | ⟨htr, -⟩
    · exact hres
    · rw [ht] at htr
      cases htr
  | full => exact .inl rfl
  | taken => exact .inr (.inl rfl)
  | @loop msg hres ht =>
    rw [h.handleCqe_eq hi] at he
    cases hc : v.clients x.clientId with
    | none =>
      obtain ⟨srv', hfree, -⟩ := hlog.freeOp (x := x) hi
      simp only [hc, Option.map_none, dispatch, hfree, if_neg (not_lt.mpr hres.le)] at he
      cases he
    | some c =>
      simp only [hc, Option.map_some, dispatch, if_neg (not_lt.mpr hres.le), ht] at he
      have hfail := (hlog.handleRecv_loop (x := x) hi hc junk (by omega) (hcap ht)).error he
      unfold View.LoopFails at hfail
      split at hfail
      · exact .inl hfail
      · rcases hfail with ⟨hfull, -⟩ | ⟨hexit, -, hfd, -⟩
        · exact .inl hfull
        · refine .inr (.inr ⟨hexit, Option.some_ne_none c, hfd, fun hta => ?_⟩)
          rw [ht] at hta
          cases hta

theorem World.Serving.accept_fails (h : w.Serving v) (hw : w.Owned v) (hu : v.Unwrapped)
    (hi : v.ops cqe.sqe.userData = some x)
    (ht : x.type = .accept) (hres : cqe.res < 0) (junk : Junk) :
    handleCqe w.srv cqe junk = .error (.exit "handle_recv close client_fd") := by
  obtain ⟨a, y, hy, hyt, hyc, -⟩ := h.accepting hu
  obtain rfl := h.oneAccept a cqe.sqe.userData y x hy hi hyt ht
  obtain rfl := Option.some.inj (hi.symm.trans hy)
  obtain ⟨c, hc⟩ := Option.ne_none_iff_exists'.mp hyc
  have hend := (hw.models.log (x.completed cqe)).disconnectAndFreeOp (x := x) hi hc c.node
  rw [hw.models.handleCqe_eq hi, hc]
  simp only [Option.map_some, dispatch, if_pos hres]
  cases hd : disconnectAndFreeOp (w.srv.log (x.completed cqe)) (some c.node) cqe.sqe.userData with
  | ok srv => exact absurd (h.census.accept hw hi ht) (hend.ok hd).1
  | error e => rw [(hend.error hd).1]

end

theorem Run.ring_bound {ok : World → Action → Prop} {w : World} (hr : Run ok w) :
    w.srv.ring.sq.length ≤ queueSize := by
  induction hr with
  | start hfd hw =>
    rename_i serverFd junk w
    obtain ⟨srv, j, bref, buf, c, hstart, -, hm⟩ := World.start_spec serverFd junk
    rw [hstart] at hw
    obtain rfl := Except.ok.inj hw
    rw [← hm.sq]
    exact Nat.succ_le_of_lt (by decide)
  | step hr ha hs ih =>
    cases World.steps_of_step hs with
    | execute => simpa only [World.perform_ring] using ih
    | post => exact ih
    | submit => exact Nat.zero_le _
    | turn => exact ih
    | handle _ hcq hok =>
      obtain ⟨v, hv, hent⟩ := Run.entries hr
      obtain ⟨hlen, hle⟩ := (hv.room hent ih hcq _).ok hok
      rw [hlen]
      exact hle

/-- While fewer than `2 ^ 64 - 1` connections have been accepted, the process ends in
the middle of a completion in exactly two cases: a failed accept, and a queue without
room for the entries the completion costs. -/
theorem completion_ends_process_iff (w : World) (hr : Reachable w)
    (hacc : w.srv.accepts < 2 ^ 64 - 1) (cqe : Cqe) (cq : List Cqe) (hcq : w.cq = cqe :: cq)
    (o : Operation) (ho : w.op cqe.sqe.userData = some o) (junk : Junk) (e : Halt) :
    handleCqe w.srv cqe junk = .error e ↔
      (e = .exit "handle_recv close client_fd" ∧ o.type = .accept ∧ cqe.res < 0) ∨
      (e = .exit "SQ is full" ∧ 4096 < w.srv.ring.sq.length + w.srv.cost cqe) := by
  obtain ⟨v, hw, h⟩ := hr.serving
  obtain ⟨v', hw', hent⟩ := Run.entries hr
  obtain ⟨x, hx, rfl⟩ := hw.op_eq_some.mp ho
  have hu := h.unwrapped hw hacc
  have hroom := hw'.room hent hr.ring_bound hcq junk
  have hmem : cqe.ticket ∈ queue v.sq ++ w.outstanding := by simp [World.outstanding, hcq]
  have hcap : x.type = .read → cqe.res.toNat ≤ x.bufCap := by
    obtain ⟨y, hy, hfit⟩ := hw.owns.held hmem
    obtain rfl := Option.some.inj (hx.symm.trans hy)
    exact hfit.res_le rfl
  constructor
  · intro he
    rcases hw.models.handleCqe_stops hx hcap he with rfl | rfl | ⟨rfl, hc, hfd, hres⟩
    · exact .inr ⟨rfl, (hroom.error he).mp rfl⟩
    · exact absurd he (h.not_undefined hw hacc hcq junk)
    · refine .inl ⟨rfl, ?_⟩
      by_cases ht : x.type = .accept
      · exact ⟨ht, hres ht⟩
      · obtain ⟨-, k, -, -, hopen⟩ := h.open_fd hu hx ht hc
        rw [hfd] at hopen
        cases hopen
  · rintro (⟨rfl, ht, hres⟩ | ⟨rfl, hfull⟩)
    · exact h.accept_fails hw hu hx ht hres junk
    · cases he : handleCqe w.srv cqe junk with
      | ok srv =>
        obtain ⟨-, hle⟩ := hroom.ok he
        exact absurd hle (not_le.mpr hfull)
      | error e => rw [(hroom.error he).mpr hfull]

/-- The accept of a process at its limit of open files. -/
theorem completion_ends_process_no_files : ∃ w cqe, Reachable w ∧ w.cq = [cqe] ∧ cqe.res = -24 ∧
    handleCqe w.srv cqe .zero = .error (.exit "handle_recv close client_fd") := by
  have hrun : (World.runMain 3 .zero [.serve .zero, .execute 0 (-24) [], .post 0]).map
      (fun w => (w.srv.accepts, w.cq.map fun cqe =>
        (cqe.res, (w.op cqe.sqe.userData).map Operation.type))) = some (0, [(-24, some .accept)]) := by
    decide +kernel
  obtain ⟨w, hw, hres⟩ := Option.map_eq_some_iff.mp hrun
  obtain ⟨hacc, hcqes⟩ := Prod.mk.inj hres
  obtain ⟨cqe, hcq, hcqe⟩ := List.map_eq_singleton_iff.mp hcqes
  simp only [Prod.mk.injEq, Option.map_eq_some_iff] at hcqe
  obtain ⟨hneg, o, ho, hot⟩ := hcqe
  have hr := World.runMain_reachable (by decide) hw
  refine ⟨w, cqe, hr, hcq, hneg, ?_⟩
  rw [completion_ends_process_iff w hr (by omega) cqe [] hcq o ho .zero]
  exact .inl ⟨rfl, hot, by omega⟩

/-! ## Asleep -/

/-- The steps of the server, as against those of the kernel. -/
def Action.isServe : Action → Bool
  | .serve _ => true
  | _ => false

theorem World.step_turn {w w' : World} {junk : Junk} (hs : w.step (.serve junk) = some w')
    (hpc : w.pc = .peek ∨ w.pc = .batch 0) :
    (w.pc = .peek ∧ w' = { w with pc := .batch (min cqeBatchSize w.cq.length) }) ∨
      (w.pc = .batch 0 ∧ w' = { w with pc := .submit }) := by
  rcases hpc with hpc | hpc
  · simp only [World.step, World.serve, hpc, Option.some.injEq] at hs
    exact .inl ⟨hpc, hs.symm⟩
  · simp only [World.step, World.serve, hpc, Option.some.injEq] at hs
    exact .inr ⟨hpc, hs.symm⟩

theorem Run.wait_submitted {ok : World → Action → Prop} {w : World} (hr : Run ok w)
    (hpc : w.pc = .wait) : w.srv.ring.sq = [] := by
  induction hr with
  | start hfd hw =>
    rename_i serverFd junk w
    obtain ⟨srv, j, bref, buf, c, hstart, -, -⟩ := World.start_spec serverFd junk
    rw [hstart] at hw
    obtain rfl := Except.ok.inj hw
    cases hpc
  | step hr ha hs ih =>
    cases World.steps_of_step hs with
    | execute =>
      rw [World.perform_ring]
      exact ih (by simpa only [World.perform_pc] using hpc)
    | post => exact ih hpc
    | submit => rfl
    | turn hp =>
      rcases World.step_turn hs hp with ⟨-, heq⟩ | ⟨-, heq⟩
      · rw [heq] at hpc
        cases hpc
      · rw [heq] at hpc
        cases hpc
    | @handle junk pc c cq srv hp =>
      simp only at hpc
      subst hpc
      unfold Pc.Handling at hp
      split at hp <;> cases hp

/-- Where an entry of a server that sleeps is: in flight or executed. -/
theorem World.kernel_steps {w : World} (hcq : w.cq = []) {t : Ticket} (ht : t ∈ w.outstanding)
    (hreq : ∃ fd info, t.sqe.request = .accept fd info) :
    ∃ a w', a.isServe = false ∧ w.step a = some w' := by
  rw [World.outstanding, hcq, List.map_nil, List.append_nil, List.mem_append] at ht
  rcases ht with ht | ht
  · obtain ⟨s, hs, rfl⟩ := List.mem_map.mp ht
    obtain ⟨i, hi⟩ := List.mem_iff_getElem?.mp hs
    obtain ⟨fd, info, hreq⟩ := hreq
    have hadm : s.sqe.request.Admits w.srv.fds (-1) [] := by
      change s.sqe.request = _ at hreq
      rw [hreq]
      exact ⟨rfl, fun h => absurd h (by decide)⟩
    have hstep : (w.step (.execute i (-1) [])).isSome := by simp [World.step, hi, hadm]
    obtain ⟨w', hw'⟩ := Option.isSome_iff_exists.mp hstep
    exact ⟨_, w', rfl, hw'⟩
  · obtain ⟨c, hc, rfl⟩ := List.mem_map.mp ht
    obtain ⟨i, hi⟩ := List.mem_iff_getElem?.mp hc
    have hstep : (w.step (.post i)).isSome := by simp [World.step, hi]
    obtain ⟨w', hw'⟩ := Option.isSome_iff_exists.mp hstep
    exact ⟨_, w', rfl, hw'⟩

/-- A server that sleeps in `io_uring_wait_cqe` has submitted all entries, and all
operations in use are with the kernel: an accept for a client in the map, and for every
other client in the map a receive from its own descriptor. The kernel can go on, so
nothing is stuck. -/
theorem sleep_is_awaited (w : World) (hr : Reachable w) (hacc : w.srv.accepts < 2 ^ 64 - 1)
    (hpc : w.pc = .wait) (hcq : w.cq = []) :
    w.srv.ring.sq = [] ∧ (∀ i ∈ w.srv.pool.inUse, ∃ t ∈ w.outstanding, t.id = i) ∧
    (∃ t ∈ w.outstanding, ∃ o, w.op t.id = some o ∧ o.type = .accept ∧
      w.srv.info o.clientId ≠ none ∧ (∃ fd info, t.sqe.request = .accept fd info) ∧
      ∀ c n, w.srv.info c = some n → c ≠ o.clientId →
        ∃ t ∈ w.outstanding, ∃ o b off len, w.op t.id = some o ∧ o.clientId = c ∧
          o.bufRef = some b ∧ t.sqe.request = .recv n.clientFd b off len) ∧
    ∃ a w', a.isServe = false ∧ w.step a = some w' := by
  obtain ⟨v, hw, h⟩ := hr.serving
  have hu := h.unwrapped hw hacc
  have hsq : v.sq = [] := hw.models.sq.trans (hr.wait_submitted hpc)
  have htickets : queue v.sq ++ w.outstanding = w.outstanding := by
    rw [hsq, queue, List.map_nil, List.nil_append]
  have hticket : ∀ i x, v.ops i = some x → ∃ t ∈ w.outstanding, t.id = i ∧ t.Fits x := by
    intro i x hi
    have hmem := (hw.owns.used i).mp (by simp [hi])
    rw [htickets] at hmem
    obtain ⟨t, ht, rfl⟩ := List.mem_map.mp hmem
    exact ⟨t, ht, rfl, hw.owns.fits t (by rwa [htickets]) x hi⟩
  obtain ⟨a, x, hx, hxt, hxc, -⟩ := h.accepting hu
  obtain ⟨t, ht, rfl, hfit⟩ := hticket a x hx
  have hreq : ∃ fd info, t.sqe.request = .accept fd info := by
    have hfits := hfit.1
    unfold Request.Fits at hfits
    split at hfits
    · exact ⟨_, _, by assumption⟩
    · cases hfits.1.symm.trans hxt
    · cases hfits.1.symm.trans hxt
  refine ⟨hr.wait_submitted hpc, ?_, ⟨t, ht, x.operation t.id, hw.op_eq_some.mpr ⟨x, hx, rfl⟩, hxt, ?_,
    hreq, ?_⟩, w.kernel_steps hcq ht hreq⟩
  · intro i hi
    obtain ⟨y, hy⟩ := Option.ne_none_iff_exists'.mp (hw.models.pool.mem_inUse.mp hi)
    obtain ⟨t', ht', hid, -⟩ := hticket i y hy
    exact ⟨t', ht', hid⟩
  · rw [Ne, hw.models.info_eq_none]
    exact hxc
  · intro c n hn hne
    obtain ⟨cl, hcl, hfd⟩ := hw.models.info_eq_some hn
    have hother : ∀ i y, v.ops i = some y → y.type = .accept → y.clientId ≠ c := by
      intro i y hy hyt hyc
      obtain rfl := h.oneAccept i t.id y x hy hx hyt hxt
      obtain rfl := Option.some.inj (hy.symm.trans hx)
      exact hne hyc.symm
    obtain ⟨cl', i, y, hconn⟩ := h.read hu (c := c) (by simp [hcl]) hother
    obtain rfl := Option.some.inj (hcl.symm.trans hconn.client)
    obtain ⟨t', ht', rfl, hfit'⟩ := hticket i y hconn.op
    obtain ⟨off, len, hrecv, -⟩ := hfit'.recv hconn.type
    refine ⟨t', ht', y.operation t'.id, y.bref, off, len, hw.op_eq_some.mpr ⟨y, hconn.op, rfl⟩,
      hconn.clientId, rfl, ?_⟩
    rw [hrecv, hconn.fd _ y hconn.op hconn.clientId, hfd]

/-- One client is connected and silent. -/
theorem sleep_is_awaited_one_client : ∃ w, Reachable w ∧ w.pc = .wait ∧ w.cq = [] ∧
    w.srv.pool.inUse = [0, 1] ∧ ∀ i ∈ w.srv.pool.inUse, ∃ t ∈ w.outstanding, t.id = i := by
  have hrun : (World.runMain 3 .zero ([.serve .zero] ++ Action.complete 0 5 [])).map
      (fun w => (w.pc, w.cq, w.srv.accepts, w.srv.pool.inUse)) = some (.wait, [], 1, [0, 1]) := by
    decide +kernel
  obtain ⟨w, hw, hres⟩ := Option.map_eq_some_iff.mp hrun
  simp only [Prod.mk.injEq] at hres
  obtain ⟨hpc, hcq, hacc, huse⟩ := hres
  have hr := World.runMain_reachable (by decide) hw
  exact ⟨w, hr, hpc, hcq, huse, (sleep_is_awaited w hr (by omega) hpc hcq).2.1⟩

/-! ## What is posted is handled -/

/-- The steps of the server before it takes a completion that is there. -/
def Pc.delay : Pc → ℕ
  | .wait => 0
  | .peek => 1
  | .batch 0 => 2
  | .batch (_ + 1) => 0
  | .submit => 1

/-- The steps of the server before it calls `io_uring_submit`. -/
def Pc.unsubmitted : Pc → ℕ
  | .wait => cqeBatchSize + 3
  | .peek => cqeBatchSize + 2
  | .batch n => n + 1
  | .submit => 0

theorem World.run_eq_foldlM (w : World) (as : List Action) : w.run as = as.foldlM World.step w := by
  induction as generalizing w with
  | nil => rfl
  | cons a as ih =>
    rw [World.run, List.foldlM_cons]
    cases w.step a with
    | none => rfl
    | some w' => exact ih w'

theorem Pc.Handling.delay {pc pc' : Pc} (h : pc.Handling pc') : pc.delay = 0 ∧ pc'.delay ≤ 2 := by
  unfold Pc.Handling at h
  split at h
  · subst h
    decide
  · subst h
    refine ⟨rfl, ?_⟩
    unfold Pc.delay
    split <;> omega
  · exact h.elim

theorem Pc.Handling.unsubmitted {pc pc' : Pc} (h : pc.Handling pc') :
    pc'.unsubmitted < pc.unsubmitted := by
  unfold Pc.Handling at h
  split at h
  · subst h
    decide
  · subst h
    exact Nat.lt_succ_self _
  · exact h.elim

theorem World.ranked_cq (c : Cqe) : Ranked World.step Action.isServe
    (fun w a => w.nextCqe a = some c)
    (fun n w => ∃ k, w.cq[k]? = some c ∧ n = 3 * k + w.pc.delay) where
  lowers := by
    rintro _ w a w' ⟨k, hk, rfl⟩ hs ha hgoal
    cases World.steps_of_step hs with
    | execute => cases ha
    | post => cases ha
    | submit hpc =>
      rw [hpc]
      exact ⟨3 * k, Nat.lt_succ_self _, k, hk, rfl⟩
    | turn hpc =>
      rcases World.step_turn hs hpc with ⟨hpc, heq⟩ | ⟨hpc, heq⟩
      · -- the batch is not empty
        obtain ⟨hlen, -⟩ := List.getElem?_eq_some_iff.mp hk
        obtain ⟨n, hn⟩ : ∃ n, min cqeBatchSize w.cq.length = n + 1 :=
          Nat.exists_eq_succ_of_ne_zero (Nat.ne_of_gt (lt_min (by decide) (by omega)))
        rw [heq, hpc, hn]
        exact ⟨3 * k, Nat.lt_succ_self _, k, hk, rfl⟩
      · rw [heq, hpc]
        exact ⟨3 * k + 1, Nat.lt_succ_self _, k, hk, rfl⟩
    | @handle junk pc c' cq srv hpc hcq =>
      obtain ⟨hzero, hdelay⟩ := hpc.delay
      rw [hcq] at hk
      cases k with
      | zero =>
        obtain rfl := Option.some.inj hk
        exact absurd (World.nextCqe_of_handling hpc hcq junk) hgoal
      | succ k =>
        refine ⟨3 * k + pc.delay, by omega, k, ?_, rfl⟩
        rwa [List.getElem?_cons_succ] at hk
  keeps := by
    rintro _ w a w' ⟨k, hk, rfl⟩ hs ha hgoal
    cases World.steps_of_step hs with
    | execute =>
      refine ⟨k, ?_, ?_⟩
      · rwa [World.perform_cq]
      · rw [World.perform_pc]
    | post =>
      obtain ⟨hlen, -⟩ := List.getElem?_eq_some_iff.mp hk
      refine ⟨k, ?_, rfl⟩
      rwa [List.getElem?_append_left hlen]
    | submit => cases ha
    | turn => cases ha
    | handle => cases ha

theorem World.ranked_sq (e : Sqe) : Ranked World.step Action.isServe
    (fun w _ => w.pc = .submit ∧ e ∈ w.srv.ring.sq)
    (fun n w => Reachable w ∧ e ∈ w.srv.ring.sq ∧ n = w.pc.unsubmitted) where
  lowers := by
    rintro _ w a w' ⟨hr, he, rfl⟩ hs ha hgoal
    have hr' : Reachable w' := .step hr trivial hs
    cases World.steps_of_step hs with
    | execute => cases ha
    | post => cases ha
    | submit hpc => exact absurd ⟨hpc, he⟩ hgoal
    | turn hpc =>
      rcases World.step_turn hs hpc with ⟨hpc, heq⟩ | ⟨hpc, heq⟩
      · rw [heq, hpc]
        refine ⟨min cqeBatchSize w.cq.length + 1, ?_, heq ▸ hr', he, rfl⟩
        exact Nat.succ_lt_succ (Nat.lt_succ_of_le (Nat.min_le_left _ _))
      · rw [heq, hpc]
        exact ⟨0, Nat.succ_pos 0, heq ▸ hr', he, rfl⟩
    | @handle junk pc c cq srv hpc hcq hok =>
      obtain ⟨v, hv, -⟩ := Run.entries hr
      obtain ⟨x, v', hx, hh, hv'⟩ := hv.handle pc hcq hok
      obtain ⟨l, hl, -⟩ := hh.sq
      refine ⟨pc.unsubmitted, hpc.unsubmitted, hr', ?_, rfl⟩
      have hmem : e ∈ v'.sq := by
        rw [hl]
        refine List.mem_append_left l ?_
        change e ∈ v.sq
        rwa [hv.models.sq]
      have hsq := hv'.models.sq
      rwa [hsq] at hmem
  keeps := by
    rintro _ w a w' ⟨hr, he, rfl⟩ hs ha hgoal
    have hr' : Reachable w' := .step hr trivial hs
    refine ⟨hr', ?_⟩
    cases World.steps_of_step hs with
    | execute =>
      rw [World.perform_ring, World.perform_pc]
      exact ⟨he, rfl⟩
    | post => exact ⟨he, rfl⟩
    | submit => cases ha
    | turn => cases ha
    | handle => cases ha

theorem Run.batch_le {ok : World → Action → Prop} {w : World} (hr : Run ok w) {n : ℕ}
    (hpc : w.pc = .batch n) : n ≤ cqeBatchSize := by
  induction hr generalizing n with
  | start hfd hw =>
    rename_i serverFd junk w
    obtain ⟨srv, j, bref, buf, c, hstart, -, -⟩ := World.start_spec serverFd junk
    rw [hstart] at hw
    obtain rfl := Except.ok.inj hw
    cases hpc
  | step hr ha hs ih =>
    cases World.steps_of_step hs with
    | execute => exact ih (by simpa only [World.perform_pc] using hpc)
    | post => exact ih hpc
    | submit => cases hpc
    | turn hp =>
      rcases World.step_turn hs hp with ⟨-, heq⟩ | ⟨-, heq⟩
      · rw [heq] at hpc
        obtain rfl := Pc.batch.inj hpc
        exact Nat.min_le_left _ _
      · rw [heq] at hpc
        cases hpc
    | @handle junk pc c cq srv hp =>
      simp only at hpc
      subst hpc
      unfold Pc.Handling at hp
      split at hp
      · cases hp
      · rename_i m _ hm
        obtain rfl := Pc.batch.inj hp
        exact Nat.le_of_succ_le (ih hm)
      · exact hp.elim

/-- Whatever the kernel does in between: a completion with `k` others before it is
handled after at most `3 * k + 2` other steps of the server, and an entry of the queue
is submitted after at most 34. The end of a batch is a step of its own. -/
theorem served_in_time (w w' : World) (hr : Reachable w) (as : List Action)
    (hrun : w.run as = some w') :
    (∀ k c, w.cq[k]? = some c → 3 * k + 2 < as.countP Action.isServe →
      ∃ as₁ a as₂ w₁, as = as₁ ++ a :: as₂ ∧ w.run as₁ = some w₁ ∧
        as₁.countP Action.isServe ≤ 3 * k + 2 ∧ w₁.nextCqe a = some c) ∧
    (∀ e ∈ w.srv.ring.sq, 34 < as.countP Action.isServe →
      ∃ as₁ a as₂ w₁, as = as₁ ++ a :: as₂ ∧ w.run as₁ = some w₁ ∧
        as₁.countP Action.isServe ≤ 34 ∧ w₁.pc = .submit ∧ e ∈ w₁.srv.ring.sq) := by
  rw [World.run_eq_foldlM] at hrun
  constructor
  · intro k c hk hn
    have hdelay : w.pc.delay ≤ 2 := by
      unfold Pc.delay
      split <;> omega
    obtain ⟨as₁, a, as₂, w₁, rfl, hrun₁, hcount, hgoal⟩ :=
      (World.ranked_cq c).reaches ⟨k, hk, rfl⟩ hrun (by omega)
    rw [← World.run_eq_foldlM] at hrun₁
    exact ⟨as₁, a, as₂, w₁, rfl, hrun₁, by omega, hgoal⟩
  · intro e he hn
    have hle : w.pc.unsubmitted ≤ 34 := by
      cases hpc : w.pc with
      | submit => exact Nat.zero_le _
      | wait =>
        rw [hr.wait_submitted hpc] at he
        cases he
      | peek => exact le_rfl
      | batch n => exact Nat.le_succ_of_le (Nat.succ_le_succ (hr.batch_le hpc))
    obtain ⟨as₁, a, as₂, w₁, rfl, hrun₁, hcount, hpc, hmem⟩ :=
      (World.ranked_sq e).reaches ⟨hr, he, rfl⟩ hrun (by omega)
    rw [← World.run_eq_foldlM] at hrun₁
    exact ⟨as₁, a, as₂, w₁, rfl, hrun₁, hcount.trans hle, hpc, hmem⟩

/-- The first accept, posted while the server waits. -/
theorem served_in_time_first : ∃ w c, Reachable w ∧ w.cq = [c] ∧
    ∃ as₁ a as₂ w₁, List.replicate 4 (.serve .zero) = as₁ ++ a :: as₂ ∧ w.run as₁ = some w₁ ∧
      w₁.nextCqe a = some c := by
  have hrun : (World.runMain 3 .zero [.serve .zero, .execute 0 5 [], .post 0]).map
      (fun w => (w.cq.length, (w.run (List.replicate 4 (.serve .zero))).isSome)) = some (1, true) := by
    decide +kernel
  obtain ⟨w, hw, hres⟩ := Option.map_eq_some_iff.mp hrun
  obtain ⟨hlen, hrun'⟩ := Prod.mk.inj hres
  obtain ⟨c, hcq⟩ := List.length_eq_one_iff.mp hlen
  obtain ⟨w', hw'⟩ := Option.isSome_iff_exists.mp hrun'
  have hr := World.runMain_reachable (by decide) hw
  obtain ⟨as₁, a, as₂, w₁, has, hrun₁, -, hnext⟩ :=
    (served_in_time w w' hr _ hw').1 0 c (by simp [hcq]) (by decide)
  exact ⟨w, c, hr, hcq, as₁, a, as₂, w₁, has, hrun₁, hnext⟩

end Caht
