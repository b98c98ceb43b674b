import Caht.Server.Outgoing
import Caht.Server.Pipelining

/-! # Room in the ring

Between two calls of `io_uring_submit` the handlers of up to 33 completions queue
entries. How many is known before a completion is handled: `Server.cost`. The queue
is full as soon as the costs add up to more than it has entries, which short messages
of a few clients achieve.
-/

namespace Caht
open Library Protocol

/-- The entries `handle_recv` takes for the first `n` bytes of `buf`: one for each
complete message and one to receive more. A header of length zero takes them all. -/
def recvCost (buf : List UInt8) (n : ℕ) : ℕ :=
  match scan buf 0 n with
  | none => queueSize + 1
  | some s => s.demand

/-- The queue entries that the handling of a completion takes. -/
def Server.cost (srv : Server) (cqe : Cqe) : ℕ :=
  match srv.getOp cqe.sqe.userData with
  | .error _ => 0
  | .ok o =>
    if cqe.res < 0 ∨ srv.info o.clientId = none then 0 else
      match o.type with
      | .accept => 2
      | .write => if opIsIncomplete o cqe.res.toNat then 1 else 0
      | .read =>
        if cqe.res = 0 then 0 else
          match srv.getBuf o.bufRef with
          | .error _ => 0
          | .ok buf => recvCost buf cqe.res.toNat

/-- From `w₀` on, without a call of `io_uring_submit`, `n` completions were handled;
`total` is the sum of their costs. -/
inductive World.Batch (w₀ : World) : ℕ → ℕ → World → Prop
  | start : Batch w₀ 0 0 w₀
  | other {n total : ℕ} {w w' : World} {a : Action} (h : Batch w₀ n total w)
      (ha : w.nextCqe a = none) (hpc : ∀ junk, a = .serve junk → w.pc ≠ .submit)
      (hs : w.step a = some w') : Batch w₀ n total w'
  | handle {n total : ℕ} {w w' : World} {a : Action} {cqe : Cqe} (h : Batch w₀ n total w)
      (ha : w.nextCqe a = some cqe) (hs : w.step a = some w') :
      Batch w₀ (n + 1) (total + w.srv.cost cqe) w'

/-! ## One completion -/

/-- The cost on the view. -/
def View.cost (v : View) (x : Held) (res : ℤ) : ℕ :=
  if res < 0 ∨ v.clients x.clientId = none then 0 else
    match x.type with
    | .accept => 2
    | .write => if res.toNat < sizeSub x.bufLen x.processed then 1 else 0
    | .read => if res = 0 then 0 else recvCost x.buf res.toNat

section
variable {srv srv' : Server} {v : View} {i : ℕ} {x : Held} {c : Client} {cqe : Cqe} {junk : Junk}

theorem Server.Models.cost (h : srv.Models v) (hi : v.ops cqe.sqe.userData = some x) :
    srv.cost cqe = v.cost x cqe.res := by
  simp only [Server.cost, View.cost, h.getOp hi]
  simp only [Held.operation, h.info_eq_none, h.getBuf hi]
  by_cases hout : cqe.res < 0 ∨ v.clients x.clientId = none
  · rw [if_pos hout, if_pos hout]
  rw [if_neg hout, if_neg hout]
  cases x.type with
  | accept => rfl
  | read => rfl
  | write =>
    by_cases hlt : cqe.res.toNat < sizeSub x.bufLen x.processed
    · exact (if_pos (decide_eq_true hlt)).trans (if_pos hlt).symm
    · exact (if_neg (mt of_decide_eq_true hlt)).trans (if_neg hlt).symm

theorem View.Looped.sq_length {off rest : ℕ} {past : ℕ → UInt8} {s : Scan}
    (h : v.Looped i x off rest past s srv') (hi : v.ops i = some x) :
    srv'.ring.sq.length = v.sq.length + s.demand := by
  obtain ⟨v₁, hans, hsrv'⟩ := h.answers
  obtain ⟨l, hl, -, hlen⟩ := hans.sq
  rw [← hsrv'.sq, Scan.demand]
  by_cases hs : s.stop = .header ∨ s.stop = .body
  · rw [if_pos hs, ((v₁.finishes i x s past).again (hans.op hi) hs).1, hl, List.length_append,
      List.length_append, List.length_singleton]
    omega
  · have hs' : s.stop = .tooLong ∨ s.stop = .refused := by
      cases hstop : s.stop <;> simp [hstop] at hs ⊢
    rw [if_neg hs, ((v₁.finishes i x s past).gone hs').1, hl, List.length_append]
    omega

/-- The entries a completion takes, and that they are there; or the queue has too few. -/
def View.Room (v : View) (n : ℕ) (y : Outcome Server) : Prop :=
  Ends y (fun srv' => srv'.ring.sq.length = v.sq.length + n ∧ v.sq.length + n ≤ v.entries)
    (fun e => e = .exit "SQ is full" ↔ v.entries < v.sq.length + n)

theorem Server.Models.handleRecv_room (h : srv.Models v) (hi : v.ops i = some x)
    (hc : v.clients x.clientId = some c) (hsq : v.sq.length ≤ v.entries)
    (hent : v.entries = queueSize) {n : ℕ} (hn : 0 < n) (hcap : n ≤ x.bufCap) (junk : Junk) :
    v.Room (recvCost x.buf n) (Caht.handleRecv srv c.node i n junk) := by
  refine (h.handleRecv_loop hi hc junk hn hcap).mono ?_ ?_
  · rintro srv' ⟨s, hl⟩
    have hcost : recvCost x.buf n = s.demand := by rw [recvCost, hl.scan]
    have hroom := hl.room
    rw [max_eq_right hsq] at hroom
    rw [hcost]
    exact ⟨hl.sq_length hi, hroom⟩
  · intro e he
    unfold View.LoopFails at he
    unfold recvCost
    cases hscan : scan x.buf 0 n with
    | none =>
      rw [hscan] at he
      simp only at he ⊢
      exact ⟨fun _ => by omega, fun _ => he⟩
    | some s =>
      rw [hscan] at he
      rcases he with ⟨rfl, hfull⟩ | ⟨rfl, -, -, hroom⟩
      · exact ⟨fun _ => hfull, fun _ => rfl⟩
      · rw [max_eq_right hsq] at hroom
        exact ⟨fun heq => by simp at heq, fun hlt => by simp only at hlt; omega⟩

theorem Server.Models.handleSend_room (h : srv.Models v) (hi : v.ops i = some x) (hsq : v.sq.length ≤ v.entries)
    (n : ℕ) : v.Room (if n < sizeSub x.bufLen x.processed then 1 else 0) (Caht.handleSend srv i n) := by
  have hinc : opIsIncomplete (x.operation i) n = decide (n < sizeSub x.bufLen x.processed) := rfl
  unfold Caht.handleSend
  rw [h.getOp hi, ok_bind, hinc]
  by_cases hlt : n < sizeSub x.bufLen x.processed
  · rw [if_pos (decide_eq_true hlt), if_pos hlt]
    refine (h.resumeSend hi n).mono ?_ ?_
    · rintro srv' ⟨hroom, hsrv'⟩
      rw [← hsrv'.sq]
      exact ⟨List.length_append, hroom⟩
    · rintro e ⟨rfl, hfull⟩
      exact ⟨fun _ => by omega, fun _ => rfl⟩
  · obtain ⟨srv', hfree, hsrv', -⟩ := h.freeOp hi
    rw [if_neg hlt, decide_eq_false hlt, if_neg Bool.false_ne_true, hfree]
    refine ⟨?_, hsq⟩
    rw [← hsrv'.sq]
    rfl

theorem Server.Models.handleAccept_room (h : srv.Models v) (hi : v.ops i = some x)
    (hc : v.clients x.clientId = some c) (fd : ℤ) (junk : Junk) :
    v.Room 2 (Caht.handleAccept srv fd c.node i junk) := by
  refine (h.handleAccept hi hc fd junk).mono ?_ ?_
  · rintro srv' ⟨hroom, -, j, bref, buf, c', -, -, hsrv'⟩
    refine ⟨?_, hroom⟩
    rw [← hsrv'.sq, View.acceptNext_sq, View.connect_sq, List.length_append, List.length_append]
    rfl
  · rintro e (⟨rfl, hfull⟩ | ⟨rfl, -, hroom⟩)
    · exact ⟨fun _ => by omega, fun _ => rfl⟩
    · refine ⟨fun heq => ?_, fun hlt => ?_⟩
      · cases heq
      · omega

theorem Server.Models.disconnect_room (h : srv.Models v) (hi : v.ops i = some x)
    (hc : v.clients x.clientId = some c) (hsq : v.sq.length ≤ v.entries) :
    v.Room 0 (Caht.disconnectAndFreeOp srv (some c.node) i) := by
  refine (h.disconnectAndFreeOp hi hc c.node).mono ?_ ?_
  · rintro srv' ⟨-, hsrv', -⟩
    refine ⟨?_, hsq⟩
    rw [← hsrv'.sq]
    rfl
  · rintro e ⟨rfl, -⟩
    exact ⟨fun heq => by simp at heq, fun hlt => by omega⟩

/-- The handler of a completion takes as many entries as it costs. -/
theorem Server.Models.handleCqe_room (h : srv.Models v) (hi : v.ops cqe.sqe.userData = some x)
    (hcap : x.type = .read → cqe.res.toNat ≤ x.bufCap) (hsq : v.sq.length ≤ v.entries)
    (hent : v.entries = queueSize) (junk : Junk) :
    v.Room (v.cost x cqe.res) (Caht.handleCqe srv cqe junk) := by
  have hlog := h.log (x.completed cqe)
  rw [h.handleCqe_eq hi]
  cases hc : v.clients x.clientId with
  | none =>
    obtain ⟨srv', hfree, hsrv', -⟩ := hlog.freeOp (x := x) hi
    simp only [Option.map_none, dispatch, Caht.disconnectAndFreeOp, hfree, ite_self, View.cost, hc,
      or_true, if_true]
    refine ⟨?_, hsq⟩
    rw [← hsrv'.sq]
    rfl
  | some c =>
    simp only [Option.map_some, dispatch]
    by_cases hres : cqe.res < 0
    · rw [if_pos hres, View.cost, if_pos (.inl hres)]
      exact hlog.disconnect_room (x := x) hi hc hsq
    have hcost : ¬ (cqe.res < 0 ∨ v.clients x.clientId = none) := by simp [hres, hc]
    rw [if_neg hres, View.cost, if_neg hcost]
    cases ht : x.type with
    | accept => exact hlog.handleAccept_room (x := x) hi hc cqe.res junk
    | write => exact hlog.handleSend_room (x := x) hi hsq cqe.res.toNat
    | read =>
      simp only
      by_cases hz : cqe.res = 0
      · rw [if_pos hz, hz, Int.toNat_zero, Caht.handleRecv, if_pos rfl]
        exact hlog.disconnect_room (x := x) hi hc hsq
      · rw [if_neg hz]
        exact hlog.handleRecv_room (x := x) hi hc hsq hent (by omega) (hcap ht) junk

/-! ## The size of the ring -/

theorem View.Answers.entries {v v' : View} {id : UInt64} {fd : ℤ} {ms : List Message}
    (ha : v.Answers id fd ms v') : v'.entries = v.entries := by
  induction ha with
  | nil v => rfl
  | cons _ _ ih => rw [ih, View.answer_entries]

theorem View.Handles.entries {v' : View} {res : ℤ} (hh : v.Handles i x res v') :
    v'.entries = v.entries := by
  cases hh with
  | stale => rfl
  | dropped => rfl
  | accepted => rw [View.acceptNext_entries, View.connect_entries]
  | received _ _ _ _ ha _ => rw [(View.finishes ..).entries, ha.entries]
  | resumed => rfl
  | sent => rfl

theorem View.perform_entries (v : View) (sqe : Sqe) (res : ℤ) (data : List UInt8) (k : ℕ) :
    (v.perform sqe res data k).entries = v.entries := by
  unfold View.perform
  split
  · split <;> rfl
  · rfl
  · rfl

theorem World.Moves.entries {w w' : World} {v' : View} {a : Action} (hm : w.Moves v a w' v') :
    v'.entries = v.entries := by
  cases hm with
  | execute => exact View.perform_entries _ _ _ _ _
  | post => rfl
  | submit => rfl
  | turn => rfl
  | handle _ _ _ _ hh => exact hh.entries

theorem Run.entries {ok : World → Action → Prop} {w : World} (hr : Run ok w) :
    ∃ v, w.Owned v ∧ v.entries = queueSize := by
  refine Run.induct (P := fun _ v => v.entries = queueSize) ?_ ?_ hr
  · intro srv serverFd j bref buf c _ _ _
    rw [View.acceptNext_entries]
    rfl
  · intro w v a w' v' _ h _ hm _
    exact hm.entries.trans h

/-! ## A batch -/

theorem World.Owned.room {w : World} (h : w.Owned v) (hent : v.entries = queueSize)
    (hsq : w.srv.ring.sq.length ≤ queueSize) {cq : List Cqe} (hcq : w.cq = cqe :: cq) (junk : Junk) :
    Ends (handleCqe w.srv cqe junk)
      (fun srv' => srv'.ring.sq.length = w.srv.ring.sq.length + w.srv.cost cqe ∧
        w.srv.ring.sq.length + w.srv.cost cqe ≤ queueSize)
      (fun e => e = .exit "SQ is full" ↔ queueSize < w.srv.ring.sq.length + w.srv.cost cqe) := by
  have hmem : cqe.ticket ∈ queue v.sq ++ w.outstanding := by simp [World.outstanding, hcq]
  obtain ⟨x, hx, hfit⟩ := h.owns.held hmem
  rw [h.models.cost hx, ← h.models.sq, ← hent]
  rw [← h.models.sq, ← hent] at hsq
  exact h.models.handleCqe_room hx (hfit.res_le rfl) hsq hent junk

theorem World.perform_ring (w : World) (s : Submitted) (res : ℤ) (data : List UInt8) :
    (w.perform s res data).srv.ring = w.srv.ring := by
  unfold World.perform
  split
  · split <;> rfl
  · rfl
  · split <;> rfl

theorem World.nextCqe_of_handling {w : World} {pc : Pc} {cq : List Cqe} (hpc : w.pc.Handling pc)
    (hcq : w.cq = cqe :: cq) (junk : Junk) : w.nextCqe (.serve junk) = some cqe := by
  unfold World.nextCqe
  cases hp : w.pc with
  | submit => simp [hp, Pc.Handling] at hpc
  | wait => simp [hcq]
  | peek => simp [hp, Pc.Handling] at hpc
  | batch n =>
    cases n with
    | zero => simp [hp, Pc.Handling] at hpc
    | succ n => simp [hcq]

theorem World.step_other {w w' : World} {a : Action} (ha : w.nextCqe a = none)
    (hpc : ∀ junk, a = .serve junk → w.pc ≠ .submit) (hs : w.step a = some w') :
    w'.srv.ring.sq = w.srv.ring.sq := by
  cases World.steps_of_step hs with
  | execute => simp only [World.perform_ring]
  | post => rfl
  | submit hp => exact absurd hp (hpc _ rfl)
  | turn => rfl
  | handle hp hcq _ => simp [World.nextCqe_of_handling hp hcq] at ha

theorem World.step_handle {w w' : World} {a : Action} (ha : w.nextCqe a = some cqe)
    (hs : w.step a = some w') :
    ∃ cq junk, w.cq = cqe :: cq ∧ handleCqe w.srv cqe junk = .ok w'.srv := by
  cases World.steps_of_step hs with
  | execute => simp [World.nextCqe] at ha
  | post => simp [World.nextCqe] at ha
  | submit hp => simp [World.nextCqe, hp] at ha
  | turn hp => rcases hp with hp | hp <;> simp [World.nextCqe, hp] at ha
  | @handle junk pc c cq srv hp hcq h =>
    rw [World.nextCqe_of_handling hp hcq] at ha
    obtain rfl := Option.some.inj ha
    exact ⟨cq, junk, hcq, h⟩

theorem World.Batch.reachable {w₀ w : World} {n total : ℕ} (hb : w₀.Batch n total w)
    (hr : Reachable w₀) : Reachable w := by
  induction hb with
  | start => exact hr
  | other _ _ _ hs ih => exact .step ih trivial hs
  | handle _ _ hs ih => exact .step ih trivial hs

theorem World.Batch.queued {w₀ w : World} {n total : ℕ} (hb : w₀.Batch n total w) (hr : Reachable w₀)
    (hsq : w₀.srv.ring.sq = []) : w.srv.ring.sq.length = total ∧ total ≤ queueSize := by
  induction hb with
  | start => simp [hsq]
  | other h ha hpc hs ih => rwa [World.step_other ha hpc hs]
  | @handle n total w w' a cqe h ha hs ih =>
    obtain ⟨hlen, hle⟩ := ih
    obtain ⟨cq, junk, hcq, hok⟩ := World.step_handle ha hs
    obtain ⟨v, hv, hent⟩ := Run.entries (h.reachable hr)
    rw [← hlen]
    exact (hv.room hent (by omega) hcq junk).ok hok

/-- How many completions can have been handled where the server is. -/
def Pc.Handled (n : ℕ) : Pc → Prop
  | .wait => n = 0
  | .peek => n = 1
  | .batch m => n + m ≤ 1 + cqeBatchSize
  | .submit => n ≤ 1 + cqeBatchSize

theorem World.perform_pc (w : World) (s : Submitted) (res : ℤ) (data : List UInt8) :
    (w.perform s res data).pc = w.pc := by
  unfold World.perform
  split
  · split <;> rfl
  · rfl
  · split <;> rfl

/-- One completion from `io_uring_wait_cqe`, the others from `io_uring_peek_batch_cqe`. -/
theorem World.Batch.handled {w₀ w : World} {n total : ℕ} (hb : w₀.Batch n total w)
    (hpc₀ : w₀.pc = .wait) : w.pc.Handled n := by
  induction hb with
  | start =>
    rw [hpc₀]
    rfl
  | other h ha hpc hs ih =>
    cases World.steps_of_step hs with
    | execute => simpa only [World.perform_pc] using ih
    | post => exact ih
    | submit hp => exact absurd hp (hpc _ rfl)
    | turn hp =>
      rcases hp with hp | hp
      · simp only [World.step, World.serve, hp, Option.some.injEq, World.mk.injEq, true_and] at hs
        rw [hp] at ih
        simp only [← hs, Pc.Handled] at ih ⊢
        omega
      · simp only [World.step, World.serve, hp, Option.some.injEq, World.mk.injEq, true_and] at hs
        rw [hp] at ih
        simp only [← hs, Pc.Handled] at ih ⊢
        omega
    | handle hp hcq _ => simp [World.nextCqe_of_handling hp hcq] at ha
  | @handle n total w w' a cqe h ha hs ih =>
    cases World.steps_of_step hs with
    | execute => simp [World.nextCqe] at ha
    | post => simp [World.nextCqe] at ha
    | submit hp => simp [World.nextCqe, hp] at ha
    | turn hp => rcases hp with hp | hp <;> simp [World.nextCqe, hp] at ha
    | handle hp hcq _ =>
      cases hpw : w.pc with
      | submit => simp [hpw, Pc.Handling] at hp
      | wait =>
        rw [hpw] at hp ih
        obtain rfl : n = 0 := ih
        simp only [Pc.Handling] at hp
        rw [hp]
        rfl
      | peek => simp [hpw, Pc.Handling] at hp
      | batch m =>
        cases m with
        | zero => simp [hpw, Pc.Handling] at hp
        | succ m =>
          rw [hpw] at hp ih
          simp only [Pc.Handling] at hp
          simp only [hp, Pc.Handled] at ih ⊢
          omega

end

/-- From every reachable state with an empty queue on: as many entries are queued as the
completions handled so far cost, and the handler of the next one finds the queue full
exactly if it takes the sum beyond the 4096 entries. At most 33 completions are handled
between two calls of `io_uring_submit`. -/
theorem ring_capacity (w₀ w : World) (n total : ℕ) (hr : Reachable w₀) (hsq : w₀.srv.ring.sq = [])
    (hb : w₀.Batch n total w) :
    (w₀.pc = .wait → n ≤ 33) ∧ w.srv.ring.sq.length = total ∧ total ≤ 4096 ∧
      ∀ cqe cq junk, w.cq = cqe :: cq →
        (handleCqe w.srv cqe junk = .error (.exit "SQ is full") ↔ 4096 < total + w.srv.cost cqe) := by
  obtain ⟨hlen, hle⟩ := hb.queued hr hsq
  refine ⟨?_, hlen, hle, ?_⟩
  · intro hpc
    have hn := hb.handled hpc
    cases hp : w.pc <;> simp only [hp, Pc.Handled, cqeBatchSize] at hn <;> omega
  · intro cqe cq junk hcq
    obtain ⟨v, hv, hent⟩ := Run.entries (hb.reachable hr)
    have hroom := hv.room hent (by omega) hcq junk
    rw [hlen] at hroom
    cases hrun : handleCqe w.srv cqe junk with
    | ok srv' =>
      have hok := (hroom.ok hrun).2
      simp only [queueSize] at hok
      simp only [reduceCtorEq, false_iff]
      omega
    | error e =>
      rw [Except.error.injEq]
      exact hroom.error hrun

/-- One message, which takes a reply and the next receive, and then a connection, which takes
as many. -/
theorem ring_capacity_one_message : ∃ (w₀ w : World) (cqe : Cqe), Reachable w₀ ∧ w₀.Batch 1 2 w ∧
    w.cq = [cqe] ∧ w.srv.ring.sq.length = 2 ∧ w.srv.cost cqe = 2 ∧
    handleCqe w.srv cqe .zero ≠ .error (.exit "SQ is full") := by
  have hrun : (World.delivered [0, 14, 1, 0, 0, 0, 0, 0, 0, 0, 7, 97, 98, 99]).bind (fun w₀ =>
      (w₀.step (.serve .zero)).bind fun w₁ => (w₁.step (.execute 0 6 [])).bind fun w₂ =>
        (w₂.step (.post 0)).map fun w =>
          (w₀.srv.ring.sq, (w₀.nextCqe (.serve .zero)).map w₀.srv.cost, w.cq.map w.srv.cost)) =
      some ([], some 2, [2]) := by
    decide +kernel
  obtain ⟨w₀, hw₀, hrun⟩ := Option.bind_eq_some_iff.mp hrun
  obtain ⟨w₁, hw₁, hrun⟩ := Option.bind_eq_some_iff.mp hrun
  obtain ⟨w₂, hw₂, hrun⟩ := Option.bind_eq_some_iff.mp hrun
  obtain ⟨w, hw, hres⟩ := Option.map_eq_some_iff.mp hrun
  simp only [Prod.mk.injEq] at hres
  obtain ⟨hsq, hnext, hcost⟩ := hres
  obtain ⟨c, hc, hctwo⟩ := Option.map_eq_some_iff.mp hnext
  obtain ⟨cqe, hcq, htwo⟩ := List.map_eq_singleton_iff.mp hcost
  have hr := World.runMain_reachable (by decide) hw₀
  have hb : w₀.Batch 1 2 w := by
    have h₁ : w₀.Batch (0 + 1) (0 + w₀.srv.cost c) w₁ := .handle .start hc hw₁
    rw [hctwo] at h₁
    exact .other (.other h₁ rfl (fun _ h => by cases h) hw₂) rfl (fun _ h => by cases h) hw
  obtain ⟨-, hlen, -, hfull⟩ := ring_capacity w₀ w 1 2 hr hsq hb
  refine ⟨w₀, w, cqe, hr, hb, hcq, hlen, htwo, ?_⟩
  rw [Ne, hfull cqe [] .zero hcq, htwo]
  decide

/-! ## Many short messages -/

/-- The completion of a receive of complete `SET_USERNAME` frames, for a client in the
map. -/
def View.Delivers (v : View) (fs : List Frame) (cqe : Cqe) : Prop :=
  ∃ x c, v.ops cqe.sqe.userData = some x ∧ x.type = .read ∧ v.clients x.clientId = some c ∧
    (stream fs).length ≤ x.bufCap ∧ stream fs <+: x.buf ∧ cqe.res = (stream fs).length

section
variable {srv : Server} {v : View} {fs : List Frame} {cqe : Cqe}

/-- Such a completion takes one entry more than there are frames, and leaves the other
receives as they are. -/
theorem Server.Models.handleCqe_frames (h : srv.Models v) (hd : v.Delivers fs cqe)
    (hacc : ∀ f ∈ fs, f.Accepted) (hpos : 0 < (stream fs).length) (hsq : v.sq.length ≤ v.entries)
    (junk : Junk) : Ends (Caht.handleCqe srv cqe junk)
      (fun srv' => ∃ v', srv'.Models v' ∧ v'.entries = v.entries ∧
        v'.sq.length = v.sq.length + (fs.length + 1) ∧ v'.sq.length ≤ v'.entries ∧
        ∀ d, d.sqe.userData ≠ cqe.sqe.userData → v.Delivers fs d → v'.Delivers fs d)
      (fun e => e = .exit "SQ is full") := by
  obtain ⟨x, c, hi, ht, hc, hcap, ⟨extra, hbuf⟩, hres⟩ := hd
  have hlog := h.log (x.completed cqe)
  have hn : cqe.res.toNat = (stream fs).length := by omega
  have hscan : scan x.buf 0 (stream fs).length =
      some ⟨fs.map Frame.toMessage, (stream fs).length, 0, .header⟩ := by
    have hall := scan_frames fs hacc [] [] extra
    rw [List.nil_append, List.nil_append, hbuf, List.length_nil, Nat.add_zero, Nat.zero_add,
      scan_eq x.buf (stream fs).length 0, if_pos (by decide), Option.map_some, List.append_nil] at hall
    exact hall
  rw [h.handleCqe_eq hi, hc]
  simp only [Option.map_some, dispatch, ht]
  rw [if_neg (by omega), hn]
  refine (hlog.handleRecv_loop (x := x) hi hc junk hpos hcap).mono ?_ ?_
  · rintro srv' ⟨s, hl⟩
    have hlen := hl.sq_length (x := x) hi
    have hroom := hl.room
    obtain ⟨v₁, hans, hsrv'⟩ := hl.answers
    have hs := Option.some.inj (hl.scan.symm.trans hscan)
    have hdemand : s.demand = fs.length + 1 := by
      rw [hs]
      simp [Scan.demand]
    have hf := v₁.finishes cqe.sqe.userData x s junk.past
    obtain ⟨-, -, hcl, -⟩ := hf.again (hans.op (x := x) hi) (.inl (by rw [hs]))
    have hent : (v₁.finish cqe.sqe.userData x s junk.past).entries = v.entries :=
      hf.entries.trans hans.entries
    rw [← hsrv'.sq, hdemand] at hlen
    rw [hdemand] at hroom
    refine ⟨_, hsrv', hent, hlen, ?_, ?_⟩
    · rw [hlen, hent]
      exact hroom.trans (max_le hsq le_rfl)
    · rintro d hne ⟨y, c', hy, hyt, hc', hycap, hybuf, hdres⟩
      have hc₁ : (v₁.finish cqe.sqe.userData x s junk.past).clients y.clientId ≠ none := by
        rw [hcl, Ne, hans.client]
        exact fun hnone => by cases hc'.symm.trans hnone
      obtain ⟨c'', hc''⟩ := Option.ne_none_iff_exists'.mp hc₁
      exact ⟨y, c'', (hf.ops_of_ne hne).trans (hans.op hy), hyt, hc'', hycap, hybuf, hdres⟩
  · intro e he
    unfold View.LoopFails at he
    rw [hscan] at he
    rcases he with ⟨rfl, -⟩ | ⟨-, hstop, -⟩
    · rfl
    · rcases hstop with hstop | hstop <;> cases hstop

theorem Server.Models.runAll_frames (h : srv.Models v) (hacc : ∀ f ∈ fs, f.Accepted)
    (hpos : 0 < (stream fs).length) (hsq : v.sq.length ≤ v.entries) (junk : Junk) {cqes : List Cqe}
    (hall : ∀ d ∈ cqes, v.Delivers fs d) (hnd : (cqes.map fun d => d.sqe.userData).Nodup) :
    Ends (runAll (fun srv d => Caht.handleCqe srv d junk) srv cqes)
      (fun _ => v.sq.length + cqes.length * (fs.length + 1) ≤ v.entries)
      (fun e => e = .exit "SQ is full") := by
  induction cqes generalizing srv v with
  | nil => simpa [runAll, Ends] using hsq
  | cons d cqes ih =>
    rw [List.map_cons, List.nodup_cons] at hnd
    refine (h.handleCqe_frames (hall d List.mem_cons_self) hacc hpos hsq junk).bind ?_
    rintro srv' ⟨v', hsrv', hent, hlen, hle, hkeep⟩
    have hrest : ∀ d' ∈ cqes, v'.Delivers fs d' := by
      intro d' hd'
      refine hkeep d' ?_ (hall d' (List.mem_cons_of_mem _ hd'))
      intro heq
      exact hnd.1 (heq ▸ List.mem_map_of_mem hd')
    refine (ih hsrv' hle hrest hnd.2).mono ?_ fun e he => he
    intro _ hroom
    rw [hlen, hent] at hroom
    rw [List.length_cons, Nat.add_mul, Nat.one_mul]
    omega

end

/-! ## Where the received bytes are -/

/-- A receive into the start of its buffer has put its bytes there. -/
def World.Filled (w : World) (v : View) : Prop :=
  ∀ d ∈ w.executed ++ w.cq, ∀ fd b len x, d.sqe.request = .recv fd b 0 len →
    v.ops d.sqe.userData = some x → d.data <+: x.buf

section
variable {w w' : World} {v v' : View}

theorem World.ticket_mem {d : Cqe} (hd : d ∈ w.executed ++ w.cq) (sq : List Sqe) :
    d.ticket ∈ queue sq ++ w.outstanding := by
  refine List.mem_append_right _ (List.mem_append_right _ ?_)
  rw [← List.map_append]
  exact List.mem_map_of_mem hd

theorem World.Filled.execute {i : ℕ} {s : Submitted} {res : ℤ} {data : List UInt8} (h : w.Filled v)
    (hw : w.Owned v) (hs : w.inflight[i]? = some s) : World.Filled { w.perform s res data with
      inflight := w.inflight.eraseIdx i, executed := w.executed ++ [⟨s.sqe, res, data⟩] }
      (v.perform s.sqe res data w.conns.length) := by
  have hself : s.ticket ∈ queue v.sq ++ w.outstanding := by
    refine List.mem_append_right _ (List.mem_append_left _ ?_)
    exact List.mem_map_of_mem (List.mem_of_getElem? hs)
  intro d hd fd b len x hreq hx
  rw [List.mem_append, List.mem_append, List.mem_singleton, World.perform_cq] at hd
  by_cases hold : d ∈ w.executed ++ w.cq
  · -- another operation, whose buffer the execution leaves alone
    have hne : d.sqe.userData ≠ s.sqe.userData := by
      intro heq
      have hst := congrArg Ticket.stage (hw.owns.eq_of_id (World.ticket_mem hold v.sq) hself heq)
      cases hst
    refine h d hold fd b len x hreq ?_
    unfold View.perform at hx
    split at hx
    · split at hx <;> exact hx
    · simpa only [View.setOp, Function.update_of_ne hne] using hx
    · exact hx
  · obtain rfl : d = ⟨s.sqe, res, data⟩ := by
      rw [List.mem_append] at hold
      tauto
    simp only at hreq hx ⊢
    rw [View.perform, hreq] at hx
    simp only [View.setOp_self] at hx
    obtain ⟨y, -, rfl⟩ := Option.map_eq_some_iff.mp hx
    simp only [writeAt_zero]
    exact List.prefix_append _ _

theorem World.Filled.moves {a : Action} (h : w.Filled v) (hw : w.Owned v) (hm : w.Moves v a w' v') :
    w'.Filled v' := by
  cases hm with
  | execute hs _ => exact h.execute hw hs
  | @post i c hc =>
    intro d hd
    refine h d ?_
    simp only [List.mem_append, List.mem_singleton] at hd ⊢
    rcases hd with hd | hd | rfl
    · exact .inl (List.mem_of_mem_eraseIdx hd)
    · exact .inr hd
    · exact .inl (List.mem_of_getElem? hc)
  | submit => exact h
  | turn => exact h
  | @handle junk pc c cq srv x v' hpc hcq hrun hx hh =>
    intro d hd fd b len y hreq hy
    have hd' : d ∈ w.executed ++ w.cq := by
      rw [hcq]
      simp only [List.mem_append, List.mem_cons] at hd ⊢
      tauto
    have hp := (hw.owns.perm (List.Perm.append_left _ (World.outstanding_handle hcq))).perm
      List.perm_middle
    have hne : d.ticket.id ≠ c.ticket.id := by
      refine hp.ne_of_mem (List.mem_append_right _ (List.mem_append_right _ ?_))
      rw [← List.map_append]
      exact List.mem_map_of_mem hd
    obtain ⟨z, hz, -⟩ := hw.owns.held (World.ticket_mem hd' v.sq)
    obtain rfl := Option.some.inj ((hh.op_of_ne hne hz).symm.trans hy)
    exact h d hd' fd b len z hreq hz

theorem Run.filled {ok : World → Action → Prop} (hr : Run ok w) : ∃ v, w.Owned v ∧ w.Filled v := by
  refine Run.induct (P := fun w v => w.Filled v) ?_ ?_ hr
  · intro srv serverFd j bref buf c _ _ _ d hd
    simp at hd
  · intro w v a w' v' hw h _ hm _
    exact h.moves hw hm

theorem Run.data {ds : List (List UInt8)}
    (hr : Run (fun _ a => ∀ i res data, a = .execute i res data → data ∈ ds) w) :
    ∀ d ∈ w.executed ++ w.cq, d.data ∈ ds := by
  induction hr with
  | start hfd h =>
    rename_i serverFd junk w
    obtain ⟨srv, j, bref, buf, c, hs, -, -⟩ := World.start_spec serverFd junk
    obtain rfl := Except.ok.inj (hs.symm.trans h)
    intro d hd
    simp at hd
  | step _ ha hs ih =>
    cases World.steps_of_step hs with
    | execute =>
      intro d hd
      rw [List.mem_append, List.mem_append, List.mem_singleton, World.perform_cq] at hd
      rcases hd with (hd | rfl) | hd
      · exact ih d (List.mem_append_left _ hd)
      · exact ha _ _ _ rfl
      · exact ih d (List.mem_append_right _ hd)
    | post hc =>
      intro d hd
      simp only [List.mem_append, List.mem_singleton] at hd ih
      rcases hd with hd | hd | rfl
      · exact ih d (.inl (List.mem_of_mem_eraseIdx hd))
      · exact ih d (.inr hd)
      · exact ih d (.inl (List.mem_of_getElem? hc))
    | submit => exact ih
    | turn => exact ih
    | handle _ hcq _ =>
      intro d hd
      refine ih d ?_
      rw [hcq]
      simp only [List.mem_append, List.mem_cons] at hd ⊢
      tauto

end

/-! ## A full queue -/

/-- The shortest frame. -/
def shortest : Frame := ⟨1, 7, [], by decide⟩

/-- As many of them as fit into a receive buffer. -/
def flood : List UInt8 := stream (List.replicate 186 shortest)

/-- `k` clients connect. Then all of them send `flood`, and the completions of the
receives are posted. -/
def floodActions (k : ℕ) : List Action :=
  .serve .zero :: (List.range k).flatMap (fun j => Action.complete j (5 + j) []) ++
    (List.replicate k (.execute 0 2046 flood) ++ List.replicate k (.post 0))

theorem floodActions_data (k : ℕ) : ∀ a ∈ floodActions k, ∀ i res data, a = .execute i res data →
    data ∈ [[], flood] := by
  rintro a ha i res data rfl
  simp only [floodActions, List.mem_append, List.mem_cons, List.mem_flatMap, Action.complete,
    List.mem_replicate, reduceCtorEq, and_false, or_false, false_or, List.not_mem_nil,
    Action.execute.injEq] at ha
  rcases ha with ⟨j, -, -, -, rfl⟩ | ⟨-, -, -, rfl⟩
  · exact List.mem_cons_self
  · exact List.mem_cons_of_mem _ List.mem_cons_self

/-- The completion of a receive that filled the start of its buffer with `flood`. -/
def World.floods (w : World) (d : Cqe) : Bool :=
  match w.op d.sqe.userData, d.sqe.request with
  | some o, .recv _ _ 0 _ => d.res = 2046 && (w.srv.info o.clientId).isSome
  | _, _ => false

theorem World.Owned.delivers {w : World} {v : View} (h : w.Owned v) (hf : w.Filled v) {d : Cqe}
    (hd : d ∈ w.executed ++ w.cq) (hdata : d.data ∈ [[], flood]) (hw : w.floods d = true) :
    v.Delivers (List.replicate 186 shortest) d ∧ d.data = flood := by
  have hlen : flood.length = 2046 := by decide +kernel
  obtain ⟨x, hx, hfit⟩ := h.owns.held (World.ticket_mem hd v.sq)
  have hop : w.op d.sqe.userData = some (x.operation d.sqe.userData) := h.op_eq_some.mpr ⟨x, hx, rfl⟩
  cases hreq : d.sqe.request with
  | accept => simp [World.floods, hop, hreq] at hw
  | send => simp [World.floods, hop, hreq] at hw
  | recv fd b off len =>
    cases off with
    | succ off => simp [World.floods, hop, hreq] at hw
    | zero =>
      simp only [World.floods, hop, hreq, Bool.and_eq_true, decide_eq_true_eq] at hw
      obtain ⟨hres, hinfo⟩ := hw
      obtain ⟨hfits, hadm⟩ := hfit
      simp only [Cqe.ticket, hreq, Request.Fits] at hfits
      have hrecv := hadm d.res d.data rfl
      simp only [Cqe.ticket, hreq, Request.Admits] at hrecv
      have hflood : d.data = flood := by
        rcases List.mem_cons.mp hdata with hnil | hmem
        · rw [hnil] at hrecv
          simp at hrecv
          omega
        · exact List.mem_singleton.mp hmem
      have hcl : v.clients x.clientId ≠ none := by
        intro hnone
        rw [Held.operation, h.models.info_eq_none.mpr hnone] at hinfo
        cases hinfo
      obtain ⟨c, hc⟩ := Option.ne_none_iff_exists'.mp hcl
      refine ⟨⟨x, c, hx, hfits.1, hc, ?_, ?_, ?_⟩, hflood⟩
      · rw [hfits.2.2.2.1]
        exact hlen.le.trans (by decide)
      · rw [← show d.data = stream (List.replicate 186 shortest) from hflood]
        exact hf d hd fd b len x hreq hx
      · rw [hres]
        exact congrArg Nat.cast hlen.symm

/-- Twenty-two clients with 186 short messages each: the server has 22 completions to
handle, of receives of whole frames, and exits. -/
theorem ring_overflows : ∃ w : World, Reachable w ∧ w.srv.ring = ⟨4096, []⟩ ∧ w.pc = .wait ∧
    w.cq.length = 22 ∧ (∀ d ∈ w.cq, d.data = stream (List.replicate 186 shortest)) ∧
    runAll (fun srv d => handleCqe srv d .zero) w.srv w.cq = .error (.exit "SQ is full") := by
  have hrun : (World.runMain 3 .zero (floodActions 22)).map (fun w => (w.srv.ring, w.pc)) =
      some (⟨4096, []⟩, .wait) := by
    decide +kernel
  have hcq : (World.runMain 3 .zero (floodActions 22)).map (fun w => (w.cq.length, w.cq.all w.floods)) =
      some (22, true) := by
    decide +kernel
  obtain ⟨w, hw, hres⟩ := Option.map_eq_some_iff.mp hrun
  obtain ⟨hring, hpc⟩ := Prod.mk.inj hres
  rw [hw, Option.map_some] at hcq
  obtain ⟨hlen, hall⟩ := Prod.mk.inj (Option.some.inj hcq)
  have hr := World.runMain_run (by decide) (fun a ha _ => floodActions_data 22 a ha) hw
  obtain ⟨v, hv, hf⟩ := Run.filled hr
  have hd : ∀ d ∈ w.cq, v.Delivers (List.replicate 186 shortest) d ∧ d.data = flood := by
    intro d hd
    have hmem := List.mem_append_right w.executed hd
    exact hv.delivers hf hmem (hr.data d hmem) (List.all_eq_true.mp hall d hd)
  refine ⟨w, hr.reachable, hring, hpc, hlen, fun d hmem => (hd d hmem).2, ?_⟩
  have hsq : v.sq.length = 0 := by rw [hv.models.sq, hring, List.length_nil]
  have hent : v.entries = 4096 := by rw [hv.models.entries, hring]
  have hnd : (w.cq.map fun d => d.sqe.userData).Nodup := by
    have hsub : w.cq.map Cqe.ticket <:+ queue v.sq ++ w.outstanding := by
      rw [World.outstanding, ← List.append_assoc, ← List.append_assoc]
      exact List.suffix_append _ _
    have hids := (hsub.sublist.map Ticket.id).nodup hv.owns.nodup
    rwa [List.map_map] at hids
  have hacc : ∀ f ∈ List.replicate 186 shortest, f.Accepted := by
    intro f hmem
    rw [List.eq_of_mem_replicate hmem]
    rfl
  have hends := hv.models.runAll_frames hacc (by decide +kernel) (by omega) .zero
    (fun d hmem => (hd d hmem).1) hnd
  cases hbatch : runAll (fun srv d => handleCqe srv d .zero) w.srv w.cq with
  | ok srv' =>
    have hroom := hends.ok hbatch
    rw [hsq, hent, hlen, List.length_replicate] at hroom
    omega
  | error e => rw [hends.error hbatch]

end Caht
