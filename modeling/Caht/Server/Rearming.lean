import Caht.Server.Compaction
import Caht.Server.Outgoing

/-! # Room for the next receive

The offset of a receive is what the loop of `handle_recv` left over, which is less
than a header or less than a message, and so less than the buffer. The length, a
difference of unsigned numbers, is then positive: no receive is queued whose result
is 0 unless the peer is gone.
-/

namespace Caht
open Library Protocol

/-- A receive starts inside the buffer. -/
def Request.HasRoom : Request → Prop
  | .recv _ _ off _ => off < bufferSize2KB
  | _ => True

/-- Every request on its way has room. -/
def World.Roomy (w : World) (v : View) : Prop :=
  ∀ t ∈ queue v.sq ++ w.outstanding, t.sqe.request.HasRoom

/-! ## The end of the loop -/

/-- What is waited for behind the rest fits into the buffer, so the rest does not fill
it. -/
theorem scan_rest_lt {buf : List UInt8} {off rest : ℕ} {s : Scan} (h : scan buf off rest = some s)
    (hs : s.stop = .header ∨ s.stop = .body) : s.rest < bufferSize2KB := by
  have hl := scan_stops h
  rcases hs with hs | hs
  · rw [hs] at hl
    have hlt := look_header hl
    simp only [protHdrLen] at hlt
    simp only [bufferSize2KB]
    omega
  · rw [hs] at hl
    obtain ⟨-, hmax, hlt⟩ := look_body_iff.mp hl
    omega

/-! ## One step -/

section
variable {w w' : World} {v v' : View} {i : ℕ} {x : Held}

theorem View.Answers.roomy {id : UInt64} {fd : ℤ} {ms : List Message} (ha : v.Answers id fd ms v')
    (h : ∀ e ∈ v.sq, e.request.HasRoom) : ∀ e ∈ v'.sq, e.request.HasRoom := by
  induction ha with
  | nil => exact h
  | cons _ _ ih =>
    refine ih fun e he => ?_
    rw [View.answer_sq, List.mem_append, List.mem_singleton] at he
    rcases he with he | rfl
    · exact h e he
    · trivial

theorem View.Finishes.roomy {s : Scan} (hf : v.Finishes i x s v')
    (hrest : s.stop = .header ∨ s.stop = .body → s.rest < bufferSize2KB)
    (h : ∀ e ∈ v.sq, e.request.HasRoom) : ∀ e ∈ v'.sq, e.request.HasRoom := by
  intro e he
  by_cases hold : e ∈ v.sq
  · exact h e hold
  · obtain ⟨hs, rfl⟩ := hf.rearmed he hold
    exact hrest hs

theorem View.Handles.roomy {res : ℤ} (hh : v.Handles i x res v')
    (h : ∀ e ∈ v.sq, e.request.HasRoom) : ∀ e ∈ v'.sq, e.request.HasRoom := by
  cases hh with
  | stale => exact h
  | dropped => exact h
  | accepted =>
    intro e he
    simp only [View.acceptNext, View.accept, View.connect, View.prep, View.log, View.setOp,
      View.setClient, List.mem_append, List.mem_singleton] at he
    rcases he with (he | rfl) | rfl
    · exact h e he
    · exact Nat.zero_lt_succ _
    · trivial
  | @received cl s v₁ past hc hres ht hscan hans hfd =>
    exact (v₁.finishes i x s past).roomy (scan_rest_lt hscan) (hans.roomy h)
  | resumed =>
    intro e he
    rcases List.mem_append.mp he with he | he
    · exact h e he
    · rw [List.mem_singleton.mp he]
      trivial
  | sent => exact h

theorem World.Roomy.step {a : Action} (h : w.Roomy v) (hv : w.Owned v) (hm : w.Moves v a w' v') :
    w'.Roomy v' := by
  have hsq : ∀ e ∈ v.sq, e.request.HasRoom := fun e he =>
    h ⟨e, .queued⟩ (List.mem_append_left _ (List.mem_map.mpr ⟨e, he, rfl⟩))
  have hout : ∀ t ∈ w.outstanding, t.sqe.request.HasRoom := fun t ht => h t (List.mem_append_right _ ht)
  have hjoin : (∀ e ∈ v'.sq, e.request.HasRoom) → (∀ t ∈ w'.outstanding, t.sqe.request.HasRoom) →
      w'.Roomy v' := by
    intro hsq' hout' t ht
    rcases List.mem_append.mp ht with ht | ht
    · obtain ⟨e, he, rfl⟩ := List.mem_map.mp ht
      exact hsq' e he
    · exact hout' t ht
  cases hm with
  | @execute k s res data hs hadm =>
    have hreq := hout s.ticket ((World.outstanding_execute hs).mem_iff.mpr List.mem_cons_self)
    refine hjoin (by rwa [View.perform_sq]) fun t ht => ?_
    rcases World.mem_outstanding_execute ht with ht | rfl
    · exact hout t ht
    · exact hreq
  | post hc => exact hjoin hsq fun t ht => hout t ((World.outstanding_post hc).mem_iff.mpr ht)
  | submit =>
    refine hjoin (fun e he => by cases he) fun t ht => ?_
    rcases World.mem_submit.mp ht with ht | ⟨e, he, rfl⟩
    · exact hout t ht
    · rw [Submitted.ticket, w.srv.resolve_sqe]
      exact hsq e (hv.models.sq ▸ he)
  | turn => exact hjoin hsq hout
  | handle hpc hcq hsrv hx hh =>
    refine hjoin (hh.roomy hsq) fun t ht => ?_
    exact hout t ((World.outstanding_handle hcq).mem_iff.mpr (List.mem_cons_of_mem _ ht))

end

theorem Run.roomy {ok : World → Action → Prop} {w : World} (hr : Run ok w) :
    ∃ v, w.Owned v ∧ w.Roomy v := by
  refine Run.induct (P := World.Roomy) ?_ ?_ hr
  · intro srv serverFd j bref buf c _ _ _ t ht
    simp only [View.acceptNext, View.accept, View.initial, View.prep, View.log, View.setOp,
      View.setClient, World.outstanding, queue, List.nil_append, List.map_cons, List.map_nil,
      List.append_nil, List.mem_singleton] at ht
    rw [ht]
    trivial
  · intro w v a w' v' hv h _ hm _
    exact h.step hv hm

/-- The entry for the operation `i` that `handle_recv` leaves in the queue asks for the
bytes behind the rest of the message. -/
structure Rearmed (o : Operation) (n : ℕ) (e : Sqe) : Prop where
  cap : o.bufCap = bufferSize2KB
  request : ∃ b r, o.bufRef = some b ∧ e.request = .recv o.clientFd b r (sizeSub o.bufCap r) ∧
    r ≤ n ∧ r < bufferSize2KB ∧ 0 < sizeSub o.bufCap r ∧ r + sizeSub o.bufCap r = bufferSize2KB

theorem World.Roomy.region {w : World} {v : View} (h : w.Roomy v) (hv : w.Owned v) {t : Ticket}
    (ht : t ∈ w.tickets) {fd : ℤ} {b off len : ℕ} (hreq : t.sqe.request = .recv fd b off len) :
    ∃ o blk, w.op t.id = some o ∧ o.bufRef = some b ∧ o.bufCap = bufferSize2KB ∧
      w.srv.heap[b]? = some blk ∧ blk.buf.length = bufferSize2KB ∧
      off < bufferSize2KB ∧ len = sizeSub o.bufCap off ∧ 0 < len ∧ off + len = bufferSize2KB := by
  rw [World.tickets, ← hv.models.sq] at ht
  have hoff := h t ht
  obtain ⟨x, hx, hfit, -⟩ := hv.owns.held ht
  rw [hreq] at hoff hfit
  obtain ⟨-, -, rfl, hcap, hlen⟩ := hfit
  simp only [Request.HasRoom, bufferSize2KB] at hoff ⊢
  refine ⟨x.operation t.id, ⟨1, x.buf⟩, hv.op_eq_some.mpr ⟨x, hx, rfl⟩, rfl, hcap,
    hv.models.bufs.block _ x hx, (hv.models.bufs.length _ x hx).trans hcap, hoff, ?_, by omega,
    by omega⟩
  simp only [Held.operation, hcap]
  rw [sizeSub_of_le (by omega) (by norm_num)]
  omega

theorem Held.rearmed {x : Held} {i rest n : ℕ} (hcap : x.bufCap = 2048) (hle : rest ≤ n)
    (hlt : rest < bufferSize2KB) :
    Rearmed (x.operation i) n ⟨i, .recv x.clientFd x.bref rest (x.bufCap - rest)⟩ := by
  simp only [bufferSize2KB] at hlt
  have hsub : sizeSub x.bufCap rest = x.bufCap - rest :=
    sizeSub_of_le (by omega) (by rw [hcap]; norm_num)
  refine ⟨hcap, x.bref, rest, rfl, ?_, hle, hlt, ?_, ?_⟩
  · simp only [Held.operation, hsub]
  · simp only [Held.operation, hsub]
    omega
  · simp only [Held.operation, hsub, bufferSize2KB]
    omega

/-- In every reachable state a receive on its way has a region to receive into that is
not empty and ends where the buffer ends. And whatever the buffer holds and however many
bytes were received, `handle_recv` arms the operation again for such a region, behind
no more bytes than were received. -/
theorem recv_rearmed_with_room (w : World) (hr : Reachable w) :
    (∀ t ∈ w.tickets, ∀ fd b off len, t.sqe.request = .recv fd b off len →
      ∃ o blk, w.op t.id = some o ∧ o.bufRef = some b ∧ o.bufCap = bufferSize2KB ∧
        w.srv.heap[b]? = some blk ∧ blk.buf.length = bufferSize2KB ∧
        off < bufferSize2KB ∧ len = sizeSub o.bufCap off ∧ 0 < len ∧ off + len = bufferSize2KB) ∧
    ∀ i o info buf n junk cqe srv', w.Receives i o info → cqe ∈ w.cq → cqe.sqe.userData = i →
      buf.length = bufferSize2KB → 1 ≤ n → n ≤ bufferSize2KB →
      handleRecv (w.srv.setBuf o.bufRef buf) info i n junk = .ok srv' →
      ∀ e ∈ srv'.ring.sq, e.userData = i → Rearmed o n e := by
  constructor
  · intro t ht fd b off len hreq
    obtain ⟨v, hv, hroomy⟩ := hr.roomy
    exact hroomy.region hv ht hreq
  · intro i o info buf n junk cqe srv' hw hcq hid hbuf hn hn' hrun e he hei
    obtain ⟨v, x, c, hs⟩ := hw.seen hbuf
    obtain rfl := hs.node
    obtain rfl := hs.operation
    have hcap := hs.bufCap
    simp only [bufferSize2KB] at hn'
    obtain ⟨s, hscan, ⟨v₁, hans, hsrv'⟩, -, -⟩ :=
      (hs.models.handleRecv_loop hs.op hs.client junk hn (by omega)).ok hrun
    have hnew : e ∉ v₁.sq := by
      refine hs.not_queued hcq hid hei fun hmem => ?_
      obtain ⟨l, hl, hunused, -⟩ := hans.sq
      rw [hl, List.mem_append] at hmem
      refine hmem.imp_right fun hmem heq => ?_
      have hnone := hunused e hmem
      rw [heq, hs.op] at hnone
      cases hnone
    rw [← hsrv'.sq] at he
    obtain ⟨hstop, rfl⟩ := (v₁.finishes i x s junk.past).rearmed he hnew
    exact Held.rearmed hcap (scan_rest hscan).2 (scan_rest_lt hscan hstop)

/-- Twenty bytes of a longer message are left behind a message of fourteen. -/
theorem recv_rearmed_moved : ∃ (w : World) (srv' : Server), w.Receives 0 firstRecv 0 ∧
    handleRecv (w.srv.setBuf firstRecv.bufRef (moved ++ List.replicate 2014 0)) 0 0 34 .zero =
      .ok srv' ∧
    (⟨0, .recv 5 127 20 2028⟩ : Sqe) ∈ srv'.ring.sq ∧
    Rearmed firstRecv 34 ⟨0, .recv 5 127 20 2028⟩ := by
  obtain ⟨w, hw, hrecv⟩ := World.delivered_receives
    (show (World.delivered moved).map _ = _ by decide +kernel)
  have hend : (World.delivered moved).map (fun w => (w.cq.map (fun c => c.sqe.userData),
      (handleRecv (w.srv.setBuf firstRecv.bufRef (moved ++ List.replicate 2014 0)) 0 0 34
        .zero).toOption.bind (fun srv' => srv'.ring.sq.getLast?))) =
        some ([0], some ⟨0, .recv 5 127 20 2028⟩) := by
    decide +kernel
  rw [hw, Option.map_some] at hend
  obtain ⟨hcq, hend⟩ := Prod.mk.inj (Option.some.inj hend)
  obtain ⟨cqe, hmem, hid⟩ := List.mem_map.mp (hcq ▸ List.mem_singleton_self 0)
  obtain ⟨srv', hok, hlast⟩ := Option.bind_eq_some_iff.mp hend
  have he := List.mem_of_getLast? hlast
  have hbuf : (moved ++ List.replicate 2014 0).length = bufferSize2KB := by
    rw [List.length_append, List.length_replicate]
    rfl
  exact ⟨w, srv', hrecv, toOption_eq_some.mp hok, he, (recv_rearmed_with_room w hrecv.reachable).2 0
    firstRecv 0 _ 34 .zero cqe srv' hrecv hmem hid hbuf (by decide) (by decide)
    (toOption_eq_some.mp hok) _ he rfl⟩

end Caht
