import Caht.Server.Connections

/-! # What is submitted

`disconnect_and_free_op` closes a descriptor at once, while entries for it may still
wait in the submission queue. As long as a client is dropped only when none of its
entries is queued, every entry that is submitted names the open descriptor of its
client. Otherwise the descriptor may by then belong to someone else.
-/

namespace Caht
open Library Protocol

def Request.clientFd : Request → Option ℤ
  | .accept _ _ => none
  | .recv fd _ _ _ => some fd
  | .send fd _ _ _ => some fd

/-- The entry is about the open descriptor its client has in the map. -/
def World.Current (w : World) (e : Sqe) : Prop :=
  ∀ fd, e.request.clientFd = some fd → ∃ o n k, w.op e.userData = some o ∧
    w.srv.info o.clientId = some n ∧ o.clientFd = fd ∧ n.clientFd = fd ∧
    w.srv.fds fd = some (.conn k)

/-- The number of messages that are answered before the completion of the operation
`o` makes the server drop its client, if it does. -/
def World.answersBeforeDrop (w : World) (cqe : Cqe) (o : Operation) : Option ℕ :=
  if cqe.res < 0 then some 0
  else if o.type ≠ .read then none
  else if cqe.res = 0 then some 0
  else
    match w.srv.getBuf o.bufRef with
    | .error _ => none
    | .ok buf =>
      match scan buf 0 cqe.res.toNat with
      | none => none
      | some s => if s.stop = .tooLong ∨ s.stop = .refused then some s.messages.length else none

/-- The completion that the step handles. -/
def World.nextCqe (w : World) (a : Action) : Option Cqe :=
  match a, w.pc with
  | .serve _, .wait => w.cq.head?
  | .serve _, .batch (_ + 1) => w.cq.head?
  | _, _ => none

/-- When the step drops a client, no entry of that client is queued, neither from
before nor for an earlier message in the same buffer. -/
def World.DropsUnqueued (w : World) (a : Action) : Prop :=
  ∀ cqe ∈ w.nextCqe a, ∀ o ∈ w.op cqe.sqe.userData, (w.srv.info o.clientId).isSome →
    ∀ n ∈ w.answersBeforeDrop cqe o, n = 0 ∧
      ∀ e ∈ w.srv.ring.sq, ∀ o' ∈ w.op e.userData, o'.clientId ≠ o.clientId

instance (w : World) (a : Action) : Decidable (w.DropsUnqueued a) :=
  inferInstanceAs (Decidable (∀ cqe ∈ w.nextCqe a, ∀ o ∈ w.op cqe.sqe.userData,
    (w.srv.info o.clientId).isSome → ∀ n ∈ w.answersBeforeDrop cqe o, n = 0 ∧
      ∀ e ∈ w.srv.ring.sq, ∀ o' ∈ w.op e.userData, o'.clientId ≠ o.clientId))

/-- The clients of the queued entries are in the map. -/
def View.Queued (v : View) : Prop :=
  ∀ e ∈ v.sq, ∀ x, v.ops e.userData = some x → v.clients x.clientId ≠ none

section
variable {w w' : World} {v v' : View} {i : ℕ} {x : Held} {res : ℤ} {cqe : Cqe}

theorem View.Handles.entered_client (hh : v.Handles i x res v') (hx : x.type = .accept) {k : ℕ}
    {z : Held} (hk : v.ops k = none) (hz : v'.ops k = some z) : v'.clients v.nextClientId ≠ none := by
  have hgone : Function.update v.ops i none k ≠ some z := by
    intro hu
    rcases update_eq_some_iff.mp hu with ⟨-, ⟨⟩⟩ | ⟨-, hu⟩
    exact absurd (hk.symm.trans hu) (by simp)
  cases hh with
  | stale => exact absurd hz hgone
  | dropped => exact absurd hz hgone
  | accepted => simp
  | received _ _ ht => exact absurd (hx.symm.trans ht) (by decide)
  | resumed _ _ ht => exact absurd (hx.symm.trans ht) (by decide)
  | sent _ _ ht => exact absurd (hx.symm.trans ht) (by decide)

/-- Entries of clients that stay, and new ones for the client whose completion it is. -/
theorem View.Queued.handles (h : v.Queued) (hi : v.ops i = some x)
    (hused : ∀ e ∈ v.sq, e.userData ≠ i ∧ v.ops e.userData ≠ none)
    (hsafe : v'.clients x.clientId = none → v'.sq = v.sq ∧
      ∀ e ∈ v.sq, ∀ y, v.ops e.userData = some y → y.clientId ≠ x.clientId)
    (hh : v.Handles i x res v') : v'.Queued := by
  intro e he y hy hnone
  obtain ⟨l, hsq, hnew⟩ := hh.sq
  have hgone : ∀ c, c ≠ x.clientId → v'.clients c = none → v.clients c = none := by
    intro c hc hn
    rcases hh.clients with ⟨-, hcl⟩ | ⟨-, -, -, -, hcl⟩
    · exact ((hcl c).mp hn).1
    · exact ((hcl c).mp hn).resolve_right hc
  have hown : y.clientId = x.clientId → e ∉ l := by
    intro hc hl
    have hsame := (hsafe (hc ▸ hnone)).1
    rw [hsq, List.append_right_eq_self] at hsame
    simp [hsame] at hl
  rw [hsq] at he
  rcases List.mem_append.mp he with he | he
  · obtain ⟨hne, hop⟩ := hused e he
    cases hh.origin hi hy with
    | kept _ hk =>
      by_cases hc : y.clientId = x.clientId
      · exact (hsafe (hc ▸ hnone)).2 e he y hk hc
      · exact h e he y hk (hgone _ hc hnone)
    | reply hk => exact hop hk
    | own hk => exact hne hk
    | connected hk => exact hne hk
    | next hk => exact hop hk
  · cases hh.origin hi hy with
    | kept hk hop =>
      rcases hnew e he with he' | he'
      · exact hk he'
      · exact absurd (hop.symm.trans he') (by simp)
    | reply _ _ _ hc => exact hown hc he
    | own _ _ _ hc => exact hown hc he
    | connected _ _ _ _ hc => exact hown hc he
    | next hk hx _ hc => exact hh.entered_client hx hk hy (hc ▸ hnone)

theorem World.DropsUnqueued.handles {junk : Junk} {pc : Pc} {cq : List Cqe}
    (hok : w.DropsUnqueued (.serve junk)) (hw : w.Owned v) (h : v.Queued) (hpc : w.pc.Handling pc)
    (hcq : w.cq = cqe :: cq) (hx : v.ops cqe.sqe.userData = some x)
    (hh : (v.log (x.completed cqe)).Handles cqe.sqe.userData x cqe.res v')
    (hnone : v'.clients x.clientId = none) : v'.sq = v.sq ∧
      ∀ e ∈ v.sq, ∀ y, v.ops e.userData = some y → y.clientId ≠ x.clientId := by
  have hop : w.op cqe.sqe.userData = some (x.operation cqe.sqe.userData) :=
    hw.op_eq_some.mpr ⟨x, hx, rfl⟩
  have hcond : ∀ n cl, v.clients x.clientId = some cl →
      w.answersBeforeDrop cqe (x.operation cqe.sqe.userData) = some n →
      n = 0 ∧ ∀ e ∈ v.sq, ∀ y, v.ops e.userData = some y → y.clientId ≠ x.clientId := by
    intro n cl hcl hn
    have hnext : w.nextCqe (.serve junk) = some cqe := by
      unfold Pc.Handling at hpc
      split at hpc <;> simp_all [World.nextCqe]
    have hinfo : (w.srv.info x.clientId).isSome := by
      rw [hw.models.info, hcl]
      rfl
    obtain ⟨hzero, hsq⟩ := hok cqe hnext _ hop hinfo n hn
    refine ⟨hzero, fun e he y hy => ?_⟩
    exact hsq e (hw.models.sq ▸ he) _ (hw.op_eq_some.mpr ⟨y, hy, rfl⟩)
  cases hh with
  | stale hc =>
    refine ⟨rfl, fun e he y hy hyc => h e he y hy ?_⟩
    rw [hyc]
    exact hc
  | dropped hc hres =>
    refine ⟨rfl, (hcond 0 _ hc ?_).2⟩
    rcases hres with hres | ⟨ht, hres⟩
    · simp [World.answersBeforeDrop, hres]
    · simp [World.answersBeforeDrop, hres, Held.operation, ht]
  | accepted hc =>
    by_cases hn : x.clientId = (v.log (x.completed cqe)).nextClientId <;> simp [hn] at hnone
  | @received cl s v₁ past hc hres ht hscan hans hfd =>
    have hcl₁ : v₁.clients x.clientId ≠ none := fun hn => by
      simp [(hans.client _).mp hn] at hc
    rcases (v₁.finishes cqe.sqe.userData x s past).clients with ⟨hcl, -⟩ | ⟨-, -, hstop⟩
    · exact absurd (hcl ▸ hnone) hcl₁
    · have hn : w.answersBeforeDrop cqe (x.operation cqe.sqe.userData) = some s.messages.length := by
        have hbuf : w.srv.getBuf (x.operation cqe.sqe.userData).bufRef = .ok x.buf :=
          hw.models.getBuf hx
        have htype : (x.operation cqe.sqe.userData).type = .read := ht
        unfold World.answersBeforeDrop
        rw [if_neg (by omega), if_neg (by simp [htype]), if_neg (by omega), hbuf]
        simp only [hscan, if_pos hstop]
      obtain ⟨hzero, hsq⟩ := hcond _ cl hc hn
      obtain ⟨l, hl, -, hlen⟩ := hans.sq
      obtain ⟨l', hl', -, hnil⟩ := (v₁.finishes cqe.sqe.userData x s past).sq
      refine ⟨?_, hsq⟩
      rw [hl', hnil hstop, List.append_nil, hl, List.length_eq_zero_iff.mp (hlen.trans hzero),
        List.append_nil]
      rfl
  | resumed hc => exact absurd (hc.symm.trans hnone) (by simp)
  | sent hc => exact absurd (hc.symm.trans hnone) (by simp)

theorem World.Owned.queued_used (hw : w.Owned v) (hc : cqe.ticket ∈ w.outstanding) :
    ∀ e ∈ v.sq, e.userData ≠ cqe.sqe.userData ∧ v.ops e.userData ≠ none := by
  intro e he
  have hm : (⟨e, .queued⟩ : Ticket) ∈ queue v.sq := List.mem_map.mpr ⟨e, he, rfl⟩
  refine ⟨fun hid => ?_, ?_⟩
  · have hnd := hw.owns.nodup
    rw [List.map_append, List.nodup_append] at hnd
    exact hnd.2.2 _ (List.mem_map_of_mem hm) _ (List.mem_map_of_mem hc) hid
  · exact (hw.owns.used _).mpr (List.mem_map_of_mem (List.mem_append_left _ hm))

theorem View.Queued.moves {a : Action} (h : v.Queued) (hw : w.Owned v) (hok : w.DropsUnqueued a)
    (hm : w.Moves v a w' v') : v'.Queued := by
  cases hm with
  | execute hs hadm =>
    intro e he y hy
    rw [View.perform_sq] at he
    obtain ⟨buf, hy'⟩ := View.perform_ops hy
    have hc := h e he _ hy'
    rwa [View.perform_clients]
  | post => exact h
  | submit => exact fun e he => absurd he List.not_mem_nil
  | turn => exact h
  | @handle junk pc c cq srv x v' hpc hcq hsrv hx hh =>
    have hsafe := fun hnone => hok.handles hw h hpc hcq hx hh hnone
    refine View.Queued.handles (v := v.log (x.completed c)) h hx (hw.queued_used ?_) hsafe hh
    simp [World.outstanding, hcq]

theorem Run.queued {ok : World → Action → Prop} (hsub : ∀ w a, ok w a → w.DropsUnqueued a)
    (hr : Run ok w) : ∃ v, w.Owned v ∧ w.Serving v ∧ v.Queued := by
  refine Run.induct (P := fun w v => w.Serving v ∧ v.Queued) ?_ ?_ hr
  · intro srv serverFd j bref buf cl hfd _ _
    refine ⟨World.Serving.start srv serverFd hfd j bref buf cl, ?_⟩
    intro e he y hy
    rcases update_eq_some_iff.mp hy with ⟨-, ⟨⟩⟩ | ⟨-, ⟨⟩⟩
    simp
  · rintro w v a w' v' hw ⟨hs, hq⟩ ha hm -
    exact ⟨hs.moves hw hm, hq.moves hw (hsub w a ha) hm⟩

/-- In every run that drops clients without queued entries, every queued entry is
about the open descriptor of its client, and so is every one that is submitted. -/
theorem submitted_descriptors_current (w : World) (hr : Run World.DropsUnqueued w)
    (hacc : w.srv.accepts < 2 ^ 64 - 1) : ∀ e ∈ w.srv.ring.sq, w.Current e := by
  obtain ⟨v, hw, hs, hq⟩ := hr.queued fun _ _ h => h
  intro e he fd hfd
  rw [← hw.models.sq] at he
  have hm : (⟨e, .queued⟩ : Ticket) ∈ queue v.sq ++ w.outstanding :=
    List.mem_append_left _ (List.mem_map.mpr ⟨e, he, rfl⟩)
  obtain ⟨x, hx, hfit, -⟩ := hw.owns.held hm
  change e.request.Fits x at hfit
  have hx' : x.type ≠ .accept ∧ x.clientFd = fd := by
    cases hreq : e.request with
    | accept => simp [hreq, Request.clientFd] at hfd
    | recv =>
      rw [hreq] at hfit hfd
      exact ⟨by simp [hfit.1], hfit.2.1.trans (Option.some.inj hfd)⟩
    | send =>
      rw [hreq] at hfit hfd
      exact ⟨by simp [hfit.1], hfit.2.1.trans (Option.some.inj hfd)⟩
  obtain ⟨ht, rfl⟩ := hx'
  obtain ⟨cl, k, hcl, hclfd, hk⟩ := hs.open_fd (hs.unwrapped hw hacc) hx ht (hq e he x hx)
  have hinfo := hw.models.info x.clientId
  rw [hcl, Option.map_some] at hinfo
  exact ⟨_, _, k, hw.op_eq_some.mpr ⟨x, hx, rfl⟩, hinfo, rfl, hclfd.symm, hw.models.fds ▸ hk⟩

/-- A client sets its name: the reply and the next receive are about to be
submitted. -/
theorem submitted_descriptors_current_reply : ∃ w, Run World.DropsUnqueued w ∧ w.pc = .submit ∧
    w.srv.ring.sq.map (·.request.clientFd) = [some 5, some 5] ∧ ∀ e ∈ w.srv.ring.sq, w.Current e := by
  have hrun : (World.runMainWhile World.DropsUnqueued 3 .zero ([.serve .zero] ++
      Action.complete 0 5 [] ++ [.execute 0 14 [0, 14, 1, 0, 0, 0, 0, 0, 0, 0, 7, 97, 98, 99], .post 0] ++
      List.replicate 3 (.serve .zero))).map
      (fun w => (w.srv.accepts, w.pc, w.srv.ring.sq.map (·.request.clientFd))) =
      some (1, .submit, [some 5, some 5]) := by
    decide +kernel
  obtain ⟨w, hw, hres⟩ := Option.map_eq_some_iff.mp hrun
  simp only [Prod.mk.injEq] at hres
  obtain ⟨hacc, hpc, hsq⟩ := hres
  have hr := World.runMainWhile_run (by decide) hw
  exact ⟨w, hr, hpc, hsq, submitted_descriptors_current w hr (by rw [hacc]; norm_num)⟩

/-- A good message and a refused one in one buffer: the reply is still queued when
the descriptor is closed, and before it is submitted a new connection has got the
same descriptor. -/
theorem submitted_descriptor_reused : ∃ w e, Reachable w ∧ w.srv.accepts = 1 ∧ w.pc = .submit ∧
    e ∈ w.srv.ring.sq ∧ e.request.clientFd = some 5 ∧ w.srv.fds 5 = some (.conn 1) ∧
    (w.op e.userData).map Operation.clientId = some 1 ∧ ¬ w.Current e := by
  have hrun : (World.runMain 3 .zero ([.serve .zero] ++ Action.complete 0 5 [] ++
      [.execute 0 25 ([0, 14, 1, 0, 0, 0, 0, 0, 0, 0, 7, 97, 98, 99] ++
        [0, 11, 9, 0, 0, 0, 0, 0, 0, 0, 8]), .post 0, .serve .zero, .execute 0 5 [], .serve .zero,
        .serve .zero])).map
      (fun w => (decide (w.srv.accepts = 1 ∧ w.pc = .submit ∧ w.srv.fds 5 = some (.conn 1) ∧
        (w.srv.info 1).isSome = false), w.srv.ring.sq.map fun e =>
        (e.request.clientFd, (w.op e.userData).map Operation.clientId))) =
      some (true, [(some 5, some 1)]) := by
    decide +kernel
  obtain ⟨w, hw, hres⟩ := Option.map_eq_some_iff.mp hrun
  simp only [Prod.mk.injEq, decide_eq_true_eq] at hres
  obtain ⟨⟨hacc, hpc, hfds, hinfo⟩, hsq⟩ := hres
  obtain ⟨e, he, hfd⟩ := List.map_eq_singleton_iff.mp hsq
  obtain ⟨hfd, hop⟩ := Prod.mk.inj hfd
  refine ⟨w, e, World.runMain_reachable (by decide) hw, hacc, hpc, by simp [he], hfd, hfds, hop, ?_⟩
  intro hcur
  obtain ⟨o, n, k, ho, hn, -⟩ := hcur 5 hfd
  obtain ⟨o', ho', hid⟩ := Option.map_eq_some_iff.mp hop
  obtain rfl := Option.some.inj (ho.symm.trans ho')
  simp [← hid, hn] at hinfo

end

end Caht
