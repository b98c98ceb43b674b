import Caht.Server.Inventory

/-! # Clients that have gone

`disconnect_and_free_op` takes a client out of the map while other operations of it are
still with the kernel. From then on the server does nothing for this client but free
these operations, one for each of their completions, in whatever order they come.
-/

namespace Caht
open Library Protocol

/-- The operations of a client that are in use. -/
def World.opsOf (w : World) (c : UInt64) : List ℕ :=
  w.srv.pool.inUse.filter fun i => (w.srv.pool.ops[i]?).any fun o => o.clientId = c

/-- A line for a completion of the client, whose operation is free afterwards. -/
def Event.IsCompletion : Event → Prop
  | .completed _ _ _ _ => True
  | _ => False

section
variable {w w' : World} {v v' : View} {c : UInt64} {a : Action}

theorem World.Owned.mem_opsOf (h : w.Owned v) {i : ℕ} :
    i ∈ w.opsOf c ↔ ∃ x, v.ops i = some x ∧ x.clientId = c := by
  rw [World.opsOf, List.mem_filter, h.models.pool.mem_inUse]
  cases hi : v.ops i with
  | none => simp
  | some x => simp [h.models.op i x hi, Held.operation]

theorem World.nodup_opsOf (w : World) (c : UInt64) : (w.opsOf c).Nodup :=
  (List.nodup_range.filter _).filter _

/-! ## The log only grows -/

theorem World.Moves.trace (hm : w.Moves v a w' v') : ∃ l, v'.trace = v.trace ++ l := by
  cases hm with
  | execute => exact ⟨[], by rw [View.perform_trace, List.append_nil]⟩
  | post => exact ⟨[], (List.append_nil _).symm⟩
  | submit => exact ⟨[], (List.append_nil _).symm⟩
  | turn => exact ⟨[], (List.append_nil _).symm⟩
  | @handle junk pc cqe cq srv x v' hpc hcq hsrv hx hh =>
    rcases hh.trace with ⟨-, l, hl, -⟩ | ⟨-, -, -, hl⟩
    · exact ⟨x.completed cqe :: l, by rw [hl, View.log, List.append_assoc, List.singleton_append]⟩
    · exact ⟨[x.completed cqe, .entered v.nextClientId], by rw [hl, View.log, List.append_assoc]; rfl⟩

theorem World.accepts_step (hw : w.Owned v) (hs : w.step a = some w') :
    w.srv.accepts ≤ w'.srv.accepts ∧
      ∀ c ∈ enteredIds w.srv.trace, c ∈ enteredIds w'.srv.trace := by
  obtain ⟨v', hm, hw'⟩ := hw.step (World.steps_of_step hs)
  obtain ⟨l, hl⟩ := hm.trace
  rw [Server.accepts, Server.accepts, ← hw.models.trace, ← hw'.models.trace, hl, acceptedFds_append,
    enteredIds_append, List.length_append]
  exact ⟨Nat.le_add_right _ _, fun c hc => List.mem_append_left _ hc⟩

theorem World.accepts_run {as : List Action} (hr : Reachable w) (hrun : w.run as = some w') :
    w.srv.accepts ≤ w'.srv.accepts := by
  induction as generalizing w with
  | nil =>
    obtain rfl := Option.some.inj hrun
    exact le_rfl
  | cons a as ih =>
    obtain ⟨w₁, hs, hrun⟩ := Option.bind_eq_some_iff.mp hrun
    obtain ⟨v, hw, -⟩ := hr.serving
    exact (World.accepts_step hw hs).1.trans (ih (.step hr trivial hs) hrun)

/-! ## One step -/

/-- A queued entry for an operation of the client was there before. -/
def View.NothingQueued (v v' : View) (c : UInt64) : Prop :=
  ∀ e ∈ v'.sq, (∃ y, v'.ops e.userData = some y ∧ y.clientId = c) → e ∈ v.sq

/-- What a step does for a client that has gone: nothing, or it puts one operation on the
free list. -/
inductive View.Drains (v v' : View) (free : List ℕ) (c : UInt64) : Prop
  | same (hcl : v'.clients c = none)
      (hops : ∀ j, (∃ y, v'.ops j = some y ∧ y.clientId = c) ↔ ∃ y, v.ops j = some y ∧ y.clientId = c)
      (hist : history c v'.trace = history c v.trace) (hsq : v.NothingQueued v' c)
  | freed {i : ℕ} {x : Held} {e : Event} (hcl : v'.clients c = none) (hi : v.ops i = some x)
      (hx : x.clientId = c) (hfree : i ∈ free)
      (hops : ∀ j, (∃ y, v'.ops j = some y ∧ y.clientId = c) ↔
        j ≠ i ∧ ∃ y, v.ops j = some y ∧ y.clientId = c)
      (he : e.IsCompletion) (hist : history c v'.trace = history c v.trace ++ [e])
      (hsq : v.NothingQueued v' c)

theorem View.Drains.of_eq {free : List ℕ} (hcl : v.clients c = none) (hclients : v'.clients = v.clients)
    (hops : v'.ops = v.ops) (htr : v'.trace = v.trace) (hsq : v'.sq ⊆ v.sq) : v.Drains v' free c := by
  refine .same ?_ ?_ ?_ fun e he _ => hsq he
  · rwa [hclients]
  · intro j
    rw [hops]
  · rw [htr]

theorem View.perform_drains {free : List ℕ} (hcl : v.clients c = none) (sqe : Sqe) (res : ℤ)
    (data : List UInt8) (k : ℕ) : v.Drains (v.perform sqe res data k) free c := by
  refine .same ?_ ?_ ?_ fun e he _ => by rwa [View.perform_sq] at he
  · rwa [View.perform_clients]
  · intro j
    constructor
    · rintro ⟨y, hy, hyc⟩
      obtain ⟨buf, hy'⟩ := View.perform_ops hy
      exact ⟨_, hy', hyc⟩
    · rintro ⟨y, hy, hyc⟩
      obtain ⟨buf, hy'⟩ := View.perform_held hy sqe res data k
      exact ⟨_, hy', hyc⟩
  · rw [View.perform_trace]

theorem World.Moves.drains (hm : w.Moves v a w' v') (hw : w.Owned v) (hw' : w'.Owned v')
    (hcl : v.clients c = none) (hnext : v.nextClientId ≠ c) :
    v.Drains v' w'.srv.pool.freeOpsIdx c := by
  cases hm with
  | execute => exact View.perform_drains hcl _ _ _ _
  | post => exact .of_eq hcl rfl rfl rfl fun _ he => he
  | submit => exact .of_eq hcl rfl rfl rfl (List.nil_subset _)
  | turn => exact .of_eq hcl rfl rfl rfl fun _ he => he
  | @handle junk pc cqe cq srv x v' hpc hcq hsrv hx hh =>
    by_cases hxc : x.clientId = c
    · -- a completion of the client itself, which the map does not know any more
      have hgone : v' = (v.log (x.completed cqe)).setOp cqe.sqe.userData none := by
        have hmap : ∀ {cl}, (v.log (x.completed cqe)).clients x.clientId = some cl → False := by
          intro cl hcl'
          rw [hxc] at hcl'
          cases hcl.symm.trans hcl'
        cases hh with
        | stale => rfl
        | dropped hcl' => exact (hmap hcl').elim
        | accepted hcl' => exact (hmap hcl').elim
        | received hcl' => exact (hmap hcl').elim
        | resumed hcl' => exact (hmap hcl').elim
        | sent hcl' => exact (hmap hcl').elim
      subst hgone
      have hfree : cqe.sqe.userData ∈ srv.pool.freeOpsIdx :=
        hw.freed hcq hsrv hw'.models (Function.update_self ..)
      refine .freed (e := x.completed cqe) hcl hx hxc hfree ?_ trivial ?_ fun _ he _ => he
      · intro j
        simp only [View.setOp, View.log, update_eq_some_iff, reduceCtorEq, and_false, false_or]
        constructor
        · rintro ⟨y, ⟨hj, hy⟩, hyc⟩
          exact ⟨hj, y, hy, hyc⟩
        · rintro ⟨hj, y, hy, hyc⟩
          exact ⟨y, ⟨hj, hy⟩, hyc⟩
      · refine history_append_of_eq fun e he => ?_
        rw [List.mem_singleton.mp he]
        exact hxc
    · have hag := (v.agree_log (e := x.completed cqe) hxc).trans
        (View.Handles.agree hh hx hxc fun _ => hnext)
      obtain ⟨l, hl, hnew⟩ := hh.sq
      refine .same (hag.client.trans hcl) ?_ hag.history ?_
      · intro j
        constructor
        · rintro ⟨y, hy, hyc⟩
          exact ⟨y, (hag.ops j y hyc).mp hy, hyc⟩
        · rintro ⟨y, hy, hyc⟩
          exact ⟨y, (hag.ops j y hyc).mpr hy, hyc⟩
      · rintro e he ⟨y, hy, hyc⟩
        have hy₀ := (hag.ops _ y hyc).mp hy
        rw [hl] at he
        refine (List.mem_append.mp he).resolve_right fun he => ?_
        rcases hnew e he with hid | hnone
        · obtain rfl := Option.some.inj (hx.symm.trans (hid ▸ hy₀))
          exact hxc hyc
        · exact absurd (hy₀.symm.trans hnone) (Option.some_ne_none y)

/-- The same, told of the server: as many completions are logged as operations are put on
the free list. -/
theorem World.drains_step (hr : Reachable w) (hs : w.step a = some w')
    (hacc : w.srv.accepts < 2 ^ 64 - 1) (hent : c ∈ enteredIds w.srv.trace)
    (hgone : w.srv.info c = none) : w'.srv.info c = none ∧ (∀ i ∈ w'.opsOf c, i ∈ w.opsOf c) ∧
      (∀ i ∈ w.opsOf c, i ∈ w'.opsOf c ∨ i ∈ w'.srv.pool.freeOpsIdx) ∧
      (∀ e ∈ w'.srv.ring.sq, e.userData ∈ w'.opsOf c → e ∈ w.srv.ring.sq) ∧
      ∃ l, history c w'.srv.trace = history c w.srv.trace ++ l ∧ (∀ e ∈ l, e.IsCompletion) ∧
        l.length + (w'.opsOf c).length = (w.opsOf c).length := by
  obtain ⟨v, hw, h⟩ := hr.serving
  obtain ⟨v', hm, hw'⟩ := hw.step (World.steps_of_step hs)
  have hnext : v.nextClientId ≠ c := by
    obtain ⟨m, hnum⟩ := h.census.numbered
    have hle := hnum.accepted
    rw [hw.models.trace] at hle
    rw [← hw.models.trace] at hent
    rw [Server.accepts] at hacc
    exact (hnum.lt_next (by omega) hent).1.symm
  have hqueue : v.NothingQueued v' c →
      ∀ e ∈ w'.srv.ring.sq, e.userData ∈ w'.opsOf c → e ∈ w.srv.ring.sq := by
    intro hsq e he hin
    rw [← hw'.models.sq] at he
    rw [← hw.models.sq]
    exact hsq e he (hw'.mem_opsOf.mp hin)
  rw [← hw.models.trace, ← hw'.models.trace, hw'.models.info_eq_none]
  cases hm.drains hw hw' (hw.models.info_eq_none.mp hgone) hnext with
  | same hcl hops hist hsq =>
    have hmem : ∀ i, i ∈ w'.opsOf c ↔ i ∈ w.opsOf c := fun i => by
      rw [hw'.mem_opsOf, hw.mem_opsOf, hops]
    have hperm := (List.perm_ext_iff_of_nodup (w'.nodup_opsOf c) (w.nodup_opsOf c)).mpr hmem
    refine ⟨hcl, fun i => (hmem i).mp, fun i hi => .inl ((hmem i).mpr hi), hqueue hsq, [], ?_, by simp,
      ?_⟩
    · rw [hist, List.append_nil]
    · rw [List.length_nil, Nat.zero_add, hperm.length_eq]
  | @freed i x e hcl hi hx hfree hops he hist hsq =>
    have hmem : ∀ j, j ∈ w'.opsOf c ↔ j ∈ (w.opsOf c).erase i := fun j => by
      rw [(w.nodup_opsOf c).mem_erase_iff, hw'.mem_opsOf, hw.mem_opsOf, hops]
    have hperm := (List.perm_ext_iff_of_nodup (w'.nodup_opsOf c)
      ((w.nodup_opsOf c).erase i)).mpr hmem
    have hin : i ∈ w.opsOf c := hw.mem_opsOf.mpr ⟨x, hi, hx⟩
    refine ⟨hcl, fun j hj => List.mem_of_mem_erase ((hmem j).mp hj), ?_, hqueue hsq, [e], hist, ?_, ?_⟩
    · intro j hj
      by_cases hji : j = i
      · exact .inr (hji ▸ hfree)
      · exact .inl ((hmem j).mpr (((w.nodup_opsOf c).mem_erase_iff).mpr ⟨hji, hj⟩))
    · intro e' he'
      rw [List.mem_singleton.mp he']
      exact he
    · have hpos := List.length_pos_of_mem hin
      rw [hperm.length_eq, List.length_erase_of_mem hin, List.length_singleton]
      omega

end

/-- A client that was entered and is not in the map stays out of it, whatever happens.
It gets no new operation, none of its messages is handled, nothing is queued for it: the
operations it had left are put on the free list, and its log grows by one completion for
each of them. -/
theorem departed_client_drains (w w' : World) (hr : Reachable w) (as : List Action)
    (hrun : w.run as = some w') (hacc : w'.srv.accepts < 2 ^ 64 - 1) (c : UInt64)
    (hent : c ∈ enteredIds w.srv.trace) (hgone : w.srv.info c = none) :
    w'.srv.info c = none ∧ (∀ i ∈ w'.opsOf c, i ∈ w.opsOf c) ∧
      (∀ i ∈ w.opsOf c, i ∈ w'.opsOf c ∨ ∃ as₁ as₂ w₁, as = as₁ ++ as₂ ∧ w.run as₁ = some w₁ ∧
        i ∈ w₁.srv.pool.freeOpsIdx) ∧
      (∀ e ∈ w'.srv.ring.sq, e.userData ∈ w'.opsOf c → e ∈ w.srv.ring.sq) ∧
      ∃ l, history c w'.srv.trace = history c w.srv.trace ++ l ∧ (∀ e ∈ l, e.IsCompletion) ∧
        l.length + (w'.opsOf c).length = (w.opsOf c).length := by
  induction as generalizing w with
  | nil =>
    obtain rfl := Option.some.inj hrun
    exact ⟨hgone, fun i hi => hi, fun i hi => .inl hi, fun e he _ => he, [], (List.append_nil _).symm,
      by simp, Nat.zero_add _⟩
  | cons a as ih =>
    obtain ⟨w₁, hs, hrun⟩ := Option.bind_eq_some_iff.mp hrun
    have hr₁ : Reachable w₁ := .step hr trivial hs
    have hle := World.accepts_run hr₁ hrun
    obtain ⟨v, hw, -⟩ := hr.serving
    obtain ⟨hle₀, hkeep⟩ := World.accepts_step hw hs
    obtain ⟨hgone₁, hsub, hfree, hsq, l, hl, hcomp, hlen⟩ :=
      World.drains_step hr hs (by omega) hent hgone
    obtain ⟨hgone', hsub', hfree', hsq', l', hl', hcomp', hlen'⟩ :=
      ih w₁ hr₁ hrun (hkeep c hent) hgone₁
    refine ⟨hgone', fun i hi => hsub i (hsub' i hi), ?_, fun e he hin => ?_, l ++ l', ?_, ?_, ?_⟩
    · intro i hi
      rcases hfree i hi with hi₁ | hi₁
      · rcases hfree' i hi₁ with hi' | ⟨as₁, as₂, w₂, rfl, hrun₂, hmem⟩
        · exact .inl hi'
        · exact .inr ⟨a :: as₁, as₂, w₂, rfl, by rw [World.run, hs, Option.bind_some, hrun₂], hmem⟩
      · exact .inr ⟨[a], as, w₁, rfl, by rw [World.run, hs]; rfl, hi₁⟩
    · exact hsq e (hsq' e he hin) (hsub' _ hin)
    · rw [hl', hl, List.append_assoc]
    · intro e he
      exact (List.mem_append.mp he).elim (hcomp e) (hcomp' e)
    · rw [List.length_append]
      omega

/-- The client closes its end while the reply to its message is with the kernel. -/
theorem departed_client_drains_reply : ∃ w w', Reachable w ∧ w.srv.info 1 = none ∧
    (w.opsOf 1).length = 1 ∧ w.run (Action.complete 1 11 []) = some w' ∧
    ∃ l, history 1 w'.srv.trace = history 1 w.srv.trace ++ l ∧ l.length + (w'.opsOf 1).length = 1 := by
  have hrun : (World.runMain 3 .zero ([.serve .zero] ++ Action.complete 0 5 [] ++
      Action.complete 0 14 [0, 14, 1, 0, 0, 0, 0, 0, 0, 0, 7, 97, 98, 99] ++
      Action.complete 2 0 [])).map (fun w => (w.srv.info 1).isNone && ((w.opsOf 1).length == 1) &&
        decide (1 ∈ enteredIds w.srv.trace) && (w.run (Action.complete 1 11 [])).any
          fun w' => decide (w'.srv.accepts = 1)) = some true := by
    decide +kernel
  obtain ⟨w, hw, hres⟩ := Option.map_eq_some_iff.mp hrun
  simp only [Bool.and_eq_true, Option.isNone_iff_eq_none, beq_iff_eq, decide_eq_true_eq,
    Option.any_eq_true] at hres
  obtain ⟨⟨⟨hgone, hlen⟩, hent⟩, w', hw', hacc⟩ := hres
  have hr := World.runMain_reachable (by decide) hw
  obtain ⟨-, -, -, -, l, hl, -, hsum⟩ := departed_client_drains w w' hr _ hw' (by omega) 1 hent hgone
  exact ⟨w, w', hr, hgone, hlen, hw', l, hl, hsum.trans hlen⟩

end Caht
