import Caht.Server.Connections
import Caht.Server.Conversation

/-! # Noninterference

What the server does for a client depends on the completions of that client's
operations, not on other clients and not on what recycled memory holds. What a send
request refers to is the message that was serialised for it.
-/

namespace Caht
open Library Protocol

/-- The response last queued in pool entry `i`, and the client it is for. -/
def lastQueued (i : ℕ) (trace : List Event) : Option (UInt64 × Response) :=
  (trace.filterMap fun
    | .queued id j response => if j = i then some (id, response) else none
    | _ => none).getLast?

/-- The buffer of every send operation starts with the message queued for it. -/
def View.Sends (v : View) : Prop :=
  ∀ i x, v.ops i = some x → x.type = .write → ∃ r, lastQueued i v.trace = some (x.clientId, r) ∧
    x.bufLen = r.bytes.length ∧ x.buf.take x.bufLen = r.bytes

section
variable {w w' : World} {v v' : View} {i : ℕ} {x : Held}

theorem lastQueued_append {l l' : List Event} (h : ∀ e ∈ l', ∀ id r, e ≠ .queued id i r) :
    lastQueued i (l ++ l') = lastQueued i l := by
  have hnil : (l'.filterMap fun e : Event => match e with
      | .queued id j response => if j = i then some (id, response) else none
      | _ => none) = [] := by
    rw [List.filterMap_eq_nil_iff]
    intro e he
    cases e with
    | queued id j r =>
      by_cases hj : j = i
      · exact absurd (by rw [hj]) (h _ he id r)
      · simp [hj]
    | _ => rfl
  rw [lastQueued, List.filterMap_append, hnil, List.append_nil, lastQueued]

theorem lastQueued_concat (l : List Event) (id : UInt64) (r : Response) :
    lastQueued i (l ++ [.queued id i r]) = some (id, r) := by
  simp [lastQueued]

/-- Send operations that were there before, and no line about a new one. -/
theorem View.Sends.mono (h : v.Sends) {l : List Event} (htr : v'.trace = v.trace ++ l)
    (hl : ∀ e ∈ l, ∀ id j r, e ≠ .queued id j r)
    (hops : ∀ i y, v'.ops i = some y → y.type = .write → ∃ x, v.ops i = some x ∧ x.type = .write ∧
      x.clientId = y.clientId ∧ x.bufLen = y.bufLen ∧ x.buf = y.buf) : v'.Sends := by
  intro i y hy hyt
  obtain ⟨x, hx, hxt, hc, hlen, hbuf⟩ := hops i y hy hyt
  obtain ⟨r, hlast, hr, htake⟩ := h i x hx hxt
  refine ⟨r, ?_, hlen ▸ hr, by rw [← hlen, ← hbuf, htake]⟩
  rw [htr, lastQueued_append fun e he id r => hl e he id i r, hlast, hc]

theorem View.Sends.answers {id : UInt64} {fd : ℤ} {ms : List Message} (ha : v.Answers id fd ms v')
    (h : v.Sends) : v'.Sends := by
  induction ha with
  | nil v => exact h
  | @cons v v' s m ms hs _ ih =>
    refine ih fun i y hy hyt => ?_
    rw [View.answer_ops] at hy
    rw [View.answer_trace]
    rcases update_eq_some_iff.mp hy with ⟨rfl, ⟨⟩⟩ | ⟨hne, hy⟩
    · refine ⟨m.response, ?_, rfl, by simp [Response.held]⟩
      rw [Message.events, ← List.cons_append, ← List.append_assoc]
      exact lastQueued_concat _ _ _
    · obtain ⟨r, hlast, hr⟩ := h i y hy hyt
      refine ⟨r, ?_, hr⟩
      rw [lastQueued_append, hlast]
      intro e he id' r' heq
      subst heq
      unfold Message.events at he
      split at he <;> simp at he <;> exact hne he.2.1

theorem View.Sends.handles {cqe : Cqe} (h : v.Sends) (hi : v.ops i = some x)
    (hh : (v.log (x.completed cqe)).Handles i x cqe.res v') : v'.Sends := by
  have hlog : (v.log (x.completed cqe)).Sends :=
    h.mono (l := [x.completed cqe]) rfl (by simp [Held.completed]) fun i y hy hyt =>
      ⟨y, hy, hyt, rfl, rfl, rfl⟩
  have hgone : ∀ {v : View}, v.Sends → ∀ l : List Event, (∀ e ∈ l, ∀ id j r, e ≠ .queued id j r) →
      ∀ v' : View, v'.trace = v.trace ++ l → v'.ops = Function.update v.ops i none → v'.Sends := by
    intro v hv l hl v' htr hops
    refine hv.mono htr hl fun k y hy hyt => ?_
    rw [hops] at hy
    rcases update_eq_some_iff.mp hy with ⟨-, ⟨⟩⟩ | ⟨-, hy⟩
    exact ⟨y, hy, hyt, rfl, rfl, rfl⟩
  cases hh with
  | stale => exact hgone hlog [] (by simp) _ (List.append_nil _).symm rfl
  | dropped => exact hgone hlog _ (by simp) _ rfl rfl
  | @accepted cl cl' j bref buf hc hres ht hj hn hbuf =>
    refine hlog.mono (l := [.entered v.nextClientId]) (by simp [View.log]) (by simp) ?_
    intro k y hy hyt
    rw [View.acceptNext_ops, View.connect_ops] at hy
    rcases update_eq_some_iff.mp hy with ⟨-, ⟨⟩⟩ | ⟨-, hy⟩
    · cases hyt
    rcases update_eq_some_iff.mp hy with ⟨-, ⟨⟩⟩ | ⟨-, hy⟩
    · cases hyt
    · exact ⟨y, hy, hyt, rfl, rfl, rfl⟩
  | @received cl s v₁ past hc hres ht hscan hans hfd =>
    have hv₁ := hlog.answers hans
    have hf := v₁.finishes i x s past
    generalize v₁.finish i x s past = v₂ at hf ⊢
    cases hf with
    | kept => exact hv₁.mono (List.append_nil _).symm (by simp) fun k y hy hyt => ⟨y, hy, hyt, rfl, rfl, rfl⟩
    | moved =>
      refine hv₁.mono (List.append_nil _).symm (by simp) fun k y hy hyt => ?_
      rcases update_eq_some_iff.mp hy with ⟨-, ⟨⟩⟩ | ⟨-, hy⟩
      · exact absurd (ht.symm.trans hyt) (by decide)
      · exact ⟨y, hy, hyt, rfl, rfl, rfl⟩
    | tooLong => exact hgone hv₁ _ (by simp) _ rfl rfl
    | refused =>
      refine hgone hv₁ [.handled _ _ _ _, .closed _ _] (by simp) _ (List.append_assoc ..) rfl
  | resumed hc hres ht =>
    refine hlog.mono (List.append_nil _).symm (by simp) fun k y hy hyt => ?_
    rcases update_eq_some_iff.mp hy with ⟨rfl, ⟨⟩⟩ | ⟨-, hy⟩
    · exact ⟨x, hi, ht, rfl, rfl, rfl⟩
    · exact ⟨y, hy, hyt, rfl, rfl, rfl⟩
  | sent => exact hgone hlog [] (by simp) _ (List.append_nil _).symm rfl

theorem View.Sends.moves {a : Action} (h : v.Sends) (hw : w.Owned v) (hm : w.Moves v a w' v') :
    v'.Sends := by
  cases hm with
  | @execute k s res data hs hadm =>
    refine h.mono (l := []) (by rw [View.perform_trace, List.append_nil]) (by simp) ?_
    intro i y hy hyt
    have hm : s.ticket ∈ queue v.sq ++ w.outstanding :=
      List.mem_append_right _ ((World.outstanding_execute hs).mem_iff.mpr List.mem_cons_self)
    exact ⟨y, (View.perform_write (fun x hx => (hw.owns.fits _ hm x hx).1) hyt).mp hy, hyt, rfl, rfl, rfl⟩
  | post => exact h
  | submit => exact h
  | turn => exact h
  | handle hpc hcq hsrv hx hh => exact h.handles hx hh

theorem Run.sends {ok : World → Action → Prop} (hr : Run ok w) : ∃ v, w.Owned v ∧ v.Sends := by
  refine Run.induct (P := fun _ v => v.Sends) ?_ (fun w v a w' v' hw h _ hm _ => h.moves hw hm) hr
  intro srv serverFd j bref buf cl _ _ _ i x hx ht
  rcases update_eq_some_iff.mp hx with ⟨-, ⟨⟩⟩ | ⟨-, ⟨⟩⟩
  cases ht

end

end Caht
