import Caht.Server.Replies

/-! # Clients in lockstep

A client that sends its next message, or closes its end, only when it has got every reply
to those before. Nothing in the server asks for this, but it is what keeps the server
in order: one reply to a client is on its way at a time, no client is dropped while an
entry of it is queued, and what the client gets is its replies, one after the other.
-/

namespace Caht
open Library Protocol

/-- Every reply to the client has been written. -/
def World.Answered (w : World) (c : UInt64) : Prop :=
  ∀ t ∈ w.tickets, ∀ o ∈ w.op t.id, o.type = .write → o.clientId = c → o.bufLen ≤ t.written o.processed

instance (w : World) (c : UInt64) : Decidable (w.Answered c) :=
  inferInstanceAs (Decidable (∀ t ∈ w.tickets, ∀ o ∈ w.op t.id, o.type = .write → o.clientId = c →
    o.bufLen ≤ t.written o.processed))

/-- A receive is executed only when its client has been answered, and what it brings is
at most one message that is answered, with nothing behind it that is refused. -/
def World.Lockstep (w : World) (a : Action) : Prop :=
  match a with
  | .execute i _ _ => ∀ s ∈ w.inflight[i]?, ∀ o ∈ w.op s.sqe.userData, o.type = .read →
      w.Answered o.clientId
  | .post _ => True
  | .serve junk => ∀ cqe ∈ w.nextCqe (.serve junk), ∀ o ∈ w.op cqe.sqe.userData, o.type = .read →
      ∀ buf ∈ (w.srv.getBuf o.bufRef).toOption, ∀ s ∈ scan buf 0 cqe.res.toNat,
        s.messages.length ≤ 1 ∧ (s.stop = .tooLong ∨ s.stop = .refused → s.messages = [])

instance (w : World) (a : Action) : Decidable (w.Lockstep a) :=
  match a with
  | .execute i _ _ => inferInstanceAs (Decidable (∀ s ∈ w.inflight[i]?,
      ∀ o ∈ w.op s.sqe.userData, o.type = .read → w.Answered o.clientId))
  | .post _ => .isTrue trivial
  | .serve junk => inferInstanceAs (Decidable (∀ cqe ∈ w.nextCqe (.serve junk),
      ∀ o ∈ w.op cqe.sqe.userData, o.type = .read →
      ∀ buf ∈ (w.srv.getBuf o.bufRef).toOption, ∀ s ∈ scan buf 0 cqe.res.toNat,
        s.messages.length ≤ 1 ∧ (s.stop = .tooLong ∨ s.stop = .refused → s.messages = [])))

/-- A reply that has not been written whole, and its ticket. -/
structure World.Unwritten (w : World) (v : View) (c : UInt64) (t : Ticket) (x : Held) : Prop
    extends w.Writer v c t x where
  lt : t.written x.processed < x.bufLen

/-- One reply to each client is unwritten at a time. None is when the client has sent
something, and as long as one is with the kernel, the next receive is so too. -/
structure World.InStep (w : World) (v : View) : Prop where
  left : ∀ i x, v.ops i = some x → x.type = .write → x.processed < x.bufLen
  one : ∀ c t x t' y, w.Unwritten v c t x → w.Unwritten v c t' y → t.id = t'.id
  idle : ∀ t ∈ w.outstanding, ∀ x, v.ops t.id = some x → x.type = .read →
    ∀ res data, t.stage = .done res data → ∀ t' y, ¬ w.Unwritten v x.clientId t' y
  armed : ∀ e ∈ v.sq, ∀ x, v.ops e.userData = some x → x.type = .read →
    ∀ t ∈ w.outstanding, ∀ y, ¬ w.Unwritten v x.clientId t y

section
variable {w w' : World} {v v' : View} {c : UInt64} {i : ℕ} {x : Held} {res : ℤ} {cqe : Cqe}

/-! ## What a completion leaves unwritten -/

theorem View.Handles.reply_client (hh : v.Handles i x res v') {k : ℕ} {z : Held}
    (hk : v.ops k = none) (hz : v'.ops k = some z) : v.clients x.clientId ≠ none := by
  have hgone : ∀ o, k ≠ i → Function.update v.ops i o k ≠ some z := fun o hki => by
    rw [Function.update_of_ne hki, hk]
    simp
  cases hh with
  | stale =>
    by_cases hki : k = i
    · rw [hki] at hz
      simp [View.setOp] at hz
    · exact absurd hz (hgone _ hki)
  | dropped hc => simp [hc]
  | accepted hc => simp [hc]
  | received hc => simp [hc]
  | resumed hc => simp [hc]
  | sent hc => simp [hc]

/-- A reply that is unwritten after a completion was so before, or is new. -/
theorem World.Unwritten.handles {t : Ticket} {z : Held} (hz : w'.Unwritten v' c t z) (hw : w.Owned v)
    (hw' : w'.Owned v') (hi : v.ops cqe.sqe.userData = some x)
    (hc : cqe.ticket ∈ w.outstanding)
    (hout : ∀ t ∈ w.outstanding, t ≠ cqe.ticket → t ∈ w'.outstanding)
    (hback : ∀ t ∈ w'.outstanding, t ∈ w.outstanding)
    (hh : (v.log (x.completed cqe)).Handles cqe.sqe.userData x cqe.res v') :
    (∃ t₀ x₀, w.Unwritten v c t₀ x₀ ∧ t₀.id = t.id ∧ (t ∈ w'.outstanding → t₀ ∈ w.outstanding)) ∨
      (v.ops t.id = none ∧ x.type = .read ∧ x.clientId = c ∧ t ∉ w'.outstanding) := by
  obtain ⟨⟨ht, hop, hzt, hzc⟩, hlt⟩ := hz
  have hused : v.ops t.id = none → t ∉ w'.outstanding := by
    intro hk hm
    obtain ⟨y, hy, -⟩ := hw.owns.held (List.mem_append_right _ (hback t hm))
    exact absurd (hy.symm.trans hk) (by simp)
  cases hh.origin hi hop with
  | kept hk hold =>
    obtain ⟨t₀, ht₀, hid⟩ := List.mem_map.mp ((hw.owns.used t.id).mp (by
      rw [show v.ops t.id = some z from hold]
      simp))
    have hne : t₀ ≠ cqe.ticket := fun he => hk (by rw [← hid, he]; rfl)
    obtain rfl := hw'.owns.eq_of_id (hh.tickets hout ht₀ hne) ht hid
    exact .inl ⟨t₀, z, ⟨⟨ht₀, hold, hzt, hzc⟩, hlt⟩, rfl, hback t₀⟩
  | reply hk hx _ hc' => exact .inr ⟨hk, hx, hc'.symm.trans hzc, hused hk⟩
  | own hk _ htype hc' =>
    have hxt : x.type = .write := htype.symm.trans hzt
    have hfit := hw.owns.fits _ (List.mem_append_right _ hc) x hi
    have hlt₀ := hh.written_lt hfit hxt (hk ▸ hop)
    exact .inl ⟨cqe.ticket, x, ⟨⟨List.mem_append_right _ hc, hi, hxt, hc'.symm.trans hzc⟩, hlt₀⟩,
      hk.symm, fun _ => hc⟩
  | connected _ _ _ htype => exact absurd (hzt.symm.trans htype) (by decide)
  | next _ _ htype => exact absurd (hzt.symm.trans htype) (by decide)

/-- A send that is still taken has bytes left, counted from what it has written. -/
theorem View.Handles.left {k : ℕ} {z : Held}
    (hh : (v.log (x.completed cqe)).Handles cqe.sqe.userData x cqe.res v')
    (hleft : ∀ i x, v.ops i = some x → x.type = .write → x.processed < x.bufLen)
    (hfit : cqe.ticket.Fits x) (hi : v.ops cqe.sqe.userData = some x) (hz : v'.ops k = some z)
    (hzt : z.type = .write) : z.processed < z.bufLen := by
  cases hh.origin hi hz with
  | kept _ hold => exact hleft k z hold hzt
  | reply hk =>
    obtain ⟨hzero, n, -, r, -, hlen, -⟩ := hh.carries hi hk hz hzt
    have := r.bytes_length
    omega
  | own hk _ htype =>
    subst hk
    have hxt : x.type = .write := htype.symm.trans hzt
    have hlt := hh.written_lt hfit hxt hz
    cases hh with
    | stale => exact absurd hz (by simp [View.setOp])
    | dropped => exact absurd hz (by simp [View.setOp])
    | accepted _ _ ht' => exact absurd (hxt.symm.trans ht') (by decide)
    | received _ _ ht' => exact absurd (hxt.symm.trans ht') (by decide)
    | resumed =>
      simp only [View.resume, View.prep, View.setOp, Function.update_self, Option.some.injEq] at hz
      subst hz
      exact hlt
    | sent => exact absurd hz (by simp [View.setOp])
  | connected _ _ _ htype => exact absurd (hzt.symm.trans htype) (by decide)
  | next _ _ htype => exact absurd (hzt.symm.trans htype) (by decide)

theorem View.Answers.new_unique {id : UInt64} {fd : ℤ} {ms : List Message} (ha : v.Answers id fd ms v')
    (hms : ms.length ≤ 1) {k k' : ℕ} (hk : v.ops k = none) (hk' : v.ops k' = none)
    (hz : v'.ops k ≠ none) (hz' : v'.ops k' ≠ none) : k = k' := by
  cases ha with
  | nil => exact absurd hk hz
  | @cons _ _ s m ms hs ha =>
    obtain rfl : ms = [] := by
      rw [List.length_cons] at hms
      exact List.length_eq_zero_iff.mp (by omega)
    cases ha
    have hslot : ∀ j, v.ops j = none → (v.answer s id fd m).ops j ≠ none → j = s.op := by
      intro j hj hne
      by_contra hjs
      rw [View.answer_ops, Function.update_of_ne hjs] at hne
      exact hne hj
    rw [hslot k hk hz, hslot k' hk' hz']

theorem View.Handles.new_unique (hh : v.Handles i x res v') (hx : x.type = .read) (hi : v.ops i = some x)
    (hms : ∀ s, scan x.buf 0 res.toNat = some s → s.messages.length ≤ 1) {k k' : ℕ}
    (hk : v.ops k = none) (hk' : v.ops k' = none) (hz : v'.ops k ≠ none) (hz' : v'.ops k' ≠ none) :
    k = k' := by
  have hne : ∀ j, v.ops j = none → j ≠ i := by
    rintro j hj rfl
    exact absurd (hi.symm.trans hj) (by simp)
  have hgone : ∀ o, Function.update v.ops i o k = none := fun o => by
    rw [Function.update_of_ne (hne k hk), hk]
  cases hh with
  | stale => exact absurd (hgone _) hz
  | dropped => exact absurd (hgone _) hz
  | accepted _ _ ht => exact absurd (hx.symm.trans ht) (by decide)
  | @received cl s v₁ past hc hres ht hscan ha hfd =>
    have hf := v₁.finishes i x s past
    refine ha.new_unique (hms s hscan) hk hk' ?_ ?_
    · rwa [hf.ops_of_ne (hne k hk)] at hz
    · rwa [hf.ops_of_ne (hne k' hk')] at hz'
  | resumed => exact absurd (hgone _) hz
  | sent => exact absurd (hgone _) hz

theorem World.Serving.read_unique (h : w.Serving v) (hu : v.Unwrapped) (hi : v.ops i = some x)
    (hx : x.type = .read) (hmem : v.clients x.clientId ≠ none) {j : ℕ} {y : Held} (hj : v.ops j = some y)
    (hy : y.type = .read) (hc : y.clientId = x.clientId) : j = i := by
  obtain ⟨cl, k, z, hcon⟩ := (h.census.unwrapped_life hu x.clientId).connected_of hi rfl hmem (by simp [hx])
  have hone : ∀ j y, v.ops j = some y → y.type = .read → y.clientId = x.clientId → j = k := by
    intro j y hj hy hc
    by_contra hjk
    exact absurd ((hcon.other j y hj hc hjk).symm.trans hy) (by decide)
  rw [hone j y hj hy hc, hone i x hi hx rfl]

/-- A send that may still write has its ticket, and what the ticket says. -/
theorem World.InStep.unwritten (h : w.InStep v) {t : Ticket} (ht : t ∈ queue v.sq ++ w.outstanding)
    (hi : v.ops t.id = some x) (hx : x.type = .write)
    (hst : ∀ res data, t.stage = .done res data → res ≤ 0) : w.Unwritten v x.clientId t x := by
  refine ⟨⟨ht, hi, hx, rfl⟩, ?_⟩
  have hlt := h.left t.id x hi hx
  unfold Ticket.written
  split
  · rename_i res data hdone
    have hle := hst res data hdone
    omega
  · exact hlt

/-! ## Steps -/

/-- The entries of the client go on, and write no less than before. -/
theorem World.Unwritten.restage {t : Ticket} (hx : w'.Unwritten v' c t x)
    (hwrite : ∀ i x, x.type = .write → v'.ops i = some x → v.ops i = some x)
    (hto : ∀ t ∈ queue v'.sq ++ w'.outstanding, ∃ t₀ ∈ queue v.sq ++ w.outstanding, t₀.id = t.id ∧
      (∀ n, t₀.written n ≤ t.written n) ∧
      (v'.sq ≠ [] → t ∈ w'.outstanding → t₀ ∈ w.outstanding)) :
    ∃ t₀, w.Unwritten v c t₀ x ∧ t₀.id = t.id ∧
      (v'.sq ≠ [] → t ∈ w'.outstanding → t₀ ∈ w.outstanding) := by
  obtain ⟨⟨ht, hop, hxt, hxc⟩, hlt⟩ := hx
  obtain ⟨t₀, ht₀, hid, hle, hin⟩ := hto t ht
  refine ⟨t₀, ⟨⟨ht₀, ?_, hxt, hxc⟩, (hle x.processed).trans_lt hlt⟩, hid, hin⟩
  rw [hid]
  exact hwrite t.id x hxt hop

theorem World.InStep.restage (h : w.InStep v)
    (hops : ∀ i y, v'.ops i = some y → ∃ buf, v.ops i = some { y with buf := buf })
    (hwrite : ∀ i x, x.type = .write → v'.ops i = some x → v.ops i = some x)
    (hto : ∀ t ∈ queue v'.sq ++ w'.outstanding, ∃ t₀ ∈ queue v.sq ++ w.outstanding, t₀.id = t.id ∧
      (∀ n, t₀.written n ≤ t.written n) ∧
      (v'.sq ≠ [] → t ∈ w'.outstanding → t₀ ∈ w.outstanding))
    (hsq : ∀ e ∈ v'.sq, e ∈ v.sq)
    (hdone : ∀ t ∈ w'.outstanding, ∀ x, v.ops t.id = some x → x.type = .read → ∀ res data,
      t.stage = .done res data → t ∈ w.outstanding ∨ ∀ t' y, ¬ w.Unwritten v x.clientId t' y) :
    w'.InStep v' where
  left := fun i x hi ht => h.left i x (hwrite i x ht hi) ht
  one := by
    intro c t x t' y hx hy
    obtain ⟨t₀, hx₀, hid, -⟩ := hx.restage hwrite hto
    obtain ⟨t₁, hy₁, hid', -⟩ := hy.restage hwrite hto
    rw [← hid, ← hid']
    exact h.one c t₀ x t₁ y hx₀ hy₁
  idle := by
    intro t ht x hi hx res data hst t' y hy
    obtain ⟨buf, hold⟩ := hops t.id x hi
    obtain ⟨t₁, hy₁, -⟩ := hy.restage hwrite hto
    rcases hdone t ht _ hold hx res data hst with hin | hno
    · exact h.idle t hin _ hold hx res data hst t₁ y hy₁
    · exact hno t₁ y hy₁
  armed := by
    intro e he x hi hx t ht y hy
    obtain ⟨buf, hold⟩ := hops e.userData x hi
    obtain ⟨t₁, hy₁, -, hin⟩ := hy.restage hwrite hto
    exact h.armed e (hsq e he) _ hold hx t₁ (hin (List.ne_nil_of_mem he) ht) y hy₁

theorem World.InStep.handles (h : w.InStep v) (hs : w.Serving v) (hw : w.Owned v) (hw' : w'.Owned v')
    (hu : v.Unwrapped) (hi : v.ops cqe.sqe.userData = some x)
    (hc : cqe.ticket ∈ w.outstanding)
    (hout : ∀ t ∈ w.outstanding, t ≠ cqe.ticket → t ∈ w'.outstanding)
    (hback : ∀ t ∈ w'.outstanding, t ∈ w.outstanding ∧ t ≠ cqe.ticket)
    (hms : x.type = .read → ∀ s, scan x.buf 0 cqe.res.toNat = some s → s.messages.length ≤ 1)
    (hh : (v.log (x.completed cqe)).Handles cqe.sqe.userData x cqe.res v') : w'.InStep v' := by
  have hfit := hw.owns.fits _ (List.mem_append_right _ hc) x hi
  have hun := fun c t z (hz : w'.Unwritten v' c t z) =>
    hz.handles hw hw' hi hc hout (fun t ht => (hback t ht).1) hh
  have hidle : x.type = .read → ∀ t y, ¬ w.Unwritten v x.clientId t y := fun hx =>
    h.idle _ hc x hi hx cqe.res cqe.data rfl
  refine ⟨?_, ?_, ?_, ?_⟩
  · exact fun i z hz hzt => hh.left h.left hfit hi hz hzt
  · intro c t z t' z' hz hz'
    rcases hun c t z hz with ⟨t₀, z₀, hz₀, hid, -⟩ | ⟨hnone, hx, hxc, -⟩
    · rcases hun c t' z' hz' with ⟨t₁, z₁, hz₁, hid', -⟩ | ⟨-, hx, hxc, -⟩
      · rw [← hid, ← hid']
        exact h.one c t₀ z₀ t₁ z₁ hz₀ hz₁
      · exact absurd (hxc ▸ hz₀) (hidle hx t₀ z₀)
    · rcases hun c t' z' hz' with ⟨t₁, z₁, hz₁, -⟩ | ⟨hnone', -, -, -⟩
      · exact absurd (hxc ▸ hz₁) (hidle hx t₁ z₁)
      · refine hh.new_unique hx hi (hms hx) hnone hnone' ?_ ?_
        · simp [hz.op]
        · simp [hz'.op]
  · intro t ht y hy hyt res data hst t' z hz
    obtain ⟨hin, hne⟩ := hback t ht
    obtain ⟨y₀, hy₀, -⟩ := hw.owns.held (List.mem_append_right _ hin)
    have hid : t.id ≠ cqe.sqe.userData := fun he => hne
      (hw.owns.eq_of_id (List.mem_append_right _ hin) (List.mem_append_right _ hc) he)
    obtain rfl := Option.some.inj ((hh.op_of_ne hid hy₀).symm.trans hy)
    rcases hun _ t' z hz with ⟨t₀, z₀, hz₀, -⟩ | ⟨hnone, hx, hxc, -⟩
    · exact h.idle t hin y₀ hy₀ hyt res data hst t₀ z₀ hz₀
    · have hmem : v.clients x.clientId ≠ none := hh.reply_client hnone hz.op
      exact hid (hs.read_unique hu hi hx hmem hy₀ hyt hxc.symm)
  · intro e he y hy hyt t ht z hz
    rcases hun _ t z hz with ⟨t₀, z₀, hz₀, -, hin⟩ | ⟨-, -, -, hnot⟩
    · obtain ⟨l, hl, hnew⟩ := hh.sq
      rw [hl] at he
      rcases List.mem_append.mp he with he | he
      · obtain ⟨hne, hused⟩ := hw.queued_used hc e he
        obtain ⟨y₀, hy₀⟩ := Option.ne_none_iff_exists'.mp hused
        obtain rfl := Option.some.inj ((hh.op_of_ne hne hy₀).symm.trans hy)
        exact h.armed e he y₀ hy₀ hyt t₀ (hin ht) z₀ hz₀
      · cases hh.origin hi hy with
        | kept hk hold =>
          rcases hnew e he with hei | hnone
          · exact hk hei
          · exact absurd (hold.symm.trans hnone) (by simp)
        | reply _ _ ht' => exact absurd (hyt.symm.trans ht') (by decide)
        | own _ _ ht' hyc => exact hidle (ht'.symm.trans hyt) t₀ z₀ (hyc ▸ hz₀)
        | connected _ hx _ _ hyc =>
          exact hs.accept_no_write hu hi hx hz₀.op hz₀.type (hz₀.clientId.trans hyc)
        | next _ _ ht' => exact absurd (hyt.symm.trans ht') (by decide)
    · exact hnot ht

theorem World.Owned.answered (hw : w.Owned v) :
    w.Answered c ↔ ∀ t x, ¬ w.Unwritten v c t x := by
  constructor
  · rintro h t x ⟨⟨ht, hop, hxt, hxc⟩, hlt⟩
    rw [hw.models.sq] at ht
    exact absurd hlt (not_lt.mpr (h t ht _ (hw.op_eq_some.mpr ⟨x, hop, rfl⟩) hxt hxc))
  · intro h t ht o ho hot hoc
    obtain ⟨x, hx, rfl⟩ := hw.op_eq_some.mp ho
    rw [World.tickets, ← hw.models.sq] at ht
    exact not_lt.mp fun hlt => h t x ⟨⟨ht, hx, hot, hoc⟩, hlt⟩

theorem World.InStep.execute {j : ℕ} {s : Submitted} {data : List UInt8} (h : w.InStep v)
    (hw : w.Owned v) (hok : w.Lockstep (.execute j res data)) (hsj : w.inflight[j]? = some s) :
    World.InStep { w.perform s res data with
      inflight := w.inflight.eraseIdx j, executed := w.executed ++ [⟨s.sqe, res, data⟩] }
      (v.perform s.sqe res data w.conns.length) := by
  have hin : s.ticket ∈ w.outstanding :=
    (World.outstanding_execute hsj).mem_iff.mpr List.mem_cons_self
  have hfits : ∀ x, v.ops s.sqe.userData = some x → s.sqe.request.Fits x := fun x hx =>
    (hw.owns.fits _ (List.mem_append_right _ hin) x hx).1
  refine h.restage (fun i y hy => View.perform_ops hy)
    (fun i z hz hop => (View.perform_write hfits hz).mp hop) ?_ ?_ ?_
  · intro t ht
    rw [View.perform_sq] at ht
    rcases List.mem_append.mp ht with ht | ht
    · refine ⟨t, List.mem_append_left _ ht, rfl, fun _ => le_rfl, fun _ ht' => ?_⟩
      exact (World.mem_outstanding_execute ht').elim id fun he => by
        rw [he] at ht
        obtain ⟨e, -, he'⟩ := List.mem_map.mp ht
        cases he'
    · rcases World.mem_outstanding_execute ht with ht | rfl
      · exact ⟨t, List.mem_append_right _ ht, rfl, fun _ => le_rfl, fun _ _ => ht⟩
      · exact ⟨s.ticket, List.mem_append_right _ hin, rfl, fun n => Nat.le_add_right n _, fun _ _ => hin⟩
  · rw [View.perform_sq]
    exact fun e he => he
  · intro t ht y hy hyt r d hst
    rcases World.mem_outstanding_execute ht with ht | rfl
    · exact .inl ht
    · refine .inr (hw.answered.mp ?_)
      exact hok s hsj _ (hw.op_eq_some.mpr ⟨y, hy, rfl⟩) hyt

theorem World.InStep.submit (h : w.InStep v) (hw : w.Owned v) :
    w.submit.InStep { v with sq := [] } := by
  refine h.restage (fun i y hy => ⟨y.buf, hy⟩) (fun i x _ hop => hop) ?_ (fun e he => ?_) ?_
  · intro t ht
    rcases World.mem_submit.mp (by simpa [queue] using ht) with ht | ⟨e, he, rfl⟩
    · exact ⟨t, List.mem_append_right _ ht, rfl, fun _ => le_rfl, fun _ _ => ht⟩
    · refine ⟨⟨e, .queued⟩, List.mem_append_left _ (List.mem_map.mpr ⟨e, hw.models.sq ▸ he, rfl⟩), ?_,
        fun _ => le_rfl, fun hne => absurd rfl hne⟩
      simp only [Ticket.id, Submitted.ticket, w.srv.resolve_sqe]
  · cases he
  · exact fun t ht x _ _ res data hst => .inl (World.done_of_submit ht hst)

theorem World.InStep.congr (h : w.InStep v) (hout : ∀ t, t ∈ w'.outstanding ↔ t ∈ w.outstanding) :
    w'.InStep v := by
  refine h.restage (fun i y hy => ⟨y.buf, hy⟩) (fun i x _ hop => hop) ?_ (fun e he => he) ?_
  · intro t ht
    refine ⟨t, ?_, rfl, fun _ => le_rfl, fun _ ht' => (hout t).mp ht'⟩
    rwa [List.mem_append, ← hout, ← List.mem_append]
  · exact fun t ht x _ _ res data _ => .inl ((hout t).mp ht)

theorem World.Lockstep.one_message {junk : Junk} {pc : Pc} {cq : List Cqe} {s : Scan}
    (hok : w.Lockstep (.serve junk)) (hw : w.Owned v) (hpc : w.pc.Handling pc) (hcq : w.cq = cqe :: cq)
    (hx : v.ops cqe.sqe.userData = some x) (hxt : x.type = .read)
    (hscan : scan x.buf 0 cqe.res.toNat = some s) : s.messages.length ≤ 1 := by
  have hbuf : w.srv.getBuf (x.operation cqe.sqe.userData).bufRef = .ok x.buf := hw.models.getBuf hx
  refine (hok cqe (World.nextCqe_of_handling hpc hcq junk) _ (hw.op_eq_some.mpr ⟨x, hx, rfl⟩) hxt
    x.buf ?_ s hscan).1
  rw [hbuf]
  rfl

theorem World.InStep.moves {a : Action} (h : w.InStep v) (hs : w.Serving v) (hw : w.Owned v)
    (hok : w.Lockstep a) (hm : w.Moves v a w' v') (hw' : w'.Owned v') (hu : v.Unwrapped) :
    w'.InStep v' := by
  cases hm with
  | execute hsj => exact h.execute hw hok hsj
  | post hc => exact h.congr fun t => (World.outstanding_post hc).mem_iff.symm
  | submit => exact h.submit hw
  | turn => exact h.congr fun _ => Iff.rfl
  | @handle junk pc cqe cq srv x v' hpc hcq hsrv hx hh =>
    have hperm := World.outstanding_handle hcq
    have hne : ∀ t ∈ World.outstanding { w with srv := srv, cq := cq, pc := pc }, t ≠ cqe.ticket := by
      rintro t ht rfl
      exact (hw.owns.perm (hperm.append_left _ |>.trans List.perm_middle)).ne_of_mem
        (List.mem_append_right _ ht) rfl
    refine h.handles hs hw hw' hu hx (hperm.mem_iff.mpr List.mem_cons_self) ?_ ?_ ?_ hh
    · intro t ht hnet
      exact (List.mem_cons.mp (hperm.mem_iff.mp ht)).resolve_left hnet
    · exact fun t ht => ⟨hperm.mem_iff.mpr (List.mem_cons_of_mem _ ht), hne t ht⟩
    · exact fun hxt s hscan => hok.one_message hw hpc hcq hx hxt hscan

/-! ## What it is good for -/

theorem World.InStep.sendsAlone (h : w.InStep v) (hw : w.Owned v) (a : Action) : w.SendsAlone a := by
  cases a with
  | post => trivial
  | serve => trivial
  | execute j res data =>
    intro _ s hsj o ho hot _ t ht hne o' ho' hot' hoc' ⟨_, hlt⟩
    obtain ⟨x, hx, rfl⟩ := hw.op_eq_some.mp ho
    obtain ⟨y, hy, rfl⟩ := hw.op_eq_some.mp ho'
    have hin : s.ticket ∈ queue v.sq ++ w.outstanding :=
      List.mem_append_right _ ((World.outstanding_execute hsj).mem_iff.mpr List.mem_cons_self)
    rw [World.tickets, ← hw.models.sq] at ht
    have hown := h.unwritten hin hx hot fun r d hst => by cases hst
    exact hne (h.one _ t y s.ticket x ⟨⟨ht, hy, hot', hoc'⟩, hlt⟩ hown)

/-- No entry of a client is queued when something is received from it, or a send of it
has failed. -/
theorem World.InStep.unqueued (h : w.InStep v) (hs : w.Serving v) (hw : w.Owned v) (hu : v.Unwrapped)
    (hc : cqe.ticket ∈ w.outstanding) (hi : v.ops cqe.sqe.userData = some x)
    (hmem : v.clients x.clientId ≠ none) (hres : cqe.res < 0 ∨ x.type = .read) :
    ∀ e ∈ v.sq, ∀ y, v.ops e.userData = some y → y.clientId ≠ x.clientId := by
  intro e he y hy hyc
  obtain ⟨hne, -⟩ := hw.queued_used hc e he
  have hq : (⟨e, .queued⟩ : Ticket) ∈ queue v.sq ++ w.outstanding :=
    List.mem_append_left _ (List.mem_map.mpr ⟨e, he, rfl⟩)
  have hown : x.type = .write → w.Unwritten v x.clientId cqe.ticket x := fun hxt =>
    h.unwritten (List.mem_append_right _ hc) hi hxt (by
      rintro r d ⟨⟩
      rw [hxt] at hres
      exact hres.elim le_of_lt (by simp))
  cases hxt : x.type with
  | accept => exact hne (hs.accept_alone hu hi hxt hy hyc)
  | read =>
    cases hyt : y.type with
    | accept => exact hne (hs.accept_alone hu hy hyt hi hyc.symm).symm
    | read => exact hne (hs.read_unique hu hi hxt hmem hy hyt hyc)
    | write =>
      have hy' := h.unwritten hq hy hyt fun r d hst => by cases hst
      exact h.idle _ hc x hi hxt cqe.res cqe.data rfl _ y (hyc ▸ hy')
  | write =>
    cases hyt : y.type with
    | accept => exact hne (hs.accept_alone hu hy hyt hi hyc.symm).symm
    | read => exact h.armed e he y hy hyt _ hc x (hyc ▸ hown hxt)
    | write =>
      have hy' := h.unwritten hq hy hyt fun r d hst => by cases hst
      exact hne (h.one x.clientId ⟨e, .queued⟩ y cqe.ticket x (hyc ▸ hy') (hown hxt))

theorem World.mem_of_nextCqe {a : Action} (h : w.nextCqe a = some cqe) : cqe ∈ w.cq := by
  unfold World.nextCqe at h
  split at h
  · exact List.mem_of_head? h
  · exact List.mem_of_head? h
  · cases h

theorem World.InStep.dropsUnqueued (h : w.InStep v) (hs : w.Serving v) (hw : w.Owned v)
    (hu : v.Unwrapped) {a : Action} (hok : w.Lockstep a) : w.DropsUnqueued a := by
  intro cqe hnext o ho hinfo n hn
  obtain ⟨x, hx, rfl⟩ := hw.op_eq_some.mp ho
  have hc : cqe.ticket ∈ w.outstanding := by
    refine List.mem_append_right _ (List.mem_append_right _ (List.mem_map.mpr ⟨cqe, ?_, rfl⟩))
    exact World.mem_of_nextCqe hnext
  have hmem : v.clients x.clientId ≠ none := fun hnone => by
    have hgone := hw.models.info_eq_none.mpr hnone
    change (w.srv.info x.clientId).isSome at hinfo
    rw [hgone] at hinfo
    cases hinfo
  have hnone := h.unqueued hs hw hu hc hx hmem
  have hsq : cqe.res < 0 ∨ x.type = .read → ∀ e ∈ w.srv.ring.sq, ∀ o' ∈ w.op e.userData,
      o'.clientId ≠ x.clientId := by
    intro hres e he o' ho'
    obtain ⟨y, hy, rfl⟩ := hw.op_eq_some.mp ho'
    exact hnone hres e (hw.models.sq ▸ he) y hy
  have hbuf : w.srv.getBuf (x.operation cqe.sqe.userData).bufRef = .ok x.buf := hw.models.getBuf hx
  unfold World.answersBeforeDrop at hn
  by_cases hneg : cqe.res < 0
  · rw [if_pos hneg] at hn
    exact ⟨(Option.some.inj hn).symm, hsq (.inl hneg)⟩
  rw [if_neg hneg] at hn
  by_cases hread : (x.operation cqe.sqe.userData).type ≠ .read
  · rw [if_pos hread] at hn
    cases hn
  rw [if_neg hread] at hn
  refine ⟨?_, hsq (.inr (not_not.mp hread))⟩
  by_cases hzero : cqe.res = 0
  · rw [if_pos hzero] at hn
    exact (Option.some.inj hn).symm
  rw [if_neg hzero, hbuf] at hn
  simp only at hn
  split at hn
  · cases hn
  · rename_i s hscan
    by_cases hstop : s.stop = .tooLong ∨ s.stop = .refused
    swap
    · rw [if_neg hstop] at hn
      cases hn
    rw [if_pos hstop] at hn
    obtain rfl := Option.some.inj hn
    cases a with
    | execute => cases hnext
    | post => cases hnext
    | serve junk =>
      have hone := hok cqe hnext _ ho (not_not.mp hread) x.buf (by rw [hbuf]; rfl) s hscan
      rw [hone.2 hstop]
      rfl

/-! ## Runs -/

theorem World.InStep.start (srv : Server) (serverFd : ℤ) (j bref : ℕ) (buf : List UInt8)
    (cl : Client) : World.InStep ⟨srv, [], [], [], [], .submit⟩
      ((View.initial serverFd).acceptNext j bref buf cl) := by
  have hacc : ∀ i x, ((View.initial serverFd).acceptNext j bref buf cl).ops i = some x →
      x.type = .accept := by
    intro i x hx
    rcases update_eq_some_iff.mp hx with ⟨-, ⟨⟩⟩ | ⟨-, ⟨⟩⟩
    rfl
  have hno : ∀ c t x, ¬ World.Unwritten ⟨srv, [], [], [], [], .submit⟩
      ((View.initial serverFd).acceptNext j bref buf cl) c t x := fun c t x hx =>
    absurd (hx.type.symm.trans (hacc t.id x hx.op)) (by decide)
  refine ⟨?_, ?_, ?_, ?_⟩
  · exact fun i x hi hx => absurd (hx.symm.trans (hacc i x hi)) (by decide)
  · exact fun c t x t' y hx _ => absurd hx (hno c t x)
  · exact fun t _ x _ _ res data _ t' y => hno _ t' y
  · exact fun e _ x _ _ t _ y => hno _ t y

theorem Run.inStep (hr : Run World.Lockstep w) :
    ∃ v, w.Owned v ∧ w.Serving v ∧ (v.Unwrapped → w.InStep v) := by
  refine Run.induct (P := fun w v => w.Serving v ∧ (v.Unwrapped → w.InStep v)) ?_ ?_ hr
  · intro srv serverFd j bref buf cl hfd _ _
    exact ⟨World.Serving.start srv serverFd hfd j bref buf cl,
      fun _ => World.InStep.start srv serverFd j bref buf cl⟩
  · intro w v a w' v' hw ⟨hs, h⟩ hok hm hw'
    exact ⟨hs.moves hw hm, fun hu =>
      (h (hm.unwrapped hu)).moves hs hw hok hm hw' (hm.unwrapped hu)⟩

theorem Run.orderly (hr : Run World.Lockstep w) (hacc : w.srv.accepts < 2 ^ 64 - 1) :
    Run World.Orderly w := by
  induction hr with
  | start hfd hw => exact .start hfd hw
  | @step w w' a hr hok hstep ih =>
    obtain ⟨v, hw, hs, h⟩ := hr.inStep
    have hle := (World.accepts_step hw hstep).1
    have hu := hs.unwrapped hw (by omega)
    exact .step (ih (by omega)) ⟨(h hu).dropsUnqueued hs hw hu hok, (h hu).sendsAlone hw a⟩ hstep

end

end Caht
