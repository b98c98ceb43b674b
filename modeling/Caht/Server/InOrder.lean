import Caht.Server.Lockstep

/-! # Replies in order

What a client in lockstep gets: the replies to its messages, one after the other, and
as many as it asked for. The last one may be on its way still, and then the operation
that sends it has the rest of it.
-/

namespace Caht
open Library Protocol

/-- What is left of the message of a send. -/
def Held.unsent (x : Held) (t : Ticket) : List UInt8 := (x.buf.take x.bufLen).drop (t.written x.processed)

/-- The stream and the rest of the reply that is unwritten are all replies to the client,
in the order in which they were queued. -/
structure World.InOrder (w : World) (v : View) (c : UInt64) (stream rest : List UInt8) : Prop where
  all : stream ++ rest = (repliesTo c v.trace).flatMap Response.bytes
  last : ∀ r ∈ (repliesTo c v.trace).getLast?, rest <:+ r.bytes
  unwritten : ∀ t x, w.Unwritten v c t x → rest = x.unsent t
  answered : (∀ t x, ¬ w.Unwritten v c t x) → rest = []

/-- The stream of every connection that is held is in order. -/
def World.Ordered (w : World) (v : View) : Prop :=
  ∀ i x k fd, w.HoldsConn v i x k fd → ∃ stream rest, w.conns[k]? = some stream ∧
    w.InOrder v x.clientId stream rest

section
variable {w w' : World} {v v' : View} {c : UInt64} {i : ℕ} {x : Held} {cqe : Cqe} {stream rest : List UInt8}
  {l : List Event} {fd : ℤ}

/-! ## Replies in the log -/

theorem Message.repliesTo_events (m : Message) (id : UInt64) (op : ℕ) :
    repliesTo id (m.events id op) = [m.response] := by
  unfold Message.events
  cases hj : judge m.payload <;> simp [repliesTo_cons, Event.clientId, Event.reply]

theorem Held.repliesTo_completed (x : Held) (cqe : Cqe) : repliesTo c [x.completed cqe] = [] :=
  repliesTo_eq_nil fun e he _ => by rw [List.mem_singleton.mp he]; rfl

theorem View.Handles.repliesTo_eq (hh : (v.log (x.completed cqe)).Handles i x cqe.res v')
    (hc : ¬ (x.type = .read ∧ x.clientId = c)) : repliesTo c v'.trace = repliesTo c v.trace := by
  have hquiet : ∀ l, (∀ e ∈ l, e.clientId = c → e.reply = none) →
      repliesTo c (v.trace ++ x.completed cqe :: l) = repliesTo c v.trace := by
    intro l hl
    rw [repliesTo_append, ← List.singleton_append, repliesTo_append, x.repliesTo_completed,
      repliesTo_eq_nil hl, List.append_nil, List.append_nil]
  have hclosed : ∀ e ∈ [Event.closed x.clientId x.clientFd], e.clientId = c → e.reply = none := by
    intro e he _
    rw [List.mem_singleton.mp he]
    rfl
  cases hh with
  | stale => exact hquiet [] (by simp)
  | dropped =>
    have htr : v.trace ++ [x.completed cqe] ++ [Event.closed x.clientId x.clientFd] =
        v.trace ++ x.completed cqe :: [Event.closed x.clientId x.clientFd] := List.append_assoc ..
    exact (congrArg (repliesTo c) htr).trans (hquiet _ hclosed)
  | accepted =>
    have htr : v.trace ++ [x.completed cqe] ++ [Event.entered v.nextClientId] =
        v.trace ++ x.completed cqe :: [Event.entered v.nextClientId] := List.append_assoc ..
    refine (congrArg (repliesTo c) htr).trans (hquiet _ fun e he _ => ?_)
    rw [List.mem_singleton.mp he]
    rfl
  | @received cl s v₁ past _ _ ht hscan ha =>
    have hne : x.clientId ≠ c := fun he => hc ⟨ht, he⟩
    obtain ⟨l, hl, -, hids⟩ := ha.seen
    obtain ⟨l', hl', hids'⟩ : ∃ l', (v₁.finish i x s past).trace = v₁.trace ++ l' ∧
        ∀ e ∈ l', e.clientId = x.clientId := by
      rcases v₁.finish_trace i x s past with ⟨-, htr, -⟩ | ⟨-, htr, -⟩ | ⟨-, htr, -⟩
      · exact ⟨[], by rw [htr, List.append_nil], by simp⟩
      · exact ⟨_, htr, by simp [Event.clientId]⟩
      · exact ⟨_, htr, by simp [Event.clientId]⟩
    have htr : (v₁.finish i x s past).trace = v.trace ++ x.completed cqe :: (l ++ l') := by
      rw [hl', hl]
      simp [View.log]
    rw [htr]
    refine hquiet _ fun e he hec => ?_
    rcases List.mem_append.mp he with he | he
    · exact absurd ((hids e he).1.symm.trans hec) hne
    · exact absurd ((hids' e he).symm.trans hec) hne
  | resumed => exact hquiet [] (by simp)
  | sent => exact hquiet [] (by simp)

/-! ## Steps that write nothing to the stream -/

/-- No reply is made, and the rest of the unwritten one stays what it is. -/
theorem World.InOrder.step (h : w.InOrder v c stream rest)
    (htr : repliesTo c v'.trace = repliesTo c v.trace)
    (hto : ∀ t' z, w'.Unwritten v' c t' z → ∃ t x, w.Unwritten v c t x ∧ z.unsent t' = x.unsent t)
    (hfrom : ∀ t x, w.Unwritten v c t x → ∃ t' z, w'.Unwritten v' c t' z) :
    w'.InOrder v' c stream rest := by
  refine ⟨?_, ?_, ?_, ?_⟩
  · rw [htr]
    exact h.all
  · rw [htr]
    exact h.last
  · intro t' z hz
    obtain ⟨t, x, hx, heq⟩ := hto t' z hz
    rw [heq]
    exact h.unwritten t x hx
  · intro hno
    refine h.answered fun t x hx => ?_
    obtain ⟨t', z, hz⟩ := hfrom t x hx
    exact hno t' z hz

theorem World.InOrder.restage (h : w.InOrder v c stream rest) (htr : v'.trace = v.trace)
    (hops : ∀ i x, x.type = .write → (v'.ops i = some x ↔ v.ops i = some x))
    (hto : ∀ t ∈ queue v'.sq ++ w'.outstanding, ∀ x, v.ops t.id = some x → x.type = .write →
      x.clientId = c → ∃ t₀ ∈ queue v.sq ++ w.outstanding, t₀.id = t.id ∧
        t.written x.processed = t₀.written x.processed)
    (hfrom : ∀ t ∈ queue v.sq ++ w.outstanding, ∀ x, v.ops t.id = some x → x.type = .write →
      x.clientId = c → ∃ t' ∈ queue v'.sq ++ w'.outstanding, t'.id = t.id ∧
        t'.written x.processed = t.written x.processed) :
    w'.InOrder v' c stream rest := by
  refine h.step (by rw [htr]) ?_ ?_
  · rintro t' z ⟨⟨ht', hop, hzt, hzc⟩, hlt⟩
    have hold := (hops _ z hzt).mp hop
    obtain ⟨t, ht, hid, hwr⟩ := hto t' ht' z hold hzt hzc
    rw [hwr] at hlt
    exact ⟨t, z, ⟨⟨ht, hid ▸ hold, hzt, hzc⟩, hlt⟩, by rw [Held.unsent, hwr, Held.unsent]⟩
  · rintro t x ⟨⟨ht, hop, hxt, hxc⟩, hlt⟩
    obtain ⟨t', ht', hid, hwr⟩ := hfrom t ht x hop hxt hxc
    exact ⟨t', x, ⟨ht', hid ▸ (hops _ x hxt).mpr hop, hxt, hxc⟩, by rwa [hwr]⟩

/-! ## A completion is handled -/

theorem World.InOrder.handles_other (h : w.InOrder v c stream rest) (hw : w.Owned v) (hw' : w'.Owned v')
    (hi : v.ops cqe.sqe.userData = some x) (hc : cqe.ticket ∈ w.outstanding)
    (hout : ∀ t ∈ w.outstanding, t ≠ cqe.ticket → t ∈ w'.outstanding)
    (hh : (v.log (x.completed cqe)).Handles cqe.sqe.userData x cqe.res v')
    (hno : ¬ (x.type = .read ∧ x.clientId = c))
    (hmap : x.type = .write → x.clientId = c → v.clients c ≠ none ∧ v'.clients c ≠ none) :
    w'.InOrder v' c stream rest := by
  have hcq : cqe.ticket ∈ queue v.sq ++ w.outstanding := List.mem_append_right _ hc
  have hfit := hw.owns.fits _ hcq x hi
  refine h.step (hh.repliesTo_eq hno) ?_ ?_
  · rintro t' z ⟨⟨ht', hz, hzt, hzc⟩, hlt⟩
    cases hh.origin hi hz with
    | kept hk hop =>
      obtain ⟨t, ht, hid⟩ := List.mem_map.mp ((hw.owns.used t'.id).mp (by
        rw [show v.ops t'.id = some z from hop]
        simp))
      have hne : t ≠ cqe.ticket := fun he => hk (by rw [← hid, he]; rfl)
      obtain rfl := hw'.owns.eq_of_id (hh.tickets hout ht hne) ht' hid
      exact ⟨t, z, ⟨⟨ht, hop, hzt, hzc⟩, hlt⟩, rfl⟩
    | reply _ hx _ hc' => exact absurd ⟨hx, hc'.symm.trans hzc⟩ hno
    | own hk _ htype hc' =>
      have hxt : x.type = .write := htype.symm.trans hzt
      have hxc : x.clientId = c := hc'.symm.trans hzc
      obtain ⟨hmem, hmem'⟩ := hmap hxt hxc
      subst hxc
      have hlt₀ := hh.written_lt hfit hxt (hk ▸ hz)
      obtain ⟨t'', z', ⟨ht'', hz', -, -⟩, hid, hwr, hlen, hbuf⟩ :=
        hh.goes_on hfit hxt hmem hmem' hlt₀
      obtain rfl := hw'.owns.eq_of_id ht'' ht' (hid.trans hk.symm)
      obtain rfl := Option.some.inj (hz.symm.trans hz')
      exact ⟨cqe.ticket, x, ⟨⟨hcq, hi, hxt, rfl⟩, hlt₀⟩, by rw [Held.unsent, hwr, hlen, hbuf, Held.unsent]⟩
    | connected _ _ _ htype => exact absurd (hzt.symm.trans htype) (by decide)
    | next _ _ htype => exact absurd (hzt.symm.trans htype) (by decide)
  · rintro t y ⟨⟨ht, hy, hyt, hyc⟩, hlt⟩
    by_cases hti : t.id = cqe.sqe.userData
    · obtain rfl := hw.owns.eq_of_id ht hcq hti
      obtain rfl := Option.some.inj (hi.symm.trans hy)
      obtain ⟨hmem, hmem'⟩ := hmap hyt hyc
      subst hyc
      obtain ⟨t', z, hz, -, hwr, hlen, -⟩ := hh.goes_on hfit hyt hmem hmem' hlt
      exact ⟨t', z, hz, by rw [hwr, hlen]; exact hlt⟩
    · have hne : t ≠ cqe.ticket := fun he => hti (by rw [he]; rfl)
      exact ⟨t, y, ⟨hh.tickets hout ht hne, hh.op_of_ne hti hy, hyt, hyc⟩, hlt⟩

theorem World.InOrder.queued {t : Ticket} {r : Response} (h : w.InOrder v c stream rest)
    (hno : ∀ t x, ¬ w.Unwritten v c t x)
    (htr : repliesTo c v'.trace = repliesTo c v.trace ++ [r])
    (ht : w'.Unwritten v' c t x) (hone : ∀ t' y, w'.Unwritten v' c t' y → t' = t)
    (hall : x.unsent t = r.bytes) : w'.InOrder v' c stream r.bytes := by
  have hrep := h.all
  rw [h.answered hno, List.append_nil] at hrep
  refine ⟨?_, ?_, ?_, fun hnone => absurd ht (hnone t x)⟩
  · rw [htr, List.flatMap_append, List.flatMap_singleton, hrep]
  · rw [htr, List.getLast?_concat]
    rintro _ ⟨⟩
    exact List.suffix_rfl
  · intro t' y hy
    obtain rfl := hone t' y hy
    obtain rfl := Option.some.inj (ht.op.symm.trans hy.op)
    exact hall.symm

/-- A reply to a message has just been queued, and no other operation is new. -/
theorem World.InOrder.fresh_reply {sl : Slot} {m : Message} {fd : ℤ} (h : w.InOrder v c stream rest)
    (hw : w.Owned v) (hw' : w'.Owned v') (hno : ∀ t x, ¬ w.Unwritten v c t x)
    (hback : ∀ t ∈ w'.outstanding, t ∈ w.outstanding)
    (htr : repliesTo c v'.trace = repliesTo c v.trace ++ [m.response]) (hsl : v.ops sl.op = none)
    (hop : v'.ops sl.op = some (m.response.held c fd sl))
    (hnew : ∀ t z, w'.Unwritten v' c t z → t.id = sl.op) :
    w'.InOrder v' c stream m.response.bytes := by
  obtain ⟨t, ht, hid⟩ := List.mem_map.mp ((hw'.owns.used sl.op).mp (by rw [hop]; simp))
  have hqueued : t.stage = .queued := by
    rcases List.mem_append.mp ht with ht | ht
    · obtain ⟨e, -, rfl⟩ := List.mem_map.mp ht
      rfl
    · obtain ⟨y, hy, -⟩ := hw.owns.held (List.mem_append_right _ (hback t ht))
      rw [hid] at hy
      exact absurd (hy.symm.trans hsl) (by simp)
  have hwr : t.written 0 = 0 := by rw [Ticket.written, hqueued]
  have hlen := m.response.bytes_length
  refine h.queued (t := t) (x := m.response.held c fd sl) hno htr ?_ ?_ ?_
  · refine ⟨⟨ht, hid ▸ hop, rfl, rfl⟩, ?_⟩
    simp only [Response.held, hwr]
    omega
  · intro t' y hy
    exact hw'.owns.eq_of_id hy.ticket ht ((hnew t' y hy).trans hid.symm)
  · simp [Held.unsent, Response.held, hwr]

/-- What a client sent is at most one message, and it had its replies to the others. -/
theorem World.InOrder.handles_received (h : w.InOrder v c stream rest) (hin : w.InStep v) (hw : w.Owned v)
    (hw' : w'.Owned v') (hi : v.ops cqe.sqe.userData = some x) (hc : cqe.ticket ∈ w.outstanding)
    (hout : ∀ t ∈ w.outstanding, t ≠ cqe.ticket → t ∈ w'.outstanding)
    (hback : ∀ t ∈ w'.outstanding, t ∈ w.outstanding)
    (hms : ∀ s, scan x.buf 0 cqe.res.toNat = some s → s.messages.length ≤ 1)
    (hh : (v.log (x.completed cqe)).Handles cqe.sqe.userData x cqe.res v')
    (hx : x.type = .read) (hxc : x.clientId = c) (hmem : v.clients c ≠ none)
    (hmem' : v'.clients c ≠ none) : ∃ rest', w'.InOrder v' c stream rest' := by
  subst hxc
  have hno := hin.idle _ hc x hi hx cqe.res cqe.data rfl
  have hun : ∀ t z, w'.Unwritten v' x.clientId t z → v.ops t.id = none := by
    intro t z hz
    rcases hz.handles hw hw' hi hc hout hback hh with ⟨t₀, x₀, hx₀, -⟩ | ⟨hnone, -⟩
    · exact absurd hx₀ (hno t₀ x₀)
    · exact hnone
  cases hh with
  | stale hnone => exact absurd hnone hmem
  | dropped => exact absurd (Function.update_self ..) hmem'
  | accepted _ _ ht => exact absurd (hx.symm.trans ht) (by decide)
  | resumed _ _ ht => exact absurd (hx.symm.trans ht) (by decide)
  | sent _ _ ht => exact absurd (hx.symm.trans ht) (by decide)
  | @received cl s v₁ past _ _ _ hscan ha =>
    have hf := v₁.finishes cqe.sqe.userData x s past
    have htr : (v₁.finish cqe.sqe.userData x s past).trace = v₁.trace := by
      rcases v₁.finish_trace cqe.sqe.userData x s past with ⟨-, htr, -⟩ | ⟨-, -, hcl⟩ | ⟨-, -, hcl⟩
      · exact htr
      · exact absurd (by rw [hcl, Function.update_self]) hmem'
      · exact absurd (by rw [hcl, Function.update_self]) hmem'
    have hne : ∀ k, v.ops k = none → k ≠ cqe.sqe.userData := by
      rintro k hk rfl
      exact absurd (hi.symm.trans hk) (by simp)
    have hlog : repliesTo x.clientId (v.trace ++ [x.completed cqe]) = repliesTo x.clientId v.trace := by
      rw [repliesTo_append, x.repliesTo_completed, List.append_nil]
    have hlen := hms s hscan
    revert ha hlen
    generalize s.messages = ms
    intro ha hlen
    cases ha with
    | nil =>
      refine ⟨rest, h.step (by rw [htr]; exact hlog) ?_ fun t y hy => absurd hy (hno t y)⟩
      intro t z hz
      have hnone := hun t z hz
      have hop := hz.op
      rw [hf.ops_of_ne (hne t.id hnone)] at hop
      exact absurd (hop.symm.trans hnone) (by simp)
    | @cons _ _ sl m ms hsl ha =>
      obtain rfl : ms = [] := by
        rw [List.length_cons] at hlen
        exact List.length_eq_zero_iff.mp (by omega)
      cases ha
      set v₁ := (v.log (x.completed cqe)).answer sl x.clientId x.clientFd m with hv₁
      have hop : (v₁.finish cqe.sqe.userData x s past).ops sl.op =
          some (m.response.held x.clientId x.clientFd sl) := by
        rw [hf.ops_of_ne (hne sl.op hsl), hv₁, View.answer_ops, Function.update_self]
      refine ⟨m.response.bytes, h.fresh_reply hw hw' hno hback ?_ hsl hop ?_⟩
      · rw [htr, hv₁, View.answer_trace, repliesTo_append, Message.repliesTo_events]
        exact congrArg (· ++ _) hlog
      · intro t z hz
        by_contra hother
        have hnone := hun t z hz
        have hop := hz.op
        rw [hf.ops_of_ne (hne t.id hnone), hv₁, View.answer_ops, Function.update_of_ne hother] at hop
        exact absurd (hop.symm.trans hnone) (by simp)

/-! ## The kernel -/

theorem World.InOrder.execute_send {j k : ℕ} {s : Submitted} {res : ℤ} {data : List UInt8} {y : Held}
    (h : w.InOrder v c stream rest) (hin : w.InStep v) (hw : w.Owned v) (hsj : w.inflight[j]? = some s)
    (hadm : s.sqe.request.Admits v.fds res data)
    (hw' : World.Owned { w.perform s res data with
      inflight := w.inflight.eraseIdx j, executed := w.executed ++ [⟨s.sqe, res, data⟩] }
      (v.perform s.sqe res data w.conns.length))
    (hy : v.ops s.sqe.userData = some y) (hyt : y.type = .write) (hyc : y.clientId = c)
    (hconn : s.conn = some k) (hk : w.conns[k]? = some stream) :
    ∃ stream' rest', (w.perform s res data).conns[k]? = some stream' ∧
      World.InOrder { w.perform s res data with
        inflight := w.inflight.eraseIdx j, executed := w.executed ++ [⟨s.sqe, res, data⟩] }
        (v.perform s.sqe res data w.conns.length) c stream' rest' := by
  have hm : s.ticket ∈ queue v.sq ++ w.outstanding :=
    List.mem_append_right _ ((World.outstanding_execute hsj).mem_iff.mpr List.mem_cons_self)
  obtain ⟨hnew, -⟩ := World.mem_execute res data hsj
  obtain ⟨len, hreq, hlen, -, -⟩ := (hw.owns.fits _ hm y hy).send hyt
  change s.sqe.request = _ at hreq
  have hview : v.perform s.sqe res data w.conns.length = v := by
    simp only [View.perform, hreq]
  have hroom : y.processed + res.toNat ≤ y.bufLen := by
    rw [hreq] at hadm
    have hle := hadm.2
    omega
  rw [hview] at hw' ⊢
  have hown : w.Unwritten v c s.ticket y := hyc ▸ hin.unwritten hm hy hyt fun r d hst => by cases hst
  have honly : ∀ t z, World.Unwritten { w.perform s res data with
      inflight := w.inflight.eraseIdx j, executed := w.executed ++ [⟨s.sqe, res, data⟩] } v c t z →
      t = ⟨s.sqe, .done res data⟩ ∧ z = y := by
    intro t z hz
    have hid : t.id = s.ticket.id := by
      rcases List.mem_append.mp hz.ticket with ht | ht
      · exact hin.one c t z _ y ⟨⟨List.mem_append_left _ ht, hz.op, hz.type, hz.clientId⟩, hz.lt⟩ hown
      rcases World.mem_outstanding_execute ht with ht | rfl
      · exact hin.one c t z _ y ⟨⟨List.mem_append_right _ ht, hz.op, hz.type, hz.clientId⟩, hz.lt⟩ hown
      · rfl
    have hop := hz.op
    rw [hid] at hop
    exact ⟨hw'.owns.eq_of_id hz.ticket (List.mem_append_right _ hnew) hid,
      Option.some.inj (hop.symm.trans hy)⟩
  have hsplit : y.unsent ⟨s.sqe, .done res data⟩ = rest.drop res.toNat := by
    rw [h.unwritten _ y hown]
    simp [Held.unsent, Ticket.written, Submitted.ticket]
  refine ⟨stream ++ (y.buf.drop y.processed).take res.toNat, y.unsent ⟨s.sqe, .done res data⟩, ?_,
    ?_, ?_, ?_, ?_⟩
  · have hblock := hw.models.bufs.block _ y hy
    simp only [World.perform, hreq, hconn, hblock, List.getElem?_modify_eq, hk]
    rfl
  · have htake : (y.buf.drop y.processed).take res.toNat = rest.take res.toNat := by
      rw [h.unwritten _ y hown, ← take_drop_take y.buf hroom]
      rfl
    rw [hsplit, htake, List.append_assoc, List.take_append_drop, h.all]
  · rw [hsplit]
    exact fun r hr => (List.drop_suffix _ _).trans (h.last r hr)
  · intro t z hz
    obtain ⟨rfl, rfl⟩ := honly t z hz
    rfl
  · intro hno
    have hfull : ¬ (y.processed + res.toNat < y.bufLen) := fun hlt =>
      hno ⟨s.sqe, .done res data⟩ y ⟨⟨List.mem_append_right _ hnew, hy, hyt, hyc⟩, hlt⟩
    refine List.drop_eq_nil_of_le ((List.length_take_le _ _).trans ?_)
    simp only [Ticket.written]
    omega

theorem World.InOrder.execute_other {j : ℕ} {s : Submitted} {res : ℤ} {data : List UInt8} {y : Held}
    (h : w.InOrder v c stream rest) (hw : w.Owned v) (hsj : w.inflight[j]? = some s)
    (hy : v.ops s.sqe.userData = some y) (hown : ¬ (y.type = .write ∧ y.clientId = c)) :
    World.InOrder { w.perform s res data with
      inflight := w.inflight.eraseIdx j, executed := w.executed ++ [⟨s.sqe, res, data⟩] }
      (v.perform s.sqe res data w.conns.length) c stream rest := by
  have hm : s.ticket ∈ queue v.sq ++ w.outstanding :=
    List.mem_append_right _ ((World.outstanding_execute hsj).mem_iff.mpr List.mem_cons_self)
  have hfits : ∀ x, v.ops s.sqe.userData = some x → s.sqe.request.Fits x := fun x hx =>
    (hw.owns.fits _ hm x hx).1
  obtain ⟨-, hold⟩ := World.mem_execute res data hsj
  refine h.restage (v.perform_trace s.sqe res data w.conns.length)
    (fun i z hz => View.perform_write hfits hz) ?_ ?_
  · intro t ht z hz hzt hzc
    rw [View.perform_sq] at ht
    rcases List.mem_append.mp ht with ht | ht
    · exact ⟨t, List.mem_append_left _ ht, rfl, rfl⟩
    rcases World.mem_outstanding_execute ht with ht | rfl
    · exact ⟨t, List.mem_append_right _ ht, rfl, rfl⟩
    · obtain rfl := Option.some.inj (hy.symm.trans hz)
      exact absurd ⟨hzt, hzc⟩ hown
  · intro t ht z hz hzt hzc
    rw [View.perform_sq]
    refine ⟨t, ?_, rfl, rfl⟩
    rcases List.mem_append.mp ht with ht | ht
    · exact List.mem_append_left _ ht
    · refine List.mem_append_right _ (hold t ht ?_)
      rintro rfl
      obtain rfl := Option.some.inj (hy.symm.trans hz)
      exact hown ⟨hzt, hzc⟩

/-- A client whose accept is on its way has got nothing, and nothing was queued for it. -/
theorem World.Serving.inOrder_accept (h : w.Serving v) (hu : v.Unwrapped) (hi : v.ops i = some x)
    (ht : x.type = .accept) (hno : ∀ t y, ¬ w'.Unwritten v' x.clientId t y)
    (htr : v'.trace = v.trace) : w'.InOrder v' x.clientId [] [] := by
  have hist : history x.clientId v.trace = [.entered x.clientId] := by
    cases h.census.unwrapped_life hu x.clientId with
    | fresh _ hops => exact absurd rfl (hops i x hi)
    | pending _ _ _ _ _ hist => exact hist
    | connected hconn => exact absurd ht (hconn.type_ne_accept hi rfl)
    | gone _ hops => exact absurd ht (hops i x hi rfl)
  have hnil : repliesTo x.clientId v'.trace = [] := by
    rw [htr, repliesTo, hist]
    rfl
  exact ⟨by rw [hnil]; rfl, by simp [hnil], fun t y hy => absurd hy (hno t y), fun _ => rfl⟩

/-! ## Runs -/

theorem World.HoldsConn.handles {k : ℕ} (hx : w'.HoldsConn v' i x k fd) (hs : w.Serving v)
    (hw : w.Owned v) (hback : ∀ t ∈ w'.outstanding, t ∈ w.outstanding)
    (hc : cqe.ticket ∈ w.outstanding) {y : Held} (hi : v.ops cqe.sqe.userData = some y)
    (hu : v'.Unwrapped) (hh : (v.log (y.completed cqe)).Handles cqe.sqe.userData y cqe.res v') :
    ∃ x₀, x₀.clientId = x.clientId ∧ w.HoldsConn v i x₀ k fd := by
  obtain ⟨hhold, hop, hconn⟩ := hx
  have hhold₀ := hhold.handles hs.census hw hback hc hi hu hh
  obtain ⟨x₀, hx₀⟩ := hhold₀.op
  refine ⟨x₀, (hh.clientId_eq hi hx₀ hop).symm, hhold₀, hx₀, ?_⟩
  rw [← hhold.fds_handles (hs.descriptors (hh.unwrapped hu)) hs.census hw hback hc hi hu hh]
  exact hconn

theorem World.HoldsConn.in_map {k : ℕ} (hx : w.HoldsConn v i x k fd) (hs : w.Serving v)
    (hu : v.Unwrapped) : v.clients x.clientId ≠ none := by
  obtain ⟨hholds, hop, -⟩ := hx
  cases hholds with
  | client hx' _ hmap =>
    obtain rfl := Option.some.inj (hop.symm.trans hx')
    exact hmap
  | accepted _ _ hx' htype =>
    obtain rfl := Option.some.inj (hop.symm.trans hx')
    cases hs.census.unwrapped_life hu x.clientId with
    | fresh _ hops => exact absurd rfl (hops i x hop)
    | pending hc => simp [hc]
    | connected hconn => exact absurd htype (hconn.type_ne_accept hop rfl)
    | gone _ hops => exact absurd htype (hops i x hop rfl)

theorem World.Ordered.handles {cq : List Cqe} {srv : Server} {pc : Pc} (h : w.Ordered v)
    (hin : w.InStep v) (hs : w.Serving v) (hw : w.Owned v)
    (hw' : World.Owned { w with srv := srv, cq := cq, pc := pc } v')
    (hs' : World.Serving { w with srv := srv, cq := cq, pc := pc } v') (hcq : w.cq = cqe :: cq)
    (hi : v.ops cqe.sqe.userData = some x) (hu : v'.Unwrapped)
    (hms : x.type = .read → ∀ s, scan x.buf 0 cqe.res.toNat = some s → s.messages.length ≤ 1)
    (hh : (v.log (x.completed cqe)).Handles cqe.sqe.userData x cqe.res v') :
    World.Ordered { w with srv := srv, cq := cq, pc := pc } v' := by
  have hperm := World.outstanding_handle hcq
  have hc : cqe.ticket ∈ w.outstanding := hperm.mem_iff.mpr List.mem_cons_self
  have hback : ∀ t ∈ World.outstanding { w with srv := srv, cq := cq, pc := pc }, t ∈ w.outstanding :=
    fun t ht => hperm.mem_iff.mpr (List.mem_cons_of_mem _ ht)
  have hout : ∀ t ∈ w.outstanding, t ≠ cqe.ticket →
      t ∈ World.outstanding { w with srv := srv, cq := cq, pc := pc } :=
    fun t ht hne => (List.mem_cons.mp (hperm.mem_iff.mp ht)).resolve_left hne
  intro i y k fd hy
  obtain ⟨y₀, hyc, hy₀⟩ := hy.handles hs hw hback hc hi hu hh
  have hmem := hy₀.in_map hs (hh.unwrapped hu)
  have hmem' := hy.in_map hs' hu
  rw [hyc] at hmem
  obtain ⟨stream, rest, hk, hst⟩ := h i y₀ k fd hy₀
  rw [hyc] at hst
  by_cases hown : x.type = .read ∧ x.clientId = y.clientId
  · obtain ⟨rest', hst'⟩ := hst.handles_received hin hw hw' hi hc hout hback (hms hown.1) hh hown.1
      hown.2 hmem hmem'
    exact ⟨stream, rest', hk, hst'⟩
  · exact ⟨stream, rest, hk, hst.handles_other hw hw' hi hc hout hh hown fun _ _ => ⟨hmem, hmem'⟩⟩

theorem World.Ordered.submit (h : w.Ordered v) (hw : w.Owned v) :
    w.submit.Ordered { v with sq := [] } := by
  intro i x k fd hx
  have hx₀ : w.HoldsConn v i x k fd :=
    hx.of_done rfl rfl rfl fun t ht _ _ hst => World.done_of_submit ht hst
  obtain ⟨stream, rest, hk, hst⟩ := h i x k fd hx₀
  refine ⟨stream, rest, hk, hst.restage rfl (fun _ _ _ => Iff.rfl) ?_ ?_⟩
  · intro t ht y hy hyt hyc
    rcases World.mem_submit.mp (by simpa [queue] using ht) with ht | ⟨e, he, rfl⟩
    · exact ⟨t, List.mem_append_right _ ht, rfl, rfl⟩
    · refine ⟨⟨e, .queued⟩, List.mem_append_left _ (List.mem_map.mpr ⟨e, hw.models.sq ▸ he, rfl⟩), ?_, rfl⟩
      simp only [Ticket.id, Submitted.ticket, w.srv.resolve_sqe]
  · intro t ht y hy hyt hyc
    rcases List.mem_append.mp ht with ht | ht
    · obtain ⟨e, he, rfl⟩ := List.mem_map.mp ht
      refine ⟨(w.srv.resolve e).ticket, List.mem_append_right _
        (World.mem_submit.mpr (.inr ⟨e, hw.models.sq ▸ he, rfl⟩)), ?_, rfl⟩
      simp only [Ticket.id, Submitted.ticket, w.srv.resolve_sqe]
    · exact ⟨t, List.mem_append_right _ (World.mem_submit.mpr (.inl ht)), rfl, rfl⟩

theorem World.Ordered.congr (h : w.Ordered v) (hconns : w'.conns = w.conns)
    (hout : ∀ t, t ∈ w'.outstanding ↔ t ∈ w.outstanding) : w'.Ordered v := by
  have hmem : ∀ t, t ∈ queue v.sq ++ w'.outstanding ↔ t ∈ queue v.sq ++ w.outstanding := by
    intro t
    rw [List.mem_append, List.mem_append, hout t]
  intro i x k fd hx
  obtain ⟨stream, rest, hk, hst⟩ := h i x k fd
    (hx.of_done rfl rfl rfl fun t ht _ _ _ => (hout t).mp ht)
  refine ⟨stream, rest, hconns ▸ hk, hst.restage rfl (fun _ _ _ => Iff.rfl) ?_ ?_⟩
  · exact fun t ht _ _ _ _ => ⟨t, (hmem t).mp ht, rfl, rfl⟩
  · exact fun t ht _ _ _ _ => ⟨t, (hmem t).mpr ht, rfl, rfl⟩

theorem World.Ordered.execute {j : ℕ} {s : Submitted} {res : ℤ} {data : List UInt8} (h : w.Ordered v)
    (ho : w.Outgoing v) (hin : w.InStep v) (hs : w.Serving v) (hw : w.Owned v) (hu : v.Unwrapped)
    (hsj : w.inflight[j]? = some s) (hadm : s.sqe.request.Admits v.fds res data)
    (hw' : World.Owned { w.perform s res data with
      inflight := w.inflight.eraseIdx j, executed := w.executed ++ [⟨s.sqe, res, data⟩] }
      (v.perform s.sqe res data w.conns.length)) :
    World.Ordered { w.perform s res data with
      inflight := w.inflight.eraseIdx j, executed := w.executed ++ [⟨s.sqe, res, data⟩] }
      (v.perform s.sqe res data w.conns.length) := by
  have hm : s.ticket ∈ queue v.sq ++ w.outstanding :=
    List.mem_append_right _ ((World.outstanding_execute hsj).mem_iff.mpr List.mem_cons_self)
  obtain ⟨y, hy, -⟩ := hw.owns.held hm
  have hfits : ∀ x, v.ops s.sqe.userData = some x → s.sqe.request.Fits x := fun x hx =>
    (hw.owns.fits _ hm x hx).1
  intro i x k fd hx
  rcases hx.execute (hs.descriptors hu) hw hsj hadm with ⟨x₀, hc, hx₀⟩ |
    ⟨rfl, -, hres, ⟨x₀, hc, hxt₀, hx₀⟩, fd', info, hreq⟩
  · obtain ⟨stream, rest, hk, hst⟩ := h i x₀ k fd hx₀
    have hroute : y.type = .write → (y.clientId = x.clientId ↔ s.conn = some k) := fun hyt => by
      rw [← hc]
      exact ho.routed s (List.mem_of_getElem? hsj) y hy hyt i x₀ k fd hx₀
    rw [hc] at hst
    by_cases hown : y.type = .write ∧ y.clientId = x.clientId
    · obtain ⟨hyt, hyc⟩ := hown
      exact hst.execute_send hin hw hsj hadm hw' hy hyt hyc ((hroute hyt).mp hyc) hk
    · have hsame : (w.perform s res data).conns[k]? = some stream := by
        rw [World.perform_conns_of_ne (hs.conns fd k hx₀.conn), hk]
        intro fd' bref off len hreq hconn
        have hf := hfits y hy
        rw [hreq] at hf
        exact hown ⟨hf.1, (hroute hf.1).mpr hconn⟩
      exact ⟨stream, rest, hsame, hst.execute_other hw hsj hy hown⟩
  · -- the connection is new
    refine ⟨[], [], ?_, ?_⟩
    · simp only [World.perform, hreq, if_neg (not_lt.mpr hres)]
      rw [List.getElem?_append_right le_rfl, Nat.sub_self]
      rfl
    · rw [← hc]
      refine hs.inOrder_accept hu hx₀ hxt₀ (fun t z hz => ?_)
        (v.perform_trace s.sqe res data w.conns.length)
      have hz₀ := (View.perform_write hfits hz.type).mp hz.op
      exact hs.accept_no_write hu hx₀ hxt₀ hz₀ hz.type hz.clientId

theorem World.Ordered.moves {a : Action} (h : w.Ordered v) (ho : w.Outgoing v) (hin : w.InStep v)
    (hs : w.Serving v) (hw : w.Owned v) (hok : w.Lockstep a) (hm : w.Moves v a w' v')
    (hw' : w'.Owned v') (hu : v'.Unwrapped) : w'.Ordered v' := by
  have hs' := hs.moves hw hm
  have hu₀ := hm.unwrapped hu
  cases hm with
  | execute hsj hadm => exact h.execute ho hin hs hw hu₀ hsj hadm hw'
  | post hc => exact h.congr rfl fun t => (World.outstanding_post hc).mem_iff.symm
  | submit => exact h.submit hw
  | turn => exact h.congr rfl fun _ => Iff.rfl
  | handle hpc hcq hsrv hx hh =>
    exact h.handles hin hs hw hw' hs' hcq hx hu
      (fun hxt s hscan => hok.one_message hw hpc hcq hx hxt hscan) hh

theorem World.HoldsConn.not_start (srv : Server) (serverFd : ℤ) (j bref : ℕ) (buf : List UInt8)
    (cl : Client) (k : ℕ) : ¬ World.HoldsConn ⟨srv, [], [], [], [], .submit⟩
      ((View.initial serverFd).acceptNext j bref buf cl) i x k fd := by
  rintro ⟨hhold, -, -⟩
  cases hhold with
  | client hx ht =>
    rcases update_eq_some_iff.mp hx with ⟨-, ⟨⟩⟩ | ⟨-, ⟨⟩⟩
    cases ht
  | accepted ht => simp [World.outstanding] at ht

theorem Run.ordered (hr : Run World.Lockstep w) : ∃ v, w.Owned v ∧ w.Serving v ∧
    (v.Unwrapped → w.Outgoing v ∧ w.Ordered v) := by
  obtain ⟨v, hw, hs, h⟩ := Run.induct (P := fun w v => w.Serving v ∧
    (v.Unwrapped → w.InStep v ∧ v.Queued ∧ w.Outgoing v ∧ w.Ordered v)) (by
      intro srv serverFd j bref buf cl hfd _ _
      refine ⟨World.Serving.start srv serverFd hfd j bref buf cl, fun hu => ⟨?_, ?_, ⟨by simp, by simp, ?_⟩, ?_⟩⟩
      · exact World.InStep.start srv serverFd j bref buf cl
      · intro e he y hy
        rcases update_eq_some_iff.mp hy with ⟨-, ⟨⟩⟩ | ⟨-, ⟨⟩⟩
        simp
      · exact fun i x k fd hx => absurd hx (World.HoldsConn.not_start srv serverFd j bref buf cl k)
      · exact fun i x k fd hx => absurd hx (World.HoldsConn.not_start srv serverFd j bref buf cl k)) (by
      rintro w v a w' v' hw ⟨hs, h⟩ hok hm hw'
      refine ⟨hs.moves hw hm, fun hu => ?_⟩
      have hu₀ := hm.unwrapped hu
      obtain ⟨hin, hq, ho, hord⟩ := h hu₀
      exact ⟨hin.moves hs hw hok hm hw' hu₀, hq.moves hw (hin.dropsUnqueued hs hw hu₀ hok) hm,
        ho.moves hs hw hq (hin.sendsAlone hw a) hm hw' hu,
        hord.moves ho hin hs hw hok hm hw' hu⟩) hr
  exact ⟨v, hw, hs, fun hu => (h hu).2.2⟩

theorem World.InOrder.dropLast_prefix (h : w.InOrder v c stream rest) :
    (repliesTo c v.trace).dropLast.flatMap Response.bytes <+: stream := by
  have hall := h.all
  have hlast := h.last
  generalize repliesTo c v.trace = rs at hall hlast
  cases hrs : rs.getLast? with
  | none =>
    rw [List.getLast?_eq_none_iff.mp hrs]
    exact List.nil_prefix
  | some r =>
    obtain ⟨init, rfl⟩ := List.getLast?_eq_some_iff.mp hrs
    rw [List.dropLast_concat]
    rw [List.flatMap_append, List.flatMap_singleton] at hall
    refine List.prefix_of_prefix_length_le (hall ▸ List.prefix_append _ _) (List.prefix_append stream rest) ?_
    have hle := (hlast r hrs).length_le
    have hlen := congrArg List.length hall
    rw [List.length_append, List.length_append] at hlen
    omega

theorem World.Streamed.unsent_ne_nil {line sent : ℕ → ℕ} {t : Ticket} (h : w.Streamed v c line sent stream)
    (hx : w.Unwritten v c t x) : x.unsent t ≠ [] := by
  obtain ⟨⟨r, -, hlen, hbytes⟩, -⟩ := h.carried t x hx.toWriter
  have hlt := hx.lt
  rw [Held.unsent, hbytes, ne_eq, List.drop_eq_nil_iff]
  omega

theorem Run.stream_in_order (hr : Run World.Lockstep w) (hacc : w.srv.accepts < 2 ^ 64 - 1) {c : UInt64}
    {info : ClientInfo} (hinfo : w.srv.info c = some info)
    (hread : ∃ i o, w.op i = some o ∧ o.type = .read ∧ o.clientId = c) :
    ∃ k stream, w.srv.fds info.clientFd = some (.conn k) ∧ w.conns[k]? = some stream ∧
      stream <+: (calledFor c w.srv.trace).flatMap Response.bytes ∧
      (calledFor c w.srv.trace).dropLast.flatMap Response.bytes <+: stream ∧
      (w.Answered c ↔ stream = (calledFor c w.srv.trace).flatMap Response.bytes) := by
  have hcalled := hr.repliesTo_eq hacc c
  obtain ⟨v, hw, hs, h⟩ := hr.ordered
  have hu := hs.unwrapped hw hacc
  obtain ⟨ho, hord⟩ := h hu
  obtain ⟨i, o, hop, ht, rfl⟩ := hread
  obtain ⟨x, hx, rfl⟩ := hw.op_eq_some.mp hop
  obtain ⟨cl, hcl, hfd⟩ := hw.models.info_eq_some hinfo
  replace hcl : v.clients x.clientId = some cl := hcl
  replace ht : x.type = .read := ht
  have hmap : v.clients x.clientId ≠ none := by simp [hcl]
  obtain ⟨cl', k, hcl', hxfd, hk⟩ := hs.open_fd hu hx (by simp [ht]) hmap
  obtain rfl := Option.some.inj (hcl.symm.trans hcl')
  have hconn : w.HoldsConn v i x k x.clientFd := ⟨.client hx ht hmap rfl, hx, hk⟩
  obtain ⟨stream, rest, hst, hin⟩ := hord i x k x.clientFd hconn
  obtain ⟨line, sent, stream', hst', hstream⟩ := ho.streamed i x k x.clientFd hconn
  change repliesTo x.clientId _ = calledFor x.clientId _ at hcalled
  have hall := hin.all
  have hpre := hin.dropLast_prefix
  rw [hw.models.trace, hcalled] at hall hpre
  refine ⟨k, stream, ?_, hst, ⟨rest, hall⟩, hpre, ?_⟩
  · rw [← hw.models.fds, hfd, ← hxfd, hk]
  · change w.Answered x.clientId ↔ stream = (calledFor x.clientId _).flatMap _
    rw [hw.answered, ← hall, List.self_eq_append_right]
    constructor
    · exact hin.answered
    · rintro hnil t y hy
      exact hstream.unsent_ne_nil hy ((hin.unwritten t y hy).symm.trans hnil)

/-- When every client is in lockstep, every step is orderly, and a connected client gets
the replies its messages call for, one after the other: all but the last are in its stream
whole, and the last one is when the client has been answered. -/
theorem lockstep_replies_in_order (w : World) (hr : Run World.Lockstep w)
    (hacc : w.srv.accepts < 2 ^ 64 - 1) :
    Run World.Orderly w ∧ ∀ c info, w.srv.info c = some info →
      (∃ i o, w.op i = some o ∧ o.type = .read ∧ o.clientId = c) →
      ∃ k stream, w.srv.fds info.clientFd = some (.conn k) ∧ w.conns[k]? = some stream ∧
        stream <+: (calledFor c w.srv.trace).flatMap Response.bytes ∧
        (calledFor c w.srv.trace).dropLast.flatMap Response.bytes <+: stream ∧
        (w.Answered c ↔ stream = (calledFor c w.srv.trace).flatMap Response.bytes) := by
  exact ⟨hr.orderly hacc, fun c info hinfo hread => hr.stream_in_order hacc hinfo hread⟩

/-- A client sets its name, and a second one when it has got the reply, which was cut
short and resumed. The second name is too short, and the error is not there whole yet. -/
theorem lockstep_replies_in_order_two : ∃ w stream, Run World.Lockstep w ∧ Run World.Orderly w ∧
    w.conns = [stream] ∧ stream.length = 16 ∧ ¬ w.Answered 1 ∧
    calledFor 1 w.srv.trace = [.setUsernameResponse 7, .serverError 8 .invalidMsgLen] ∧
    stream <+: Response.bytes (.setUsernameResponse 7) ++ Response.bytes (.serverError 8 .invalidMsgLen) := by
  have hrun : (World.runMainWhile World.Lockstep 3 .zero ([.serve .zero] ++ Action.complete 0 5 [] ++
      Action.complete 0 14 [0, 14, 1, 0, 0, 0, 0, 0, 0, 0, 7, 97, 98, 99] ++ Action.complete 1 5 [] ++
      Action.complete 2 6 [] ++ Action.complete 1 12 [0, 12, 1, 0, 0, 0, 0, 0, 0, 0, 8, 97] ++
      [.execute 1 5 []])).map (fun w => (decide (w.srv.accepts = 1 ∧ (w.srv.info 1).isSome ∧
        (w.op 0).map (fun o => (o.type, o.clientId)) = some (.read, 1) ∧ ¬ w.Answered 1),
        calledFor 1 w.srv.trace, w.conns.map List.length)) =
      some (true, [.setUsernameResponse 7, .serverError 8 .invalidMsgLen], [16]) := by
    decide +kernel
  obtain ⟨w, hw, hres⟩ := Option.map_eq_some_iff.mp hrun
  simp only [Prod.mk.injEq, decide_eq_true_eq, Option.map_eq_some_iff] at hres
  obtain ⟨⟨hacc, hinfo, ⟨o, ho, ht, hid⟩, hopen⟩, hcalls, hconns⟩ := hres
  obtain ⟨info, hinfo⟩ := Option.isSome_iff_exists.mp hinfo
  obtain ⟨stream, hst, hlen⟩ := List.map_eq_singleton_iff.mp hconns
  have hr := World.runMainWhile_run (by decide) hw
  obtain ⟨horder, hall⟩ := lockstep_replies_in_order w hr (by rw [hacc]; norm_num)
  obtain ⟨k, stream', -, hk, hpre, -⟩ := hall 1 info hinfo ⟨0, o, ho, ht, hid⟩
  have hs : stream' = stream := by
    have hmem := List.mem_of_getElem? hk
    rwa [hst, List.mem_singleton] at hmem
  rw [hcalls, hs] at hpre
  exact ⟨w, stream, hr, horder, hst, hlen, hopen, hcalls, by simpa using hpre⟩

end

end Caht
