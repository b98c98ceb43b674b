import Caht.Server.Failures
import Caht.Server.Outgoing

/-! # What is open and what is live

No descriptor is lost: besides the listening socket the open ones are those of the
connected clients and of accepts that wait to be handled. No request in the ring or with
the kernel refers to memory that was given back: an accept has the node of its client in
the map, a receive or send the buffer of its own operation.
-/

namespace Caht
open Library Protocol

/-! ## One completion -/

section
variable {v v' : View} {i : ℕ} {x : Held} {res : ℤ} {id : UInt64}

theorem View.Answers.serverFd {fd : ℤ} {ms : List Message} (ha : v.Answers id fd ms v') :
    v'.serverFd = v.serverFd := by
  induction ha with
  | nil v => rfl
  | @cons v v' s m ms hs _ ih =>
    rw [ih]
    unfold View.answer
    cases judge m.payload <;> rfl

theorem View.Finishes.serverFd {s : Scan} (hf : v.Finishes i x s v') : v'.serverFd = v.serverFd := by
  cases hf with
  | kept => rfl
  | moved => rfl
  | tooLong => rfl
  | refused => rfl

theorem View.Handles.serverFd (hh : v.Handles i x res v') : v'.serverFd = v.serverFd := by
  cases hh with
  | stale => rfl
  | dropped => rfl
  | accepted => rfl
  | received _ _ _ _ ha _ => rw [(View.finishes ..).serverFd, ha.serverFd]
  | resumed => rfl
  | sent => rfl

theorem View.Answers.node {fd : ℤ} {ms : List Message} (ha : v.Answers id fd ms v') {k : UInt64}
    {c : Client} (hc : v.clients k = some c) : ∃ c', v'.clients k = some c' ∧ c'.node = c.node := by
  induction ha generalizing c with
  | nil v => exact ⟨c, hc, rfl⟩
  | @cons v v' s m ms hs _ ih =>
    by_cases hk : k = id
    · subst hk
      obtain ⟨c', hc', hnode, -⟩ := v.answer_client s k _ m hc
      obtain ⟨c'', hc'', hnode'⟩ := ih hc'
      exact ⟨c'', hc'', hnode'.trans hnode⟩
    · refine ih ?_
      rw [View.answer_clients]
      split
      · rwa [Function.update_of_ne hk]
      · exact hc

theorem View.Answers.new_send {fd : ℤ} {ms : List Message} (ha : v.Answers id fd ms v') {e : Sqe}
    (he : e ∈ v'.sq) (hnew : e ∉ v.sq) : ∃ fd b off len, e.request = .send fd b off len := by
  induction ha with
  | nil v => exact absurd he hnew
  | @cons v v' s m ms hs _ ih =>
    by_cases hmem : e ∈ (v.answer s id fd m).sq
    · rw [View.answer_sq, List.mem_append, List.mem_singleton] at hmem
      rw [hmem.resolve_left hnew]
      exact ⟨_, _, _, _, rfl⟩
    · exact ih he hmem

theorem View.Handles.node (hh : v.Handles i x res v') {c : Client} (hc : v.clients id = some c)
    (hc' : v'.clients id ≠ none) : ∃ c', v'.clients id = some c' ∧ c'.node = c.node := by
  have hdel : ∀ f : UInt64 → Option Client, f id ≠ none → f = Function.update v.clients x.clientId none →
      ∃ c', f id = some c' ∧ c'.node = c.node := by
    rintro f hf rfl
    by_cases hid : id = x.clientId
    · subst hid
      exact absurd (Function.update_self ..) hf
    · rw [Function.update_of_ne hid]
      exact ⟨c, hc, rfl⟩
  cases hh with
  | stale => exact ⟨c, hc, rfl⟩
  | dropped => exact hdel _ hc' rfl
  | @accepted cl cl' j bref buf hcl hres ht hj hn =>
    rw [View.connect_clients] at hn
    rw [View.acceptNext_clients, View.connect_clients]
    have hne : id ≠ v.nextClientId := by
      rintro rfl
      by_cases hx : v.nextClientId = x.clientId
      · rw [hx, Function.update_self] at hn
        cases hn
      · rw [Function.update_of_ne hx, hc] at hn
        cases hn
    rw [View.connect_nextClientId, Function.update_of_ne hne]
    by_cases hx : id = x.clientId
    · subst hx
      obtain rfl := Option.some.inj (hc.symm.trans hcl)
      exact ⟨_, Function.update_self .., rfl⟩
    · rw [Function.update_of_ne hx]
      exact ⟨c, hc, rfl⟩
  | @received cl s v₁ past hcl hres ht hscan ha hfd =>
    obtain ⟨c₁, hc₁, hnode⟩ := ha.node hc
    rcases (v₁.finishes i x s past).clients with ⟨hsame, -⟩ | ⟨hgone, -⟩
    · rw [hsame]
      exact ⟨c₁, hc₁, hnode⟩
    · rw [hgone] at hc' ⊢
      by_cases hx : id = x.clientId
      · subst hx
        exact absurd (Function.update_self ..) hc'
      · rw [Function.update_of_ne hx]
        exact ⟨c₁, hc₁, hnode⟩
  | resumed => exact ⟨c, hc, rfl⟩
  | sent => exact ⟨c, hc, rfl⟩

/-- A new accept in the queue is for the listening socket and the client just entered. -/
theorem View.Handles.new_accept (hh : v.Handles i x res v') {e : Sqe} (he : e ∈ v'.sq)
    (hnew : e ∉ v.sq) {fd : ℤ} {info : ℕ} (hreq : e.request = .accept fd info) :
    fd = v.serverFd ∧ ∃ y c, v'.ops e.userData = some y ∧ v'.clients y.clientId = some c ∧
      c.node = info := by
  have hadd : ∀ l : List Sqe, v'.sq = v.sq ++ l → e ∈ l := by
    intro l hl
    rw [hl, List.mem_append] at he
    exact he.resolve_left hnew
  cases hh with
  | stale => exact absurd he hnew
  | dropped => exact absurd he hnew
  | @accepted cl cl' j bref buf hcl hres ht hj hn =>
    have hmem := hadd _ (List.append_assoc ..)
    simp only [List.singleton_append, List.mem_cons, List.not_mem_nil, or_false] at hmem
    rcases hmem with rfl | rfl
    · cases hreq
    · cases hreq
      exact ⟨rfl, _, cl', Function.update_self .., Function.update_self .., rfl⟩
  | @received cl s v₁ past hcl hres ht hscan ha hfd =>
    by_cases he₁ : e ∈ v₁.sq
    · obtain ⟨fd', b, off, len, hsend⟩ := ha.new_send he₁ hnew
      cases hsend.symm.trans hreq
    · obtain ⟨-, rfl⟩ := (v₁.finishes i x s past).rearmed he he₁
      cases hreq
  | resumed =>
    have hmem := hadd _ rfl
    rw [List.mem_singleton.mp hmem] at hreq
    cases hreq
  | sent => exact absurd he hnew

end

/-! ## Runs -/

/-- The listening socket and the connections that are held are all that is open, and
accepts are for the socket and for a client that is in the map. -/
structure World.Tidy (w : World) (v : View) : Prop where
  single : ∀ fd, v.fds fd = some .listener → fd = v.serverFd
  listener : v.Unwrapped → v.fds v.serverFd = some .listener
  held : v.Unwrapped → ∀ fd k, v.fds fd = some (.conn k) → ∃ i, w.Holds v i fd
  accepts : v.Unwrapped → ∀ t ∈ queue v.sq ++ w.outstanding, ∀ fd info,
    t.sqe.request = .accept fd info → fd = v.serverFd ∧
      ∃ x c, v.ops t.id = some x ∧ v.clients x.clientId = some c ∧ c.node = info

section
variable {w w' : World} {v v' : View} {x : Held} {c : Cqe}

theorem World.Tidy.restage (h : w.Tidy v) (hops : v'.ops = v.ops) (hcl : v'.clients = v.clients)
    (hfds : v'.fds = v.fds) (hsrv : v'.serverFd = v.serverFd) (htr : v'.trace = v.trace)
    (hdone : ∀ t ∈ w.outstanding, ∀ res data, t.stage = .done res data → t ∈ w'.outstanding)
    (hreq : ∀ t ∈ queue v'.sq ++ w'.outstanding,
      ∃ s ∈ queue v.sq ++ w.outstanding, s.sqe = t.sqe) : w'.Tidy v' where
  single := by
    rw [hfds, hsrv]
    exact h.single
  listener := by
    rw [View.Unwrapped, htr, hfds, hsrv]
    exact h.listener
  held := fun hu fd k hk => by
    rw [View.Unwrapped, htr] at hu
    rw [hfds] at hk
    obtain ⟨i, hi⟩ := h.held hu fd k hk
    refine ⟨i, ?_⟩
    cases hi with
    | client hx ht hc hfd => exact .client (by rwa [hops]) ht (by rwa [hcl]) hfd
    | accepted ht hid hx htype hst hfd =>
      exact .accepted (hdone _ ht _ _ hst) hid (by rwa [hops]) htype hst hfd
  accepts := fun hu t ht fd info ha => by
    rw [View.Unwrapped, htr] at hu
    obtain ⟨s, hs, hsqe⟩ := hreq t ht
    rw [hops, hcl, hsrv, Ticket.id, ← hsqe]
    exact h.accepts hu s hs fd info (hsqe ▸ ha)

theorem World.done_execute {i : ℕ} {s : Submitted} {res : ℤ} {data : List UInt8}
    (hs : w.inflight[i]? = some s) {t : Ticket} (ht : t ∈ w.outstanding) {r : ℤ} {d : List UInt8}
    (hst : t.stage = .done r d) :
    t ∈ World.outstanding { w.perform s res data with
      inflight := w.inflight.eraseIdx i, executed := w.executed ++ [⟨s.sqe, res, data⟩] } := by
  have hmem := (World.outstanding_execute hs).mem_iff.mp ht
  simp only [World.outstanding, World.perform_cq, List.map_append, List.mem_append, List.mem_cons] at hmem ⊢
  rcases hmem with rfl | hmem | hmem | hmem
  · cases hst
  · exact .inl hmem
  · exact .inr (.inl (.inl hmem))
  · exact .inr (.inr hmem)

theorem World.Holds.keeps {i : ℕ} {s : Submitted} {res : ℤ} {data : List UInt8}
    (hs : w.inflight[i]? = some s) {k : ℕ} {fd : ℤ} (h : w.Holds v k fd) :
    World.Holds { w.perform s res data with
      inflight := w.inflight.eraseIdx i, executed := w.executed ++ [⟨s.sqe, res, data⟩] }
      (v.perform s.sqe res data w.conns.length) k fd := by
  cases h with
  | client hx ht hc hfd =>
    obtain ⟨buf, hx'⟩ := View.perform_held hx s.sqe res data w.conns.length
    exact .client hx' ht (by rwa [View.perform_clients]) hfd
  | accepted ht hid hx htype hst hfd =>
    obtain ⟨buf, hx'⟩ := View.perform_held hx s.sqe res data w.conns.length
    exact .accepted (World.done_execute hs ht hst) hid hx' htype hst hfd

theorem View.perform_serverFd (v : View) (sqe : Sqe) (res : ℤ) (data : List UInt8) (k : ℕ) :
    (v.perform sqe res data k).serverFd = v.serverFd := by
  unfold View.perform
  split
  · split <;> rfl
  · rfl
  · rfl

theorem World.Tidy.execute {i : ℕ} {s : Submitted} {res : ℤ} {data : List UInt8} (h : w.Tidy v)
    (hw : w.Owned v) (hs : w.inflight[i]? = some s) (hadm : s.sqe.request.Admits v.fds res data) :
    World.Tidy { w.perform s res data with
      inflight := w.inflight.eraseIdx i, executed := w.executed ++ [⟨s.sqe, res, data⟩] }
      (v.perform s.sqe res data w.conns.length) := by
  have hmem : s.ticket ∈ queue v.sq ++ w.outstanding :=
    List.mem_append_right _ ((World.outstanding_execute hs).mem_iff.mpr List.mem_cons_self)
  have htr := v.perform_trace s.sqe res data w.conns.length
  have hfds := v.perform_fds w.conns.length hadm
  refine ⟨?_, ?_, ?_, ?_⟩
  · intro fd hfd
    rw [View.perform_serverFd]
    rcases hfds with ⟨heq, -⟩ | ⟨heq, -⟩
    · rw [heq] at hfd
      exact h.single fd hfd
    · rw [heq] at hfd
      rcases update_eq_some_iff.mp hfd with ⟨-, ⟨⟩⟩ | ⟨-, hfd⟩
      exact h.single fd hfd
  · intro hu
    rw [View.Unwrapped, htr] at hu
    rw [View.perform_serverFd]
    rcases hfds with ⟨heq, -⟩ | ⟨heq, hnone, -⟩
    · rw [heq]
      exact h.listener hu
    · have hne : v.serverFd ≠ res := by
        rintro rfl
        cases (h.listener hu).symm.trans hnone
      rw [heq, Function.update_of_ne hne]
      exact h.listener hu
  · intro hu fd k hk
    rw [View.Unwrapped, htr] at hu
    rcases hfds with ⟨heq, -⟩ | ⟨heq, -, hres, fd', info, hreq⟩
    · rw [heq] at hk
      obtain ⟨j, hj⟩ := h.held hu fd k hk
      exact ⟨j, hj.keeps hs⟩
    · rw [heq] at hk
      rcases update_eq_some_iff.mp hk with ⟨rfl, -⟩ | ⟨-, hk⟩
      · -- the accept that has just completed
        obtain ⟨x, hx, hfit⟩ := hw.owns.held hmem
        obtain ⟨buf, hx'⟩ := View.perform_held hx s.sqe fd data w.conns.length
        have htype : x.type = .accept := by
          have hfits := hfit.1
          simp only [Submitted.ticket, hreq] at hfits
          exact hfits.1
        refine ⟨s.sqe.userData, .accepted (t := ⟨s.sqe, .done fd data⟩) ?_ rfl hx' htype rfl hres⟩
        simp [World.outstanding, Cqe.ticket]
      · obtain ⟨j, hj⟩ := h.held hu fd k hk
        exact ⟨j, hj.keeps hs⟩
  · intro hu t ht fd info hreq
    rw [View.Unwrapped, htr] at hu
    have hold : ∃ r ∈ queue v.sq ++ w.outstanding, r.sqe = t.sqe := by
      rw [View.perform_sq] at ht
      rcases List.mem_append.mp ht with ht | ht
      · exact ⟨t, List.mem_append_left _ ht, rfl⟩
      · rcases World.mem_outstanding_execute ht with ht | rfl
        · exact ⟨t, List.mem_append_right _ ht, rfl⟩
        · exact ⟨s.ticket, hmem, rfl⟩
    obtain ⟨r, hr, hsqe⟩ := hold
    obtain ⟨hfd, x, c, hx, hc, hnode⟩ := h.accepts hu r hr fd info (hsqe ▸ hreq)
    obtain ⟨buf, hx'⟩ := View.perform_held hx s.sqe res data w.conns.length
    rw [Ticket.id, hsqe] at hx'
    refine ⟨hfd.trans (v.perform_serverFd ..).symm, _, c, hx', ?_, hnode⟩
    rwa [View.perform_clients]

theorem View.Handles.open_before {res : ℤ} {i : ℕ} (hh : v.Handles i x res v') {fd : ℤ} {f : File}
    (hfd : v'.fds fd = some f) : v.fds fd = some f := by
  rcases hh.fds with heq | heq
  · rwa [heq] at hfd
  · rw [heq] at hfd
    rcases update_eq_some_iff.mp hfd with ⟨-, ⟨⟩⟩ | ⟨-, hfd⟩
    exact hfd

theorem View.Handles.read_keeps {res : ℤ} {i : ℕ} (hh : v.Handles i x res v') (hi : v.ops i = some x)
    (ht : x.type = .read) (hc : v.clients x.clientId ≠ none) (hopen : v'.fds x.clientFd ≠ none) :
    ∃ y, v'.ops i = some y ∧ y.type = .read ∧ v'.clients y.clientId ≠ none ∧
      y.clientFd = x.clientFd := by
  cases hh with
  | stale hn => exact absurd hn hc
  | dropped => exact absurd (Function.update_self ..) hopen
  | accepted _ _ hta => cases ht.symm.trans hta
  | @received cl s v₁ past hcl hres htr hscan ha hfd =>
    have hf := v₁.finishes i x s past
    by_cases hs : s.stop = .tooLong ∨ s.stop = .refused
    · rw [(hf.gone hs).2.2.2] at hopen
      exact absurd (Function.update_self ..) hopen
    · have hs' : s.stop = .header ∨ s.stop = .body := by
        cases hstop : s.stop <;> simp [hstop] at hs ⊢
      obtain ⟨-, ⟨buf, hop⟩, hclients, -⟩ := hf.again (ha.op hi) hs'
      refine ⟨_, hop, ht, ?_, rfl⟩
      rw [hclients, Ne, ha.client]
      exact hc
  | resumed _ _ htw => cases ht.symm.trans htw
  | sent _ _ htw => cases ht.symm.trans htw

/-- A completed accept hands its descriptor to the receive of the new connection. -/
theorem View.Handles.accept_connects {res : ℤ} {i : ℕ} (hh : v.Handles i x res v')
    (ht : x.type = .accept) (hc : v.clients x.clientId ≠ none) (hres : 0 ≤ res) :
    ∃ y, v'.ops i = some y ∧ y.type = .read ∧ v'.clients y.clientId ≠ none ∧ y.clientFd = res := by
  cases hh with
  | stale hn => exact absurd hn hc
  | dropped _ hbad =>
    rcases hbad with hneg | ⟨htr, -⟩
    · omega
    · cases ht.symm.trans htr
  | @accepted cl cl' j bref buf hcl hres' hta hj hn =>
    have hij : i ≠ j := by
      rintro rfl
      rw [View.connect_ops, Function.update_self] at hj
      cases hj
    refine ⟨{ x with clientFd := res, type := .read }, ?_, rfl, ?_, rfl⟩
    · rw [View.acceptNext_ops, Function.update_of_ne hij, View.connect_ops, Function.update_self]
    · rw [View.acceptNext_clients, View.connect_clients]
      by_cases hnext : x.clientId = (v.connect i x cl res).nextClientId
      · rw [← hnext, Function.update_self]
        exact Option.some_ne_none cl'
      · rw [Function.update_of_ne hnext, Function.update_self]
        exact Option.some_ne_none _
  | received _ _ htr => cases ht.symm.trans htr
  | resumed _ _ htw => cases ht.symm.trans htw
  | sent _ _ htw => cases ht.symm.trans htw

theorem World.Holds.completed {i : ℕ} {fd : ℤ} (hi : w.Holds v i fd) (hs : w.Serving v) (hw : w.Owned v)
    (hu : v.Unwrapped)
    (hout : ∀ t, t ∈ w'.outstanding ↔ t ∈ w.outstanding ∧ t.id ≠ c.sqe.userData)
    (hc : c.ticket ∈ w.outstanding) (hx : v.ops c.sqe.userData = some x)
    (hh : (v.log (x.completed c)).Handles c.sqe.userData x c.res v') (hopen : v'.fds fd ≠ none) :
    w'.Holds v' i fd := by
  by_cases hic : i = c.sqe.userData
  · -- the operation of the completion itself
    subst hic
    cases hi with
    | client hy ht hcl hfd =>
      obtain rfl := Option.some.inj (hx.symm.trans hy)
      subst hfd
      obtain ⟨z, hz, hzt, hzc, hzfd⟩ := hh.read_keeps (v := v.log _) hx ht hcl hopen
      exact .client hz hzt hzc hzfd
    | accepted ht hid hy htype hst hfd =>
      obtain rfl := Option.some.inj (hx.symm.trans hy)
      have htick := hw.owns.eq_of_id (List.mem_append_right _ ht) (List.mem_append_right _ hc) hid
      subst htick
      cases hst
      obtain ⟨a, z, hz, hzt, hzc, -⟩ := hs.accepting hu
      obtain rfl := hs.oneAccept a c.sqe.userData z x hz hx hzt htype
      obtain rfl := Option.some.inj (hx.symm.trans hz)
      obtain ⟨y, hy, hyt, hyc, hyfd⟩ := hh.accept_connects (v := v.log _) htype hzc hfd
      exact .client hy hyt hyc hyfd
  · cases hi with
    | @client y hy ht hcl hfd =>
      refine .client (hh.op_of_ne hic hy) ht ?_ hfd
      rcases hh.clients with ⟨-, hcl'⟩ | ⟨heq, hxopen, hmap, -, hcl'⟩
      · exact fun hn => hcl ((hcl' _).mp hn).1
      · intro hn
        rcases (hcl' _).mp hn with hn | hsame
        · exact hcl hn
        · -- the descriptor of a client that is dropped is closed
          have hxt : x.type ≠ .accept := fun hxt => hxopen (hs.census.accept hw hx hxt)
          obtain ⟨cl, j, z, hconn⟩ :=
            (hs.census.unwrapped_life hu x.clientId).connected_of hx rfl hmap hxt
          refine hopen ?_
          rw [heq, ← hfd, hconn.fd _ y hy hsame, hconn.fd _ x hx rfl, Function.update_self]
    | accepted ht hid hy htype hst hfd =>
      exact .accepted ((hout _).mpr ⟨ht, hid ▸ hic⟩) hid (hh.op_of_ne hic hy) htype hst hfd

/-- After a completion has been handled an entry is one of the other ones there were, or a
new one of the queue. -/
theorem World.Owned.entry_after (hw : w.Owned v) {t : Ticket}
    (hout : ∀ t, t ∈ w'.outstanding ↔ t ∈ w.outstanding ∧ t.id ≠ c.sqe.userData)
    (hc : c.ticket ∈ w.outstanding) (ht : t ∈ queue v'.sq ++ w'.outstanding) :
    t ∈ queue v.sq ++ w.outstanding ∧ t.id ≠ c.sqe.userData ∨
      ∃ e ∈ v'.sq, t = ⟨e, .queued⟩ ∧ e ∉ v.sq := by
  rcases List.mem_append.mp ht with ht | ht
  · obtain ⟨e, he, rfl⟩ := List.mem_map.mp ht
    by_cases hsq : e ∈ v.sq
    · have hq : (⟨e, .queued⟩ : Ticket) ∈ queue v.sq ++ w.outstanding :=
        List.mem_append_left _ (List.mem_map_of_mem hsq)
      refine .inl ⟨hq, fun hid => ?_⟩
      cases hw.owns.eq_of_id hq (List.mem_append_right _ hc) hid
    · exact .inr ⟨e, he, rfl, hsq⟩
  · obtain ⟨hmem, hne⟩ := (hout t).mp ht
    exact .inl ⟨List.mem_append_right _ hmem, hne⟩

theorem World.Tidy.handles (h : w.Tidy v) (hs : w.Serving v) (hw : w.Owned v) (hs' : w'.Serving v')
    (hout : ∀ t, t ∈ w'.outstanding ↔ t ∈ w.outstanding ∧ t.id ≠ c.sqe.userData)
    (hc : c.ticket ∈ w.outstanding) (hx : v.ops c.sqe.userData = some x)
    (hh : (v.log (x.completed c)).Handles c.sqe.userData x c.res v') : w'.Tidy v' := by
  have hsrv : v'.serverFd = v.serverFd := hh.serverFd
  have hback : ∀ fd f, v'.fds fd = some f → v.fds fd = some f := fun fd f hfd => hh.open_before hfd
  refine ⟨?_, ?_, ?_, ?_⟩
  · intro fd hfd
    rw [hsrv]
    exact h.single fd (hback fd _ hfd)
  · intro hu
    have hlis := h.listener (hh.unwrapped hu)
    rw [hsrv]
    rcases hh.clients with ⟨heq, -⟩ | ⟨heq, hopen, hcl, -⟩
    · rw [heq]
      exact hlis
    · -- the client that is dropped has a connection
      have ht : x.type ≠ .accept := fun ht => hopen (hs.census.accept hw hx ht)
      obtain ⟨-, k, -, -, hk⟩ := hs.open_fd (hh.unwrapped hu) hx ht hcl
      have hne : v.serverFd ≠ x.clientFd := by
        intro hfd
        rw [← hfd, hlis] at hk
        cases hk
      rw [heq, Function.update_of_ne hne]
      exact hlis
  · intro hu fd k hk
    have hu₀ := hh.unwrapped hu
    obtain ⟨i, hi⟩ := h.held hu₀ fd k (hback fd _ hk)
    exact ⟨i, hi.completed hs hw hu₀ hout hc hx hh (by simp [hk])⟩
  · intro hu t ht fd info hreq
    rcases hw.entry_after hout hc ht with ⟨hmem, hne⟩ | ⟨e, he, rfl, hsq⟩
    · obtain ⟨hfd, y, cl, hy, hcl, hnode⟩ := h.accepts (hh.unwrapped hu) t hmem fd info hreq
      have hy' : v'.ops t.id = some y := hh.op_of_ne hne hy
      have hyt : y.type = .accept := by
        have hfit := (hw.owns.fits t hmem y hy).1
        rw [hreq] at hfit
        exact hfit.1
      obtain ⟨a, z, hz, hzt, hzc, -⟩ := hs'.accepting hu
      obtain rfl := hs'.oneAccept a t.id z y hz hy' hzt hyt
      obtain rfl := Option.some.inj (hz.symm.trans hy')
      obtain ⟨cl', hcl', hnode'⟩ := hh.node (v := v.log _) hcl hzc
      exact ⟨hfd.trans hsrv.symm, z, cl', hy', hcl', hnode'.trans hnode⟩
    · rw [hsrv]
      exact hh.new_accept he hsq hreq

theorem World.Tidy.moves {a : Action} (h : w.Tidy v) (hs : w.Serving v) (hw : w.Owned v)
    (hm : w.Moves v a w' v') : w'.Tidy v' := by
  have hs' := hs.moves hw hm
  cases hm with
  | execute hi hadm => exact h.execute hw hi hadm
  | post hc =>
    have hperm := World.outstanding_post hc
    refine h.restage rfl rfl rfl rfl rfl (fun t ht _ _ _ => hperm.mem_iff.mp ht) ?_
    intro t ht
    refine ⟨t, ?_, rfl⟩
    rw [List.mem_append] at ht ⊢
    exact ht.imp id hperm.mem_iff.mpr
  | submit hpc =>
    refine h.restage rfl rfl rfl rfl rfl (fun t ht _ _ _ => World.mem_submit.mpr (.inl ht)) ?_
    intro t ht
    rcases World.mem_submit.mp ht with ht | ⟨e, he, rfl⟩
    · exact ⟨t, List.mem_append_right _ ht, rfl⟩
    · refine ⟨⟨e, .queued⟩, List.mem_append_left _ (List.mem_map_of_mem ?_), ?_⟩
      · rwa [hw.models.sq]
      · exact (w.srv.resolve_sqe e).symm
  | turn hpc => exact h.restage rfl rfl rfl rfl rfl (fun t ht _ _ _ => ht) fun t ht => ⟨t, ht, rfl⟩
  | @handle junk pc c cq srv x v' hpc hcq hsrv hx hh =>
    have hperm := World.outstanding_handle hcq
    have hmem : c.ticket ∈ w.outstanding := hperm.mem_iff.mpr List.mem_cons_self
    refine h.handles hs hw hs' ?_ hmem hx hh
    have howns := hw.owns.perm ((List.Perm.append_left _ hperm).trans List.perm_middle)
    intro t
    rw [hperm.mem_iff, List.mem_cons]
    constructor
    · exact fun ht => ⟨.inr ht, howns.ne_of_mem (List.mem_append_right _ ht)⟩
    · rintro ⟨rfl | ht, hne⟩
      · exact absurd rfl hne
      · exact ht

theorem World.Tidy.start (srv : Server) (serverFd : ℤ) (j bref : ℕ) (buf : List UInt8) (cl : Client) :
    World.Tidy ⟨srv, [], [], [], [], .submit⟩
      ((View.initial serverFd).acceptNext j bref buf cl) := by
  have hfds : ∀ fd, ((View.initial serverFd).acceptNext j bref buf cl).fds fd =
      if fd = serverFd then some .listener else none := fun _ => rfl
  refine ⟨?_, ?_, ?_, ?_⟩
  · intro fd hfd
    rw [hfds] at hfd
    by_contra hne
    rw [if_neg (show fd ≠ serverFd from hne)] at hfd
    cases hfd
  · intro _
    rw [hfds]
    exact if_pos rfl
  · intro _ fd k hk
    rw [hfds] at hk
    split at hk <;> cases hk
  · intro _ t ht fd info hreq
    obtain rfl := List.mem_singleton.mp ht
    cases hreq
    refine ⟨rfl, _, cl, Function.update_self .., ?_, rfl⟩
    rw [View.acceptNext_clients]
    exact Function.update_self ..

end

theorem Run.tidy {ok : World → Action → Prop} {w : World} (hr : Run ok w) :
    ∃ v, w.Owned v ∧ w.Serving v ∧ w.Tidy v := by
  refine Run.induct (P := fun w v => w.Serving v ∧ w.Tidy v) ?_ ?_ hr
  · intro srv serverFd j bref buf cl hfd _ _
    exact ⟨World.Serving.start srv serverFd hfd j bref buf cl,
      World.Tidy.start srv serverFd j bref buf cl⟩
  · intro w v a w' v' hw h _ hm _
    exact ⟨h.1.moves hw hm, h.2.moves h.1 hw hm⟩

theorem World.done_completion {w : World} {t : Ticket} (ht : t ∈ w.outstanding) {res : ℤ}
    {data : List UInt8} (hst : t.stage = .done res data) :
    ∃ cqe ∈ w.executed ++ w.cq, t = cqe.ticket ∧ cqe.res = res := by
  rw [World.outstanding, ← List.map_append, List.mem_append] at ht
  rcases ht with ht | ht
  · obtain ⟨s, -, rfl⟩ := List.mem_map.mp ht
    cases hst
  · obtain ⟨cqe, hc, rfl⟩ := List.mem_map.mp ht
    cases hst
    exact ⟨cqe, hc, rfl, rfl⟩

/-- While fewer than `2 ^ 64 - 1` connections have been accepted, the open descriptors
are those of the listening socket, of the receives of clients in the map, and of
accepts whose completion has not been handled. -/
theorem open_descriptors (w : World) (hr : Reachable w) (hacc : w.srv.accepts < 2 ^ 64 - 1) (fd : ℤ) :
    w.srv.fds fd ≠ none ↔ fd = w.srv.serverFd ∨
      (∃ i o n, w.op i = some o ∧ o.type = .read ∧ o.clientFd = fd ∧
        w.srv.info o.clientId = some n ∧ n.clientFd = fd) ∨
      (∃ cqe ∈ w.executed ++ w.cq, ∃ o, w.op cqe.sqe.userData = some o ∧ o.type = .accept ∧
        cqe.res = fd ∧ 0 ≤ fd) := by
  obtain ⟨v, hw, hs, h⟩ := hr.tidy
  have hu := hs.unwrapped hw hacc
  have hconn : ∀ i, w.Holds v i fd → w.srv.fds fd ≠ none := by
    intro i hi
    obtain ⟨k, hk⟩ := (hs.descriptors hu).conn i fd hi
    rw [← hw.models.fds, hk]
    exact Option.some_ne_none _
  constructor
  · intro hopen
    rw [← hw.models.fds] at hopen
    obtain ⟨f, hf⟩ := Option.ne_none_iff_exists'.mp hopen
    cases f with
    | listener => exact .inl ((h.single fd hf).trans hw.models.serverFd)
    | conn k =>
      obtain ⟨i, hi⟩ := h.held hu fd k hf
      cases hi with
      | @client x hx ht hc hfd =>
        obtain ⟨cl, -, hcl, hclfd, -⟩ := hs.open_fd hu hx (by rw [ht]; decide) hc
        have hinfo := hw.models.info x.clientId
        rw [hcl, Option.map_some] at hinfo
        exact .inr (.inl ⟨i, _, _, hw.op_eq_some.mpr ⟨x, hx, rfl⟩, ht, hfd, hinfo, hclfd.symm.trans hfd⟩)
      | @accepted x t data ht hid hx htype hst hfd =>
        obtain ⟨cqe, hc, rfl, hres⟩ := World.done_completion ht hst
        subst hid
        exact .inr (.inr ⟨cqe, hc, _, hw.op_eq_some.mpr ⟨x, hx, rfl⟩, htype, hres, hfd⟩)
  · rintro (rfl | ⟨i, o, n, ho, ht, -, hn, rfl⟩ | ⟨cqe, hc, o, ho, ht, rfl, hfd⟩)
    · rw [← hw.models.fds, ← hw.models.serverFd, h.listener hu]
      exact Option.some_ne_none _
    · have hfd := hs.client_fd hw hu ho (by rw [ht]; decide) hn
      obtain ⟨x, hx, rfl⟩ := hw.op_eq_some.mp ho
      obtain ⟨cl, hcl, -⟩ := hw.models.info_eq_some hn
      have hin : v.clients x.clientId ≠ none := by
        rw [show v.clients x.clientId = some cl from hcl]
        exact Option.some_ne_none cl
      exact hconn i (.client hx ht hin hfd)
    · obtain ⟨x, hx, rfl⟩ := hw.op_eq_some.mp ho
      have hmem : cqe.ticket ∈ w.outstanding := by
        rw [World.outstanding, ← List.map_append]
        exact List.mem_append_right _ (List.mem_map_of_mem hc)
      exact hconn _ (.accepted hmem rfl hx ht rfl hfd)

/-- A second connection has been accepted, which the server does not know yet. -/
theorem open_descriptors_pending : ∃ w, Reachable w ∧ w.srv.accepts = 1 ∧ w.cq = [] ∧
    w.srv.fds 6 ≠ none := by
  have hrun : (World.runMain 3 .zero ([.serve .zero] ++ Action.complete 0 5 [] ++
      [.execute 1 6 []])).map (fun w => (w.srv.accepts, w.cq, w.executed.map fun c =>
        (c.res, (w.op c.sqe.userData).map Operation.type))) = some (1, [], [(6, some .accept)]) := by
    decide +kernel
  obtain ⟨w, hw, hres⟩ := Option.map_eq_some_iff.mp hrun
  simp only [Prod.mk.injEq] at hres
  obtain ⟨hacc, hcq, hex⟩ := hres
  obtain ⟨c, hc, hcres⟩ := List.map_eq_singleton_iff.mp hex
  simp only [Prod.mk.injEq, Option.map_eq_some_iff] at hcres
  obtain ⟨hsix, o, ho, hot⟩ := hcres
  have hr := World.runMain_reachable (by decide) hw
  refine ⟨w, hr, hacc, hcq, (open_descriptors w hr (by omega) 6).mpr (.inr (.inr ?_))⟩
  exact ⟨c, by rw [hc]; exact List.mem_cons_self, o, ho, hot, hsix, by decide⟩

/-! ## What requests refer to -/

/-- The memory and the descriptor of a request, which belongs to the operation `o`. -/
def Request.Live (r : Request) (srv : Server) (o : Operation) : Prop :=
  match r with
  | .accept fd info => fd = srv.serverFd ∧ srv.fds fd = some .listener ∧
      clientMapGet srv.clients o.clientId = .ok (some info)
  | .recv fd b off len => fd = o.clientFd ∧ o.bufRef = some b ∧
      ∃ r, srv.heap[b]? = some r ∧ r.ref = 1 ∧ off + len = r.buf.length
  | .send fd b off len => fd = o.clientFd ∧ o.bufRef = some b ∧
      ∃ r, srv.heap[b]? = some r ∧ r.ref = 1 ∧ off + len = o.bufLen ∧ o.bufLen ≤ r.buf.length

/-- Whatever is queued or with the kernel, from whatever run: an accept is for the
listening socket and writes to the node of its client in the map; receives and sends
stay within the buffer of their own operation, which nothing else has a hold of. -/
theorem requests_are_live (w : World) (hr : Reachable w) (hacc : w.srv.accepts < 2 ^ 64 - 1)
    (t : Ticket) (ht : t ∈ w.tickets) :
    ∃ o, w.op t.id = some o ∧ t.sqe.request.Live w.srv o ∧
      ∀ j o', w.op j = some o' → o'.bufRef = o.bufRef → j = t.id := by
  obtain ⟨v, hw, hs, h⟩ := hr.tidy
  have hu := hs.unwrapped hw hacc
  rw [World.tickets, ← hw.models.sq] at ht
  obtain ⟨x, hx, hfit⟩ := hw.owns.held ht
  have hb := hw.models.bufs
  have hblock := hb.block t.id x hx
  have hlen := hb.length t.id x hx
  have hcap := hb.bufCap t.id x hx
  rw [hw.models.cap64, hw.models.cap2k] at hcap
  refine ⟨_, hw.op_eq_some.mpr ⟨x, hx, rfl⟩, ?_, ?_⟩
  · have hfits := hfit.1
    unfold Request.Fits at hfits
    unfold Request.Live
    cases hreq : t.sqe.request with
    | accept fd info =>
      obtain ⟨hfd, y, c, hy, hc, hnode⟩ := h.accepts hu t ht fd info hreq
      obtain rfl := Option.some.inj (hx.symm.trans hy)
      refine ⟨hfd.trans hw.models.serverFd, ?_, ?_⟩
      · rw [hfd, ← hw.models.fds]
        exact h.listener hu
      · have hget := hw.models.clientMapGet x.clientId
        rw [hc, Option.map_some, hnode] at hget
        exact hget
    | recv fd b off len =>
      rw [hreq] at hfits
      obtain ⟨-, hfd, rfl, -, hsum⟩ := hfits
      exact ⟨hfd.symm, rfl, _, hblock, rfl, hsum.trans hlen.symm⟩
    | send fd b off len =>
      rw [hreq] at hfits
      obtain ⟨-, hfd, rfl, -, hsum, hle⟩ := hfits
      refine ⟨hfd.symm, rfl, _, hblock, rfl, hsum, ?_⟩
      change x.bufLen ≤ x.buf.length
      omega
  · intro j o' ho' href
    obtain ⟨y, hy, rfl⟩ := hw.op_eq_some.mp ho'
    exact hb.inj j t.id y x hy hx (Option.some.inj href)

/-- A receive, an accept and a send are with the kernel. -/
theorem requests_are_live_reply : ∃ w, Reachable w ∧ w.tickets.length = 3 ∧
    ∀ t ∈ w.tickets, ∃ o, w.op t.id = some o ∧ t.sqe.request.Live w.srv o := by
  have hrun : (World.runMain 3 .zero ([.serve .zero] ++ Action.complete 0 5 [] ++
      Action.complete 0 14 [0, 14, 1, 0, 0, 0, 0, 0, 0, 0, 7, 97, 98, 99])).map
      (fun w => (w.srv.accepts, w.tickets.length)) = some (1, 3) := by
    decide +kernel
  obtain ⟨w, hw, hres⟩ := Option.map_eq_some_iff.mp hrun
  obtain ⟨hacc, hlen⟩ := Prod.mk.inj hres
  have hr := World.runMain_reachable (by decide) hw
  refine ⟨w, hr, hlen, fun t ht => ?_⟩
  obtain ⟨o, ho, hlive, -⟩ := requests_are_live w hr (by omega) t ht
  exact ⟨o, ho, hlive⟩

end Caht
