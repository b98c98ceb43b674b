import Caht.Server.Capacity
import Caht.Server.Service

/-! # Replies

Which replies a client gets. The messages are read from the buffer of a receive when its
completion is handled, and the replies from the buffers of the sends that are queued
then.
-/

namespace Caht
open Library Protocol

/-- The messages of the client `c` in the bytes that a completion brings, and the
descriptor the map has for it. -/
def Server.messages (srv : Server) (c : UInt64) (cqe : Cqe) : List (ℤ × Message) :=
  match srv.getOp cqe.sqe.userData, srv.info c with
  | .ok o, some n =>
    if o.type ≠ .read ∨ o.clientId ≠ c ∨ cqe.res ≤ 0 then [] else
      match srv.getBuf o.bufRef with
      | .error _ => []
      | .ok buf => (((scan buf 0 cqe.res.toNat).map Scan.messages).getD []).map fun m => (n.clientFd, m)
  | _, _ => []

def World.messages (w : World) (c : UInt64) (a : Action) : List (ℤ × Message) :=
  match w.nextCqe a with
  | none => []
  | some cqe => w.srv.messages c cqe

/-- The descriptor and the bytes of a queued send to the client `c`. -/
def Server.sendTo (srv : Server) (c : UInt64) (e : Sqe) : Option (ℤ × List UInt8) :=
  match e.request, srv.getOp e.userData with
  | .send fd bref off len, .ok o =>
    if o.clientId = c then (srv.heap[bref]?).map fun r => (fd, (r.buf.drop off).take len) else none
  | _, _ => none

/-- What a step from `w` to `w'` queues for the client `c`. A send of an operation that
was in use before is the rest of a short write. -/
def World.replies (w w' : World) (c : UInt64) : List (ℤ × List UInt8) :=
  (w'.srv.ring.sq.drop w.srv.ring.sq.length).filterMap fun e =>
    if e.userData ∈ w.srv.pool.inUse then none else w'.srv.sendTo c e

/-- What `f` has for each of the steps, one after the other. -/
def World.along {α : Type} (f : World → Action → World → List α) : World → List Action → List α
  | _, [] => []
  | w, a :: as =>
    match w.step a with
    | none => []
    | some w' => f w a w' ++ w'.along f as

/-! ## Replies in the log -/

def Event.reply : Event → Option Response
  | .queued _ _ response => some response
  | _ => none

/-- The reply that a line of the log calls for. -/
def Event.calls : Event → Option Response
  | .handled _ msgt seqid payload =>
    if msgt = MessageType.setUsername.code then some (Message.response ⟨0, msgt, seqid, payload⟩)
    else none
  | _ => none

def repliesTo (c : UInt64) (l : List Event) : List Response := (history c l).filterMap Event.reply

def calledFor (c : UInt64) (l : List Event) : List Response := (history c l).filterMap Event.calls

section
variable {f : Event → Option Response} {c : UInt64}

theorem filterMap_history_append (f : Event → Option Response) (c : UInt64) (l l' : List Event) :
    (history c (l ++ l')).filterMap f = (history c l).filterMap f ++ (history c l').filterMap f := by
  rw [history, List.filter_append, List.filterMap_append]
  rfl

theorem filterMap_history_singleton (f : Event → Option Response) (c : UInt64) (e : Event) :
    (history c [e]).filterMap f = if e.clientId = c then (f e).toList else [] := by
  by_cases he : e.clientId = c
  · cases hr : f e <;> simp [history, he, hr]
  · simp [history, he]

theorem filterMap_history_eq_nil {l : List Event} (h : ∀ e ∈ l, e.clientId = c → f e = none) :
    (history c l).filterMap f = [] := by
  rw [List.filterMap_eq_nil_iff]
  intro e he
  obtain ⟨he, hc⟩ := List.mem_filter.mp he
  exact h e he (by simpa using hc)

end

theorem repliesTo_append (c : UInt64) (l l' : List Event) :
    repliesTo c (l ++ l') = repliesTo c l ++ repliesTo c l' :=
  filterMap_history_append Event.reply c l l'

theorem calledFor_append (c : UInt64) (l l' : List Event) :
    calledFor c (l ++ l') = calledFor c l ++ calledFor c l' :=
  filterMap_history_append Event.calls c l l'

theorem repliesTo_cons (c : UInt64) (e : Event) (l : List Event) : repliesTo c (e :: l) =
    (if e.clientId = c then e.reply.toList else []) ++ repliesTo c l := by
  rw [← List.singleton_append, repliesTo_append]
  exact congrArg (· ++ _) (filterMap_history_singleton Event.reply c e)

theorem calledFor_cons (c : UInt64) (e : Event) (l : List Event) : calledFor c (e :: l) =
    (if e.clientId = c then e.calls.toList else []) ++ calledFor c l := by
  rw [← List.singleton_append, calledFor_append]
  exact congrArg (· ++ _) (filterMap_history_singleton Event.calls c e)

@[simp] theorem repliesTo_nil (c : UInt64) : repliesTo c [] = [] := rfl

@[simp] theorem calledFor_nil (c : UInt64) : calledFor c [] = [] := rfl

namespace Service

/-- What a line that is not owed calls for is owed from then on. -/
theorem admit_replies {s s' : Service} {e : Event} (howed : s.owed = []) (h : s.step e = some s')
    (c : UInt64) : (∀ o ∈ s'.owed, o.calls = none) ∧ repliesTo c [e] = [] ∧
      calledFor c [e] = repliesTo c s'.owed := by
  have hquiet : ∀ id fd, (∀ o ∈ [Event.closed id fd], o.calls = none) ∧
      repliesTo c [Event.closed id fd] = [] := by
    intro id fd
    simp [repliesTo_cons, Event.calls, Event.reply]
  simp only [step, howed] at h
  cases e with
  | entered => cases h
  | username => cases h
  | queued => cases h
  | completed id type res data =>
    have hout : (∀ o ∈ s'.owed, o.calls = none) ∧ repliesTo c s'.owed = [] := by
      simp only [complete] at h
      split at h
      · split_ifs at h
        obtain rfl := Option.some.inj h
        simp [repliesTo_cons, Event.calls, Event.reply]
      · split_ifs at h
        · obtain rfl := Option.some.inj h
          exact hquiet _ _
        · obtain rfl := Option.some.inj h
          simp [howed]
      · split_ifs at h
        · obtain rfl := Option.some.inj h
          exact hquiet _ _
        · obtain rfl := Option.some.inj h
          simp [howed]
      · obtain rfl := Option.some.inj h
        simp [howed]
      · obtain rfl := Option.some.inj h
        simp [howed]
      · cases h
    refine ⟨hout.1, ?_, ?_⟩
    · simp [repliesTo_cons, Event.reply]
    · rw [hout.2]
      simp [calledFor_cons, Event.calls]
  | handled id msgt seqid payload =>
    simp only [handle] at h
    split at h
    · split_ifs at h with hread hset
      · obtain rfl := Option.some.inj h
        simp [repliesTo_cons, calledFor_cons, Event.reply, Event.calls, hset]
      · have hset' : msgt = MessageType.setUsername.code := not_not.mp hset
        cases hj : judge payload with
        | some code =>
          simp only [hj] at h
          obtain rfl := Option.some.inj h
          by_cases hc : id = c <;> simp [repliesTo_cons, calledFor_cons, Event.reply, Event.calls,
            Event.clientId, hset', Message.response, hj, hc]
        | none =>
          simp only [hj] at h
          obtain rfl := Option.some.inj h
          by_cases hc : id = c <;> simp [repliesTo_cons, calledFor_cons, Event.reply, Event.calls,
            Event.clientId, hset', Message.response, hj, hc]
    · cases h
  | closed id fd =>
    have hout : s'.owed = [] := by
      simp only [close] at h
      split at h
      · split_ifs at h
        obtain rfl := Option.some.inj h
        exact howed
      · cases h
    rw [hout]
    simp [repliesTo_cons, calledFor_cons, Event.reply, Event.calls]

theorem owed_replies {s s' : Service} {e o : Event} {owed : List Event} (howed : s.owed = o :: owed)
    (hno : o.calls = none) (h : s.step e = some s') (c : UInt64) :
    s'.owed = owed ∧ repliesTo c [e] = repliesTo c [o] ∧ calledFor c [e] = [] := by
  simp only [step, howed] at h
  split_ifs at h with heq
  obtain rfl := Option.some.inj h
  subst heq
  have hsame : e.seen.clientId = e.clientId ∧ e.seen.reply = e.reply ∧ e.seen.calls = e.calls := by
    cases e <;> exact ⟨rfl, rfl, rfl⟩
  obtain ⟨hid, hreply, hcalls⟩ := hsame
  rw [hcalls] at hno
  simp [repliesTo_cons, calledFor_cons, hid, hreply, hno]

/-- Over any number of lines: what was owed and what was called for is what was sent
and what is still owed. -/
theorem run_replies {s s' : Service} {l : List Event} (h : s.run l = some s')
    (hno : ∀ o ∈ s.owed, o.calls = none) (c : UInt64) :
    repliesTo c s.owed ++ calledFor c l = repliesTo c l ++ repliesTo c s'.owed := by
  induction l generalizing s with
  | nil =>
    obtain rfl := Option.some.inj h
    simp
  | cons e l ih =>
    rw [run_cons] at h
    obtain ⟨s₁, hstep, hrun⟩ := Option.bind_eq_some_iff.mp h
    have hreply := repliesTo_cons c e l
    have hcall := calledFor_cons c e l
    cases howed : s.owed with
    | nil =>
      obtain ⟨hno₁, hnone, hcalls⟩ := admit_replies howed hstep c
      have htail := ih hrun hno₁
      rw [repliesTo_cons, repliesTo_nil, List.append_nil] at hnone
      rw [calledFor_cons, calledFor_nil, List.append_nil] at hcalls
      rw [hcall, hreply, hnone, hcalls, repliesTo_nil, List.nil_append, List.nil_append]
      exact htail
    | cons o owed =>
      rw [howed] at hno
      obtain ⟨howed₁, hsame, hcalls⟩ := owed_replies howed (hno o List.mem_cons_self) hstep c
      have htail := ih hrun (by rw [howed₁]; exact fun o' ho' => hno o' (List.mem_cons_of_mem _ ho'))
      rw [repliesTo_cons, repliesTo_nil, List.append_nil, repliesTo_cons, repliesTo_nil,
        List.append_nil] at hsame
      rw [calledFor_cons, calledFor_nil, List.append_nil] at hcalls
      rw [howed₁] at htail
      rw [hcall, hreply, hcalls, List.nil_append, hsame, repliesTo_cons, List.append_assoc,
        List.append_assoc, htail]

end Service

theorem Service.Of.repliesTo_eq {v : View} {s : Service} (h : s.Of v)
    (hrun : Service.initial.run v.trace = some s) (c : UInt64) :
    repliesTo c v.trace = calledFor c v.trace := by
  have hall := Service.run_replies hrun (by simp [Service.initial, Event.calls]) c
  rw [h.owed, repliesTo_nil, List.append_nil] at hall
  rw [← hall]
  simp [Service.initial, repliesTo_cons, Event.reply]

section
variable {w w' : World} {v v' : View} {srv srv' : Server} {c id : UInt64} {i : ℕ} {x : Held} {cqe : Cqe}
  {l : List Event} {new : List Sqe}

theorem repliesTo_eq_nil (h : ∀ e ∈ l, e.clientId = c → e.reply = none) : repliesTo c l = [] :=
  filterMap_history_eq_nil h

theorem calledFor_eq_nil (h : ∀ e ∈ l, e.clientId = c → e.calls = none) : calledFor c l = [] :=
  filterMap_history_eq_nil h

theorem Message.calledFor_events {m : Message} (hm : m.msgt = MessageType.setUsername.code) (id : UInt64)
    (op : ℕ) : calledFor id (m.events id op) = [m.response] := by
  unfold Message.events
  cases hj : judge m.payload <;>
    simp [calledFor_cons, Event.clientId, Event.calls, hm, Message.response, hj]

theorem View.Answers.calledFor {fd : ℤ} {ms : List Message} (ha : v.Answers id fd ms v')
    (hset : ∀ m ∈ ms, m.msgt = MessageType.setUsername.code) :
    ∃ l, v'.trace = v.trace ++ l ∧ (∀ e ∈ l, e.clientId = id) ∧
      Caht.calledFor id l = ms.map Message.response := by
  induction ha with
  | nil v => exact ⟨[], (List.append_nil _).symm, by simp, rfl⟩
  | @cons v v' s m ms hs _ ih =>
    obtain ⟨l, htr, hall, hcalls⟩ := ih fun m hm => hset m (List.mem_cons_of_mem _ hm)
    refine ⟨m.events id s.op ++ l, ?_, ?_, ?_⟩
    · rw [htr, View.answer_trace, List.append_assoc]
    · intro e he
      exact (List.mem_append.mp he).elim Message.events_clientId (hall e)
    · rw [calledFor_append, Message.calledFor_events (hset m List.mem_cons_self), hcalls]
      rfl

/-! ## Messages and sends on the view -/

theorem Server.Models.messages_eq_nil (h : srv.Models v) (hi : v.ops cqe.sqe.userData = some x)
    (hno : x.type ≠ .read ∨ x.clientId ≠ c ∨ cqe.res ≤ 0 ∨ v.clients c = none) :
    srv.messages c cqe = [] := by
  rw [Server.messages, h.getOp hi]
  cases hn : srv.info c with
  | none => rfl
  | some n =>
    obtain ⟨cl, hcl, -⟩ := h.info_eq_some hn
    have hno' : x.type ≠ .read ∨ x.clientId ≠ c ∨ cqe.res ≤ 0 := by
      rw [hcl] at hno
      simpa using hno
    exact if_pos hno'

theorem Server.Models.messages_eq (h : srv.Models v) (hi : v.ops cqe.sqe.userData = some x)
    (ht : x.type = .read) (hres : 0 < cqe.res) {cl : Client} (hc : v.clients x.clientId = some cl)
    {s : Scan} (hscan : scan x.buf 0 cqe.res.toNat = some s) :
    srv.messages x.clientId cqe = s.messages.map fun m => (cl.fd, m) := by
  have hyes : ¬ (x.type ≠ .read ∨ x.clientId ≠ x.clientId ∨ cqe.res ≤ 0) := by
    simp only [ht, ne_eq, not_true_eq_false, false_or]
    omega
  rw [Server.messages, h.getOp hi, h.info, hc]
  simp only [Option.map_some, Held.operation, if_neg hyes, h.getBuf hi, hscan, Option.getD_some]

theorem Server.sendTo_eq_none {e : Sqe} (h : ∀ fd b off len, e.request ≠ .send fd b off len) :
    srv.sendTo c e = none := by
  unfold Server.sendTo
  split
  · rename_i hreq _
    exact absurd hreq (h _ _ _ _)
  · rfl

theorem Server.Models.sendTo_reply (h : srv.Models v) {r : Response} {s : Slot} {fd : ℤ}
    (hop : v.ops s.op = some (r.held id fd s)) (c : UInt64) :
    srv.sendTo c ⟨s.op, .send fd s.bref 0 r.bytes.length⟩ =
      if id = c then some (fd, r.bytes) else none := by
  have hblock := h.bufs.block _ _ hop
  simp only [Response.held] at hblock
  simp only [Server.sendTo, h.getOp hop, Response.held, Held.operation, hblock, Option.map_some,
    List.drop_zero, List.take_left]

theorem World.replies_append (hsq : w'.srv.ring.sq = w.srv.ring.sq ++ new) (c : UInt64) :
    w.replies w' c = new.filterMap fun e =>
      if e.userData ∈ w.srv.pool.inUse then none else w'.srv.sendTo c e := by
  rw [World.replies, hsq, List.drop_left]

theorem World.replies_eq_nil (hsq : w'.srv.ring.sq = w.srv.ring.sq ++ new)
    (hnew : ∀ e ∈ new, e.userData ∈ w.srv.pool.inUse ∨ ∀ fd b off len, e.request ≠ .send fd b off len) :
    w.replies w' c = [] := by
  rw [World.replies_append hsq, List.filterMap_eq_nil_iff]
  intro e he
  split
  · rfl
  · rename_i hfresh
    exact Server.sendTo_eq_none ((hnew e he).resolve_left hfresh)

theorem filterMap_of_forall₂ {α β γ : Type} {R : α → β → Prop} {f : β → Option γ} {g : α → Option γ}
    {l : List α} {l' : List β} (h : List.Forall₂ R l l') (hfg : ∀ a, ∀ b ∈ l', R a b → f b = g a) :
    l'.filterMap f = l.filterMap g := by
  induction h with
  | nil => rfl
  | @cons a b l l' hab _ ih =>
    rw [List.filterMap_cons, List.filterMap_cons, hfg a b List.mem_cons_self hab,
      ih fun a b hb => hfg a b (List.mem_cons_of_mem _ hb)]

/-! ## One step -/

theorem World.replies_received (hw : w.Owned v) (hw' : w'.srv.Models v') (hi : v.ops i = some x)
    {s : Scan} (v₀ : View) {v₁ : View} (hops : v₀.ops = v.ops) (hsq : v₀.sq = v.sq)
    (ha : v₀.Answers x.clientId x.clientFd s.messages v₁) (hf : v₁.Finishes i x s v') (c : UInt64) :
    w.replies w' c = s.messages.filterMap fun m =>
      if x.clientId = c then some (x.clientFd, m.response.bytes) else none := by
  obtain ⟨sends, hsends, hall, -, hnew⟩ := ha.sends
  obtain ⟨l, hl, hlast, -⟩ := hf.sq
  have hqueue : w'.srv.ring.sq = w.srv.ring.sq ++ (sends ++ l) := by
    rw [← hw'.sq, ← hw.models.sq, hl, hsends, hsq, List.append_assoc]
  have hrest : (l.filterMap fun e =>
      if e.userData ∈ w.srv.pool.inUse then none else w'.srv.sendTo c e) = [] := by
    rw [List.filterMap_eq_nil_iff]
    intro e he
    rw [if_pos (hw.models.pool.mem_inUse.mpr (by rw [hlast e he, hi]; exact Option.some_ne_none x))]
  rw [World.replies_append hqueue, List.filterMap_append, hrest, List.append_nil]
  refine filterMap_of_forall₂ hall ?_
  rintro m e he ⟨sl, rfl, hop⟩
  have hfree : v.ops sl.op = none := hops ▸ hnew _ he
  have hsi : sl.op ≠ i := by
    rintro rfl
    exact absurd (hi.symm.trans hfree) (Option.some_ne_none x)
  rw [if_neg fun hmem => hw.models.pool.mem_inUse.mp hmem hfree]
  exact hw'.sendTo_reply ((hf.ops_of_ne hsi).trans hop) c

/-- The lines that a step adds to the log call for replies to the messages it handles, and
the replies are queued in the same step. -/
structure World.Replies (w : World) (c : UInt64) (a : Action) (w' : World) (l : List Event) : Prop where
  calls : calledFor c l = (w.messages c a).map fun p => p.2.response
  sends : w.replies w' c = (w.messages c a).map fun p => (p.1, p.2.response.bytes)

/-- A step that neither handles a message of the client nor queues a send in a fresh
operation. -/
theorem World.Replies.quiet {a : Action} (hm : w.messages c a = [])
    (hl : ∀ e ∈ l, e.clientId = c → e.calls = none) (hsq : w'.srv.ring.sq = w.srv.ring.sq ++ new)
    (hnew : ∀ e ∈ new, e.userData ∈ w.srv.pool.inUse ∨ ∀ fd b off len, e.request ≠ .send fd b off len) :
    w.Replies c a w' l where
  calls := by rw [hm, calledFor_eq_nil hl, List.map_nil]
  sends := by rw [hm, World.replies_eq_nil hsq hnew, List.map_nil]

theorem World.messages_of_handling {pc : Pc} {cq : List Cqe} (hpc : w.pc.Handling pc)
    (hcq : w.cq = cqe :: cq) (junk : Junk) : w.messages c (.serve junk) = w.srv.messages c cqe := by
  rw [World.messages, World.nextCqe_of_handling hpc hcq]

theorem World.replies_handled {a : Action} (hw : w.Owned v) (hw' : w'.srv.Models v')
    (hi : v.ops i = some x) {cl : Client} (hclfd : cl.fd = x.clientFd) {sc : Scan} {v₁ : View} {past : ℕ → UInt8}
    (hscan : scan x.buf 0 cqe.res.toNat = some sc)
    (ha : (v.log (x.completed cqe)).Answers x.clientId x.clientFd sc.messages v₁)
    (hf : v' = v₁.finish i x sc past)
    (hown : w.messages x.clientId a = sc.messages.map fun m => (cl.fd, m))
    (hother : x.clientId ≠ c → w.messages c a = []) :
    ∃ l, v'.trace = v.trace ++ l ∧ w.Replies c a w' l := by
  obtain ⟨l, htr, hall, hcalls⟩ := ha.calledFor (scan_messages hscan)
  have hsends := World.replies_received hw hw' hi (v.log (x.completed cqe)) rfl rfl ha
    (hf ▸ v₁.finishes i x sc past) c
  obtain ⟨l', htr', hall', hquiet⟩ : ∃ l', v'.trace = v₁.trace ++ l' ∧
      (∀ e ∈ l', e.clientId = x.clientId) ∧ ∀ c, calledFor c l' = [] := by
    rw [hf]
    rcases v₁.finish_trace i x sc past with ⟨-, htr, -⟩ | ⟨-, htr, -⟩ | ⟨hstop, htr, -⟩
    · exact ⟨[], by rw [htr, List.append_nil], by simp, fun c => rfl⟩
    · exact ⟨_, htr, by simp [Event.clientId], fun c => by simp [calledFor_cons, Event.calls]⟩
    · have hlook := scan_stops hscan
      rw [hstop] at hlook
      have hset := look_refused_type hlook
      exact ⟨_, htr, by simp [Event.clientId], fun c => by simp [calledFor_cons, Event.calls, hset]⟩
  refine ⟨x.completed cqe :: (l ++ l'), ?_, ?_⟩
  · rw [htr', htr]
    simp [View.log]
  have hcons : calledFor c (x.completed cqe :: (l ++ l')) = calledFor c l := by
    rw [← List.singleton_append, calledFor_append, calledFor_append, hquiet, List.append_nil,
      calledFor_eq_nil fun e he _ => by rw [List.mem_singleton.mp he]; rfl, List.nil_append]
  by_cases hxc : x.clientId = c
  · subst hxc
    refine ⟨?_, ?_⟩
    · rw [hcons, hcalls, hown, List.map_map]
      rfl
    · rw [hsends, hown, List.map_map, hclfd]
      simp only [if_true, List.filterMap_eq_map']
      rfl
  · refine ⟨?_, ?_⟩
    · rw [hcons, hother hxc, calledFor_eq_nil fun e he hec => absurd ((hall e he).symm.trans hec) hxc]
      rfl
    · rw [hsends, hother hxc]
      simp [hxc]

theorem World.Moves.replies {a : Action} (hm : w.Moves v a w' v') (hw : w.Owned v) (hw' : w'.Owned v')
    (hs : w.Serving v) (hu : v.Unwrapped) (c : UInt64) :
    ∃ l, v'.trace = v.trace ++ l ∧ w.Replies c a w' l := by
  have hidle : w.nextCqe a = none → w'.srv.ring.sq = w.srv.ring.sq ∨ w'.srv.ring.sq = [] →
      w.Replies c a w' [] := by
    intro hnext hsq
    have hnone : w.messages c a = [] := by rw [World.messages, hnext]
    refine ⟨by rw [hnone]; rfl, ?_⟩
    rw [hnone, World.replies]
    rcases hsq with hsq | hsq <;> simp [hsq]
  cases hm with
  | execute =>
    refine ⟨[], by rw [View.perform_trace, List.append_nil], hidle rfl (.inl ?_)⟩
    simp only [World.perform_ring]
  | post => exact ⟨[], (List.append_nil _).symm, hidle rfl (.inl rfl)⟩
  | submit hpc => exact ⟨[], (List.append_nil _).symm, hidle (by simp [World.nextCqe, hpc]) (.inr rfl)⟩
  | turn hpc =>
    refine ⟨[], (List.append_nil _).symm, hidle ?_ (.inl rfl)⟩
    rcases hpc with hpc | hpc <;> simp [World.nextCqe, hpc]
  | @handle junk pc cqe cq srv x v' hpc hcq hsrv hx hh =>
    have hmsg : ∀ c, w.messages c (.serve junk) = w.srv.messages c cqe := fun c =>
      World.messages_of_handling hpc hcq junk
    have hquiet : (x.type ≠ .read ∨ x.clientId ≠ c ∨ cqe.res ≤ 0 ∨ v.clients c = none) →
        ∀ l new, v'.trace = v.trace ++ x.completed cqe :: l → (∀ e ∈ l, e.calls = none) →
        v'.sq = v.sq ++ new →
        (∀ e ∈ new, v.ops e.userData ≠ none ∨ ∀ fd b off len, e.request ≠ .send fd b off len) →
        ∃ l, v'.trace = v.trace ++ l ∧
          w.Replies c (.serve junk) { w with srv := srv, cq := cq, pc := pc } l := by
      intro hno l new htr hl hsq hnew
      have hqueue : srv.ring.sq = w.srv.ring.sq ++ new := by
        rw [← hw.models.sq, ← hsq, hw'.models.sq]
      refine ⟨_, htr, .quiet ((hmsg c).trans (hw.models.messages_eq_nil hx hno)) ?_ hqueue ?_⟩
      · intro e he _
        rcases List.mem_cons.mp he with rfl | he
        · rfl
        · exact hl e he
      · exact fun e he => (hnew e he).imp_left hw.models.pool.mem_inUse.mpr
    cases hh with
    | stale hc =>
      refine hquiet ?_ [] [] rfl (by simp) (List.append_nil _).symm (by simp)
      by_cases hxc : x.clientId = c
      · exact .inr (.inr (.inr (hxc ▸ hc)))
      · exact .inr (.inl hxc)
    | dropped _ hres =>
      exact hquiet (.inr (.inr (.inl (by omega)))) [.closed x.clientId x.clientFd] []
        (List.append_assoc ..) (by simp [Event.calls]) (List.append_nil _).symm (by simp)
    | accepted _ _ ht =>
      exact hquiet (.inl (by rw [ht]; decide)) [.entered v.nextClientId] _ (List.append_assoc ..)
        (by simp [Event.calls]) (List.append_assoc ..) (by simp)
    | @received cl s v₁ past hc hres ht hscan ha =>
      have hne : v.clients x.clientId ≠ none := fun hnone => Option.some_ne_none cl (hc.symm.trans hnone)
      obtain ⟨cl', j, y, hconn⟩ := (hs.census.unwrapped_life hu x.clientId).connected_of hx rfl hne
        (by rw [ht]; decide)
      obtain rfl := Option.some.inj (hc.symm.trans hconn.client)
      refine World.replies_handled hw hw'.models hx (hconn.fd _ x hx rfl).symm hscan ha rfl ?_ ?_
      · rw [hmsg]
        exact hw.models.messages_eq hx ht hres hc hscan
      · exact fun hxc => (hmsg c).trans (hw.models.messages_eq_nil hx (.inr (.inl hxc)))
    | resumed _ _ ht =>
      refine hquiet (.inl (by rw [ht]; decide)) [] _ rfl (by simp) rfl ?_
      intro e he
      rw [List.mem_singleton.mp he]
      exact .inl (by rw [hx]; exact Option.some_ne_none x)
    | sent _ _ ht =>
      exact hquiet (.inl (by rw [ht]; decide)) [] [] rfl (by simp) (List.append_nil _).symm (by simp)

/-! ## Runs -/

theorem World.replies_run {as : List Action} (hr : Reachable w) (hrun : w.run as = some w')
    (hacc : w'.srv.accepts < 2 ^ 64 - 1) (c : UInt64) :
    ∃ l, w'.srv.trace = w.srv.trace ++ l ∧
      calledFor c l = (w.along (fun w a _ => w.messages c a) as).map (fun p => p.2.response) ∧
      w.along (fun w _ w' => w.replies w' c) as =
        (w.along (fun w a _ => w.messages c a) as).map fun p => (p.1, p.2.response.bytes) := by
  induction as generalizing w with
  | nil =>
    obtain rfl := Option.some.inj hrun
    exact ⟨[], (List.append_nil _).symm, rfl, rfl⟩
  | cons a as ih =>
    obtain ⟨w₁, hstep, hrun⟩ := Option.bind_eq_some_iff.mp hrun
    have hr₁ : Reachable w₁ := .step hr trivial hstep
    obtain ⟨v, hw, hs⟩ := hr.serving
    have hle := World.accepts_run (.step hr trivial hstep) hrun
    have hle₁ := (World.accepts_step hw hstep).1
    obtain ⟨v₁, hm, hw₁⟩ := hw.step (World.steps_of_step hstep)
    obtain ⟨l, htr, hl⟩ := hm.replies hw hw₁ hs (hs.unwrapped hw (by omega)) c
    obtain ⟨l', htr', hcalls, hsends⟩ := ih hr₁ hrun
    rw [hw₁.models.trace, hw.models.trace] at htr
    refine ⟨l ++ l', by rw [htr', htr, List.append_assoc], ?_, ?_⟩
    · simp only [World.along, hstep, List.map_append]
      rw [calledFor_append, hl.calls, hcalls]
    · simp only [World.along, hstep, List.map_append]
      rw [hl.sends, hsends]

theorem Run.repliesTo_eq {ok : World → Action → Prop} (hr : Run ok w) (hacc : w.srv.accepts < 2 ^ 64 - 1) (c : UInt64) :
    repliesTo c w.srv.trace = calledFor c w.srv.trace := by
  obtain ⟨v, hw, hs, hserv⟩ := hr.service
  obtain ⟨s, hrun, h⟩ := hserv (hs.unwrapped hw hacc)
  rw [← hw.models.trace]
  exact h.repliesTo_eq hrun c

end

/-- Over any part of a run, the sends that are queued for a client in fresh operations
carry, in the order of its messages, one reply for each message that sets a name: an
acknowledgement or an error with the number of the message, to the descriptor the map has
for the client. The log has the same replies. -/
theorem replies_answer_messages (w w' : World) (as : List Action) (hr : Reachable w)
    (hrun : w.run as = some w') (hacc : w'.srv.accepts < 2 ^ 64 - 1) (c : UInt64) :
    w.along (fun w _ w' => w.replies w' c) as =
      (w.along (fun w a _ => w.messages c a) as).map (fun p => (p.1, p.2.response.bytes)) ∧
    ∃ l, w'.srv.trace = w.srv.trace ++ l ∧ repliesTo c l = calledFor c l ∧
      calledFor c l = (w.along (fun w a _ => w.messages c a) as).map fun p => p.2.response := by
  obtain ⟨l, htr, hcalls, hsends⟩ := World.replies_run hr hrun hacc c
  refine ⟨hsends, l, htr, ?_, hcalls⟩
  have hle := World.accepts_run hr hrun
  have hall := (World.run_run (fun _ _ _ => trivial) hr hrun).repliesTo_eq hacc c
  rw [htr, repliesTo_append, calledFor_append, hr.repliesTo_eq (by omega)] at hall
  exact List.append_cancel_left hall

/-- A name, and another one that is too short. -/
theorem replies_answer_messages_two : ∃ (w w' : World) (as : List Action), Reachable w ∧
    w.run as = some w' ∧ w.along (fun w _ w' => w.replies w' 1) as =
      [(5, [0, 11, 2, 0, 0, 0, 0, 0, 0, 0, 7]), (5, [0, 12, 0, 0, 0, 0, 0, 0, 0, 0, 8, 2])] := by
  set as := [.serve .zero] ++ Action.complete 0 5 [] ++ Action.complete 0 26
    [0, 14, 1, 0, 0, 0, 0, 0, 0, 0, 7, 97, 98, 99, 0, 12, 1, 0, 0, 0, 0, 0, 0, 0, 8, 97] with has
  have hrun : ((World.start 3 .zero).toOption.bind fun w => (w.run as).map fun w' =>
      (w'.srv.accepts, w.along (fun w a _ => w.messages 1 a) as)) =
        some (1, [(5, ⟨14, 1, 7, [97, 98, 99]⟩), (5, ⟨12, 1, 8, [97]⟩)]) := by
    decide +kernel
  obtain ⟨w, hstart, hres⟩ := Option.bind_eq_some_iff.mp hrun
  obtain ⟨w', hw, hres⟩ := Option.map_eq_some_iff.mp hres
  obtain ⟨hacc, hmsg⟩ := Prod.mk.inj hres
  have hr : Reachable w := .start (by decide) (toOption_eq_some.mp hstart)
  obtain ⟨hsends, -⟩ := replies_answer_messages w w' as hr hw (by omega) 1
  refine ⟨w, w', as, hr, hw, ?_⟩
  rw [hsends, hmsg]
  decide

end Caht
