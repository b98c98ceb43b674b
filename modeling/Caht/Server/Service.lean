import Caht.Server.Departures

/-! # The service

What the server is for, with no ring, pool, buffer or map in it: sessions that are
numbered, connected, named and ended, and the order in which things happen to them.
`Service` is a machine that reads the log of a server line by line. Every run of the
server is accepted by it, and what it knows then is what the server has in its map.
-/

namespace Caht
open Library Protocol

/-- Where a connection stands; `name` is the one set last. -/
inductive Session where
  | absent
  | pending
  | online (fd : ℤ) (name : Option (List UInt8))
  | offline
  deriving DecidableEq, Repr

/-- `owed` are the lines that have to come next, and `reading` is the client whose bytes
were just received. -/
structure Service where
  next : UInt64
  session : UInt64 → Session
  owed : List Event
  reading : Option UInt64

namespace Service

/-- The first line enters the client with id 1. -/
def initial : Service := ⟨1, fun _ => .absent, [.entered 1], none⟩

def setSession (s : Service) (id : UInt64) (x : Session) : Service :=
  { s with session := Function.update s.session id x }

/-- The effect of a line that was owed. -/
def apply (s : Service) : Event → Service
  | .entered id => { s.setSession id .pending with next := s.next + 1 }
  | .username id name =>
    match s.session id with
    | .online fd _ => s.setSession id (.online fd (some name))
    | _ => s
  | .closed id _ => { s.setSession id .offline with reading := none }
  | _ => s

/-- A completion: an accept makes a session and enters the next, a receive of bytes may
be followed by messages, an error or the end of the stream ends the session. Nothing
follows for a client that has gone. -/
def complete (s : Service) (id : UInt64) (type : OpType) (res : ℤ) : Option Service :=
  match s.session id, type with
  | .pending, .accept =>
    if res < 0 then none else
      some { s.setSession id (.online res none) with owed := [.entered s.next], reading := none }
  | .online fd _, .read =>
    if res ≤ 0 then some { s with owed := [.closed id fd], reading := none }
    else some { s with reading := some id }
  | .online fd _, .write =>
    if res < 0 then some { s with owed := [.closed id fd], reading := none }
    else some { s with reading := none }
  | .offline, .read => some { s with reading := none }
  | .offline, .write => some { s with reading := none }
  | _, _ => none

/-- A message: a valid name is stored before it is acknowledged, another one is answered
with an error, and any other request ends the session. -/
def handle (s : Service) (id : UInt64) (msgt : UInt8) (seqid : UInt64) (payload : List UInt8) :
    Option Service :=
  match s.session id with
  | .online fd _ =>
    if s.reading ≠ some id then none
    else if msgt ≠ MessageType.setUsername.code then some { s with owed := [.closed id fd] }
    else match judge payload with
      | some code => some { s with owed := [.queued id 0 (.serverError seqid code)] }
      | none => some { s with owed := [.username id payload, .queued id 0 (.setUsernameResponse seqid)] }
  | _ => none

/-- The session also ends when the bytes received make no message. -/
def close (s : Service) (id : UInt64) (fd : ℤ) : Option Service :=
  match s.session id with
  | .online fd' _ => if s.reading = some id ∧ fd = fd' then some (s.apply (.closed id fd)) else none
  | _ => none

/-- One line of the log. -/
def step (s : Service) (e : Event) : Option Service :=
  match s.owed with
  | o :: owed => if e.seen = o then some { s.apply e with owed := owed } else none
  | [] =>
    match e with
    | .completed id type res _ => s.complete id type res
    | .handled id msgt seqid payload => s.handle id msgt seqid payload
    | .closed id fd => s.close id fd
    | _ => none

def run (s : Service) (l : List Event) : Option Service := l.foldlM step s

theorem run_append (s : Service) (l l' : List Event) :
    s.run (l ++ l') = (s.run l).bind fun s' => s'.run l' := List.foldlM_append ..

theorem run_cons (s : Service) (e : Event) (l : List Event) :
    s.run (e :: l) = (s.step e).bind fun s' => s'.run l := List.foldlM_cons ..

@[simp] theorem run_nil (s : Service) : s.run [] = some s := rfl

/-- Messages of the client `id` may be handled. -/
structure Reads (s : Service) (id : UInt64) (fd : ℤ) (name : Option (List UInt8)) : Prop where
  owed : s.owed = []
  session : s.session id = .online fd name
  reading : s.reading = some id

theorem Reads.events {s : Service} {id : UInt64} {fd : ℤ} {name : Option (List UInt8)}
    (h : s.Reads id fd name) {m : Message} (hm : m.msgt = MessageType.setUsername.code) (op : ℕ) :
    ∃ s', s.run (m.events id op) = some s' ∧ s'.next = s.next ∧
      s'.Reads id fd (if judge m.payload = none then some m.payload else name) ∧
      ∀ c, c ≠ id → s'.session c = s.session c := by
  unfold Message.events
  cases hj : judge m.payload with
  | some code =>
    simp only [reduceCtorEq, if_false, List.nil_append]
    refine ⟨{ s with owed := [] }, ?_, rfl, ⟨rfl, h.session, h.reading⟩, fun _ _ => rfl⟩
    simp [run_cons, step, h.owed, handle, h.session, h.reading, hm, hj, Event.seen, apply,
      Message.response]
  | none =>
    simp only [if_true, List.singleton_append]
    refine ⟨{ s.setSession id (.online fd (some m.payload)) with owed := [] }, ?_, rfl,
      ⟨rfl, Function.update_self .., h.reading⟩, fun c hc => Function.update_of_ne hc ..⟩
    simp [run_cons, step, h.owed, handle, h.session, h.reading, hm, hj, Event.seen, apply,
      Message.response, setSession]

theorem Reads.close {s : Service} {id : UInt64} {fd : ℤ} {name : Option (List UInt8)}
    (h : s.Reads id fd name) : s.run [.closed id fd] =
      some { s.setSession id .offline with reading := none } := by
  simp [run_cons, step, h.owed, Service.close, h.session, h.reading, apply]

theorem Reads.refuse {s : Service} {id : UInt64} {fd : ℤ} {name : Option (List UInt8)}
    (h : s.Reads id fd name) {msgt : UInt8} (hm : msgt ≠ MessageType.setUsername.code)
    (seqid : UInt64) (payload : List UInt8) :
    s.run [.handled id msgt seqid payload, .closed id fd] =
      some { s.setSession id .offline with reading := none } := by
  simp only [run_cons, step, h.owed, handle, h.session, h.reading, hm, ne_eq, not_true_eq_false,
    if_false, not_false_eq_true, if_true, Option.bind_some, Event.seen, apply, run_nil, setSession]

theorem run_drop {s : Service} {id : UInt64} {fd : ℤ} {name : Option (List UInt8)}
    (howed : s.owed = []) (hs : s.session id = .online fd name) {type : OpType} {res : ℤ}
    (ht : type ≠ .accept) (hres : res < 0 ∨ (type = .read ∧ res = 0)) (data : List UInt8) :
    s.run [.completed id type res data, .closed id fd] =
      some { s.setSession id .offline with reading := none } := by
  have hdrop : s.complete id type res = some { s with owed := [.closed id fd], reading := none } := by
    cases type with
    | accept => exact absurd rfl ht
    | read =>
      have hle : res ≤ 0 := by omega
      simp [complete, hs, hle]
    | write =>
      have hlt : res < 0 := by simpa using hres
      simp [complete, hs, hlt]
  simp only [run_cons, step, howed, hdrop, Option.bind_some, Event.seen, if_true, apply, run_nil,
    setSession]

theorem run_stale {s : Service} {id : UInt64} (howed : s.owed = []) (hs : s.session id = .offline)
    {type : OpType} (ht : type ≠ .accept) (res : ℤ) (data : List UInt8) :
    s.run [.completed id type res data] = some { s with reading := none } := by
  cases type with
  | accept => exact absurd rfl ht
  | read => simp [run_cons, step, howed, complete, hs]
  | write => simp [run_cons, step, howed, complete, hs]

theorem run_sent {s : Service} {id : UInt64} {fd : ℤ} {name : Option (List UInt8)}
    (howed : s.owed = []) (hs : s.session id = .online fd name) {res : ℤ} (hres : 0 ≤ res)
    (data : List UInt8) :
    s.run [.completed id .write res data] = some { s with reading := none } := by
  simp [run_cons, step, howed, complete, hs, not_lt.mpr hres]

theorem step_received {s : Service} {id : UInt64} {fd : ℤ} {name : Option (List UInt8)}
    (howed : s.owed = []) (hs : s.session id = .online fd name) {res : ℤ} (hres : 0 < res)
    (data : List UInt8) :
    s.step (.completed id .read res data) = some { s with reading := some id } := by
  simp [step, howed, complete, hs, not_le.mpr hres]

theorem run_accept {s : Service} {id : UInt64} (howed : s.owed = []) (hs : s.session id = .pending)
    {res : ℤ} (hres : 0 ≤ res) (data : List UInt8) :
    s.run [.completed id .accept res data, .entered s.next] = some ⟨s.next + 1,
      Function.update (Function.update s.session id (.online res none)) s.next .pending, [], none⟩ := by
  simp [run_cons, step, howed, complete, hs, not_lt.mpr hres, Event.seen, apply, setSession]

end Service

/-! ## Sessions and the map -/

/-- What the map has for the client `c` in each stage of its session. -/
def Session.Matches (x : Session) (v : View) (c : UInt64) : Prop :=
  match x with
  | .absent => history c v.trace = []
  | .pending => v.clients c ≠ none ∧ history c v.trace = [.entered c]
  | .online fd name => (∃ cl, v.clients c = some cl ∧ cl.fd = fd ∧ ∀ n ∈ name, cString cl.username = n) ∧
      1 < (history c v.trace).length
  | .offline => v.clients c = none ∧ history c v.trace ≠ []

structure Service.Of (s : Service) (v : View) : Prop where
  next : s.next = v.nextClientId
  owed : s.owed = []
  session : ∀ c, (s.session c).Matches v c

section
variable {w w' : World} {v v' : View} {s s' : Service} {c : UInt64} {x : Held} {i : ℕ} {cqe : Cqe}

theorem Session.Matches.agree {y : Session} (h : y.Matches v c) (hcl : v'.clients c = v.clients c)
    (hist : history c v'.trace = history c v.trace) : y.Matches v' c := by
  unfold Session.Matches at h ⊢
  rw [hcl, hist]
  exact h

/-- The operations of a client that is not in the map are left over from its session. -/
theorem Service.Of.offline (h : s.Of v) (hl : v.Life x.clientId) (hi : v.ops i = some x)
    (hc : v.clients x.clientId = none) : s.session x.clientId = .offline := by
  have hm := h.session x.clientId
  cases hs : s.session x.clientId with
  | absent =>
    rw [hs] at hm
    have hcount := enteredIds_history x.clientId v.trace
    rw [show history x.clientId v.trace = [] from hm] at hcount
    exact absurd rfl ((hl.fresh_of_count hcount.symm).2.1 i x hi)
  | pending =>
    rw [hs] at hm
    exact absurd hc hm.1
  | online fd name =>
    rw [hs] at hm
    obtain ⟨⟨cl, hcl, -⟩, -⟩ := hm
    cases hcl.symm.trans hc
  | offline => rfl

theorem Service.Of.pending (h : s.Of v) (hl : v.Life x.clientId) (hi : v.ops i = some x)
    (hc : v.clients x.clientId ≠ none) (ht : x.type = .accept) :
    s.session x.clientId = .pending := by
  have hist : history x.clientId v.trace = [.entered x.clientId] := by
    cases hl with
    | fresh hn => exact absurd hn hc
    | pending _ _ _ _ _ hist => exact hist
    | connected hconn => exact absurd ht (hconn.type_ne_accept hi rfl)
    | gone hn => exact absurd hn hc
  have hm := h.session x.clientId
  cases hs : s.session x.clientId with
  | absent =>
    rw [hs, Session.Matches, hist] at hm
    cases hm
  | pending => rfl
  | online fd name =>
    rw [hs, Session.Matches, hist] at hm
    exact absurd hm.2 (by simp)
  | offline =>
    rw [hs] at hm
    exact absurd hm.1 hc

theorem Service.Of.online (h : s.Of v) (hl : v.Life x.clientId) (hi : v.ops i = some x)
    {cl : Client} (hc : v.clients x.clientId = some cl) (ht : x.type ≠ .accept) :
    ∃ name, s.session x.clientId = .online x.clientFd name ∧ cl.fd = x.clientFd ∧
      (∀ n ∈ name, cString cl.username = n) ∧ 1 < (history x.clientId v.trace).length := by
  have hne : v.clients x.clientId ≠ none := by
    rw [hc]
    exact Option.some_ne_none cl
  obtain ⟨cl', j, y, hconn⟩ := hl.connected_of hi rfl hne ht
  obtain rfl := Option.some.inj (hc.symm.trans hconn.client)
  have hacc := hconn.accepted
  have hm := h.session x.clientId
  cases hs : s.session x.clientId with
  | absent =>
    rw [hs] at hm
    rw [show history x.clientId v.trace = [] from hm] at hacc
    cases hacc
  | pending =>
    rw [hs] at hm
    rw [hm.2] at hacc
    cases hacc
  | online fd name =>
    rw [hs] at hm
    obtain ⟨⟨cl', hcl', hfd, hname⟩, hlen⟩ := hm
    obtain rfl := Option.some.inj (hc.symm.trans hcl')
    have hxfd := hconn.fd i x hi rfl
    exact ⟨name, by rw [← hfd, hxfd], hxfd.symm, hname, hlen⟩
  | offline =>
    rw [hs] at hm
    exact absurd hm.1 hne

theorem valid_of_judge {payload : List UInt8} (h : judge payload = none) : usernameValid payload := by
  unfold judge at h
  by_cases hlen : payload.length < minUnameLen ∨ maxUnameLen < payload.length
  · simp [hlen] at h
  · simpa [hlen] using h

theorem View.Answers.service {id : UInt64} {fd : ℤ} {ms : List Message} (ha : v.Answers id fd ms v')
    (hset : ∀ m ∈ ms, m.msgt = MessageType.setUsername.code) {name : Option (List UInt8)}
    (hs : s.Reads id fd name) {cl : Client} (hc : v.clients id = some cl)
    (hname : ∀ n ∈ name, cString cl.username = n) :
    ∃ l s' name' cl', v'.trace = v.trace ++ l ∧ (∀ e ∈ l, e.clientId = id) ∧ s.run l = some s' ∧
      s'.next = s.next ∧ s'.Reads id fd name' ∧ (∀ c, c ≠ id → s'.session c = s.session c) ∧
      v'.clients id = some cl' ∧ cl'.fd = cl.fd ∧ ∀ n ∈ name', cString cl'.username = n := by
  induction ha generalizing s name cl with
  | nil v => exact ⟨[], s, name, cl, (List.append_nil _).symm, by simp, rfl, rfl, hs, fun _ _ => rfl,
      hc, rfl, hname⟩
  | @cons v v' sl m ms hsl _ ih =>
    obtain ⟨s₁, hrun, hnext, hreads, hother⟩ := hs.events (hset m List.mem_cons_self) sl.op
    have hstored : ∃ cl₁, (v.answer sl id fd m).clients id = some cl₁ ∧ cl₁.fd = cl.fd ∧
        ∀ n ∈ (if judge m.payload = none then some m.payload else name), cString cl₁.username = n := by
      rw [View.answer_clients]
      by_cases hj : judge m.payload = none
      · rw [if_pos hj, if_pos hj, Function.update_self, hc]
        refine ⟨_, rfl, rfl, ?_⟩
        rintro n ⟨⟩
        exact cString_store _ _ (valid_of_judge hj)
      · rw [if_neg hj, if_neg hj]
        exact ⟨cl, hc, rfl, hname⟩
    obtain ⟨cl₁, hcl₁, hfd₁, hname₁⟩ := hstored
    obtain ⟨l, s', name', cl', htr, hall, hrun', hnext', hreads', hother', hcl', hfd', hname'⟩ :=
      ih (fun m hm => hset m (List.mem_cons_of_mem _ hm)) hreads hcl₁ hname₁
    refine ⟨m.events id sl.op ++ l, s', name', cl', ?_, ?_, ?_, hnext'.trans hnext, hreads', ?_, hcl',
      hfd'.trans hfd₁, hname'⟩
    · rw [htr, View.answer_trace, List.append_assoc]
    · intro e he
      exact (List.mem_append.mp he).elim Message.events_clientId (hall e)
    · rw [Service.run_append, hrun]
      exact hrun'
    · exact fun c hne => (hother' c hne).trans (hother c hne)

/-! ## Completions -/

/-- A completion that touches the session of its own client only. -/
theorem Service.Of.own (h : s.Of v) (hi : v.ops i = some x)
    (hh : (v.log (x.completed cqe)).Handles i x cqe.res v') (hstay : v'.nextClientId = v.nextClientId)
    (hnext : s'.next = s.next) (howed : s'.owed = [])
    (hother : ∀ c, c ≠ x.clientId → s'.session c = s.session c)
    (hown : (s'.session x.clientId).Matches v' x.clientId) : s'.Of v' where
  next := by rw [hnext, h.next, hstay]
  owed := howed
  session c := by
    by_cases hc : c = x.clientId
    · subst hc
      exact hown
    · have hag := (v.agree_log (e := x.completed cqe) (Ne.symm hc)).trans
        (View.Handles.agree hh hi (Ne.symm hc) fun hne => absurd hstay hne)
      rw [hother c hc]
      exact (h.session c).agree hag.client hag.history

theorem history_completed (v : View) (x : Held) (cqe : Cqe) :
    history x.clientId (v.log (x.completed cqe)).trace =
      history x.clientId v.trace ++ [x.completed cqe] :=
  history_append_of_eq fun e he => by rw [List.mem_singleton.mp he]; rfl

theorem Service.Of.ends (h : s.Of v) (hi : v.ops i = some x)
    (hh : (v.log (x.completed cqe)).Handles i x cqe.res v') (hstay : v'.nextClientId = v.nextClientId)
    {s₁ : Service} (hs₁ : s₁.next = s.next) (howed : s₁.owed = [])
    (hother : ∀ c, c ≠ x.clientId → s₁.session c = s.session c)
    (hcl : v'.clients x.clientId = none) (hist : history x.clientId v'.trace ≠ []) :
    Service.Of { s₁.setSession x.clientId .offline with reading := none } v' := by
  refine h.own hi hh hstay hs₁ howed ?_ ?_
  · intro c hc
    exact (Function.update_of_ne hc ..).trans (hother c hc)
  · have hoff : (s₁.setSession x.clientId .offline).session x.clientId = .offline :=
      Function.update_self ..
    simp only [hoff]
    exact ⟨hcl, hist⟩

/-- What the end of the receive loop logs, and what it leaves in the map. -/
theorem View.finish_trace (v : View) (i : ℕ) (x : Held) (sc : Scan) (past : ℕ → UInt8) :
    ((sc.stop = .header ∨ sc.stop = .body) ∧ (v.finish i x sc past).trace = v.trace ∧
      (v.finish i x sc past).clients = v.clients) ∨
    (sc.stop = .tooLong ∧
      (v.finish i x sc past).trace = v.trace ++ [.closed x.clientId x.clientFd] ∧
      (v.finish i x sc past).clients = Function.update v.clients x.clientId none) ∨
    (sc.stop = .refused ∧ (v.finish i x sc past).trace = v.trace ++
        [.handled x.clientId (readMessage (x.buf.drop sc.off)).msgt
          (readMessage (x.buf.drop sc.off)).seqid (readMessage (x.buf.drop sc.off)).payload,
          .closed x.clientId x.clientFd] ∧
      (v.finish i x sc past).clients = Function.update v.clients x.clientId none) := by
  unfold View.finish
  cases hstop : sc.stop with
  | header => exact .inl ⟨.inl rfl, rfl, rfl⟩
  | body =>
    refine .inl ⟨.inr rfl, ?_⟩
    by_cases hoff : sc.off = 0
    · simp only [if_pos hoff]
      exact ⟨rfl, rfl⟩
    · simp only [if_neg hoff]
      exact ⟨rfl, rfl⟩
  | tooLong => exact .inr (.inl ⟨rfl, rfl, rfl⟩)
  | refused => exact .inr (.inr ⟨rfl, List.append_assoc .., rfl⟩)

theorem look_refused_type {buf : List UInt8} {off rest : ℕ} (h : look buf off rest = .error .refused) :
    (readMessage (buf.drop off)).msgt ≠ MessageType.setUsername.code := by
  unfold look at h
  simp only at h
  split_ifs at h with hrest hbig hpart hset
  · cases h
  · cases h
  · cases h
  · exact hset

/-- The bytes of a receive: the messages, and the end of the session where they are no
message or one that is refused. -/
theorem Service.Of.received (h : s.Of v) (hl : v.Life x.clientId) (hi : v.ops i = some x)
    (ht : x.type = .read) {cl : Client} (hc : v.clients x.clientId = some cl) (hres : 0 < cqe.res)
    {sc : Scan} {v₁ : View} {past : ℕ → UInt8} (hscan : scan x.buf 0 cqe.res.toNat = some sc)
    (ha : (v.log (x.completed cqe)).Answers x.clientId x.clientFd sc.messages v₁)
    (hh : (v.log (x.completed cqe)).Handles i x cqe.res (v₁.finish i x sc past)) :
    ∃ l s', (v₁.finish i x sc past).trace = v.trace ++ l ∧ s.run l = some s' ∧
      s'.Of (v₁.finish i x sc past) := by
  obtain ⟨name, hsess, hclfd, hname, hlen⟩ := h.online hl hi hc (by rw [ht]; decide)
  have hstep := Service.step_received h.owed hsess hres cqe.data
  have hreads : Service.Reads { s with reading := some x.clientId } x.clientId x.clientFd name :=
    ⟨h.owed, hsess, rfl⟩
  obtain ⟨l, s₁, name', cl', htr, hall, hrun, hnext, hreads₁, hother, hcl', hfd', hname'⟩ :=
    ha.service (scan_messages hscan) hreads hc hname
  have hrun₁ : s.run (x.completed cqe :: l) = some s₁ := by
    rw [Service.run_cons, Held.completed, ht, hstep]
    exact hrun
  have htr₁ : v₁.trace = v.trace ++ (x.completed cqe :: l) := by
    rw [htr, View.log, List.append_assoc, List.singleton_append]
  have hstay : (v₁.finish i x sc past).nextClientId = v.nextClientId :=
    (v₁.finishes i x sc past).trace.1.trans ha.trace.1
  have hist₁ : 1 < (history x.clientId v₁.trace).length := by
    rw [htr, history_append_of_eq hall, history_completed, List.length_append, List.length_append]
    omega
  have hdead : ∀ l', (∀ e ∈ l', e.clientId = x.clientId) →
      history x.clientId (v₁.trace ++ l') ≠ [] := by
    intro l' hl' hnil
    rw [history_append_of_eq hl', List.append_eq_nil_iff] at hnil
    rw [hnil.1] at hist₁
    cases hist₁
  have hfin := v₁.finish_trace i x sc past
  have hgone : ∀ l', (∀ e ∈ l', e.clientId = x.clientId) →
      (v₁.finish i x sc past).trace = v₁.trace ++ l' →
      (v₁.finish i x sc past).clients = Function.update v₁.clients x.clientId none →
      s₁.run l' = some { s₁.setSession x.clientId .offline with reading := none } →
      ∃ l s', (v₁.finish i x sc past).trace = v.trace ++ l ∧ s.run l = some s' ∧
        s'.Of (v₁.finish i x sc past) := by
    intro l' hl' htr' hcl hrun'
    refine ⟨x.completed cqe :: l ++ l', _, ?_, ?_, h.ends hi hh hstay hnext hreads₁.owed hother ?_ ?_⟩
    · rw [htr', htr₁, List.append_assoc]
    · rw [Service.run_append, hrun₁, Option.bind_some, hrun']
    · rw [hcl, Function.update_self]
    · rw [htr']
      exact hdead l' hl'
  rcases hfin with ⟨hstop, htr', hcl⟩ | ⟨hstop, htr', hcl⟩ | ⟨hstop, htr', hcl⟩
  · -- the receive is armed again
    refine ⟨x.completed cqe :: l, s₁, htr'.trans htr₁, hrun₁, h.own hi hh hstay hnext hreads₁.owed hother ?_⟩
    rw [hreads₁.session]
    refine ⟨⟨cl', ?_, hfd'.trans hclfd, hname'⟩, ?_⟩
    · rw [hcl]
      exact hcl'
    · rwa [htr']
  · exact hgone _ (by simp [Event.clientId]) htr' hcl hreads₁.close
  · have hm : (readMessage (x.buf.drop sc.off)).msgt ≠ MessageType.setUsername.code := by
      have hlook := scan_stops hscan
      rw [hstop] at hlook
      exact look_refused_type hlook
    exact hgone _ (by simp [Event.clientId]) htr' hcl (hreads₁.refuse hm _ _)

theorem Service.Of.goes_on (h : s.Of v) (hi : v.ops i = some x)
    (hh : (v.log (x.completed cqe)).Handles i x cqe.res v') (hstay : v'.nextClientId = v.nextClientId)
    (hcl : v'.clients = v.clients) (htr : v'.trace = (v.log (x.completed cqe)).trace)
    (hsess : s.session x.clientId ≠ .absent ∧ s.session x.clientId ≠ .pending) :
    Service.Of { s with reading := none } v' := by
  have hist : history x.clientId v'.trace = history x.clientId v.trace ++ [x.completed cqe] := by
    rw [htr, history_completed]
  refine h.own hi hh hstay rfl h.owed (fun _ _ => rfl) ?_
  have hm := h.session x.clientId
  change (s.session x.clientId).Matches v' x.clientId
  cases hs : s.session x.clientId with
  | absent => exact absurd hs hsess.1
  | pending => exact absurd hs hsess.2
  | online fd name =>
    rw [hs] at hm
    refine ⟨?_, ?_⟩
    · rw [hcl]
      exact hm.1
    · rw [hist, List.length_append]
      exact Nat.lt_add_right _ hm.2
  | offline =>
    rw [hs] at hm
    refine ⟨?_, ?_⟩
    · rw [hcl]
      exact hm.1
    · rw [hist]
      exact List.append_ne_nil_of_right_ne_nil _ (List.cons_ne_nil _ _)

theorem Service.Of.accepted (h : s.Of v) (hl : v.Life x.clientId) (hcen : v.Census)
    (hi : v.ops i = some x) (ht : x.type = .accept) {cl cl' : Client}
    (hc : v.clients x.clientId = some cl) (hres : 0 ≤ cqe.res) {j bref : ℕ} {buf : List UInt8}
    (hn : ((v.log (x.completed cqe)).connect i x cl cqe.res).clients v.nextClientId = none)
    (hu : View.Unwrapped (((v.log (x.completed cqe)).connect i x cl cqe.res).acceptNext j bref buf cl'))
    (hh : (v.log (x.completed cqe)).Handles i x cqe.res
      (((v.log (x.completed cqe)).connect i x cl cqe.res).acceptNext j bref buf cl')) :
    ∃ l s', (((v.log (x.completed cqe)).connect i x cl cqe.res).acceptNext j bref buf cl').trace =
        v.trace ++ l ∧ s.run l = some s' ∧
      s'.Of (((v.log (x.completed cqe)).connect i x cl cqe.res).acceptNext j bref buf cl') := by
  have hsess := h.pending hl hi (by rw [hc]; exact Option.some_ne_none cl) ht
  have hpend := h.session x.clientId
  rw [hsess] at hpend
  have htr : (((v.log (x.completed cqe)).connect i x cl cqe.res).acceptNext j bref buf cl').trace =
      v.trace ++ [x.completed cqe, .entered v.nextClientId] := List.append_assoc ..
  have hnx : x.clientId ≠ v.nextClientId := by
    intro heq
    rw [View.connect_clients, ← heq, Function.update_self] at hn
    cases hn
  have hrun := Service.run_accept h.owed hsess hres cqe.data
  rw [h.next] at hrun
  have hrun' : s.run [x.completed cqe, .entered v.nextClientId] = some ⟨v.nextClientId + 1,
      Function.update (Function.update s.session x.clientId (.online cqe.res none)) v.nextClientId
        .pending, [], none⟩ := by
    rw [Held.completed, ht]
    exact hrun
  have hhist : ∀ c, history c (((v.log (x.completed cqe)).connect i x cl cqe.res).acceptNext j bref buf
      cl').trace = history c v.trace ++ history c [x.completed cqe, .entered v.nextClientId] := by
    intro c
    rw [htr, history, history, history, List.filter_append]
  have hnew : v.nextClientId + 1 ≠ v.nextClientId := by simp
  refine ⟨_, _, htr, hrun', rfl, rfl, fun c => ?_⟩
  simp only
  by_cases hcn : c = v.nextClientId
  · -- the client just entered
    subst hcn
    obtain ⟨-, -, hfresh⟩ := hcen.fresh_next hh hu hnew
    rw [Function.update_self]
    refine ⟨?_, ?_⟩
    · rw [View.acceptNext_clients, View.connect_nextClientId]
      rw [show (v.log (x.completed cqe)).nextClientId = v.nextClientId from rfl, Function.update_self]
      exact Option.some_ne_none cl'
    · rw [hhist, hfresh]
      simp [history, Event.clientId, Held.completed, hnx]
  · rw [Function.update_of_ne hcn]
    by_cases hcx : c = x.clientId
    · -- the client that is connected
      subst hcx
      rw [Function.update_self]
      refine ⟨⟨{ cl with fd := cqe.res }, ?_, rfl, by simp⟩, ?_⟩
      · rw [View.acceptNext_clients, View.connect_nextClientId, View.connect_clients]
        exact (Function.update_of_ne hcn ..).trans (Function.update_self ..)
      · rw [hhist, hpend.2]
        simp [history, Event.clientId, Held.completed]
    · rw [Function.update_of_ne hcx]
      have hag := (v.agree_log (e := x.completed cqe) (Ne.symm hcx)).trans
        (View.Handles.agree hh hi (Ne.symm hcx) fun _ => Ne.symm hcn)
      exact (h.session c).agree hag.client hag.history

theorem Service.Of.handles (h : s.Of v) (hs : w.Serving v) (hu : v.Unwrapped) (hw : w.Owned v)
    (hi : v.ops i = some x) (hu' : v'.Unwrapped)
    (hh : (v.log (x.completed cqe)).Handles i x cqe.res v') :
    ∃ l s', v'.trace = v.trace ++ l ∧ s.run l = some s' ∧ s'.Of v' := by
  have hl := hs.census.unwrapped_life hu x.clientId
  have hin : x.type = .accept → v.clients x.clientId ≠ none := by
    intro ht
    obtain ⟨a, y, hy, hyt, hyc, -⟩ := hs.accepting hu
    obtain rfl := hs.oneAccept a i y x hy hi hyt ht
    obtain rfl := Option.some.inj (hi.symm.trans hy)
    exact hyc
  have hh' := hh
  cases hh with
  | stale hc =>
    have ht : x.type ≠ .accept := fun ht => hin ht hc
    have hsess := h.offline hl hi hc
    exact ⟨[x.completed cqe], _, rfl, Service.run_stale h.owed hsess ht _ _,
      h.goes_on hi hh' rfl rfl rfl (by simp [hsess])⟩
  | @dropped cl hc hres hfd =>
    have ht : x.type ≠ .accept := fun ht => hfd (hs.census.accept hw hi ht)
    obtain ⟨name, hsess, -⟩ := h.online hl hi hc ht
    refine ⟨[x.completed cqe, .closed x.clientId x.clientFd], _, List.append_assoc ..,
      Service.run_drop h.owed hsess ht hres _, h.ends hi hh' rfl rfl h.owed (fun _ _ => rfl) ?_ ?_⟩
    · exact Function.update_self ..
    · have hall : ∀ e ∈ [Event.closed x.clientId x.clientFd], e.clientId = x.clientId := by
        simp [Event.clientId]
      intro hnil
      have htr := (history_append_of_eq (l := (v.log (x.completed cqe)).trace) hall).symm.trans hnil
      exact List.append_ne_nil_of_right_ne_nil _ (List.cons_ne_nil _ _) htr
  | accepted hc hres ht hj hn hbuf => exact h.accepted hl hs.census hi ht hc hres hn hu' hh'
  | received hc hres ht hscan hans hfd => exact h.received hl hi ht hc hres hscan hans hh'
  | resumed hc hres ht hlt =>
    obtain ⟨name, hsess, -⟩ := h.online hl hi hc (by rw [ht]; decide)
    refine ⟨[x.completed cqe], _, rfl, ?_, h.goes_on hi hh' rfl rfl rfl (by simp [hsess])⟩
    rw [Held.completed, ht]
    exact Service.run_sent h.owed hsess hres _
  | sent hc hres ht hge =>
    obtain ⟨name, hsess, -⟩ := h.online hl hi hc (by rw [ht]; decide)
    refine ⟨[x.completed cqe], _, rfl, ?_, h.goes_on hi hh' rfl rfl rfl (by simp [hsess])⟩
    rw [Held.completed, ht]
    exact Service.run_sent h.owed hsess hres _

/-! ## Runs -/

theorem Service.Of.congr (h : s.Of v) (hnext : v'.nextClientId = v.nextClientId)
    (hcl : v'.clients = v.clients) (htr : v'.trace = v.trace) : s.Of v' where
  next := h.next.trans hnext.symm
  owed := h.owed
  session c := (h.session c).agree (by rw [hcl]) (by rw [htr])

theorem Service.Of.moves {a : Action} (hrun : Service.initial.run v.trace = some s) (h : s.Of v)
    (hs : w.Serving v) (hw : w.Owned v) (hu' : v'.Unwrapped) (hm : w.Moves v a w' v') :
    ∃ s', Service.initial.run v'.trace = some s' ∧ s'.Of v' := by
  cases hm with
  | execute =>
    refine ⟨s, ?_, h.congr (View.perform_nextClientId ..) (View.perform_clients ..)
      (View.perform_trace ..)⟩
    rwa [View.perform_trace]
  | post => exact ⟨s, hrun, h⟩
  | submit => exact ⟨s, hrun, h.congr rfl rfl rfl⟩
  | turn => exact ⟨s, hrun, h⟩
  | @handle junk pc cqe cq srv x v' hpc hcq hsrv hx hh =>
    obtain ⟨l, s', htr, hrun', hof⟩ := h.handles hs (hh.unwrapped hu') hw hx hu' hh
    refine ⟨s', ?_, hof⟩
    rw [htr, Service.run_append, hrun]
    exact hrun'

theorem Service.Of.start (serverFd : ℤ) (j bref : ℕ) (buf : List UInt8) (cl : Client) :
    ∃ s, Service.initial.run ((View.initial serverFd).acceptNext j bref buf cl).trace = some s ∧
      s.Of ((View.initial serverFd).acceptNext j bref buf cl) := by
  have htr : ((View.initial serverFd).acceptNext j bref buf cl).trace = [.entered 1] := rfl
  refine ⟨⟨2, Function.update (fun _ => .absent) 1 .pending, [], none⟩, ?_, rfl, rfl, fun c => ?_⟩
  · rw [htr]
    rfl
  · simp only
    by_cases hc : c = 1
    · subst hc
      rw [Function.update_self]
      refine ⟨?_, by rw [htr]; rfl⟩
      have hone : ((View.initial serverFd).acceptNext j bref buf cl).clients 1 = some cl := by
        rw [View.acceptNext_clients]
        exact Function.update_self ..
      rw [hone]
      exact Option.some_ne_none cl
    · rw [Function.update_of_ne hc]
      change history c _ = []
      rw [htr, history, List.filter_eq_nil_iff]
      intro e he
      rw [List.mem_singleton.mp he, decide_eq_true_iff]
      exact Ne.symm hc

end

theorem Run.service {ok : World → Action → Prop} {w : World} (hr : Run ok w) :
    ∃ v, w.Owned v ∧ w.Serving v ∧
      (v.Unwrapped → ∃ s, Service.initial.run v.trace = some s ∧ s.Of v) := by
  refine Run.induct (P := fun w v => w.Serving v ∧
    (v.Unwrapped → ∃ s, Service.initial.run v.trace = some s ∧ s.Of v)) ?_ ?_ hr
  · intro srv serverFd j bref buf cl hfd _ _
    exact ⟨World.Serving.start srv serverFd hfd j bref buf cl,
      fun _ => Service.Of.start serverFd j bref buf cl⟩
  · intro w v a w' v' hw h _ hm _
    refine ⟨h.1.moves hw hm, fun hu' => ?_⟩
    obtain ⟨l, hl⟩ := hm.trace
    have hu : v.Unwrapped := by
      rw [View.Unwrapped, hl, enteredIds_append, List.nodup_append] at hu'
      exact hu'.1
    obtain ⟨s, hrun, hof⟩ := h.2 hu
    exact hof.moves hrun h.1 hw hu' hm

/-- What the server has for the client `c` in each stage of its session. -/
def Session.HeldBy (x : Session) (w : World) (c : UInt64) : Prop :=
  match x with
  | .absent => w.srv.info c = none ∧ c ∉ enteredIds w.srv.trace
  | .pending => w.srv.info c ≠ none ∧ ∃ i o, w.op i = some o ∧ o.type = .accept ∧ o.clientId = c
  | .online fd name => (∃ n, w.srv.info c = some n ∧ n.clientFd = fd ∧
        ∀ bytes ∈ name, cString n.username = bytes) ∧
      (∃ k, w.srv.fds fd = some (.conn k)) ∧
      ∃ i o, w.op i = some o ∧ o.type = .read ∧ o.clientId = c ∧ o.clientFd = fd
  | .offline => w.srv.info c = none ∧ c ∈ enteredIds w.srv.trace

/-- The log of every run is accepted by the service. Nothing is owed between two
completions, the next client id is the one of the service, and each session is the one
the server has: a node in the map with the descriptor and the name, and the operation
that waits for the client. -/
theorem server_refines_service (w : World) (hr : Reachable w) (hacc : w.srv.accepts < 2 ^ 64 - 1) :
    ∃ s, Service.initial.run w.srv.trace = some s ∧ s.next = w.srv.nextClientId ∧ s.owed = [] ∧
      ∀ c, (s.session c).HeldBy w c := by
  obtain ⟨v, hw, hs, hserv⟩ := hr.service
  have hu := hs.unwrapped hw hacc
  obtain ⟨s, hrun, h⟩ := hserv hu
  rw [← hw.models.trace, ← hw.models.nextClientId]
  refine ⟨s, hrun, h.next, h.owed, fun c => ?_⟩
  have hl := hs.census.unwrapped_life hu c
  have hm := h.session c
  have hcount := enteredIds_history c v.trace
  unfold Session.HeldBy
  unfold Session.Matches at hm
  cases hsess : s.session c with
  | absent =>
    rw [hsess] at hm
    rw [show history c v.trace = [] from hm] at hcount
    refine ⟨hw.models.info_eq_none.mpr (hl.fresh_of_count hcount.symm).1, ?_⟩
    rw [← hw.models.trace]
    exact List.count_eq_zero.mp hcount.symm
  | pending =>
    rw [hsess] at hm
    obtain ⟨hc, hist⟩ := hm
    rw [Ne, hw.models.info_eq_none]
    refine ⟨hc, ?_⟩
    cases hl with
    | fresh hn => exact absurd hn hc
    | @pending cl i x _ hi hx ht => exact ⟨i, _, hw.op_eq_some.mpr ⟨x, hi, rfl⟩, ht, hx⟩
    | connected hconn =>
      have hacc := hconn.accepted
      rw [hist] at hacc
      cases hacc
    | gone hn => exact absurd hn hc
  | online fd name =>
    rw [hsess] at hm
    obtain ⟨⟨cl, hcl, rfl, hname⟩, hlen⟩ := hm
    have hc : v.clients c ≠ none := by
      rw [hcl]
      exact Option.some_ne_none cl
    have hinfo := hw.models.info c
    rw [hcl, Option.map_some] at hinfo
    refine ⟨⟨_, hinfo, rfl, hname⟩, ?_⟩
    cases hl with
    | fresh hn => exact absurd hn hc
    | pending _ _ _ _ _ hist =>
      rw [hist] at hlen
      exact absurd hlen (by simp)
    | @connected cl' i x hconn =>
      obtain rfl := Option.some.inj (hcl.symm.trans hconn.client)
      have hfd := hconn.fd i x hconn.op hconn.clientId
      obtain ⟨-, k, -, -, hk⟩ := hs.open_fd hu hconn.op (by rw [hconn.type]; decide)
        (by rw [hconn.clientId]; exact hc)
      rw [hfd, hw.models.fds] at hk
      exact ⟨⟨k, hk⟩, i, _, hw.op_eq_some.mpr ⟨x, hconn.op, rfl⟩, hconn.type, hconn.clientId, hfd⟩
    | gone hn => exact absurd hn hc
  | offline =>
    rw [hsess] at hm
    refine ⟨hw.models.info_eq_none.mpr hm.1, ?_⟩
    rw [← hw.models.trace, ← List.count_pos_iff, ← hcount, List.length_pos_iff]
    intro hnil
    cases hl with
    | fresh _ _ hist => exact hm.2 hist
    | pending hc => cases hc.symm.trans hm.1
    | connected hconn => cases hconn.client.symm.trans hm.1
    | gone _ _ _ _ hent => cases hent.symm.trans hnil

/-- A client is connected and has set its name. -/
theorem server_refines_service_named : ∃ w s, Reachable w ∧
    Service.initial.run w.srv.trace = some s ∧ s.next = 3 ∧
    s.session 1 = .online 5 (some [97, 98, 99]) ∧ (s.session 1).HeldBy w 1 := by
  have hrun : (World.runMain 3 .zero ([.serve .zero] ++ Action.complete 0 5 [] ++
      Action.complete 0 14 [0, 14, 1, 0, 0, 0, 0, 0, 0, 0, 7, 97, 98, 99])).map
      (fun w => (w.srv.accepts, (Service.initial.run w.srv.trace).map fun s => (s.next, s.session 1))) =
        some (1, some (3, .online 5 (some [97, 98, 99]))) := by
    decide +kernel
  obtain ⟨w, hw, hres⟩ := Option.map_eq_some_iff.mp hrun
  obtain ⟨hacc, hserv⟩ := Prod.mk.inj hres
  obtain ⟨s, hs, hsess⟩ := Option.map_eq_some_iff.mp hserv
  obtain ⟨hnext, hone⟩ := Prod.mk.inj hsess
  have hr := World.runMain_reachable (by decide) hw
  obtain ⟨s', hs', -, -, hheld⟩ := server_refines_service w hr (by omega)
  obtain rfl := Option.some.inj (hs.symm.trans hs')
  exact ⟨w, s, hr, hs, hnext, hone, hheld 1⟩

end Caht
