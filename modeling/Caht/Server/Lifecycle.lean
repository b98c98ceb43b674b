import Caht.Server.Ownership

/-! # The life of a connection

A client id is entered in the map by `add_accept`, connected when its accept
completes, and removed once, when its descriptor is closed. `View.Life` says which
operations and which lines of the log go with each of these stages.
-/

namespace Caht
open Library Protocol

def Event.clientId : Event → UInt64
  | .entered id => id
  | .completed id _ _ _ => id
  | .handled id _ _ _ => id
  | .username id _ => id
  | .queued id _ _ => id
  | .closed id _ => id

/-- What happened to one client, in order. -/
def history (c : UInt64) (trace : List Event) : List Event :=
  trace.filter fun e => e.clientId = c

/-- The descriptors `accept` returned for a client. -/
def acceptedFds (events : List Event) : List ℤ :=
  events.filterMap fun
    | .completed _ .accept res _ => if 0 ≤ res then some res else none
    | _ => none

/-- The descriptors closed for a client. -/
def closedFds (events : List Event) : List ℤ :=
  events.filterMap fun
    | .closed _ fd => some fd
    | _ => none

def enteredIds (events : List Event) : List UInt64 :=
  events.filterMap fun
    | .entered id => some id
    | _ => none

section
variable {c : UInt64} {l l' : List Event}

theorem history_append_of_ne (h : ∀ e ∈ l', e.clientId ≠ c) : history c (l ++ l') = history c l := by
  have hnil : l'.filter (fun e => e.clientId = c) = [] := by
    rw [List.filter_eq_nil_iff]
    intro e he
    simpa using h e he
  rw [history, List.filter_append, hnil, List.append_nil, history]

theorem history_append_of_eq (h : ∀ e ∈ l', e.clientId = c) :
    history c (l ++ l') = history c l ++ l' := by
  have hself : l'.filter (fun e => e.clientId = c) = l' := by
    rw [List.filter_eq_self]
    intro e he
    simpa using h e he
  rw [history, List.filter_append, hself, history]

theorem acceptedFds_append : acceptedFds (l ++ l') = acceptedFds l ++ acceptedFds l' :=
  List.filterMap_append ..

theorem closedFds_append : closedFds (l ++ l') = closedFds l ++ closedFds l' :=
  List.filterMap_append ..

theorem enteredIds_append : enteredIds (l ++ l') = enteredIds l ++ enteredIds l' :=
  List.filterMap_append ..

theorem Message.events_clientId {m : Message} {id : UInt64} {op : ℕ} {e : Event}
    (he : e ∈ m.events id op) : e.clientId = id := by
  unfold Message.events at he
  split at he <;> simp at he <;> rcases he with rfl | rfl | rfl <;> rfl

end

/-- The two views have the same entry, operations and history for the client `c`. -/
structure View.AgreeOn (v v' : View) (c : UInt64) : Prop where
  client : v'.clients c = v.clients c
  ops : ∀ j y, y.clientId = c → (v'.ops j = some y ↔ v.ops j = some y)
  history : history c v'.trace = history c v.trace

/-- A connected client: its receive operation is `x`, in entry `i`, all its other
operations are sends, and all are for the descriptor its accept returned. -/
structure View.Connected (v : View) (c : UInt64) (cl : Client) (i : ℕ) (x : Held) : Prop where
  client : v.clients c = some cl
  op : v.ops i = some x
  clientId : x.clientId = c
  type : x.type = .read
  other : ∀ j y, v.ops j = some y → y.clientId = c → j ≠ i → y.type = .write
  fd : ∀ j y, v.ops j = some y → y.clientId = c → y.clientFd = cl.fd
  accepted : acceptedFds (history c v.trace) = [cl.fd]
  closed : closedFds (history c v.trace) = []
  entered : enteredIds (history c v.trace) = [c]

/-- Where a client stands. -/
inductive View.Life (v : View) (c : UInt64) : Prop
  | fresh (hc : v.clients c = none) (hops : ∀ j y, v.ops j = some y → y.clientId ≠ c)
      (hist : history c v.trace = [])
  | pending {cl : Client} {i : ℕ} {x : Held} (hc : v.clients c = some cl) (hi : v.ops i = some x)
      (hx : x.clientId = c) (ht : x.type = .accept)
      (honly : ∀ j y, v.ops j = some y → y.clientId = c → j = i)
      (hist : history c v.trace = [.entered c])
  | connected {cl : Client} {i : ℕ} {x : Held} (h : v.Connected c cl i x)
  | gone {fd : ℤ} (hc : v.clients c = none)
      (hops : ∀ j y, v.ops j = some y → y.clientId = c → y.type ≠ .accept)
      (hacc : acceptedFds (history c v.trace) = [fd]) (hcl : closedFds (history c v.trace) = [fd])
      (hent : enteredIds (history c v.trace) = [c])

theorem View.AgreeOn.connected {v v' : View} {c : UInt64} (ha : v.AgreeOn v' c) {cl : Client} {i : ℕ}
    {x : Held} (h : v.Connected c cl i x) : v'.Connected c cl i x where
  client := ha.client.trans h.client
  op := (ha.ops _ _ h.clientId).mpr h.op
  clientId := h.clientId
  type := h.type
  other := fun j y hy he => h.other j y ((ha.ops j y he).mp hy) he
  fd := fun j y hy he => h.fd j y ((ha.ops j y he).mp hy) he
  accepted := by rw [ha.history, h.accepted]
  closed := by rw [ha.history, h.closed]
  entered := by rw [ha.history, h.entered]

theorem View.AgreeOn.life {v v' : View} {c : UInt64} (ha : v.AgreeOn v' c) (h : v.Life c) :
    v'.Life c := by
  cases h with
  | fresh hc hops hist =>
    refine .fresh (ha.client.trans hc) ?_ (ha.history.trans hist)
    exact fun j y hy he => hops j y ((ha.ops j y he).mp hy) he
  | pending hc hi hx ht honly hist =>
    refine .pending (ha.client.trans hc) ((ha.ops _ _ hx).mpr hi) hx ht ?_ (ha.history.trans hist)
    exact fun j y hy he => honly j y ((ha.ops j y he).mp hy) he
  | connected h => exact .connected (ha.connected h)
  | gone hc hops hacc hcl hent =>
    refine .gone (ha.client.trans hc) ?_ (by rw [ha.history, hacc]) (by rw [ha.history, hcl])
      (by rw [ha.history, hent])
    exact fun j y hy he => hops j y ((ha.ops j y he).mp hy) he

theorem View.Life.congr {v : View} {c : UInt64} (h : v.Life c) (v' : View)
    (hclients : v'.clients = v.clients) (hops : v'.ops = v.ops) (htr : v'.trace = v.trace) :
    v'.Life c := by
  refine View.AgreeOn.life (v := v) ⟨by rw [hclients], fun j y _ => by rw [hops], by rw [htr]⟩ h

theorem View.AgreeOn.refl (v : View) (c : UInt64) : v.AgreeOn v c := ⟨rfl, fun _ _ _ => Iff.rfl, rfl⟩

theorem View.AgreeOn.trans {v v' v'' : View} {c : UInt64} (h : v.AgreeOn v' c)
    (h' : v'.AgreeOn v'' c) : v.AgreeOn v'' c :=
  ⟨h'.client.trans h.client, fun j y hy => (h'.ops j y hy).trans (h.ops j y hy),
    h'.history.trans h.history⟩

/-! ## Steps of other clients -/

section
variable {v v' : View} {c : UInt64} {i : ℕ} {x : Held}

/-- Replacing an operation of another client, or none, by one of another client. -/
theorem update_agree {ops : ℕ → Option Held} (hi : ∀ y, ops i = some y → y.clientId ≠ c)
    {o : Option Held} (ho : ∀ y, o = some y → y.clientId ≠ c) (j : ℕ) (y : Held)
    (hy : y.clientId = c) : Function.update ops i o j = some y ↔ ops j = some y := by
  rw [update_eq_some_iff]
  constructor
  · rintro (⟨-, he⟩ | ⟨-, he⟩)
    · exact absurd hy (ho y he)
    · exact he
  · intro he
    exact .inr ⟨fun hj => hi y (hj ▸ he) hy, he⟩

theorem View.agree_log (v : View) {e : Event} (he : e.clientId ≠ c) : v.AgreeOn (v.log e) c := by
  refine ⟨rfl, fun _ _ _ => Iff.rfl, history_append_of_ne ?_⟩
  simpa using he

theorem View.Answers.agree {id : UInt64} {fd : ℤ} {ms : List Message} (ha : v.Answers id fd ms v')
    (hid : id ≠ c) : v.AgreeOn v' c := by
  induction ha with
  | nil v => exact .refl v c
  | @cons v v' s m ms hs _ ih =>
    refine View.AgreeOn.trans ⟨?_, ?_, ?_⟩ ih
    · rw [View.answer_clients]
      split
      · rw [Function.update_of_ne hid.symm]
      · rfl
    · rw [View.answer_ops]
      refine update_agree (by simp [hs]) ?_
      rintro y ⟨⟩
      exact hid
    · rw [View.answer_trace]
      exact history_append_of_ne fun e he => Message.events_clientId he ▸ hid

theorem View.agree_gone {id : UInt64} {fd : ℤ} (hi : v.ops i = some x) (hx : x.clientId ≠ c)
    (hid : id ≠ c) : v.AgreeOn ((v.disconnect id fd).setOp i none) c := by
  refine ⟨?_, ?_, ?_⟩
  · exact Function.update_of_ne hid.symm _ _
  · refine update_agree ?_ (by simp)
    intro y hy
    obtain rfl := Option.some.inj (hi.symm.trans hy)
    exact hx
  · refine history_append_of_ne ?_
    simpa [Event.clientId] using hid

theorem View.Finishes.agree {s : Scan} (hf : v.Finishes i x s v') (hi : v.ops i = some x)
    (hx : x.clientId ≠ c) : v.AgreeOn v' c := by
  cases hf with
  | kept => exact ⟨rfl, fun _ _ _ => Iff.rfl, rfl⟩
  | moved =>
    refine ⟨rfl, update_agree ?_ ?_, rfl⟩
    · intro y hy
      obtain rfl := Option.some.inj (hi.symm.trans hy)
      exact hx
    · rintro y ⟨⟩
      exact hx
  | tooLong => exact View.agree_gone hi hx hx
  | refused =>
    exact (v.agree_log (e := .handled _ _ _ _) hx).trans (View.agree_gone hi hx hx)

/-- Handling a completion of another client, other than one that enters `c`. -/
theorem View.Handles.agree {res : ℤ} (hh : v.Handles i x res v') (hi : v.ops i = some x)
    (hx : x.clientId ≠ c) (hn : v'.nextClientId ≠ v.nextClientId → v.nextClientId ≠ c) :
    v.AgreeOn v' c := by
  have hkeep : ∀ y, v.ops i = some y → y.clientId ≠ c := by
    intro y hy
    obtain rfl := Option.some.inj (hi.symm.trans hy)
    exact hx
  cases hh with
  | stale => exact ⟨rfl, update_agree hkeep (by simp), rfl⟩
  | dropped => exact View.agree_gone hi hx hx
  | @accepted cl cl' j bref buf hc hres ht hj hn' hbuf =>
    have hn := hn (by simp)
    have hconn : v.AgreeOn (v.connect i x cl res) c := by
      refine ⟨Function.update_of_ne hx.symm _ _, update_agree hkeep ?_, rfl⟩
      rintro y ⟨⟩
      exact hx
    refine hconn.trans ⟨Function.update_of_ne hn.symm _ _, update_agree (by simp [hj]) ?_, ?_⟩
    · rintro y ⟨⟩
      exact hn
    · refine history_append_of_ne fun e he => ?_
      obtain rfl := List.mem_singleton.mp he
      exact hn
  | @received cl s v₁ past hc hres ht hscan hans hfd =>
    exact (hans.agree hx).trans ((v₁.finishes i x s past).agree (hans.op hi) hx)
  | resumed =>
    refine ⟨rfl, update_agree hkeep ?_, rfl⟩
    rintro y ⟨⟩
    exact hx
  | sent => exact ⟨rfl, update_agree hkeep (by simp), rfl⟩

end

/-! ## Steps of the client itself -/

section
variable {v v' : View} {c : UInt64} {cl : Client} {i : ℕ} {x y : Held}

/-- Lines that neither accept, close nor enter a client. -/
def Event.Routine : Event → Prop
  | .completed _ type _ _ => type ≠ .accept
  | .handled _ _ _ _ | .username _ _ | .queued _ _ _ => True
  | .entered _ | .closed _ _ => False

theorem routine_append (l : List Event) {l' : List Event} (h : ∀ e ∈ l', e.Routine) :
    acceptedFds (l ++ l') = acceptedFds l ∧ closedFds (l ++ l') = closedFds l ∧
      enteredIds (l ++ l') = enteredIds l := by
  have hnone : acceptedFds l' = [] ∧ closedFds l' = [] ∧ enteredIds l' = [] := by
    refine ⟨List.filterMap_eq_nil_iff.mpr ?_, List.filterMap_eq_nil_iff.mpr ?_,
      List.filterMap_eq_nil_iff.mpr ?_⟩ <;> intro e he <;> have hr := h e he
    · cases e with
      | completed id type res data => cases type <;> simp [Event.Routine] at hr ⊢
      | _ => rfl
    · cases e <;> simp [Event.Routine] at hr ⊢
    · cases e <;> simp [Event.Routine] at hr ⊢
  rw [acceptedFds_append, closedFds_append, enteredIds_append, hnone.1, hnone.2.1, hnone.2.2,
    List.append_nil, List.append_nil, List.append_nil]
  exact ⟨rfl, rfl, rfl⟩

theorem Message.events_routine {m : Message} {id : UInt64} {op : ℕ} {e : Event}
    (he : e ∈ m.events id op) : e.Routine := by
  unfold Message.events at he
  split at he <;> simp at he <;> rcases he with rfl | rfl | rfl <;> trivial

theorem View.Connected.grow (h : v.Connected c cl i x) {l : List Event} (hc : ∀ e ∈ l, e.clientId = c)
    (hr : ∀ e ∈ l, e.Routine) (v' : View) (hclients : v'.clients = v.clients) (hops : v'.ops = v.ops)
    (htr : v'.trace = v.trace ++ l) : v'.Connected c cl i x := by
  obtain ⟨ha, hcl, he⟩ := routine_append (history c v.trace) hr
  rw [← history_append_of_eq hc, ← htr] at ha hcl he
  exact ⟨hclients ▸ h.client, hops ▸ h.op, h.clientId, h.type, hops ▸ h.other, hops ▸ h.fd,
    ha.trans h.accepted, hcl.trans h.closed, he.trans h.entered⟩

theorem View.Connected.setSend (h : v.Connected c cl i x) {j : ℕ} (hj : j ≠ i)
    (ht : y.type = .write) (hfd : y.clientFd = cl.fd) :
    (v.setOp j (some y)).Connected c cl i x where
  __ := h
  op := (Function.update_of_ne hj.symm _ _).trans h.op
  other := by
    intro k z hz hc hk
    rcases update_eq_some_iff.mp hz with ⟨-, ⟨⟩⟩ | ⟨-, hz⟩
    · exact ht
    · exact h.other k z hz hc hk
  fd := by
    intro k z hz hc
    rcases update_eq_some_iff.mp hz with ⟨-, ⟨⟩⟩ | ⟨-, hz⟩
    · exact hfd
    · exact h.fd k z hz hc

theorem View.Connected.freeSend (h : v.Connected c cl i x) {j : ℕ} (hj : j ≠ i) :
    (v.setOp j none).Connected c cl i x where
  __ := h
  op := (Function.update_of_ne hj.symm _ _).trans h.op
  other := by
    intro k z hz
    rcases update_eq_some_iff.mp hz with ⟨-, ⟨⟩⟩ | ⟨-, hz⟩
    exact h.other k z hz
  fd := by
    intro k z hz
    rcases update_eq_some_iff.mp hz with ⟨-, ⟨⟩⟩ | ⟨-, hz⟩
    exact h.fd k z hz

theorem View.Connected.setRecv (h : v.Connected c cl i x) (hc : y.clientId = c) (ht : y.type = .read)
    (hfd : y.clientFd = cl.fd) : (v.setOp i (some y)).Connected c cl i y where
  __ := h
  op := Function.update_self i _ _
  clientId := hc
  type := ht
  other := by
    intro k z hz hzc hk
    rcases update_eq_some_iff.mp hz with ⟨rfl, -⟩ | ⟨-, hz⟩
    · exact absurd rfl hk
    · exact h.other k z hz hzc hk
  fd := by
    intro k z hz hzc
    rcases update_eq_some_iff.mp hz with ⟨-, ⟨⟩⟩ | ⟨-, hz⟩
    · exact hfd
    · exact h.fd k z hz hzc

theorem View.Connected.answers {ms : List Message} (h : v.Connected c cl i x)
    (ha : v.Answers c x.clientFd ms v') : ∃ cl', cl'.fd = cl.fd ∧ v'.Connected c cl' i x := by
  generalize hf : x.clientFd = fd at ha
  induction ha generalizing cl with
  | nil v => exact ⟨cl, rfl, h⟩
  | @cons v v' s m ms hs _ ih =>
    obtain ⟨cl₁, hcl₁, -, hfd₁⟩ := v.answer_client s c fd m h.client
    have hne : s.op ≠ i := fun he => by simp [he, h.op] at hs
    have hxfd : fd = cl.fd := by rw [← hf, h.fd i x h.op h.clientId]
    have hstep : (v.answer s c fd m).Connected c cl₁ i x := by
      have hsend := h.setSend (y := m.response.held c fd s) hne rfl hxfd
      have hr : ∀ e ∈ m.events c s.op, e.Routine := fun e he => Message.events_routine he
      obtain ⟨ha', hcl', he'⟩ := routine_append (history c v.trace) hr
      rw [← history_append_of_eq fun e he => Message.events_clientId he, ← View.answer_trace v s c fd m]
        at ha' hcl' he'
      refine ⟨hcl₁, ?_, h.clientId, h.type, ?_, ?_, ?_, ?_, ?_⟩
      · rw [View.answer_ops]
        exact hsend.op
      · rw [View.answer_ops]
        exact hsend.other
      · rw [View.answer_ops, hfd₁]
        exact hsend.fd
      · rw [ha', hfd₁, h.accepted]
      · rw [hcl', h.closed]
      · rw [he', h.entered]
    obtain ⟨cl', hcl', hv'⟩ := ih hstep
    exact ⟨cl', hcl'.trans hfd₁, hv'⟩

/-- Any operation of a connected client can be the one that has it dropped. -/
theorem View.Connected.disconnect (h : v.Connected c cl i x) {j : ℕ} (hj : v.ops j = some y)
    (hy : y.clientId = c) : ((v.disconnect c y.clientFd).setOp j none).Life c := by
  have hist : history c ((v.disconnect c y.clientFd).setOp j none).trace =
      history c v.trace ++ [.closed c y.clientFd] :=
    history_append_of_eq (by simp [Event.clientId])
  refine View.Life.gone (Function.update_self c _ _) ?_ (?_ : _ = [cl.fd]) ?_ ?_
  · intro k z hz hc
    rcases update_eq_some_iff.mp hz with ⟨-, ⟨⟩⟩ | ⟨-, hz⟩
    by_cases hk : k = i
    · subst hk
      obtain rfl := Option.some.inj (h.op.symm.trans hz)
      rw [h.type]
      decide
    · rw [h.other k z hz hc hk]
      decide
  · rw [hist, acceptedFds_append, h.accepted]
    rfl
  · rw [hist, closedFds_append, h.closed, h.fd j y hj hy]
    rfl
  · rw [hist, enteredIds_append, h.entered]
    rfl

theorem View.Connected.finishes {s : Scan} (h : v.Connected c cl i x) (hf : v.Finishes i x s v') :
    v'.Life c := by
  obtain rfl := h.clientId
  have hprep := h.grow (l := []) (by simp) (by simp)
    (v.prep ⟨i, .recv x.clientFd x.bref s.rest (x.bufCap - s.rest)⟩) rfl rfl (by simp [View.prep])
  cases hf with
  | kept => exact .connected hprep
  | moved => exact .connected (hprep.setRecv rfl h.type (h.fd i x h.op rfl))
  | tooLong => exact h.disconnect h.op rfl
  | refused hs m =>
    have hlog := h.grow (l := [.handled x.clientId m.msgt m.seqid m.payload]) (by simp [Event.clientId])
      (by simp [Event.Routine]) (v.log (.handled x.clientId m.msgt m.seqid m.payload)) rfl rfl rfl
    exact hlog.disconnect hlog.op rfl

theorem View.Connected.type_ne_accept (h : v.Connected c cl i x) {j : ℕ} (hj : v.ops j = some y)
    (hy : y.clientId = c) : y.type ≠ .accept := by
  by_cases hji : j = i
  · subst hji
    obtain rfl := Option.some.inj (h.op.symm.trans hj)
    rw [h.type]
    decide
  · rw [h.other j y hj hy hji]
    decide

theorem View.Connected.eq_of_read (h : v.Connected c cl i x) {j : ℕ} (hj : v.ops j = some y)
    (hy : y.clientId = c) (ht : y.type = .read) : j = i ∧ y = x := by
  by_cases hji : j = i
  · subst hji
    exact ⟨rfl, Option.some.inj (hj.symm.trans h.op)⟩
  · exact absurd (ht.symm.trans (h.other j y hj hy hji)) (by decide)

theorem View.Connected.ne_of_write (h : v.Connected c cl i x) {j : ℕ} (hj : v.ops j = some y)
    (ht : y.type = .write) : j ≠ i := by
  rintro rfl
  obtain rfl := Option.some.inj (h.op.symm.trans hj)
  exact absurd (h.type.symm.trans ht) (by decide)

theorem View.Connected.completed (h : v.Connected c cl i x) {j : ℕ} (hj : v.ops j = some y)
    (hy : y.clientId = c) (cqe : Cqe) : (v.log (y.completed cqe)).Connected c cl i x := by
  refine h.grow (l := [y.completed cqe]) ?_ ?_ _ rfl rfl rfl
  · intro e he
    obtain rfl := List.mem_singleton.mp he
    exact hy
  · intro e he
    obtain rfl := List.mem_singleton.mp he
    exact h.type_ne_accept hj hy

/-- The accept of a pending client is the receive of a connected one afterwards. -/
theorem View.Connected.accept {cl' : Client} {cqe : Cqe} {j bref : ℕ} {buf : List UInt8}
    (hi : v.ops i = some x) (ht : x.type = .accept) (hres : 0 ≤ cqe.res)
    (honly : ∀ k z, v.ops k = some z → z.clientId = x.clientId → k = i)
    (hist : history x.clientId v.trace = [.entered x.clientId]) (hji : j ≠ i)
    (hne : x.clientId ≠ v.nextClientId) :
    View.Connected (((v.log (x.completed cqe)).connect i x cl cqe.res).acceptNext j bref buf cl')
      x.clientId { cl with fd := cqe.res } i { x with clientFd := cqe.res, type := .read } := by
  have hist' : history x.clientId (((v.log (x.completed cqe)).connect i x cl cqe.res).acceptNext j
      bref buf cl').trace = [.entered x.clientId, x.completed cqe] := by
    change history x.clientId (v.trace ++ [x.completed cqe] ++ [.entered v.nextClientId]) = _
    rw [history_append_of_ne (by simpa [Event.clientId] using hne.symm),
      history_append_of_eq (by simp [Held.completed, Event.clientId]), hist]
    rfl
  refine ⟨?_, ?_, rfl, rfl, ?_, ?_, by rw [hist']; simp [acceptedFds, Held.completed, ht, hres],
    by rw [hist']; rfl, by rw [hist']; rfl⟩
  · exact (Function.update_of_ne hne _ _).trans (Function.update_self _ _ _)
  · exact (Function.update_of_ne hji.symm _ _).trans (Function.update_self _ _ _)
  · intro k z hz hzc hk
    rcases update_eq_some_iff.mp hz with ⟨-, ⟨⟩⟩ | ⟨-, hz⟩
    · exact absurd hzc.symm hne
    rcases update_eq_some_iff.mp hz with ⟨rfl, -⟩ | ⟨-, hz⟩
    · exact absurd rfl hk
    · exact absurd (honly k z hz hzc) hk
  · intro k z hz hzc
    rcases update_eq_some_iff.mp hz with ⟨-, ⟨⟩⟩ | ⟨-, hz⟩
    · exact absurd hzc.symm hne
    rcases update_eq_some_iff.mp hz with ⟨-, ⟨⟩⟩ | ⟨hk, hz⟩
    · rfl
    · exact absurd (honly k z hz hzc) hk

theorem View.Life.own (h : v.Life c) (hi : v.ops i = some x) (hx : x.clientId = c)
    (hacc : x.type = .accept → v.fds x.clientFd = none) {cqe : Cqe}
    (hh : (v.log (x.completed cqe)).Handles i x cqe.res v') : v'.Life c := by
  subst hx
  cases h with
  | fresh _ hops => exact absurd rfl (hops i x hi)
  | pending hc hi' hx' ht honly hist =>
    obtain rfl := honly i x hi rfl
    obtain rfl := Option.some.inj (hi.symm.trans hi')
    cases hh with
    | stale hc' => exact absurd (hc.symm.trans hc') (by simp)
    | dropped _ _ hfd => exact absurd (hacc ht) hfd
    | received _ _ ht' => exact absurd (ht.symm.trans ht') (by decide)
    | resumed _ _ ht' => exact absurd (ht.symm.trans ht') (by decide)
    | sent _ _ ht' => exact absurd (ht.symm.trans ht') (by decide)
    | @accepted cl cl' j bref buf hc' hres _ hj hn hbuf =>
      have hne : x.clientId ≠ v.nextClientId := by
        intro he
        rw [show (v.log (x.completed cqe)).nextClientId = x.clientId from he.symm] at hn
        exact absurd ((Function.update_self x.clientId _ _).symm.trans hn) (by simp)
      have hji : j ≠ i := by
        rintro rfl
        exact absurd ((Function.update_self j _ _).symm.trans hj) (by simp)
      exact .connected (View.Connected.accept hi ht hres honly hist hji hne)
  | connected h =>
    have hlog := h.completed hi rfl cqe
    cases hh with
    | stale hc => exact absurd (h.client.symm.trans hc) (by simp)
    | dropped => exact hlog.disconnect hi rfl
    | accepted _ _ ht => exact absurd ht (h.type_ne_accept hi rfl)
    | @received cl' s v₁ past hc hres ht hscan hans hfd =>
      obtain ⟨rfl, rfl⟩ := h.eq_of_read hi rfl ht
      obtain ⟨cl', -, hv₁⟩ := hlog.answers hans
      exact hv₁.finishes (v₁.finishes _ _ s past)
    | resumed hc hres ht hlt =>
      have hsend := hlog.setSend (y := { x with processed := x.processed + cqe.res.toNat })
        (h.ne_of_write hi ht) ht (h.fd i x hi rfl)
      exact .connected (hsend.grow (l := []) (by simp) (by simp) _ rfl rfl
        (by simp [View.resume, View.prep]))
    | sent hc hres ht hge => exact .connected (hlog.freeSend (h.ne_of_write hi ht))
  | gone hc hops hacc' hcl hent =>
    have hstale : ∀ c', v.clients x.clientId ≠ some c' := by simp [hc]
    cases hh with
    | stale =>
      have hr : ∀ e ∈ [x.completed cqe], e.Routine := by
        simpa [Event.Routine, Held.completed] using hops i x hi rfl
      obtain ⟨ha, hcl', he⟩ := routine_append (history x.clientId v.trace) hr
      rw [← history_append_of_eq (by simp [Held.completed, Event.clientId])] at ha hcl' he
      refine .gone hc ?_ (ha.trans hacc') (hcl'.trans hcl) (he.trans hent)
      intro k z hz
      rcases update_eq_some_iff.mp hz with ⟨-, ⟨⟩⟩ | ⟨-, hz⟩
      exact hops k z hz
    | dropped hc' => exact absurd hc' (hstale _)
    | accepted hc' => exact absurd hc' (hstale _)
    | received hc' => exact absurd hc' (hstale _)
    | resumed hc' => exact absurd hc' (hstale _)
    | sent hc' => exact absurd hc' (hstale _)

end

/-! ## Client ids -/

section
variable {v v' : View} {c : UInt64} {i : ℕ} {x : Held} {res : ℤ}

theorem View.Answers.trace {id : UInt64} {fd : ℤ} {ms : List Message} (ha : v.Answers id fd ms v') :
    v'.nextClientId = v.nextClientId ∧ v'.fds = v.fds ∧
      ∃ l, v'.trace = v.trace ++ l ∧ ∀ e ∈ l, e.Routine ∧ e.clientId = id := by
  induction ha with
  | nil v => exact ⟨rfl, rfl, [], (List.append_nil _).symm, by simp⟩
  | @cons v v' s m ms hs _ ih =>
    obtain ⟨hnext, hfds, l, htr, hl⟩ := ih
    refine ⟨hnext.trans (v.answer_nextClientId ..), hfds.trans (v.answer_fds ..),
      m.events id s.op ++ l, ?_, ?_⟩
    · rw [htr, View.answer_trace, List.append_assoc]
    · intro e he
      rcases List.mem_append.mp he with he | he
      · exact ⟨Message.events_routine he, Message.events_clientId he⟩
      · exact hl e he

/-- Lines that do not count for the numbering of clients. -/
def Quiet (l : List Event) : Prop := enteredIds l = [] ∧ acceptedFds l = []

theorem Quiet.append {l l' : List Event} (h : Quiet l) (h' : Quiet l') : Quiet (l ++ l') := by
  rw [Quiet, enteredIds_append, acceptedFds_append, h.1, h.2, h'.1, h'.2]
  exact ⟨rfl, rfl⟩

theorem View.Finishes.trace {s : Scan} (hf : v.Finishes i x s v') :
    v'.nextClientId = v.nextClientId ∧ ∃ l, v'.trace = v.trace ++ l ∧ Quiet l := by
  cases hf with
  | kept => exact ⟨rfl, [], (List.append_nil _).symm, rfl, rfl⟩
  | moved => exact ⟨rfl, [], (List.append_nil _).symm, rfl, rfl⟩
  | tooLong => exact ⟨rfl, _, rfl, rfl, rfl⟩
  | refused => exact ⟨rfl, _, List.append_assoc .., rfl, rfl⟩

theorem View.Handles.trace (hh : v.Handles i x res v') :
    (v'.nextClientId = v.nextClientId ∧ ∃ l, v'.trace = v.trace ++ l ∧ Quiet l) ∨
    (0 ≤ res ∧ x.type = .accept ∧ v'.nextClientId = v.nextClientId + 1 ∧
      v'.trace = v.trace ++ [Event.entered v.nextClientId]) := by
  cases hh with
  | stale => exact .inl ⟨rfl, [], (List.append_nil _).symm, rfl, rfl⟩
  | dropped => exact .inl ⟨rfl, _, rfl, rfl, rfl⟩
  | accepted hc hres ht => exact .inr ⟨hres, ht, rfl, rfl⟩
  | @received cl s v₁ past hc hres ht hscan hans hfd =>
    obtain ⟨hnext, -, l, htr, hl⟩ := hans.trace
    obtain ⟨hnext', l', htr', hl'⟩ := (v₁.finishes i x s past).trace
    obtain ⟨ha, -, he⟩ := routine_append [] fun e he => (hl e he).1
    refine .inl ⟨hnext'.trans hnext, l ++ l', by rw [htr', htr, List.append_assoc], ?_⟩
    exact Quiet.append ⟨he, ha⟩ hl'
  | resumed => exact .inl ⟨rfl, [], (List.append_nil _).symm, rfl, rfl⟩
  | sent => exact .inl ⟨rfl, [], (List.append_nil _).symm, rfl, rfl⟩

theorem View.log_completed_entered (v : View) (x : Held) (cqe : Cqe) :
    enteredIds (v.log (x.completed cqe)).trace = enteredIds v.trace := by
  rw [View.log, enteredIds_append]
  exact List.append_nil _

theorem View.Handles.count_le {cqe : Cqe} (hh : (v.log (x.completed cqe)).Handles i x cqe.res v')
    (c : UInt64) : (enteredIds v.trace).count c ≤ (enteredIds v'.trace).count c := by
  rcases hh.trace with ⟨-, l, htr, -⟩ | ⟨-, -, -, htr⟩ <;>
    rw [htr, enteredIds_append, v.log_completed_entered, List.count_append] <;>
    exact Nat.le_add_right _ _

/-- Clients are numbered from one, each after the first for an accepted connection. -/
structure View.Numbered (v : View) (m : ℕ) : Prop where
  entered : enteredIds v.trace = (List.range m).map fun k => UInt64.ofNat (k + 1)
  next : v.nextClientId = UInt64.ofNat (m + 1)
  accepted : m ≤ (acceptedFds v.trace).length + 1

theorem View.Numbered.handles {cqe : Cqe} {m : ℕ} (h : v.Numbered m)
    (hh : (v.log (x.completed cqe)).Handles i x cqe.res v') : v'.Numbered m ∨ v'.Numbered (m + 1) := by
  have hlog := v.log_completed_entered x cqe
  rcases hh.trace with ⟨hnext, l, htr, hl⟩ | ⟨hres, ht, hnext, htr⟩
  · refine .inl ⟨?_, hnext.trans h.next, ?_⟩
    · rw [htr, enteredIds_append, hlog, hl.1, List.append_nil, h.entered]
    · have hacc := h.accepted
      rw [htr, acceptedFds_append, hl.2, List.append_nil]
      simp only [View.log, acceptedFds_append, List.length_append]
      omega
  · refine .inr ⟨?_, ?_, ?_⟩
    · rw [htr, enteredIds_append, hlog, h.entered, List.range_succ, List.map_append]
      have hn : (v.log (x.completed cqe)).nextClientId = UInt64.ofNat (m + 1) := h.next
      simp [enteredIds, hn]
    · have hn : (v.log (x.completed cqe)).nextClientId = UInt64.ofNat (m + 1) := h.next
      rw [hnext, hn, UInt64.ofNat_add (m + 1) 1]
      rfl
    · have hacc := h.accepted
      have hone : acceptedFds [x.completed cqe] = [cqe.res] := by
        simp [acceptedFds, Held.completed, ht, hres]
      rw [htr]
      simp only [View.log, acceptedFds_append, List.length_append, hone, List.length_singleton]
      omega

/-- An id entered twice is in the log of its client twice. -/
theorem enteredIds_history (c : UInt64) (l : List Event) :
    (enteredIds (history c l)).length = (enteredIds l).count c := by
  induction l with
  | nil => rfl
  | cons e l ih =>
    have hcons : ∀ l' : List Event, enteredIds (e :: l') = enteredIds [e] ++ enteredIds l' :=
      fun l' => enteredIds_append (l := [e])
    by_cases he : e.clientId = c
    · have hh : history c (e :: l) = e :: history c l := by simp [history, he]
      rw [hh, hcons (history c l), hcons l, List.length_append, List.count_append, ih]
      cases e with
      | entered id =>
        obtain rfl : id = c := he
        simp [enteredIds]
      | _ => simp [enteredIds]
    · have hh : history c (e :: l) = history c l := by simp [history, he]
      rw [hh, hcons l, List.count_append, ih]
      cases e with
      | entered id => simp [enteredIds, show ¬ id = c from he]
      | _ => simp [enteredIds]

/-- A client with no line of its own entry is not known yet. -/
theorem View.Life.fresh_of_count (h : v.Life c) (hc : (enteredIds v.trace).count c = 0) :
    v.clients c = none ∧ (∀ j y, v.ops j = some y → y.clientId ≠ c) ∧ history c v.trace = [] := by
  rw [← enteredIds_history] at hc
  cases h with
  | fresh hn hops hist => exact ⟨hn, hops, hist⟩
  | pending hn hi hx ht honly hist => simp [hist, enteredIds] at hc
  | connected h => simp [h.entered] at hc
  | gone _ _ _ _ hent => simp [hent] at hc

theorem View.Life.handles {cqe : Cqe} (h : v.Life c) (hi : v.ops i = some x)
    (hacc : x.type = .accept → v.fds x.clientFd = none)
    (hh : (v.log (x.completed cqe)).Handles i x cqe.res v')
    (hent : (enteredIds v'.trace).count c ≤ 1) : v'.Life c := by
  by_cases hx : x.clientId = c
  · exact h.own hi hx hacc hh
  have hlog : v.Life c → (v.log (x.completed cqe)).Life c :=
    (v.agree_log (e := x.completed cqe) hx).life
  by_cases hn : v'.nextClientId ≠ v.nextClientId → v.nextClientId ≠ c
  · exact (View.Handles.agree hh hi hx hn).life (hlog h)
  simp only [ne_eq, Classical.not_imp, not_not] at hn
  obtain ⟨hne, hnc⟩ := hn
  have hcount : (enteredIds v.trace).count c = 0 := by
    rcases hh.trace with ⟨hnext, -⟩ | ⟨-, -, -, htr⟩
    · exact absurd hnext hne
    · have hone : enteredIds [.entered (v.log (x.completed cqe)).nextClientId] = [c] :=
        congrArg ([·]) hnc
      rw [htr, enteredIds_append, v.log_completed_entered, hone, List.count_append,
        List.count_singleton_self] at hent
      omega
  obtain ⟨hnone, hops, hist⟩ := (hlog h).fresh_of_count (by
    rwa [v.log_completed_entered])
  cases hh with
  | stale => exact absurd rfl hne
  | dropped => exact absurd rfl hne
  | @received cl s v₁ past hc hres ht hscan hans hfd =>
    exact absurd ((v₁.finishes i x s past).trace.1.trans hans.trace.1) hne
  | resumed => exact absurd rfl hne
  | sent => exact absurd rfl hne
  | @accepted cl cl' j bref buf hc hres ht hj hn' hbuf =>
    subst hnc
    refine .pending (i := j) (x := ⟨.accept, v.nextClientId, -1, 2048, 0, 0, bref, buf⟩)
      (Function.update_self _ _ _) (Function.update_self _ _ _) rfl rfl ?_ ?_
    · intro k y hk hy
      rcases update_eq_some_iff.mp hk with ⟨rfl, -⟩ | ⟨-, hk⟩
      · rfl
      rcases update_eq_some_iff.mp hk with ⟨-, ⟨⟩⟩ | ⟨-, hk⟩
      · exact absurd hy hx
      · exact absurd hy (hops k y hk)
    · have hone : ∀ e ∈ [Event.entered v.nextClientId], e.clientId = v.nextClientId := by
        simp [Event.clientId]
      refine (history_append_of_eq hone).trans ?_
      exact congrArg (· ++ [Event.entered v.nextClientId]) hist

/-! ## Runs -/

/-- Only a disconnect changes the descriptor table. -/
theorem View.Handles.fds (hh : v.Handles i x res v') :
    v'.fds = v.fds ∨ v'.fds = Function.update v.fds x.clientFd none := by
  cases hh with
  | stale => exact .inl rfl
  | dropped => exact .inr rfl
  | accepted =>
    left
    simp
  | @received cl s v₁ past hc hres ht hscan hans hfd =>
    rw [← hans.trace.2.1]
    exact (v₁.finishes i x s past).clients.imp And.right fun h => h.2.1
  | resumed => exact .inl rfl
  | sent => exact .inl rfl

theorem View.Life.setBuf (h : v.Life c) (hi : v.ops i = some x) (buf : List UInt8) :
    (v.setOp i (some { x with buf := buf })).Life c := by
  by_cases hx : x.clientId = c
  swap
  · refine View.AgreeOn.life (v := v) ⟨rfl, update_agree ?_ ?_, rfl⟩ h
    · intro y hy
      obtain rfl := Option.some.inj (hi.symm.trans hy)
      exact hx
    · rintro y ⟨⟩
      exact hx
  cases h with
  | fresh _ hops => exact absurd hx (hops i x hi)
  | pending hc hj hxc ht honly hist =>
    obtain rfl := honly i x hi hx
    obtain rfl := Option.some.inj (hi.symm.trans hj)
    refine .pending hc (View.setOp_self _ _ _) hxc ht ?_ hist
    intro k y hk hy
    rcases update_eq_some_iff.mp hk with ⟨rfl, -⟩ | ⟨-, hk⟩
    · rfl
    · exact honly k y hk hy
  | @connected cl j z h =>
    by_cases hij : i = j
    · subst hij
      obtain rfl := Option.some.inj (hi.symm.trans h.op)
      exact .connected (h.setRecv hx h.type (h.fd i x hi hx))
    · exact .connected (h.setSend hij (h.other i x hi hx hij) (h.fd i x hi hx))
  | gone hc hops hacc hcl hent =>
    refine .gone hc ?_ hacc hcl hent
    intro k y hk hy
    rcases update_eq_some_iff.mp hk with ⟨-, ⟨⟩⟩ | ⟨-, hk⟩
    · exact hops i x hi hx
    · exact hops k y hk hy

theorem View.Life.perform (h : v.Life c) (sqe : Sqe) (res : ℤ) (data : List UInt8) (k : ℕ) :
    (v.perform sqe res data k).Life c := by
  unfold View.perform
  cases sqe.request with
  | accept fd info =>
    by_cases hres : res < 0
    · simpa only [if_pos hres] using h
    · simp only [if_neg hres]
      exact h.congr _ rfl rfl rfl
  | send => exact h
  | recv fd bref off len =>
    simp only
    cases hx : v.ops sqe.userData with
    | none =>
      rw [Option.map_none, View.setOp, ← hx, Function.update_eq_self]
      exact h
    | some x => exact h.setBuf hx _

end

/-- What the log, the descriptor table and the operations of any run agree on. An
id that was entered twice, after a full turn of the counter, is left out. -/
structure View.Census (v : View) : Prop where
  numbered : ∃ m, v.Numbered m
  fds : ∀ fd, v.fds fd ≠ none → 0 ≤ fd
  life : ∀ c, (enteredIds v.trace).count c ≤ 1 → v.Life c

theorem World.Owned.accept_fd {w : World} {v : View} {i : ℕ} {x : Held} (h : w.Owned v)
    (hx : v.ops i = some x) (ht : x.type = .accept) : x.clientFd = -1 := by
  obtain ⟨t, hm, rfl⟩ := List.mem_map.mp ((h.owns.used i).mp (by simp [hx]))
  exact ((h.owns.fits t hm x hx).accept ht).1

theorem View.Census.accept {w : World} {v : View} {i : ℕ} {x : Held} (h : v.Census) (hw : w.Owned v)
    (hx : v.ops i = some x) (ht : x.type = .accept) : v.fds x.clientFd = none := by
  by_contra hne
  have hpos := h.fds _ hne
  rw [hw.accept_fd hx ht] at hpos
  exact absurd hpos (by decide)

theorem View.Census.handles {w : World} {v v' : View} {i : ℕ} {x : Held} {cqe : Cqe} (h : v.Census)
    (hw : w.Owned v) (hi : v.ops i = some x)
    (hh : (v.log (x.completed cqe)).Handles i x cqe.res v') : v'.Census := by
  obtain ⟨m, hm⟩ := h.numbered
  refine ⟨?_, ?_, ?_⟩
  · exact (hm.handles hh).elim (fun h => ⟨m, h⟩) fun h => ⟨m + 1, h⟩
  · intro fd hfd
    refine h.fds fd ?_
    rcases hh.fds with he | he
    · rwa [he] at hfd
    · rw [he] at hfd
      by_cases hx : fd = x.clientFd
      · simp [hx] at hfd
      · rwa [Function.update_of_ne hx] at hfd
  · intro c hc
    exact (h.life c ((hh.count_le c).trans hc)).handles hi (h.accept hw hi) hh hc

theorem View.Census.start (serverFd : ℤ) (hfd : 0 ≤ serverFd) (j bref : ℕ) (buf : List UInt8)
    (cl : Client) : ((View.initial serverFd).acceptNext j bref buf cl).Census := by
  refine ⟨⟨1, rfl, rfl, Nat.le_add_left _ _⟩, ?_, ?_⟩
  · intro fd hne
    by_cases he : fd = serverFd
    · exact he ▸ hfd
    · exact absurd (if_neg he) hne
  · intro c _
    by_cases hc : c = 1
    · subst hc
      have hcl : ((View.initial serverFd).acceptNext j bref buf cl).clients 1 = some cl := by
        simp [View.initial]
      refine .pending (i := j) (x := ⟨.accept, 1, -1, 2048, 0, 0, bref, buf⟩) hcl
        (Function.update_self j _ _) rfl rfl ?_ rfl
      intro k y hk _
      rcases update_eq_some_iff.mp hk with ⟨rfl, -⟩ | ⟨-, hk⟩
      · rfl
      · cases hk
    · refine .fresh (Function.update_of_ne hc _ _) ?_ ?_
      · intro k y hk hy
        rcases update_eq_some_iff.mp hk with ⟨-, ⟨⟩⟩ | ⟨-, hk⟩
        · exact hc hy.symm
        · cases hk
      · refine history_append_of_ne (l := []) fun e he => ?_
        obtain rfl := List.mem_singleton.mp he
        exact Ne.symm hc

theorem View.perform_trace (v : View) (sqe : Sqe) (res : ℤ) (data : List UInt8) (k : ℕ) :
    (v.perform sqe res data k).trace = v.trace := by
  unfold View.perform
  split
  · split <;> rfl
  · rfl
  · rfl

theorem View.perform_nextClientId (v : View) (sqe : Sqe) (res : ℤ) (data : List UInt8) (k : ℕ) :
    (v.perform sqe res data k).nextClientId = v.nextClientId := by
  unfold View.perform
  split
  · split <;> rfl
  · rfl
  · rfl

theorem View.Census.moves {w w' : World} {v v' : View} {a : Action} (h : v.Census) (hw : w.Owned v)
    (hm : w.Moves v a w' v') : v'.Census := by
  cases hm with
  | @execute i s res data hs hadm =>
    have htr := v.perform_trace s.sqe res data w.conns.length
    have hnext := v.perform_nextClientId s.sqe res data w.conns.length
    obtain ⟨m, hnum⟩ := h.numbered
    refine ⟨⟨m, by rw [htr]; exact hnum.entered, by rw [hnext]; exact hnum.next,
      by rw [htr]; exact hnum.accepted⟩, ?_, ?_⟩
    · intro fd hfd
      unfold View.perform at hfd
      cases hreq : s.sqe.request with
      | accept fd' info =>
        rw [hreq] at hfd
        by_cases hres : res < 0
        · simp only [if_pos hres] at hfd
          exact h.fds fd hfd
        · simp only [if_neg hres] at hfd
          by_cases he : fd = res
          · omega
          · rw [Function.update_of_ne he] at hfd
            exact h.fds fd hfd
      | recv => rw [hreq] at hfd; exact h.fds fd hfd
      | send => rw [hreq] at hfd; exact h.fds fd hfd
    · intro c hc
      rw [htr] at hc
      exact (h.life c hc).perform _ _ _ _
  | post => exact h
  | submit => exact ⟨h.numbered.imp fun m hm => ⟨hm.entered, hm.next, hm.accepted⟩, h.fds,
      fun c hc => (h.life c hc).congr _ rfl rfl rfl⟩
  | turn => exact h
  | handle hpc hcq hsrv hx hh => exact h.handles hw hx hh

theorem World.Moves.count_le {w w' : World} {v v' : View} {a : Action} (hm : w.Moves v a w' v')
    (c : UInt64) : (enteredIds v.trace).count c ≤ (enteredIds v'.trace).count c := by
  cases hm with
  | execute => rw [View.perform_trace]
  | post => exact le_rfl
  | submit => exact le_rfl
  | turn => exact le_rfl
  | handle hpc hcq hsrv hx hh => exact hh.count_le c

end Caht
