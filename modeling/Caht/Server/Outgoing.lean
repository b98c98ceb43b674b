import Caht.Library.Writers
import Caht.Server.Submission
import Caht.Server.Conversation

/-! # What is sent

Every response to a client is a message that its send operations write to the
connection, a part at a time. The stream consists of whole responses as long as no
send is executed while another response to the same client is under way. Nothing in
the server sees to that: one receive can queue many responses at once.
-/

namespace Caht
open Library Protocol

/-- The response that was queued for the client with line `n` of the log. -/
def responseAt (c : UInt64) (log : List Event) (n : ℕ) : Option Response :=
  match log[n]? with
  | some (.queued id _ r) => if id = c then some r else none
  | _ => none

def messageAt (c : UInt64) (log : List Event) (n : ℕ) : List UInt8 :=
  ((responseAt c log n).map Response.bytes).getD []

/-- The stream is the beginning of a sequence of whole responses that were queued for
the client, each of them at most once. -/
def WholeResponses (c : UInt64) (log : List Event) (stream : List UInt8) : Prop :=
  ∃ ns : List ℕ, ns.Nodup ∧ (∀ n ∈ ns, responseAt c log n ≠ none) ∧ stream <+: ns.flatMap (messageAt c log)

/-- How much of its message a send has written, with what its completion reports. -/
def Ticket.written (t : Ticket) (processed : ℕ) : ℕ :=
  match t.stage with
  | .done res _ => processed + res.toNat
  | _ => processed

/-- A send that writes anything to a client in the map is executed only while no other
response to the client is partly written. -/
def World.SendsAlone (w : World) (a : Action) : Prop :=
  match a with
  | .execute i res _ => 0 < res → ∀ s ∈ w.inflight[i]?, ∀ o ∈ w.op s.sqe.userData, o.type = .write →
      (w.srv.info o.clientId).isSome → ∀ t ∈ w.tickets, t.id ≠ s.sqe.userData →
        ∀ o' ∈ w.op t.id, o'.type = .write → o'.clientId = o.clientId →
        ¬ (0 < t.written o'.processed ∧ t.written o'.processed < o'.bufLen)
  | _ => True

instance (w : World) (a : Action) : Decidable (w.SendsAlone a) :=
  match a with
  | .execute i res _ => inferInstanceAs (Decidable (0 < res → ∀ s ∈ w.inflight[i]?,
      ∀ o ∈ w.op s.sqe.userData, o.type = .write → (w.srv.info o.clientId).isSome →
        ∀ t ∈ w.tickets, t.id ≠ s.sqe.userData → ∀ o' ∈ w.op t.id, o'.type = .write →
          o'.clientId = o.clientId →
          ¬ (0 < t.written o'.processed ∧ t.written o'.processed < o'.bufLen)))
  | .post _ => .isTrue trivial
  | .serve _ => .isTrue trivial

/-- Both conditions: clients are dropped without queued entries, and sends are
executed one response at a time. -/
def World.Orderly (w : World) (a : Action) : Prop := w.DropsUnqueued a ∧ w.SendsAlone a

instance (w : World) (a : Action) : Decidable (w.Orderly a) :=
  inferInstanceAs (Decidable (w.DropsUnqueued a ∧ w.SendsAlone a))

/-- A send operation for the client, and its ticket. -/
structure World.Writer (w : World) (v : View) (c : UInt64) (t : Ticket) (x : Held) : Prop where
  ticket : t ∈ queue v.sq ++ w.outstanding
  op : v.ops t.id = some x
  type : x.type = .write
  clientId : x.clientId = c

/-- The operation in entry `i` sends the response of line `n`. -/
def Held.Carries (x : Held) (c : UInt64) (i : ℕ) (log : List Event) (n : ℕ) : Prop :=
  ∃ r, log[n]? = some (.queued c i r) ∧ x.bufLen = r.bytes.length ∧ x.buf.take x.bufLen = r.bytes

/-- What was written to the stream of a client. Entry `i` sends the response of line
`line i`, and `sent n` is how much was written of the response of line `n`. -/
structure World.Streamed (w : World) (v : View) (c : UInt64) (line sent : ℕ → ℕ)
    (stream : List UInt8) : Prop where
  framed : Framed (messageAt c v.trace) sent stream
  begun : ∀ n, 0 < sent n → responseAt c v.trace n ≠ none
  carried : ∀ t x, w.Writer v c t x → x.Carries c t.id v.trace (line t.id) ∧
    sent (line t.id) = t.written x.processed
  settled : ∀ n, Underway (messageAt c v.trace) sent n → ∃ t x, w.Writer v c t x ∧ line t.id = n

section
variable {w w' : World} {v v' : View} {c : UInt64} {i n : ℕ} {x : Held} {log l : List Event}
  {line sent : ℕ → ℕ} {stream : List UInt8} {fd : ℤ}

/-! ## Lines of the log -/

theorem responseAt_append (h : n < log.length) :
    responseAt c (log ++ l) n = responseAt c log n := by
  rw [responseAt, List.getElem?_append_left h, responseAt]

theorem lt_of_responseAt (h : responseAt c log n ≠ none) : n < log.length := by
  by_contra hn
  rw [responseAt, List.getElem?_eq_none (by omega)] at h
  exact h rfl

theorem messageAt_append (h : n < log.length) : messageAt c (log ++ l) n = messageAt c log n := by
  rw [messageAt, responseAt_append h, messageAt]

theorem messageAt_queued {r : Response} (h : log[n]? = some (.queued c i r)) :
    messageAt c log n = r.bytes := by
  rw [messageAt, responseAt, h]
  simp

theorem Held.Carries.append (h : x.Carries c i log n) : x.Carries c i (log ++ l) n := by
  obtain ⟨r, hr, hlen, hbytes⟩ := h
  refine ⟨r, ?_, hlen, hbytes⟩
  rw [List.getElem?_append_left (List.getElem?_eq_some_iff.mp hr).1, hr]

theorem Held.Carries.messageAt_length (h : x.Carries c i log n) :
    (messageAt c log n).length = x.bufLen := by
  obtain ⟨r, hr, hlen, -⟩ := h
  rw [messageAt_queued hr, hlen]

theorem Held.Carries.inj {j : ℕ} {y : Held} (h : x.Carries c i log n) (h' : y.Carries c j log n) :
    i = j := by
  obtain ⟨r, hr, -⟩ := h
  obtain ⟨r', hr', -⟩ := h'
  have he := hr.symm.trans hr'
  simp only [Option.some.injEq, Event.queued.injEq] at he
  exact he.2.1

/-! ## Steps that write nothing to the stream -/

/-- The send operations of the client are those of before, as far as they were, and
new ones that have written nothing. -/
theorem World.Streamed.step (h : w.Streamed v c line sent stream) (htr : v'.trace = v.trace ++ l)
    (hold : ∀ t' z, w'.Writer v' c t' z →
      (∃ t x, w.Writer v c t x ∧ t.id = t'.id ∧ t'.written z.processed = t.written x.processed ∧
        z.bufLen = x.bufLen ∧ z.buf = x.buf) ∨
      (v.ops t'.id = none ∧ t'.written z.processed = 0 ∧
        ∃ n, v.trace.length ≤ n ∧ z.Carries c t'.id v'.trace n))
    (hkeep : ∀ t x, w.Writer v c t x → t.written x.processed < x.bufLen →
      ∃ t' z, w'.Writer v' c t' z ∧ t'.id = t.id) :
    ∃ line', w'.Streamed v' c line' sent stream := by
  classical
  let line' : ℕ → ℕ := fun i =>
    if hn : v.ops i = none ∧ ∃ n z, v'.ops i = some z ∧ v.trace.length ≤ n ∧ z.Carries c i v'.trace n
    then hn.2.choose else line i
  have hline : ∀ i, v.ops i ≠ none → line' i = line i := fun i hi => dif_neg fun hn => hi hn.1
  have hmsg : ∀ n, 0 < sent n → messageAt c v'.trace n = messageAt c v.trace n := by
    intro n hn
    rw [htr, messageAt_append (lt_of_responseAt (h.begun n hn))]
  refine ⟨line', h.framed.congr hmsg, ?_, ?_, ?_⟩
  · intro n hn
    have hb := h.begun n hn
    rwa [htr, responseAt_append (lt_of_responseAt hb)]
  · intro t' z hz
    rcases hold t' z hz with ⟨t, x, hx, hid, hwr, hlen, hbuf⟩ | ⟨hnone, hwr, n, hn, hcar⟩
    · obtain ⟨⟨r, hr, hlen', hbytes⟩, hsent⟩ := h.carried t x hx
      rw [← hid, hline _ (by simp [hx.op]), hsent, hwr, htr]
      refine ⟨Held.Carries.append ⟨r, hr, hlen.trans hlen', ?_⟩, rfl⟩
      rw [hlen, hbuf, hbytes]
    · have hex : v.ops t'.id = none ∧
          ∃ n z, v'.ops t'.id = some z ∧ v.trace.length ≤ n ∧ z.Carries c t'.id v'.trace n :=
        ⟨hnone, n, z, hz.op, hn, hcar⟩
      have hl : line' t'.id = hex.2.choose := dif_pos hex
      obtain ⟨z', hz', hge, hcar'⟩ := hex.2.choose_spec
      obtain rfl := Option.some.inj (hz.op.symm.trans hz')
      rw [hl]
      refine ⟨hcar', ?_⟩
      rw [hwr]
      by_contra hne
      have hlt := lt_of_responseAt (h.begun _ (Nat.pos_of_ne_zero hne))
      omega
  · intro n hn
    rw [Underway, hmsg n hn.1] at hn
    obtain ⟨t, x, hx, rfl⟩ := h.settled n hn
    obtain ⟨hcar, hsent⟩ := h.carried t x hx
    have hlt := hn.2
    rw [hcar.messageAt_length, hsent] at hlt
    obtain ⟨t', z, hz, hid⟩ := hkeep t x hx hlt
    exact ⟨t', z, hz, by rw [hid, hline _ (by simp [hx.op])]⟩

theorem World.Streamed.restage (h : w.Streamed v c line sent stream) (htr : v'.trace = v.trace)
    (hops : ∀ i x, x.type = .write → (v'.ops i = some x ↔ v.ops i = some x))
    (hto : ∀ t ∈ queue v'.sq ++ w'.outstanding, ∀ x, v.ops t.id = some x → x.type = .write →
      x.clientId = c → ∃ t₀ ∈ queue v.sq ++ w.outstanding, t₀.id = t.id ∧
        t.written x.processed = t₀.written x.processed)
    (hfrom : ∀ t ∈ queue v.sq ++ w.outstanding, ∀ x, v.ops t.id = some x → x.type = .write →
      x.clientId = c → ∃ t' ∈ queue v'.sq ++ w'.outstanding, t'.id = t.id) :
    ∃ line', w'.Streamed v' c line' sent stream := by
  refine h.step (l := []) (by rw [htr, List.append_nil]) ?_ ?_
  · rintro t' z ⟨ht', hop, htype, hc⟩
    have hop' := (hops _ z htype).mp hop
    obtain ⟨t, ht, hid, hwr⟩ := hto t' ht' z hop' htype hc
    exact .inl ⟨t, z, ⟨ht, hid ▸ hop', htype, hc⟩, hid, hwr, rfl, rfl⟩
  · rintro t x ⟨ht, hop, htype, hc⟩ -
    obtain ⟨t', ht', hid⟩ := hfrom t ht x hop htype hc
    exact ⟨t', x, ⟨ht', hid ▸ (hops _ x htype).mpr hop, htype, hc⟩, hid⟩

/-! ## A send is executed -/

theorem take_drop_take {α : Type} (l : List α) {m p n : ℕ} (h : p + n ≤ m) :
    ((l.take m).drop p).take n = (l.drop p).take n := by
  rw [List.drop_take, List.take_take, min_eq_left (by omega)]

/-- The send of the ticket `t` writes `res` more bytes of its message. -/
theorem World.Streamed.write (h : w.Streamed v c line sent stream) (hw' : w'.Owned v) {t : Ticket}
    (hx : w.Writer v c t x) (ht : t.written x.processed = x.processed) {res : ℤ} {data : List UInt8}
    (hroom : x.processed + res.toNat ≤ x.bufLen)
    (hnew : (⟨t.sqe, .done res data⟩ : Ticket) ∈ queue v.sq ++ w'.outstanding)
    (hto : ∀ t' ∈ queue v.sq ++ w'.outstanding, t'.id ≠ t.id → t' ∈ queue v.sq ++ w.outstanding)
    (hfrom : ∀ t' ∈ queue v.sq ++ w.outstanding, t'.id ≠ t.id → t' ∈ queue v.sq ++ w'.outstanding)
    (halone : 0 < res → ∀ t' y, w.Writer v c t' y → t'.id ≠ t.id →
      ¬ (0 < t'.written y.processed ∧ t'.written y.processed < y.bufLen)) :
    ∃ sent', w'.Streamed v c line sent' (stream ++ (x.buf.drop x.processed).take res.toNat) := by
  obtain ⟨hcar, hsent⟩ := h.carried t x hx
  rw [ht] at hsent
  have hlen := hcar.messageAt_length
  have hline : ∀ t' y, w.Writer v c t' y → t'.id ≠ t.id → line t'.id ≠ line t.id := by
    intro t' y hy hne he
    have hcar' := (h.carried t' y hy).1
    rw [he] at hcar'
    exact hne (hcar'.inj hcar)
  have hbytes : (x.buf.drop x.processed).take res.toNat =
      ((messageAt c v.trace (line t.id)).drop (sent (line t.id))).take res.toNat := by
    obtain ⟨r, hr, -, hb⟩ := hcar
    rw [messageAt_queued hr, ← hb, hsent, take_drop_take _ hroom]
  have hwriter : w'.Writer v c ⟨t.sqe, .done res data⟩ x := ⟨hnew, hx.op, hx.type, hx.clientId⟩
  refine ⟨Function.update sent (line t.id) (sent (line t.id) + res.toNat), ?_, ?_, ?_, ?_⟩
  · rw [hbytes]
    refine h.framed.write _ _ (by omega) fun hpos j hj hway => ?_
    obtain ⟨t', y, hy, rfl⟩ := h.settled j hway
    have hne : t'.id ≠ t.id := fun he => hj (by rw [he])
    obtain ⟨hcar', hsent'⟩ := h.carried t' y hy
    rw [Underway, hcar'.messageAt_length, hsent'] at hway
    exact halone (by omega) t' y hy hne hway
  · intro n hn
    by_cases hne : n = line t.id
    · obtain ⟨r, hr, -⟩ := hcar
      rw [hne, responseAt, hr]
      simp
    · rw [Function.update_of_ne hne] at hn
      exact h.begun n hn
  · intro t' y hy
    by_cases hid : t'.id = t.id
    · obtain rfl : t' = ⟨t.sqe, .done res data⟩ := hw'.owns.eq_of_id hy.ticket hnew hid
      obtain rfl := Option.some.inj (hx.op.symm.trans hy.op)
      refine ⟨hcar, ?_⟩
      rw [show line (⟨t.sqe, .done res data⟩ : Ticket).id = line t.id from rfl, Function.update_self, hsent]
      rfl
    · have hy' : w.Writer v c t' y := ⟨hto t' hy.ticket hid, hy.op, hy.type, hy.clientId⟩
      rw [Function.update_of_ne (hline t' y hy' hid)]
      exact h.carried t' y hy'
  · intro n hn
    by_cases hne : n = line t.id
    · exact ⟨_, x, hwriter, hne.symm⟩
    · rw [Underway, Function.update_of_ne hne] at hn
      obtain ⟨t', y, hy, rfl⟩ := h.settled n hn
      exact ⟨t', y, ⟨hfrom t' hy.ticket fun he => hne (by rw [he]), hy.op, hy.type, hy.clientId⟩, rfl⟩

/-! ## A completion is handled -/

theorem View.Answers.carries {id : UInt64} {fd : ℤ} {ms : List Message} (ha : v.Answers id fd ms v')
    {k : ℕ} {z : Held} (hk : v.ops k = none) (hz : v'.ops k = some z) :
    z.processed = 0 ∧ ∃ n, v.trace.length ≤ n ∧ z.Carries id k v'.trace n := by
  induction ha with
  | nil v => exact absurd (hk.symm.trans hz) (by simp)
  | @cons v v' s m ms hs ha ih =>
    by_cases hks : k = s.op
    · subst hks
      have hop := ha.op (i := s.op) (by rw [View.answer_ops, Function.update_self])
      obtain rfl := Option.some.inj (hop.symm.trans hz)
      obtain ⟨l, hl, -⟩ := ha.seen
      refine ⟨rfl, (v.trace ++ Event.handled id m.msgt m.seqid m.payload ::
        (if judge m.payload = none then [Event.username id m.payload] else [])).length, by simp, ?_⟩
      refine ⟨m.response, ?_, rfl, by simp [Response.held]⟩
      rw [hl, View.answer_trace, Message.events, ← List.cons_append, ← List.append_assoc, List.append_assoc,
        List.getElem?_append_right le_rfl, Nat.sub_self]
      rfl
    · obtain ⟨hzero, n, hn, hcar⟩ := ih (by rwa [View.answer_ops, Function.update_of_ne hks]) hz
      refine ⟨hzero, n, ?_, hcar⟩
      rw [View.answer_trace, List.length_append] at hn
      omega

theorem View.Handles.op_of_ne {res : ℤ} (hh : v.Handles i x res v') {k : ℕ} {y : Held} (hki : k ≠ i)
    (hk : v.ops k = some y) : v'.ops k = some y := by
  have hgone : ∀ o, Function.update v.ops i o k = some y := fun o => by
    rw [Function.update_of_ne hki, hk]
  cases hh with
  | stale => exact hgone _
  | dropped => exact hgone _
  | @accepted cl cl' j bref buf hc hres ht hj =>
    have hkj : k ≠ j := by
      rintro rfl
      exact absurd ((hgone _).symm.trans hj) (by simp)
    rw [View.acceptNext_ops, Function.update_of_ne hkj]
    exact hgone _
  | @received cl s v₁ past hc hres ht hscan ha hfd =>
    rw [(v₁.finishes i x s past).ops_of_ne hki, ha.op hk]
  | resumed => exact hgone _
  | sent => exact hgone _

/-- A new send operation has its own line in the log. -/
theorem View.Handles.carries {res : ℤ} (hh : v.Handles i x res v') (hi : v.ops i = some x) {k : ℕ}
    {z : Held} (hk : v.ops k = none) (hz : v'.ops k = some z) (ht : z.type = .write) :
    z.processed = 0 ∧ ∃ n, v.trace.length ≤ n ∧ z.Carries x.clientId k v'.trace n := by
  have hki : k ≠ i := by
    rintro rfl
    exact absurd (hi.symm.trans hk) (by simp)
  have hgone : ∀ o, Function.update v.ops i o k ≠ some z := fun o => by
    rw [Function.update_of_ne hki, hk]
    simp
  cases hh with
  | stale => exact absurd hz (hgone _)
  | dropped => exact absurd hz (hgone _)
  | accepted =>
    rcases update_eq_some_iff.mp hz with ⟨-, ⟨⟩⟩ | ⟨-, hz⟩
    · cases ht
    · exact absurd hz (hgone _)
  | @received cl s v₁ past hc hres hxt hscan ha hfd =>
    rcases (v₁.finishes i x s past).origin (ha.op hi) hz with ⟨-, hz₁⟩ | ⟨hk', -⟩
    · obtain ⟨hzero, n, hn, hcar⟩ := ha.carries hk hz₁
      obtain ⟨-, l, hl, -⟩ := (v₁.finishes i x s past).trace
      exact ⟨hzero, n, hn, by rw [hl]; exact hcar.append⟩
    · exact absurd hk' hki
  | resumed => exact absurd hz (hgone _)
  | sent => exact absurd hz (hgone _)

theorem View.Handles.goes_on {cqe : Cqe} (hh : (v.log (x.completed cqe)).Handles cqe.sqe.userData x cqe.res v')
    (hfit : cqe.ticket.Fits x) (ht : x.type = .write) (hmem : v.clients x.clientId ≠ none)
    (hmem' : v'.clients x.clientId ≠ none) (hlt : cqe.ticket.written x.processed < x.bufLen) :
    ∃ t' z, w'.Writer v' x.clientId t' z ∧ t'.id = cqe.sqe.userData ∧
      t'.written z.processed = cqe.ticket.written x.processed ∧ z.bufLen = x.bufLen ∧ z.buf = x.buf := by
  obtain ⟨len, -, hlen, hle, -⟩ := hfit.send ht
  cases hh with
  | stale hnone => exact absurd hnone hmem
  | dropped => exact absurd (Function.update_self ..) hmem'
  | accepted _ _ ht' => exact absurd (ht.symm.trans ht') (by decide)
  | received _ _ ht' => exact absurd (ht.symm.trans ht') (by decide)
  | resumed _ hres _ hmore =>
    have hm : (⟨cqe.sqe.userData, .send x.clientFd x.bref (x.processed + cqe.res.toNat)
        (sizeSub x.bufLen (x.processed + cqe.res.toNat))⟩ : Sqe) ∈
        ((v.log (x.completed cqe)).resume cqe.sqe.userData x cqe.res.toNat).sq :=
      List.mem_append_right _ (List.mem_singleton.mpr rfl)
    exact ⟨⟨_, .queued⟩, _, ⟨List.mem_append_left _ (List.mem_map.mpr ⟨_, hm, rfl⟩),
      Function.update_self .., ht, rfl⟩, rfl, rfl, rfl, rfl⟩
  | sent _ hres _ hall =>
    rw [sizeSub_of_le (by omega) (by omega)] at hall
    simp only [Ticket.written, Cqe.ticket] at hlt
    omega

theorem View.Handles.written_lt {cqe : Cqe} {z : Held}
    (hh : (v.log (x.completed cqe)).Handles cqe.sqe.userData x cqe.res v') (hfit : cqe.ticket.Fits x)
    (ht : x.type = .write) (hz : v'.ops cqe.sqe.userData = some z) :
    cqe.ticket.written x.processed < x.bufLen := by
  obtain ⟨len, -, hlen, hle, -⟩ := hfit.send ht
  cases hh with
  | stale => exact absurd hz (by simp [View.setOp])
  | dropped => exact absurd hz (by simp [View.setOp])
  | accepted _ _ ht' => exact absurd (ht.symm.trans ht') (by decide)
  | received _ _ ht' => exact absurd (ht.symm.trans ht') (by decide)
  | resumed _ _ _ hmore =>
    rw [sizeSub_of_le (by omega) (by omega)] at hmore
    simp only [Ticket.written, Cqe.ticket]
    omega
  | sent => exact absurd hz (by simp [View.setOp])

theorem World.Streamed.handles {cqe : Cqe} (h : w.Streamed v c line sent stream) (hw : w.Owned v)
    (hw' : w'.Owned v') (hi : v.ops cqe.sqe.userData = some x)
    (hc : cqe.ticket ∈ queue v.sq ++ w.outstanding)
    (hout : ∀ t ∈ w.outstanding, t ≠ cqe.ticket → t ∈ w'.outstanding)
    (hback : ∀ t ∈ w'.outstanding, t ∈ w.outstanding)
    (hh : (v.log (x.completed cqe)).Handles cqe.sqe.userData x cqe.res v')
    (hmap : x.type = .write → x.clientId = c → v.clients c ≠ none ∧ v'.clients c ≠ none) :
    ∃ line', w'.Streamed v' c line' sent stream := by
  obtain ⟨l, htr⟩ : ∃ l, v'.trace = v.trace ++ l := by
    rcases hh.trace with ⟨-, l, htr, -⟩ | ⟨-, -, -, htr⟩ <;>
      exact ⟨_, htr.trans (List.append_assoc ..)⟩
  refine h.step htr ?_ ?_
  · rintro t' z ⟨ht', hz, hzt, hzc⟩
    cases hh.origin hi hz with
    | kept hk hop =>
      obtain ⟨t, ht, hid⟩ := List.mem_map.mp ((hw.owns.used t'.id).mp (by
        rw [show v.ops t'.id = some z from hop]
        simp))
      have hne : t ≠ cqe.ticket := fun he => hk (by rw [← hid, he]; rfl)
      obtain rfl := hw'.owns.eq_of_id (hh.tickets hout ht hne) ht' hid
      exact .inl ⟨t, z, ⟨ht, hop, hzt, hzc⟩, rfl, rfl, rfl, rfl⟩
    | reply hk hx _ hc' =>
      refine .inr ⟨hk, ?_, ?_⟩
      · have hzero := (hh.carries hi hk hz hzt).1
        have hq : t' ∈ queue v'.sq := by
          refine (List.mem_append.mp ht').resolve_right fun hm => ?_
          obtain ⟨y, hy, -⟩ := hw.owns.held (List.mem_append_right _ (hback t' hm))
          exact absurd (hy.symm.trans hk) (by simp)
        obtain ⟨e, -, rfl⟩ := List.mem_map.mp hq
        exact hzero
      · obtain ⟨-, n, hn, hcar⟩ := hh.carries hi hk hz hzt
        rw [← hc', hzc] at hcar
        refine ⟨n, ?_, hcar⟩
        simp only [View.log, List.length_append] at hn
        omega
    | own hk _ ht hc' =>
      have hxt : x.type = .write := ht.symm.trans hzt
      have hxc : x.clientId = c := hc'.symm.trans hzc
      obtain ⟨hmem, hmem'⟩ := hmap hxt hxc
      subst hxc
      have hfit := hw.owns.fits _ hc x hi
      have hlt := hh.written_lt hfit hxt (hk ▸ hz)
      obtain ⟨t'', z', ⟨ht'', hz', -, -⟩, hid, hwr, hlen, hbuf⟩ :=
        hh.goes_on hfit hxt hmem hmem' hlt
      obtain rfl := hw'.owns.eq_of_id ht'' ht' (hid.trans hk.symm)
      obtain rfl := Option.some.inj (hz.symm.trans hz')
      exact .inl ⟨cqe.ticket, x, ⟨hc, hi, hxt, rfl⟩, hk.symm, hwr, hlen, hbuf⟩
    | connected _ _ _ ht => exact absurd (hzt.symm.trans ht) (by decide)
    | next _ _ ht => exact absurd (hzt.symm.trans ht) (by decide)
  · rintro t y ⟨ht, hy, hyt, hyc⟩ hlt
    by_cases hti : t.id = cqe.sqe.userData
    · obtain rfl := hw.owns.eq_of_id ht hc hti
      obtain rfl := Option.some.inj (hi.symm.trans hy)
      obtain ⟨hmem, hmem'⟩ := hmap hyt hyc
      subst hyc
      obtain ⟨t', z, hz, hid, -⟩ := hh.goes_on (hw.owns.fits _ hc x hi) hyt hmem hmem' hlt
      exact ⟨t', z, hz, hid⟩
    · have hne : t ≠ cqe.ticket := fun he => hti (by rw [he]; rfl)
      exact ⟨t, y, ⟨hh.tickets hout ht hne, hh.op_of_ne hti hy, hyt, hyc⟩, rfl⟩

/-! ## Connections -/

/-- Operation `i` holds the descriptor of connection `k`. -/
structure World.HoldsConn (w : World) (v : View) (i : ℕ) (x : Held) (k : ℕ) (fd : ℤ) : Prop where
  holds : w.Holds v i fd
  op : v.ops i = some x
  conn : v.fds fd = some (.conn k)

/-- The sends that were submitted for a client act on its connection and no others do,
and the stream of every connection is in order. -/
structure World.Outgoing (w : World) (v : View) : Prop where
  conn_lt : ∀ s ∈ w.inflight, ∀ k, s.conn = some k → k < w.conns.length
  routed : ∀ s ∈ w.inflight, ∀ y, v.ops s.sqe.userData = some y → y.type = .write →
    ∀ i x k fd, w.HoldsConn v i x k fd → (y.clientId = x.clientId ↔ s.conn = some k)
  streamed : ∀ i x k fd, w.HoldsConn v i x k fd → ∃ line sent stream, w.conns[k]? = some stream ∧
    w.Streamed v x.clientId line sent stream

theorem World.Serving.accept_alone (h : w.Serving v) (hu : v.Unwrapped) (hi : v.ops i = some x)
    (ht : x.type = .accept) {j : ℕ} {y : Held} (hj : v.ops j = some y) (hc : y.clientId = x.clientId) :
    j = i := by
  cases h.census.unwrapped_life hu x.clientId with
  | fresh _ hops => exact absurd rfl (hops i x hi)
  | pending _ _ _ _ honly => rw [honly j y hj hc, honly i x hi rfl]
  | connected h => exact absurd ht (h.type_ne_accept hi rfl)
  | gone _ hops => exact absurd ht (hops i x hi rfl)

theorem World.Serving.accept_no_write (h : w.Serving v) (hu : v.Unwrapped) (hi : v.ops i = some x)
    (ht : x.type = .accept) {j : ℕ} {y : Held} (hj : v.ops j = some y) (hy : y.type = .write) :
    y.clientId ≠ x.clientId := by
  intro hc
  obtain rfl := h.accept_alone hu hi ht hj hc
  obtain rfl := Option.some.inj (hj.symm.trans hi)
  exact absurd (hy.symm.trans ht) (by decide)

/-- A send of a client that holds a connection is for that connection. -/
theorem World.HoldsConn.routes (hx : w.HoldsConn v i x n fd) (h : w.Serving v) (hu : v.Unwrapped)
    {j : ℕ} {y : Held} (hj : v.ops j = some y) (ht : y.type = .write) (hc : v.clients y.clientId ≠ none)
    {k : ℕ} (hk : v.fds y.clientFd = some (.conn k)) : y.clientId = x.clientId ↔ k = n := by
  obtain ⟨cl, j', y', hcon⟩ := (h.census.unwrapped_life hu y.clientId).connected_of hj rfl hc (by simp [ht])
  have hfd : y.clientFd = cl.fd := hcon.fd j y hj rfl
  have hold : w.Holds v j' cl.fd :=
    .client hcon.op hcon.type (by rwa [hcon.clientId]) (hcon.fd j' y' hcon.op hcon.clientId)
  rw [hfd] at hk
  constructor
  · intro he
    obtain ⟨hholds, hop, hconn⟩ := hx
    cases hholds with
    | client hx' _ _ hfd' =>
      obtain rfl := Option.some.inj (hop.symm.trans hx')
      have hfd'' := hcon.fd i x hop he.symm
      rw [← hfd', hfd'', hk] at hconn
      cases hconn
      rfl
    | accepted _ _ hx' htype =>
      obtain rfl := Option.some.inj (hop.symm.trans hx')
      exact absurd he (h.accept_no_write hu hop htype hj ht)
  · rintro rfl
    have hfd' := h.conn_inj _ _ _ hk hx.conn
    obtain rfl := (h.descriptors hu).inj j' i _ hold (hfd' ▸ hx.holds)
    obtain rfl := Option.some.inj (hcon.op.symm.trans hx.op)
    exact hcon.clientId.symm

theorem World.Outgoing.mono (h : w.Outgoing v) (hlen : w.conns.length ≤ w'.conns.length)
    (hsub : ∀ s ∈ w'.inflight, s ∈ w.inflight)
    (hops : ∀ s ∈ w'.inflight, ∀ y, v'.ops s.sqe.userData = some y → y.type = .write →
      ∃ y₀, v.ops s.sqe.userData = some y₀ ∧ y₀.type = .write ∧ y₀.clientId = y.clientId)
    (hback : ∀ i x k fd, w'.HoldsConn v' i x k fd → ∃ x₀, x₀.clientId = x.clientId ∧
      w.HoldsConn v i x₀ k fd)
    (hstream : ∀ i x k fd line sent stream, w'.HoldsConn v' i x k fd → w.conns[k]? = some stream →
      w.Streamed v x.clientId line sent stream → ∃ line' sent' stream', w'.conns[k]? = some stream' ∧
        w'.Streamed v' x.clientId line' sent' stream') : w'.Outgoing v' where
  conn_lt := fun s hs k hk => (h.conn_lt s (hsub s hs) k hk).trans_le hlen
  routed := by
    intro s hs y hy ht i x k fd hx
    obtain ⟨y₀, hy₀, ht₀, hc₀⟩ := hops s hs y hy ht
    obtain ⟨x₀, hc, hx₀⟩ := hback i x k fd hx
    rw [← hc₀, ← hc]
    exact h.routed s (hsub s hs) y₀ hy₀ ht₀ i x₀ k fd hx₀
  streamed := by
    intro i x k fd hx
    obtain ⟨x₀, hc, hx₀⟩ := hback i x k fd hx
    obtain ⟨line, sent, stream, hk, hs⟩ := h.streamed i x₀ k fd hx₀
    rw [hc] at hs
    exact hstream i x k fd line sent stream hx hk hs

theorem World.Holds.op (h : w.Holds v i fd) : ∃ x, v.ops i = some x := by
  cases h with
  | client hx => exact ⟨_, hx⟩
  | accepted _ _ hx => exact ⟨_, hx⟩

theorem World.HoldsConn.client {k : ℕ} (hx : w.HoldsConn v i x k fd) (h : w.Serving v)
    (hu : v.Unwrapped) {j : ℕ} {y : Held} (hj : v.ops j = some y) (ht : y.type = .write)
    (hc : y.clientId = x.clientId) : v.clients x.clientId ≠ none := by
  obtain ⟨hholds, hop, -⟩ := hx
  cases hholds with
  | client hx' _ hmap =>
    obtain rfl := Option.some.inj (hop.symm.trans hx')
    exact hmap
  | accepted _ _ hx' htype =>
    obtain rfl := Option.some.inj (hop.symm.trans hx')
    exact absurd hc (h.accept_no_write hu hop htype hj ht)

theorem View.Handles.clientId_eq {res : ℤ} (hh : v.Handles i x res v') (hi : v.ops i = some x) {k : ℕ}
    {y z : Held} (hk : v.ops k = some y) (hz : v'.ops k = some z) : z.clientId = y.clientId := by
  cases hh.origin hi hz with
  | kept _ hk' => rw [Option.some.inj (hk.symm.trans hk')]
  | reply hk' => exact absurd (hk.symm.trans hk') (by simp)
  | own hki _ _ hc =>
    subst hki
    rw [hc, Option.some.inj (hi.symm.trans hk)]
  | connected hki _ _ _ hc =>
    subst hki
    rw [hc, Option.some.inj (hi.symm.trans hk)]
  | next hk' => exact absurd (hk.symm.trans hk') (by simp)

theorem World.Outgoing.handles {cqe : Cqe} {cq : List Cqe} {srv : Server} {pc : Pc} (h : w.Outgoing v)
    (hs : w.Serving v) (hw : w.Owned v) (hw' : World.Owned { w with srv := srv, cq := cq, pc := pc } v')
    (hs' : World.Serving { w with srv := srv, cq := cq, pc := pc } v') (hcq : w.cq = cqe :: cq)
    (hi : v.ops cqe.sqe.userData = some x) (hu : v'.Unwrapped)
    (hh : (v.log (x.completed cqe)).Handles cqe.sqe.userData x cqe.res v') :
    World.Outgoing { w with srv := srv, cq := cq, pc := pc } v' := by
  have hu₀ := hh.unwrapped hu
  have hc : cqe.ticket ∈ w.outstanding := by simp [World.outstanding, hcq]
  have hback : ∀ t ∈ World.outstanding { w with srv := srv, cq := cq, pc := pc }, t ∈ w.outstanding := by
    intro t ht
    simp only [World.outstanding, hcq, List.mem_append, List.map_cons, List.mem_cons] at ht ⊢
    rcases ht with ht | ht | ht
    · exact .inl ht
    · exact .inr (.inl ht)
    · exact .inr (.inr (.inr ht))
  have hout : ∀ t ∈ w.outstanding, t ≠ cqe.ticket →
      t ∈ World.outstanding { w with srv := srv, cq := cq, pc := pc } := by
    intro t ht hne
    simp only [World.outstanding, hcq, List.mem_append, List.map_cons, List.mem_cons] at ht ⊢
    rcases ht with ht | ht | ht | ht
    · exact .inl ht
    · exact .inr (.inl ht)
    · exact absurd ht hne
    · exact .inr (.inr ht)
  have hholds : ∀ i y k fd, World.HoldsConn { w with srv := srv, cq := cq, pc := pc } v' i y k fd →
      ∃ y₀, y₀.clientId = y.clientId ∧ w.HoldsConn v i y₀ k fd := by
    rintro i y k fd ⟨hhold, hop, hconn⟩
    have hhold₀ := hhold.handles hs.census hw hback hc hi hu hh
    obtain ⟨y₀, hy₀⟩ := hhold₀.op
    refine ⟨y₀, (hh.clientId_eq hi hy₀ hop).symm, hhold₀, hy₀, ?_⟩
    rw [← hhold.fds_handles (hs.descriptors hu₀) hs.census hw hback hc hi hu hh]
    exact hconn
  refine h.mono le_rfl (fun s hs => hs) ?_ hholds ?_
  · intro s hsm y hy ht
    have hm : s.ticket ∈ queue v.sq ++ w.outstanding := by
      simp only [World.outstanding, List.mem_append, List.mem_map]
      exact .inr (.inl ⟨s, hsm, rfl⟩)
    obtain ⟨y₀, hy₀, -⟩ := hw.owns.held hm
    have hne : s.sqe.userData ≠ cqe.sqe.userData := by
      intro he
      have heq := hw.owns.eq_of_id hm (List.mem_append_right _ hc) he
      simp [Submitted.ticket, Cqe.ticket] at heq
    have hy₁ := hh.op_of_ne hne hy₀
    obtain rfl := Option.some.inj (hy.symm.trans hy₁)
    exact ⟨y, hy₀, ht, rfl⟩
  · intro i y k fd line sent stream hy hk hst
    obtain ⟨y₀, hyc, hy₀⟩ := hholds i y k fd hy
    obtain ⟨line', hst'⟩ := hst.handles hw hw' hi (List.mem_append_right _ hc) hout hback hh (by
      intro hxt hxc
      refine ⟨hyc ▸ hy₀.client hs hu₀ hi hxt (hxc.trans hyc.symm), ?_⟩
      obtain ⟨hhold, hop, -⟩ := hy
      cases hhold with
      | client hz _ hmap =>
        obtain rfl := Option.some.inj (hop.symm.trans hz)
        exact hmap
      | accepted _ _ hz htype =>
        -- the client of the pending accept is in the map
        obtain rfl := Option.some.inj (hop.symm.trans hz)
        obtain ⟨a, z, ha, hat, hmap, -⟩ := hs'.accepting hu
        have hai := hs'.oneAccept a i z y ha hop hat htype
        subst hai
        rwa [← Option.some.inj (ha.symm.trans hop)])
    exact ⟨line', sent, stream, hk, hst'⟩

theorem World.HoldsConn.of_done {k : ℕ} (h : w'.HoldsConn v' i x k fd) (hops : v'.ops = v.ops)
    (hcl : v'.clients = v.clients) (hfds : v'.fds = v.fds)
    (hout : ∀ t ∈ w'.outstanding, ∀ res data, t.stage = .done res data → t ∈ w.outstanding) :
    w.HoldsConn v i x k fd := by
  obtain ⟨hhold, hop, hconn⟩ := h
  rw [hops] at hop
  rw [hfds] at hconn
  exact ⟨hhold.of_done hops hcl hout, hop, hconn⟩

theorem World.Outgoing.restage (h : w.Outgoing v) (hin : w'.inflight = w.inflight)
    (hconns : w'.conns = w.conns) (hout : ∀ t, t ∈ w'.outstanding ↔ t ∈ w.outstanding) :
    w'.Outgoing v := by
  refine h.mono (by rw [hconns]) (fun s hs => hin ▸ hs) (fun s _ y hy ht => ⟨y, hy, ht, rfl⟩) ?_ ?_
  · intro i x k fd hx
    exact ⟨x, rfl, hx.of_done rfl rfl rfl fun t ht _ _ _ => (hout t).mp ht⟩
  · intro i x k fd line sent stream hx hk hs
    have hmem : ∀ t, t ∈ queue v.sq ++ w'.outstanding ↔ t ∈ queue v.sq ++ w.outstanding := by
      intro t
      rw [List.mem_append, List.mem_append, hout t]
    obtain ⟨line', hs'⟩ : ∃ line', w'.Streamed v x.clientId line' sent stream :=
      hs.restage rfl (fun _ _ _ => Iff.rfl) (fun t ht _ _ _ _ => ⟨t, (hmem t).mp ht, rfl, rfl⟩)
        fun t ht _ _ _ _ => ⟨t, (hmem t).mpr ht, rfl⟩
    exact ⟨line', sent, stream, hconns ▸ hk, hs'⟩

theorem Server.resolve_sqe (srv : Server) (e : Sqe) : (srv.resolve e).sqe = e := by
  simp only [Server.resolve]
  split <;> rfl

theorem Server.resolve_conn {srv : Server} {e : Sqe} {k : ℕ} (h : (srv.resolve e).conn = some k) :
    ∃ fd, srv.fds fd = some (.conn k) := by
  simp only [Server.resolve] at h
  split at h
  · cases h
  all_goals
    rename_i fd _ _ _ _
    refine ⟨fd, ?_⟩
    simp only at h
    split at h
    · rename_i k' hk'
      rw [hk', Option.some.inj h]
    · cases h

theorem World.Outgoing.submit (h : w.Outgoing v) (hs : w.Serving v) (hw : w.Owned v) (hq : v.Queued)
    (hu : v.Unwrapped) : w.submit.Outgoing { v with sq := [] } := by
  have hback : ∀ i x k fd, w.submit.HoldsConn { v with sq := [] } i x k fd → w.HoldsConn v i x k fd :=
    fun i x k fd hx => hx.of_done rfl rfl rfl fun t ht _ _ hst => World.done_of_submit ht hst
  refine ⟨?_, ?_, ?_⟩
  · intro s hsm k hk
    rcases List.mem_append.mp hsm with hsm | hsm
    · exact h.conn_lt s hsm k hk
    · obtain ⟨e, -, rfl⟩ := List.mem_map.mp hsm
      obtain ⟨fd, hfd⟩ := Server.resolve_conn hk
      rw [← hw.models.fds] at hfd
      exact hs.conns fd k hfd
  · intro s hsm y hy ht i x k fd hx
    rcases List.mem_append.mp hsm with hsm | hsm
    · exact h.routed s hsm y hy ht i x k fd (hback i x k fd hx)
    · obtain ⟨e, he, rfl⟩ := List.mem_map.mp hsm
      rw [w.srv.resolve_sqe] at hy
      rw [← hw.models.sq] at he
      have hc := hq e he y hy
      obtain ⟨cl, k', -, -, hk'⟩ := hs.open_fd hu hy (by simp [ht]) hc
      have hfit := (hw.owns.fits _ (List.mem_append_left _ (List.mem_map.mpr ⟨e, he, rfl⟩)) y hy).send ht
      obtain ⟨len, hreq, -⟩ := hfit
      have hconn : (w.srv.resolve e).conn = some k' := by
        have hfds : w.srv.fds y.clientFd = some (.conn k') := hw.models.fds ▸ hk'
        simp only at hreq
        simp only [Server.resolve, hreq, hfds]
      rw [hconn, Option.some.injEq]
      exact (hback i x k fd hx).routes hs hu hy ht hc hk'
  · intro i x k fd hx
    obtain ⟨line, sent, stream, hk, hst⟩ := h.streamed i x k fd (hback i x k fd hx)
    obtain ⟨line', hst'⟩ : ∃ line', w.submit.Streamed { v with sq := [] } x.clientId line' sent stream :=
      hst.restage rfl (fun _ _ _ => Iff.rfl) (by
        intro t ht y hy hyt hyc
        rcases World.mem_submit.mp (by simpa [queue] using ht) with ht | ⟨e, he, rfl⟩
        · exact ⟨t, List.mem_append_right _ ht, rfl, rfl⟩
        · refine ⟨⟨e, .queued⟩, List.mem_append_left _ (List.mem_map.mpr ⟨e, hw.models.sq ▸ he, rfl⟩),
            ?_, rfl⟩
          simp only [Ticket.id, Submitted.ticket, w.srv.resolve_sqe]) (by
        intro t ht y hy hyt hyc
        rcases List.mem_append.mp ht with ht | ht
        · obtain ⟨e, he, rfl⟩ := List.mem_map.mp ht
          refine ⟨(w.srv.resolve e).ticket, List.mem_append_right _
            (World.mem_submit.mpr (.inr ⟨e, hw.models.sq ▸ he, rfl⟩)), ?_⟩
          simp only [Ticket.id, Submitted.ticket, w.srv.resolve_sqe]
        · exact ⟨t, List.mem_append_right _ (World.mem_submit.mpr (.inl ht)), rfl⟩)
    exact ⟨line', sent, stream, hk, hst'⟩

/-! ## The kernel -/

theorem World.perform_conns_of_ne {s : Submitted} {res : ℤ} {data : List UInt8} {k : ℕ}
    (hk : k < w.conns.length) (hne : ∀ fd bref off len, s.sqe.request = .send fd bref off len →
      s.conn ≠ some k) : (w.perform s res data).conns[k]? = w.conns[k]? := by
  unfold World.perform
  cases hreq : s.sqe.request with
  | accept fd info =>
    by_cases hres : res < 0
    · simp only [if_pos hres]
    · simp only [if_neg hres]
      rw [List.getElem?_append_left hk]
  | recv fd bref off len => rfl
  | send fd bref off len =>
    simp only
    split
    · rename_i k' r hk' hr
      rw [List.getElem?_modify_ne]
      rintro rfl
      exact hne fd bref off len hreq hk'
    · rfl

theorem World.HoldsConn.execute {j k : ℕ} {s : Submitted} {res : ℤ} {data : List UInt8}
    (hx : World.HoldsConn { w.perform s res data with
      inflight := w.inflight.eraseIdx j, executed := w.executed ++ [⟨s.sqe, res, data⟩] }
      (v.perform s.sqe res data w.conns.length) i x k fd)
    (hd : w.Descriptors v) (hw : w.Owned v) (hsj : w.inflight[j]? = some s)
    (hadm : s.sqe.request.Admits v.fds res data) :
    (∃ x₀, x₀.clientId = x.clientId ∧ w.HoldsConn v i x₀ k fd) ∨
      (k = w.conns.length ∧ x.type = .accept ∧ 0 ≤ res ∧ (∃ x₀, x₀.clientId = x.clientId ∧
        x₀.type = .accept ∧ v.ops i = some x₀) ∧ ∃ fd info, s.sqe.request = .accept fd info) := by
  obtain ⟨hhold, hop, hconn⟩ := hx
  obtain ⟨buf, hop₀⟩ := View.perform_ops hop
  rcases hhold.execute hw hsj with hhold | ⟨rfl, rfl, hres, fd', info, hreq⟩
  · refine .inl ⟨{ x with buf := buf }, rfl, hhold, hop₀, ?_⟩
    obtain ⟨k', hk'⟩ := hd.conn i fd hhold
    rcases v.perform_fds w.conns.length hadm with ⟨he, -⟩ | ⟨he, hnone, -, -⟩
    · rwa [he] at hconn
    · have hne : fd ≠ res := by
        rintro rfl
        exact absurd (hk'.symm.trans hnone) (by simp)
      rwa [he, Function.update_of_ne hne] at hconn
  · have hm : s.ticket ∈ queue v.sq ++ w.outstanding :=
      List.mem_append_right _ ((World.outstanding_execute hsj).mem_iff.mpr List.mem_cons_self)
    have hfit := (hw.owns.fits _ hm _ hop₀).1
    change s.sqe.request.Fits _ at hfit
    rw [hreq] at hfit
    refine .inr ⟨?_, hfit.1, hres, ⟨{ x with buf := buf }, rfl, hfit.1, hop₀⟩, fd', info, hreq⟩
    rcases v.perform_fds w.conns.length hadm with ⟨-, hneg⟩ | ⟨he, -, -, -⟩
    · have := hneg fd' info hreq
      omega
    · rw [he, Function.update_self] at hconn
      cases hconn
      rfl

theorem World.Streamed.new (hno : ∀ t x, ¬ w.Writer v c t x) :
    w.Streamed v c (fun _ => 0) (fun _ => 0) [] where
  framed := Framed.nil _
  begun := fun _ hn => absurd hn (Nat.lt_irrefl 0)
  carried := fun t x hx => absurd hx (hno t x)
  settled := fun _ hn => absurd hn.1 (Nat.lt_irrefl 0)

theorem World.Streamed.execute_send {j k : ℕ} {s : Submitted} {res : ℤ} {data : List UInt8} {y : Held}
    (h : w.Streamed v c line sent stream) (hw : w.Owned v) (hok : w.SendsAlone (.execute j res data))
    (hsj : w.inflight[j]? = some s) (hadm : s.sqe.request.Admits v.fds res data)
    (hw' : World.Owned { w.perform s res data with
      inflight := w.inflight.eraseIdx j, executed := w.executed ++ [⟨s.sqe, res, data⟩] }
      (v.perform s.sqe res data w.conns.length))
    (hy : v.ops s.sqe.userData = some y) (hyt : y.type = .write) (hyc : y.clientId = c)
    (hmap : v.clients c ≠ none) (hconn : s.conn = some k) (hk : w.conns[k]? = some stream) :
    ∃ sent' stream', (w.perform s res data).conns[k]? = some stream' ∧
      World.Streamed { w.perform s res data with
        inflight := w.inflight.eraseIdx j, executed := w.executed ++ [⟨s.sqe, res, data⟩] }
        (v.perform s.sqe res data w.conns.length) c line sent' stream' := by
  have hm : s.ticket ∈ queue v.sq ++ w.outstanding :=
    List.mem_append_right _ ((World.outstanding_execute hsj).mem_iff.mpr List.mem_cons_self)
  obtain ⟨hnew, hold⟩ := World.mem_execute res data hsj
  obtain ⟨len, hreq, hlen, -, -⟩ := (hw.owns.fits _ hm y hy).send hyt
  change s.sqe.request = _ at hreq
  have hview : v.perform s.sqe res data w.conns.length = v := by
    simp only [View.perform, hreq]
  have hstream : (w.perform s res data).conns[k]? =
      some (stream ++ (y.buf.drop y.processed).take res.toNat) := by
    have hblock := hw.models.bufs.block _ y hy
    simp only [World.perform, hreq, hconn, hblock, List.getElem?_modify_eq, hk]
    rfl
  rw [hreq] at hadm
  rw [hview] at hw' ⊢
  obtain ⟨sent', hst'⟩ := h.write hw' (t := s.ticket) (x := y) ⟨hm, hy, hyt, hyc⟩ rfl (by
      have hle := hadm.2
      omega) (List.mem_append_right _ hnew) (by
      intro t' ht' hne
      rcases List.mem_append.mp ht' with ht' | ht'
      · exact List.mem_append_left _ ht'
      rcases World.mem_outstanding_execute ht' with ht' | rfl
      · exact List.mem_append_right _ ht'
      · exact absurd rfl hne) (by
      intro t' ht' hne
      rcases List.mem_append.mp ht' with ht' | ht'
      · exact List.mem_append_left _ ht'
      · exact List.mem_append_right _ (hold t' ht' fun he => hne (by rw [he]))) (by
      rintro hpos t' z ⟨ht', hz, hzt, hzc⟩ hne
      rw [World.SendsAlone] at hok
      have hin : (w.srv.info y.clientId).isSome :=
        Option.isSome_iff_ne_none.mpr fun hnone =>
          hmap (hyc ▸ hw.models.info_eq_none.mp hnone)
      refine hok hpos s hsj _ (hw.op_eq_some.mpr ⟨y, hy, rfl⟩) hyt hin t' ?_ hne _
        (hw.op_eq_some.mpr ⟨z, hz, rfl⟩) hzt (hzc.trans hyc.symm)
      rwa [World.tickets, ← hw.models.sq])
  exact ⟨sent', _, hstream, hst'⟩

theorem World.Streamed.execute_other {j : ℕ} {s : Submitted} {res : ℤ} {data : List UInt8} {y : Held}
    (h : w.Streamed v c line sent stream) (hw : w.Owned v) (hsj : w.inflight[j]? = some s)
    (hy : v.ops s.sqe.userData = some y) (hown : ¬ (y.type = .write ∧ y.clientId = c)) :
    ∃ line', World.Streamed { w.perform s res data with
      inflight := w.inflight.eraseIdx j, executed := w.executed ++ [⟨s.sqe, res, data⟩] }
      (v.perform s.sqe res data w.conns.length) c line' sent stream := by
  have hm : s.ticket ∈ queue v.sq ++ w.outstanding :=
    List.mem_append_right _ ((World.outstanding_execute hsj).mem_iff.mpr List.mem_cons_self)
  have hfits : ∀ x, v.ops s.sqe.userData = some x → s.sqe.request.Fits x := fun x hx =>
    (hw.owns.fits _ hm x hx).1
  obtain ⟨-, hold⟩ := World.mem_execute res data hsj
  refine h.restage (v.perform_trace s.sqe res data w.conns.length)
    (fun i z hz => View.perform_write hfits hz) ?_ ?_
  · intro t ht z hz hzt hzc
    rw [View.perform_sq] at ht
    rcases List.mem_append.mp ht with ht | ht
    · exact ⟨t, List.mem_append_left _ ht, rfl, rfl⟩
    rcases World.mem_outstanding_execute ht with ht | rfl
    · exact ⟨t, List.mem_append_right _ ht, rfl, rfl⟩
    · obtain rfl := Option.some.inj (hy.symm.trans hz)
      exact absurd ⟨hzt, hzc⟩ hown
  · intro t ht z hz hzt hzc
    rw [View.perform_sq]
    refine ⟨t, ?_, rfl⟩
    rcases List.mem_append.mp ht with ht | ht
    · exact List.mem_append_left _ ht
    · refine List.mem_append_right _ (hold t ht ?_)
      rintro rfl
      obtain rfl := Option.some.inj (hy.symm.trans hz)
      exact hown ⟨hzt, hzc⟩

theorem World.Outgoing.execute {j : ℕ} {s : Submitted} {res : ℤ} {data : List UInt8}
    (h : w.Outgoing v) (hs : w.Serving v) (hw : w.Owned v) (hu : v.Unwrapped)
    (hok : w.SendsAlone (.execute j res data)) (hsj : w.inflight[j]? = some s)
    (hadm : s.sqe.request.Admits v.fds res data)
    (hw' : World.Owned { w.perform s res data with
      inflight := w.inflight.eraseIdx j, executed := w.executed ++ [⟨s.sqe, res, data⟩] }
      (v.perform s.sqe res data w.conns.length)) :
    World.Outgoing { w.perform s res data with
      inflight := w.inflight.eraseIdx j, executed := w.executed ++ [⟨s.sqe, res, data⟩] }
      (v.perform s.sqe res data w.conns.length) := by
  have hm : s.ticket ∈ queue v.sq ++ w.outstanding :=
    List.mem_append_right _ ((World.outstanding_execute hsj).mem_iff.mpr List.mem_cons_self)
  obtain ⟨y, hy, -⟩ := hw.owns.held hm
  have hfits : ∀ x, v.ops s.sqe.userData = some x → s.sqe.request.Fits x := fun x hx =>
    (hw.owns.fits _ hm x hx).1
  refine ⟨?_, ?_, ?_⟩
  · intro s' hs' k hk
    exact (h.conn_lt s' ((List.eraseIdx_sublist _ _).mem hs') k hk).trans_le
      (w.perform_conns_length s res data).1
  · intro s' hs' z hz ht i x k fd hx
    have hs'' := (List.eraseIdx_sublist _ _).mem hs'
    have hz₀ := (View.perform_write hfits ht).mp hz
    rcases hx.execute (hs.descriptors hu) hw hsj hadm with ⟨x₀, hc, hx₀⟩ |
      ⟨rfl, -, -, ⟨x₀, hc, hxt₀, hx₀⟩, -⟩
    · rw [← hc]
      exact h.routed s' hs'' z hz₀ ht i x₀ k fd hx₀
    · -- the connection is new
      refine iff_of_false (fun he => ?_) fun hk => lt_irrefl _ (h.conn_lt s' hs'' _ hk)
      exact hs.accept_no_write hu hx₀ hxt₀ hz₀ ht (he.trans hc.symm)
  · intro i x k fd hx
    rcases hx.execute (hs.descriptors hu) hw hsj hadm with ⟨x₀, hc, hx₀⟩ |
      ⟨rfl, -, hres, ⟨x₀, hc, hxt₀, hx₀⟩, fd', info, hreq⟩
    · obtain ⟨line, sent, stream, hk, hst⟩ := h.streamed i x₀ k fd hx₀
      have hlt : k < w.conns.length := hs.conns fd k hx₀.conn
      rw [hc] at hst
      by_cases hown : y.type = .write ∧ y.clientId = x.clientId
      · -- the client's own send
        obtain ⟨hyt, hyc⟩ := hown
        have hconn := (h.routed s (List.mem_of_getElem? hsj) y hy hyt i x₀ k fd hx₀).mp (hyc.trans hc.symm)
        have hmap : v.clients x.clientId ≠ none := hc ▸ hx₀.client hs hu hy hyt (hyc.trans hc.symm)
        exact ⟨line, hst.execute_send hw hok hsj hadm hw' hy hyt hyc hmap hconn hk⟩
      · -- someone else's, or no send at all
        have hsame : (w.perform s res data).conns[k]? = some stream := by
          rw [World.perform_conns_of_ne hlt, hk]
          intro fd' bref off len hreq hconn
          have hyt : y.type = .write := by
            have hf := hfits y hy
            rw [hreq] at hf
            exact hf.1
          refine hown ⟨hyt, ?_⟩
          rw [← hc]
          exact (h.routed s (List.mem_of_getElem? hsj) y hy hyt i x₀ k fd hx₀).mpr hconn
        obtain ⟨line', hst'⟩ := hst.execute_other hw hsj hy hown
        exact ⟨line', sent, stream, hsame, hst'⟩
    · refine ⟨fun _ => 0, fun _ => 0, [], ?_, World.Streamed.new ?_⟩
      · simp only [World.perform, hreq, if_neg (not_lt.mpr hres)]
        rw [List.getElem?_append_right le_rfl, Nat.sub_self]
        rfl
      · rintro t z ⟨-, hz, hzt, hzc⟩
        have hz₀ := (View.perform_write hfits hzt).mp hz
        exact hs.accept_no_write hu hx₀ hxt₀ hz₀ hzt (hzc.trans hc.symm)

/-! ## Runs -/

theorem World.Moves.unwrapped {a : Action} (hm : w.Moves v a w' v') (hu : v'.Unwrapped) :
    v.Unwrapped := by
  rw [View.Unwrapped, List.nodup_iff_count_le_one] at hu ⊢
  exact fun c => (hm.count_le c).trans (hu c)

theorem World.Outgoing.moves {a : Action} (h : w.Outgoing v) (hs : w.Serving v) (hw : w.Owned v)
    (hq : v.Queued) (hok : w.SendsAlone a) (hm : w.Moves v a w' v') (hw' : w'.Owned v')
    (hu : v'.Unwrapped) : w'.Outgoing v' := by
  have hu₀ := hm.unwrapped hu
  have hs' := hs.moves hw hm
  cases hm with
  | execute hsj hadm => exact h.execute hs hw hu₀ hok hsj hadm hw'
  | post hc => exact h.restage rfl rfl fun t => (World.outstanding_post hc).mem_iff.symm
  | submit => exact h.submit hs hw hq hu₀
  | turn => exact h.restage rfl rfl fun _ => Iff.rfl
  | handle hpc hcq hsrv hx hh => exact h.handles hs hw hw' hs' hcq hx hu hh

theorem Run.outgoing (hr : Run World.Orderly w) :
    ∃ v, w.Owned v ∧ w.Serving v ∧ (v.Unwrapped → w.Outgoing v) := by
  obtain ⟨v, hw, hs, -, ho⟩ := Run.induct (P := fun w v =>
    w.Serving v ∧ v.Queued ∧ (v.Unwrapped → w.Outgoing v)) (by
      intro srv serverFd j bref buf cl hfd _ _
      have hs := World.Serving.start srv serverFd hfd j bref buf cl
      refine ⟨hs, ?_, fun hu => ⟨by simp, by simp, ?_⟩⟩
      · intro e he y hy
        rcases update_eq_some_iff.mp hy with ⟨-, ⟨⟩⟩ | ⟨-, ⟨⟩⟩
        simp
      · rintro i x k fd ⟨hhold, -, -⟩
        cases hhold with
        | client hx ht =>
          rcases update_eq_some_iff.mp hx with ⟨-, ⟨⟩⟩ | ⟨-, ⟨⟩⟩
          cases ht
        | accepted ht => simp [World.outstanding] at ht) (by
      rintro w v a w' v' hw ⟨hs, hq, ho⟩ ⟨hdrop, halone⟩ hm hw'
      exact ⟨hs.moves hw hm, hq.moves hw hdrop hm,
        fun hu => (ho (hm.unwrapped hu)).moves hs hw hq halone hm hw' hu⟩) hr
  exact ⟨v, hw, hs, ho⟩

theorem Response.deserHeader_bytes (r : Response) (rest : List UInt8) :
    (deserHeader (r.bytes ++ rest)).1.toNat = r.bytes.length := by
  cases r with
  | serverError seqid code =>
    rw [Response.bytes, deserHeader_frame _ _ _ _ (by simp), frame_length]
    simp
  | setUsernameResponse seqid =>
    rw [Response.bytes, deserHeader_frame _ _ _ _ (by simp), frame_length]
    simp

/-- In every orderly run the stream of a connected client consists of whole responses,
and the header of each has its length. -/
theorem outgoing_stream_whole (w : World) (hr : Run World.Orderly w)
    (hacc : w.srv.accepts < 2 ^ 64 - 1) (c : UInt64) (info : ClientInfo) (hinfo : w.srv.info c = some info)
    (hread : ∃ i o, w.op i = some o ∧ o.type = .read ∧ o.clientId = c) :
    (∃ k stream, w.srv.fds info.clientFd = some (.conn k) ∧ w.conns[k]? = some stream ∧
      WholeResponses c w.srv.trace stream) ∧
    ∀ n r, responseAt c w.srv.trace n = some r → ∀ rest,
      (deserHeader (r.bytes ++ rest)).1.toNat = r.bytes.length := by
  obtain ⟨v, hw, hs, ho⟩ := hr.outgoing
  have hu := hs.unwrapped hw hacc
  obtain ⟨i, o, hop, ht, rfl⟩ := hread
  obtain ⟨x, hx, rfl⟩ := hw.op_eq_some.mp hop
  obtain ⟨cl, hcl, hfd⟩ := hw.models.info_eq_some hinfo
  replace hcl : v.clients x.clientId = some cl := hcl
  replace ht : x.type = .read := ht
  have hmap : v.clients x.clientId ≠ none := fun hn => absurd (hcl.symm.trans hn) (by simp)
  obtain ⟨cl', k, hcl', hxfd, hk⟩ := hs.open_fd hu hx (by simp [ht]) hmap
  obtain rfl := Option.some.inj (hcl.symm.trans hcl')
  obtain ⟨line, sent, stream, hst, hstream⟩ := (ho hu).streamed i x k x.clientFd
    ⟨.client hx ht hmap rfl, hx, hk⟩
  obtain ⟨ns, hnd, hpos, hpre⟩ := hstream.framed.isPrefix
  refine ⟨⟨k, stream, ?_, hst, ns, hnd, ?_, ?_⟩, fun _ r _ => r.deserHeader_bytes⟩
  · rw [← hw.models.fds, hfd, ← hxfd, hk]
  · intro n hn
    have hb := hstream.begun n (hpos n hn)
    rwa [hw.models.trace] at hb
  · rwa [hw.models.trace] at hpre

/-- Two names in one piece: the first reply is cut short and resumed, and only then
the second one is sent. -/
theorem outgoing_stream_whole_resumed : ∃ w stream, Run World.Orderly w ∧ w.conns = [stream] ∧
    stream.length = 22 ∧ WholeResponses 1 w.srv.trace stream := by
  let name : UInt8 → List UInt8 := fun seqid => [0, 14, 1, 0, 0, 0, 0, 0, 0, 0, seqid, 97, 98, 99]
  have hrun : (World.runMainWhile World.Orderly 3 .zero ([.serve .zero] ++ Action.complete 0 5 [] ++
      Action.complete 0 28 (name 7 ++ name 8) ++ Action.complete 1 5 [] ++ Action.complete 3 6 [] ++
      Action.complete 1 11 [])).map (fun w => (decide (w.srv.accepts = 1 ∧ (w.srv.info 1).isSome ∧
        (w.op 0).map (fun o => (o.type, o.clientId)) = some (.read, 1)), w.conns.map List.length)) =
      some (true, [22]) := by
    decide +kernel
  obtain ⟨w, hw, hres⟩ := Option.map_eq_some_iff.mp hrun
  simp only [Prod.mk.injEq, decide_eq_true_eq, Option.map_eq_some_iff] at hres
  obtain ⟨⟨hacc, hinfo, o, ho, ht, hid⟩, hconns⟩ := hres
  obtain ⟨info, hinfo⟩ := Option.isSome_iff_exists.mp hinfo
  obtain ⟨stream, hst, hlen⟩ := List.map_eq_singleton_iff.mp hconns
  have hr := World.runMainWhile_run (by decide) hw
  obtain ⟨⟨k, stream', -, hk, hwhole⟩, -⟩ := outgoing_stream_whole w hr (by rw [hacc]; norm_num) 1
    info hinfo ⟨0, o, ho, ht, hid⟩
  have hs : stream' = stream := by
    have hmem := List.mem_of_getElem? hk
    rwa [hst, List.mem_singleton] at hmem
  exact ⟨w, stream, hr, hst, hlen, hs ▸ hwhole⟩

def responses (c : UInt64) (log : List Event) : List Response :=
  log.filterMap fun
    | .queued id _ r => if id = c then some r else none
    | _ => none

theorem mem_responses {r : Response} (h : responseAt c log n = some r) : r ∈ responses c log := by
  rw [responseAt] at h
  split at h
  · rename_i id i r' hr'
    exact List.mem_filterMap.mpr ⟨_, List.mem_of_getElem? hr', h⟩
  · cases h

/-- A stream of whole responses starts with one of them, if it is long enough. -/
theorem WholeResponses.first (h : WholeResponses c log stream) (hlen : 12 ≤ stream.length) :
    ∃ r ∈ responses c log, r.bytes <+: stream := by
  obtain ⟨ns, -, hns, hpre⟩ := h
  cases ns with
  | nil =>
    rw [List.flatMap_nil, List.prefix_nil] at hpre
    simp [hpre] at hlen
  | cons n ns =>
    obtain ⟨r, hr⟩ := Option.ne_none_iff_exists'.mp (hns n List.mem_cons_self)
    have hle := r.bytes_length
    rw [List.flatMap_cons, messageAt, hr] at hpre
    exact ⟨r, mem_responses hr, List.prefix_of_prefix_length_le (List.prefix_append _ _) hpre (by omega)⟩

/-- Two names in one piece: the first reply is cut short after five bytes and the
second one is sent before the rest of it. -/
theorem outgoing_stream_mixed : ∃ w stream, Reachable w ∧ w.srv.accepts = 1 ∧
    (w.srv.info 1).isSome ∧ w.conns = [stream] ∧ ¬ WholeResponses 1 w.srv.trace stream := by
  let name : UInt8 → List UInt8 := fun seqid => [0, 14, 1, 0, 0, 0, 0, 0, 0, 0, seqid, 97, 98, 99]
  let reply : UInt8 → List UInt8 := fun seqid => [0, 11, 2, 0, 0, 0, 0, 0, 0, 0, seqid]
  have hrun : (World.runMain 3 .zero ([.serve .zero] ++ Action.complete 0 5 [] ++
      Action.complete 0 28 (name 7 ++ name 8) ++ [.execute 1 5 [], .execute 1 11 []])).map
      (fun w => (decide (w.srv.accepts = 1 ∧ (w.srv.info 1).isSome), responses 1 w.srv.trace, w.conns)) =
      some (true, [.setUsernameResponse 7, .setUsernameResponse 8], [(reply 7).take 5 ++ reply 8]) := by
    decide +kernel
  obtain ⟨w, hw, hres⟩ := Option.map_eq_some_iff.mp hrun
  simp only [Prod.mk.injEq, decide_eq_true_eq] at hres
  obtain ⟨⟨hacc, hinfo⟩, hresp, hconns⟩ := hres
  refine ⟨w, _, World.runMain_reachable (by decide) hw, hacc, hinfo, hconns, fun hwhole => ?_⟩
  obtain ⟨r, hr, hpre⟩ := hwhole.first (by decide)
  rw [hresp] at hr
  have hr' : r = .setUsernameResponse 7 ∨ r = .setUsernameResponse 8 := by simpa using hr
  rcases hr' with rfl | rfl <;> exact absurd hpre (by decide)

end

end Caht
