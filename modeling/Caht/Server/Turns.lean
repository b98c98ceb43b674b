import Caht.Server.Connections

/-! # Turns of the receive loop

The loop of `handle_recv` comes to an end on every input, but not always because
the received bytes are used up: a header with length zero leaves it where it is, and
it answers the same message until the submission queue is full.
-/

namespace Caht
open Library Protocol

/-- The receive operation `o` in pool entry `i` is one of a client in the map, whose
node is `info`. -/
structure World.Receives (w : World) (i : ℕ) (o : Operation) (info : ℕ) : Prop where
  reachable : Reachable w
  op : w.op i = some o
  type : o.type = .read
  info : clientMapGet w.srv.clients o.clientId = .ok (some info)

/-- `k` turns of the loop, each of which goes on to the next. -/
inductive Turns (info op : ℕ) (junk : Junk) :
    ℕ → Server → ℕ → ℕ → Server → ℕ → ℕ → Prop
  | zero (srv : Server) (off rest : ℕ) : Turns info op junk 0 srv off rest srv off rest
  | succ {k : ℕ} {srv srv₁ srv' : Server} {off rest off₁ rest₁ off' rest' : ℕ}
      (h : recvTurn info op junk srv off rest = .ok (.next srv₁ off₁ rest₁))
      (ht : Turns info op junk k srv₁ off₁ rest₁ srv' off' rest') :
      Turns info op junk (k + 1) srv off rest srv' off' rest'

/-- The loop ends, and each turn that goes on has consumed bytes. -/
structure RecvTerminates (srv : Server) (info op n : ℕ) (junk : Junk) : Prop where
  returns : handleRecv srv info op n junk ≠ .error .diverges
  finite : ∃ k, ∀ srv' off rest, ¬ Turns info op junk k srv 0 n srv' off rest
  consumes : ∀ k srv₁ off₁ rest₁ srv₂ off₂ rest₂, Turns info op junk k srv 0 n srv₁ off₁ rest₁ →
    recvTurn info op junk srv₁ off₁ rest₁ = .ok (.next srv₂ off₂ rest₂) → off₁ < off₂ ∧ rest₂ < rest₁

/-- Behind `k` complete `SET_USERNAME` messages, one after the other, stands the
header of a `SET_USERNAME` message with length zero. -/
inductive ZeroAfter (buf : List UInt8) : ℕ → ℕ → ℕ → Prop
  | here {off rest : ℕ} (hrest : protHdrLen ≤ rest)
      (hset : (readMessage (buf.drop off)).msgt = MessageType.setUsername.code)
      (hlen : (readMessage (buf.drop off)).len = 0) : ZeroAfter buf off rest 0
  | there {off rest k : ℕ} (hrest : protHdrLen ≤ rest)
      (hset : (readMessage (buf.drop off)).msgt = MessageType.setUsername.code)
      (hpos : 0 < (readMessage (buf.drop off)).len)
      (hmax : (readMessage (buf.drop off)).len ≤ bufferSize2KB)
      (hle : (readMessage (buf.drop off)).len ≤ rest)
      (h : ZeroAfter buf (off + (readMessage (buf.drop off)).len)
        (rest - (readMessage (buf.drop off)).len) k) : ZeroAfter buf off rest (k + 1)

/-! ## The state `handle_recv` is called in -/

/-- The view of a state in which `buf` is the content of the receive buffer. -/
structure World.Receives.Seen (w : World) (i : ℕ) (o : Operation) (info : ℕ) (buf : List UInt8)
    (v : View) (x : Held) (c : Client) : Prop where
  models : (w.srv.setBuf o.bufRef buf).Models v
  op : v.ops i = some x
  operation : x.operation i = o
  buf : x.buf = buf
  bufCap : x.bufCap = 2048
  client : v.clients x.clientId = some c
  node : c.node = info
  same : ∀ j, j ≠ i → w.op j = (v.ops j).map (Held.operation · j)
  unqueued : ∀ cqe ∈ w.cq, cqe.sqe.userData = i → ∀ e ∈ v.sq, e.userData ≠ i

theorem World.Receives.seen {w : World} {i : ℕ} {o : Operation} {info : ℕ} (h : w.Receives i o info)
    {buf : List UInt8} (hbuf : buf.length = 2048) : ∃ v x c, Seen w i o info buf v x c := by
  obtain ⟨v, hv, -⟩ := Run.serving h.reachable
  obtain ⟨x, hx, hxo⟩ := hv.op_eq_some.mp h.op
  subst hxo
  obtain ⟨t, ht, hid⟩ := List.mem_map.mp ((hv.owns.used i).mp (by simp [hx]))
  obtain ⟨-, -, -, hcap, -, -⟩ := (hv.owns.fits t ht x (hid ▸ hx)).recv h.type
  have hinfo := h.info
  rw [hv.models.clientMapGet, Except.ok.injEq] at hinfo
  obtain ⟨c, hc, rfl⟩ := Option.map_eq_some_iff.mp hinfo
  refine ⟨_, _, c, hv.models.setBuf hx (hbuf.trans hcap.symm), v.setOp_self i _, rfl, rfl, hcap, hc,
    rfl, ?_, ?_⟩
  · intro j hj
    rw [hv.op]
    simp only [View.setOp, Function.update_of_ne hj]
  · intro cqe hcqe hcid e he heq
    have hnd := hv.owns.nodup
    rw [List.map_append, List.nodup_append] at hnd
    refine hnd.2.2 i ?_ i ?_ rfl
    · exact List.mem_map.mpr ⟨⟨e, .queued⟩, List.mem_map.mpr ⟨e, he, rfl⟩, heq⟩
    · refine List.mem_map.mpr ⟨cqe.ticket, ?_, hcid⟩
      exact List.mem_append_right _ (List.mem_append_right _ (List.mem_map_of_mem hcqe))

/-- No entry for the operation was queued before its completion is handled. -/
theorem World.Receives.Seen.not_queued {w : World} {i : ℕ} {o : Operation} {info : ℕ}
    {buf : List UInt8} {v : View} {x : Held} {c : Client} {cqe : Cqe} {e : Sqe} {sq : List Sqe}
    (hs : Seen w i o info buf v x c) (hcq : cqe ∈ w.cq) (hid : cqe.sqe.userData = i)
    (he : e.userData = i) (hold : e ∈ sq → e ∈ v.sq ∨ e.userData ≠ i) : e ∉ sq := by
  intro hmem
  rcases hold hmem with hmem | hne
  · exact hs.unqueued cqe hcq hid e hmem he
  · exact hne he

section
variable {srv srv' : Server} {v : View} {i : ℕ} {x : Held} {c : Client} {junk : Junk}

/-! ## One turn -/

theorem Server.Models.next {off rest off' rest' : ℕ} (h : srv.Models v) (hi : v.ops i = some x)
    (hc : v.clients x.clientId = some c) (hlen : off + rest ≤ x.bufCap)
    (ht : Caht.recvTurn c.node i junk srv off rest = .ok (.next srv' off' rest')) :
    ∃ m v' c', look x.buf off rest = .ok m ∧ off' = off + m.len ∧ rest' = rest - m.len ∧
      srv'.Models v' ∧ v'.ops i = some x ∧ v'.clients x.clientId = some c' ∧ c'.node = c.node ∧
      v'.entries = v.entries ∧ (∃ e, v'.sq = v.sq ++ [e] ∧ e.userData ≠ i) ∧
      v.sq.length < v.entries := by
  obtain ⟨m, s, hl, rfl, rfl, hroom, hs, hm₁⟩ := (h.recvTurn hi hc junk off rest hlen).ok ht
  obtain ⟨c', hc', hnode, -⟩ := v.answer_client s x.clientId x.clientFd m hc
  have hne : i ≠ s.op := fun he => by simp [← he, hi] at hs
  refine ⟨m, _, c', hl, rfl, rfl, hm₁, ?_, hc', hnode, v.answer_entries _ _ _ _,
    ⟨_, v.answer_sq _ _ _ _, hne.symm⟩, hroom⟩
  rw [View.answer_ops, Function.update_of_ne hne, hi]

theorem Server.Models.next_of_look {off rest : ℕ} {m : Message} (h : srv.Models v)
    (hi : v.ops i = some x) (hc : v.clients x.clientId = some c) (junk : Junk)
    (hlen : off + rest ≤ x.bufCap) (hl : look x.buf off rest = .ok m)
    (hroom : v.sq.length < v.entries) :
    ∃ srv', Caht.recvTurn c.node i junk srv off rest = .ok (.next srv' (off + m.len) (rest - m.len)) := by
  have hturn := h.recvTurn hi hc junk off rest hlen
  cases ht : Caht.recvTurn c.node i junk srv off rest with
  | error e =>
    rcases hturn.error ht with ⟨hfull, -⟩ | ⟨hstop, -⟩
    · exact absurd hfull.2 (by omega)
    · simp [hl] at hstop
  | ok t =>
    have hok := hturn.ok ht
    cases t with
    | done srv' =>
      obtain ⟨stop, hstop, -⟩ := hok
      simp [hl] at hstop
    | next srv' off' rest' =>
      obtain ⟨m', s, hl', rfl, rfl, -⟩ := hok
      obtain rfl := Except.ok.inj (hl.symm.trans hl')
      exact ⟨srv', rfl⟩

theorem look_of_complete {buf : List UInt8} {off rest : ℕ} (hrest : protHdrLen ≤ rest)
    (hset : (readMessage (buf.drop off)).msgt = MessageType.setUsername.code)
    (hmax : (readMessage (buf.drop off)).len ≤ bufferSize2KB)
    (hle : (readMessage (buf.drop off)).len ≤ rest) :
    look buf off rest = .ok (readMessage (buf.drop off)) := by
  rw [look, if_neg (by omega)]
  simp only
  rw [if_neg (by omega), if_neg (by omega), if_neg (not_not.mpr hset)]

/-! ## Whole runs of the loop -/

/-- Where the loop stands after some turns: the operation, its buffer and the client
are the same, and the queue had an entry for each turn. -/
theorem Turns.reach {k off rest off' rest' : ℕ} (ht : Turns c.node i junk k srv off rest srv' off' rest')
    (h : srv.Models v) (hi : v.ops i = some x) (hc : v.clients x.clientId = some c)
    (hlen : off + rest ≤ x.bufCap) : ∃ v' c', srv'.Models v' ∧ v'.ops i = some x ∧
      v'.clients x.clientId = some c' ∧ c'.node = c.node ∧ off' + rest' = off + rest ∧
      (∀ e ∈ v'.sq, e ∈ v.sq ∨ e.userData ≠ i) ∧ k ≤ v.entries - v.sq.length := by
  induction k generalizing srv v c off rest with
  | zero =>
    cases ht
    exact ⟨v, c, h, hi, hc, rfl, rfl, fun e he => .inl he, Nat.zero_le _⟩
  | succ k ih =>
    cases ht with
    | succ hturn ht =>
      obtain ⟨m, v₁, c₁, hl, rfl, rfl, hm₁, hi₁, hc₁, hnode, hent, ⟨e, hsq, hei⟩, hroom⟩ :=
        h.next hi hc hlen hturn
      obtain ⟨-, -, -, hle, -⟩ := look_ok hl
      rw [← hnode] at ht
      obtain ⟨v', c', hm', hi', hc', hnode', hsum, hold, hk⟩ := ih ht hm₁ hi₁ hc₁ (by omega)
      refine ⟨v', c', hm', hi', hc', hnode'.trans hnode, by omega, ?_, ?_⟩
      · intro e' he'
        rcases hold e' he' with hmem | hne
        · rw [hsq, List.mem_append, List.mem_singleton] at hmem
          rcases hmem with hmem | rfl
          · exact .inl hmem
          · exact .inr hei
        · exact .inr hne
      · rw [hent, hsq, List.length_append, List.length_singleton] at hk
        omega

theorem Turns.consumes {k off rest off₁ rest₁ off₂ rest₂ : ℕ} {srv₁ srv₂ : Server}
    (ht : Turns c.node i junk k srv off rest srv₁ off₁ rest₁) (h : srv.Models v)
    (hi : v.ops i = some x) (hc : v.clients x.clientId = some c) (hlen : off + rest ≤ x.bufCap)
    (hz : ∀ k, ZeroAfter x.buf off rest k → v.entries - v.sq.length ≤ k)
    (hturn : recvTurn c.node i junk srv₁ off₁ rest₁ = .ok (.next srv₂ off₂ rest₂)) :
    off₁ < off₂ ∧ rest₂ < rest₁ := by
  induction k generalizing srv v c off rest with
  | zero =>
    cases ht
    obtain ⟨m, v₁, c₁, hl, rfl, rfl, -, -, -, -, -, -, hroom⟩ := h.next hi hc hlen hturn
    obtain ⟨rfl, hrest, -, hle, hset⟩ := look_ok hl
    have hpos : (readMessage (x.buf.drop off₁)).len ≠ 0 := by
      intro hzero
      have hfull := hz 0 (.here hrest hset hzero)
      omega
    simp only [protHdrLen] at hrest
    omega
  | succ k ih =>
    cases ht with
    | succ hfirst ht =>
      obtain ⟨m, v₁, c₁, hl, rfl, rfl, hm₁, hi₁, hc₁, hnode, hent, ⟨e, hsq, -⟩, hroom⟩ :=
        h.next hi hc hlen hfirst
      obtain ⟨rfl, hrest, hmax, hle, hset⟩ := look_ok hl
      rw [← hnode] at ht hturn
      refine ih ht hm₁ hi₁ hc₁ (by omega) ?_ hturn
      intro j hj
      rw [hent, hsq, List.length_append, List.length_singleton]
      rcases Nat.eq_zero_or_pos (readMessage (x.buf.drop off)).len with hzero | hpos
      · have hfull := hz 0 (.here hrest hset hzero)
        omega
      · have hfull := hz (j + 1) (.there hrest hset hpos hmax hle hj)
        omega

/-- A header of length zero in reach is a turn that goes on and consumes nothing. -/
theorem ZeroAfter.stuck {k off rest : ℕ} (hz : ZeroAfter x.buf off rest k) (h : srv.Models v)
    (hi : v.ops i = some x) (hc : v.clients x.clientId = some c) (junk : Junk)
    (hlen : off + rest ≤ x.bufCap) (hroom : k < v.entries - v.sq.length) :
    ∃ srv₁ srv₂ off₁ rest₁, Turns c.node i junk k srv off rest srv₁ off₁ rest₁ ∧
      recvTurn c.node i junk srv₁ off₁ rest₁ = .ok (.next srv₂ off₁ rest₁) := by
  induction hz generalizing srv v c with
  | @here off rest hrest hset hzero =>
    have hl := look_of_complete hrest hset (by omega) (by omega)
    obtain ⟨srv', hturn⟩ := h.next_of_look hi hc junk hlen hl (by omega)
    rw [hzero, Nat.add_zero, Nat.sub_zero] at hturn
    exact ⟨srv, srv', off, rest, .zero srv off rest, hturn⟩
  | @there off rest k hrest hset hpos hmax hle _ ih =>
    obtain ⟨srv', hturn⟩ := h.next_of_look hi hc junk hlen
      (look_of_complete hrest hset hmax hle) (by omega)
    obtain ⟨m, v₁, c₁, -, -, -, hm₁, hi₁, hc₁, hnode, hent, ⟨e, hsq, -⟩, -⟩ := h.next hi hc hlen hturn
    obtain ⟨srv₁, srv₂, off₁, rest₁, ht, hstuck⟩ := ih hm₁ hi₁ hc₁ (by omega) (by
      rw [hent, hsq, List.length_append, List.length_singleton]
      omega)
    rw [hnode] at ht hstuck
    exact ⟨srv₁, srv₂, off₁, rest₁, .succ hturn ht, hstuck⟩

end

/-- A client has connected and sent `data`; the completion of the receive, in pool
entry 0, is the next one the server handles. -/
def World.delivered (data : List UInt8) : Option World :=
  World.runMain 3 .zero ([.serve .zero] ++ Action.complete 0 5 [] ++
    [.execute 0 data.length data, .post 0])

/-- The operation in pool entry 0 then. -/
def firstRecv : Operation := ⟨0, .read, 1, 5, 2048, 0, some 127, 0⟩

theorem World.delivered_receives {data : List UInt8} (h : (World.delivered data).map
    (fun w => (w.op 0, clientMapGet w.srv.clients 1)) = some (some firstRecv, .ok (some 0))) :
    ∃ w, World.delivered data = some w ∧ w.Receives 0 firstRecv 0 := by
  obtain ⟨w, hw, hres⟩ := Option.map_eq_some_iff.mp h
  obtain ⟨hop, hinfo⟩ := Prod.mk.inj hres
  exact ⟨w, hw, World.runMain_reachable (by decide) hw, hop, rfl, hinfo⟩

/-- In every reachable state, and whatever the receive buffer holds, the loop ends
with every turn that goes on having consumed bytes, exactly if no header of length
zero stands behind fewer messages than there are free queue entries. -/
theorem recv_terminates_iff (w : World) (i : ℕ) (o : Operation) (info : ℕ) (buf : List UInt8) (n : ℕ)
    (junk : Junk) (hw : w.Receives i o info) (hbuf : buf.length = 2048) (hn : n ≤ 2048) :
    RecvTerminates (w.srv.setBuf o.bufRef buf) info i n junk ↔
      ∀ k, ZeroAfter buf 0 n k → w.srv.ring.entries - w.srv.ring.sq.length ≤ k := by
  obtain ⟨v, x, c, hs⟩ := hw.seen hbuf
  obtain rfl := hs.node
  obtain rfl := hs.buf
  have hring : (w.srv.setBuf o.bufRef x.buf).ring = w.srv.ring := by
    cases o.bufRef <;> rfl
  have hlen : 0 + n ≤ x.bufCap := by
    rw [hs.bufCap]
    omega
  rw [← hring, ← hs.models.entries, ← hs.models.sq]
  constructor
  · intro hterm k hz
    by_contra hroom
    obtain ⟨srv₁, srv₂, off₁, rest₁, ht, hstuck⟩ :=
      hz.stuck hs.models hs.op hs.client junk hlen (by omega)
    exact lt_irrefl _ (hterm.consumes _ _ _ _ _ _ _ ht hstuck).1
  · intro hz
    refine ⟨?_, ⟨v.entries - v.sq.length + 1, ?_⟩, ?_⟩
    · intro hdiv
      rcases Nat.eq_zero_or_pos n with rfl | hpos
      · rw [Caht.handleRecv, if_pos rfl] at hdiv
        exact absurd ((hs.models.disconnectAndFreeOp hs.op hs.client c.node).error hdiv).1 (by simp)
      · obtain ⟨msg, hexit⟩ := ((hs.models.handleRecv_loop hs.op hs.client junk hpos (by omega)).error
          hdiv).exit
        cases hexit
    · intro srv' off rest ht
      obtain ⟨-, -, -, -, -, -, -, -, hk⟩ := ht.reach hs.models hs.op hs.client hlen
      omega
    · intro k srv₁ off₁ rest₁ srv₂ off₂ rest₂ ht hturn
      exact ht.consumes hs.models hs.op hs.client hlen hz hturn

/-- A `SET_USERNAME` message that says it is 14 bytes long and is. -/
theorem recv_terminates_whole_message : ∃ w : World, w.Receives 0 firstRecv 0 ∧
    RecvTerminates (w.srv.setBuf firstRecv.bufRef
      ([0, 14, 1, 0, 0, 0, 0, 0, 0, 0, 7, 97, 98, 99] ++ List.replicate 2034 0)) 0 0 14 .zero := by
  obtain ⟨w, -, hrecv⟩ := World.delivered_receives
    (show (World.delivered [0, 14, 1, 0, 0, 0, 0, 0, 0, 0, 7, 97, 98, 99]).map _ = _ by decide +kernel)
  refine ⟨w, hrecv, (recv_terminates_iff w 0 firstRecv 0 _ 14 .zero hrecv ?_ (by decide)).mpr ?_⟩
  · rw [List.length_append, List.length_replicate]
    rfl
  · have hlen : (readMessage (List.drop 0
        ([0, 14, 1, 0, 0, 0, 0, 0, 0, 0, 7, 97, 98, 99] ++ List.replicate 2034 0))).len = 14 := by
      decide +kernel
    intro k hz
    cases hz with
    | here _ _ hzero =>
      rw [hlen] at hzero
      cases hzero
    | there _ _ _ _ _ h =>
      rw [hlen] at h
      cases h with
      | here hrest => exact absurd hrest (by decide)
      | there hrest => exact absurd hrest (by decide)

/-- The offset and the bytes left at the next turn. -/
def Turn.position : Turn → Option (ℕ × ℕ)
  | .done _ => none
  | .next _ off bytesRead => some (off, bytesRead)

/-- Eleven bytes whose length field is zero: the reply is queued and the loop stands
where it stood. -/
theorem recv_stays_at_zero_length : ∃ w : World, w.Receives 0 firstRecv 0 ∧
    w.cq.map (fun c => (c.sqe.userData, c.res)) = [(0, 11)] ∧
    ¬ RecvTerminates (w.srv.setBuf firstRecv.bufRef
      ([0, 0, 1, 0, 0, 0, 0, 0, 0, 0, 7] ++ List.replicate 2037 0)) 0 0 11 .zero := by
  obtain ⟨w, hw, hrecv⟩ := World.delivered_receives
    (show (World.delivered [0, 0, 1, 0, 0, 0, 0, 0, 0, 0, 7]).map _ = _ by decide +kernel)
  have hturn : (World.delivered [0, 0, 1, 0, 0, 0, 0, 0, 0, 0, 7]).map (fun w =>
      (w.cq.map (fun c => (c.sqe.userData, c.res)),
        (recvTurn 0 0 .zero (w.srv.setBuf firstRecv.bufRef
          ([0, 0, 1, 0, 0, 0, 0, 0, 0, 0, 7] ++ List.replicate 2037 0)) 0 11).toOption.bind
            Turn.position)) = some ([(0, 11)], some (0, 11)) := by
    decide +kernel
  rw [hw, Option.map_some] at hturn
  obtain ⟨hcq, hturn⟩ := Prod.mk.inj (Option.some.inj hturn)
  refine ⟨w, hrecv, hcq, ?_⟩
  intro hterm
  obtain ⟨t, ht, hpos⟩ := Option.bind_eq_some_iff.mp hturn
  have hnext := toOption_eq_some.mp ht
  cases t with
  | done => cases hpos
  | next srv' off rest =>
    obtain ⟨rfl, rfl⟩ := Prod.mk.inj (Option.some.inj hpos)
    exact absurd (hterm.consumes 0 _ _ _ _ _ _ (.zero _ _ _) hnext).1 (by decide)

end Caht
