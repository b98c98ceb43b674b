import Caht.Server.Descriptors

/-! # The conversation with one client

`Phase` is what decides the server's side of the conversation with one client: the
part of the receive buffer that holds bytes of the client, and where the next ones
go. It is computed from the completions of the client's own operations alone, and
every run of the server follows it.
-/

namespace Caht
open Library Protocol

/-! ## Bytes that are known -/

section
variable {known rest : List UInt8} {off n : ℕ}

theorem deserHeader_append (h : protHdrLen ≤ known.length) :
    deserHeader (known ++ rest) = deserHeader known := by
  rw [protHdrLen] at h
  rw [deserHeader, deserHeader, List.take_append_of_le_length (by omega), List.drop_append_of_le_length
    (by omega), List.take_append_of_le_length (by simp; omega)]
  simp [List.getD, List.getElem?_append_left (show 2 < known.length by omega)]

theorem readMessage_append (h : protHdrLen ≤ known.length) :
    (readMessage (known ++ rest)).len = (readMessage known).len ∧
    (readMessage (known ++ rest)).msgt = (readMessage known).msgt ∧
    ((readMessage known).len ≤ known.length → readMessage (known ++ rest) = readMessage known) := by
  simp only [readMessage, deserHeader_append h]
  refine ⟨trivial, trivial, fun hle => ?_⟩
  rw [List.take_append_of_le_length hle]

/-- The loop looks at received bytes only. -/
theorem scan_append (known rest : List UInt8) (off n : ℕ) (h : off + n ≤ known.length) :
    scan (known ++ rest) off n = scan known off n := by
  induction n using Nat.strong_induction_on generalizing off with
  | _ n ih =>
    rw [scan_eq (known ++ rest) off n, scan_eq known off n]
    by_cases hn : n < protHdrLen
    · rw [if_pos hn, if_pos hn]
    rw [if_neg hn, if_neg hn, List.drop_append_of_le_length (by omega)]
    have hlen : (known.drop off).length = known.length - off := List.length_drop
    obtain ⟨hl, ht, hm⟩ : (readMessage (known.drop off ++ rest)).len = _ ∧ _ ∧ _ :=
      readMessage_append (by omega)
    rw [hl, ht]
    by_cases hbig : (readMessage (known.drop off)).len > bufferSize2KB
    · simp only [if_pos hbig]
    by_cases hpart : n < (readMessage (known.drop off)).len
    · simp only [if_neg hbig, if_pos hpart]
    rw [hm (by omega)]
    by_cases hz : (readMessage (known.drop off)).len = 0
    · simp [hz]
    rw [ih (n - (readMessage (known.drop off)).len) (by simp [protHdrLen] at hn; omega) _ (by omega)]

/-- What is known of a buffer after its bytes from `off` on were moved to the front. -/
def compactKnown (known : List UInt8) (off n : ℕ) : List UInt8 :=
  if n ≤ known.length - off then writeAt known 0 ((known.drop off).take n) else known.drop off

theorem compact_append (known rest : List UInt8) (off n : ℕ) (past : ℕ → UInt8)
    (h : off ≤ known.length) :
    ∃ rest', compact (known ++ rest) off n past = compactKnown known off n ++ rest' := by
  rw [compact, compactKnown, List.drop_append_of_le_length h]
  have hlen : (known.drop off).length = known.length - off := List.length_drop
  by_cases hn : n ≤ known.length - off
  · have hnone : n - ((known ++ rest).length - off) = 0 := by
      rw [List.length_append]
      omega
    rw [if_pos hn, List.take_append_of_le_length (by omega), hnone, List.range_zero, List.map_nil,
      List.append_nil, writeAt_append_left _ _ _ _ (Nat.zero_le _)]
    exact ⟨_, rfl⟩
  · rw [if_neg hn, List.take_append, List.take_of_length_le (by omega), writeAt_zero]
    simp only [List.append_assoc]
    exact ⟨_, rfl⟩

theorem length_compactKnown (h : off + n ≤ known.length) (m : ℕ) :
    n ≤ (compactKnown known off m).length := by
  rw [compactKnown]
  split
  · simp only [writeAt_zero, List.length_append, List.length_take, List.length_drop]
    omega
  · rw [List.length_drop]
    omega

end

/-! ## The phases of a conversation -/

/-- A completion of an operation of the client. -/
structure Completion where
  type : OpType
  res : ℤ
  data : List UInt8
  deriving DecidableEq, Repr

def completions (c : UInt64) (trace : List Event) : List Completion :=
  (history c trace).filterMap fun
    | .completed _ type res data => some ⟨type, res, data⟩
    | _ => none

/-- A line of the log as the client could see it: without the pool id of a reply. -/
def Event.seen : Event → Event
  | .queued id _ response => .queued id 0 response
  | e => e

/-- Everything that happened to the client from its first completion on. -/
def conversation (c : UInt64) (trace : List Event) : List Event :=
  ((history c trace).filter fun e => e ≠ .entered c).map Event.seen

/-- The bytes of the client in its receive buffer, and where the next go. -/
inductive Phase where
  | waiting
  | connected (fd : ℤ) (known : List UInt8) (off : ℕ)
  | gone
  deriving DecidableEq, Repr

/-- The end of the receive loop. -/
def Phase.settle (c : UInt64) (fd : ℤ) (buf : List UInt8) (s : Scan) : Phase × List Event :=
  let out := s.messages.flatMap (·.events c 0)
  match s.stop with
  | .header => (.connected fd buf s.rest, out)
  | .body =>
    (.connected fd (if s.off = 0 then buf else compactKnown buf s.off (bufferSize2KB - s.rest)) s.rest,
      out)
  | .tooLong => (.gone, out ++ [.closed c fd])
  | .refused =>
    let m := readMessage (buf.drop s.off)
    (.gone, out ++ [.handled c m.msgt m.seqid m.payload, .closed c fd])

/-- What a completion leads to. A scan that comes to no end keeps the server busy. -/
def Phase.step (c : UInt64) (p : Phase) (k : Completion) : Phase × List Event :=
  match p with
  | .waiting => (.connected k.res [] 0, [])
  | .gone => (.gone, [])
  | .connected fd known off =>
    if k.res < 0 ∨ (k.type = .read ∧ k.res = 0) then (.gone, [.closed c fd])
    else if k.type ≠ .read then (p, [])
    else
      let buf := writeAt known off k.data
      match scan buf 0 k.res.toNat with
      | none => (p, [])
      | some s => Phase.settle c fd buf s

/-- The conversation the completions lead to, and the phase it is in. -/
def Phase.run (c : UInt64) (ks : List Completion) : Phase × List Event :=
  ks.foldl (fun (p, l) k =>
    ((p.step c k).1, l ++ .completed c k.type k.res k.data :: (p.step c k).2)) (.waiting, [])

theorem Phase.run_concat (c : UInt64) (ks : List Completion) (k : Completion) :
    Phase.run c (ks ++ [k]) = (((Phase.run c ks).1.step c k).1,
      (Phase.run c ks).2 ++ .completed c k.type k.res k.data :: ((Phase.run c ks).1.step c k).2) := by
  rw [Phase.run, List.foldl_append]
  rfl

/-- The ticket of the receive operation and its buffer `buf` agree with what is
known: once the bytes have been written, they are known too. -/
def Ticket.Knows (t : Ticket) (known : List UInt8) (off : ℕ) (buf : List UInt8) : Prop :=
  (∃ fd bref len, t.sqe.request = .recv fd bref off len) ∧ off ≤ known.length ∧
    match t.stage with
    | .done _ data => writeAt known off data <+: buf
    | _ => known <+: buf

/-- Operation `i` receives for the client `c`, from the descriptor `fd`. -/
structure View.Receives (v : View) (c : UInt64) (fd : ℤ) (i : ℕ) (x : Held) : Prop where
  op : v.ops i = some x
  clientId : x.clientId = c
  type : x.type = .read
  fd : x.clientFd = fd
  client : v.clients c ≠ none

/-- The state of the server is in the given phase of the conversation. -/
def World.InPhase (w : World) (v : View) (c : UInt64) : Phase → Prop
  | .waiting => ∀ j y, v.ops j = some y → y.clientId = c → y.type = .accept
  | .connected fd known off => ∃ i x t, v.Receives c fd i x ∧ t ∈ queue v.sq ++ w.outstanding ∧
      t.id = i ∧ t.Knows known off x.buf
  | .gone => v.clients c = none ∧ (enteredIds v.trace).count c = 1

/-- The first completion is an accept, and a receive reports how much it received. -/
structure Proper (ks : List Completion) : Prop where
  accept : ∀ k ∈ ks.head?, k.type = .accept
  data : ∀ k ∈ ks, k.type = .read → 0 ≤ k.res → k.res = k.data.length

/-- The log of the client is the conversation its completions lead to. -/
structure World.Follows (w : World) (v : View) (c : UInt64) : Prop where
  log : conversation c v.trace = (Phase.run c (completions c v.trace)).2
  phase : w.InPhase v c (Phase.run c (completions c v.trace)).1
  proper : Proper (completions c v.trace)

/-! ## The log -/

section
variable {c : UInt64} {l l' : List Event}

theorem conversation_append :
    conversation c (l ++ l') = conversation c l ++ conversation c l' := by
  simp [conversation, history]

theorem completions_append : completions c (l ++ l') = completions c l ++ completions c l' := by
  simp [completions, history]

/-- Lines that are neither entries nor completions. -/
def Event.Reaction : Event → Prop
  | .entered _ | .completed _ _ _ _ => False
  | _ => True

theorem reaction_append (hc : ∀ e ∈ l, e.clientId = c) (hr : ∀ e ∈ l, e.Reaction) :
    conversation c l = l.map Event.seen ∧ completions c l = [] := by
  have hist : history c l = l := history_append_of_eq (l := []) hc
  rw [conversation, completions, hist]
  refine ⟨?_, ?_⟩
  · rw [List.filter_eq_self.mpr]
    intro e he
    have hre := hr e he
    cases e <;> simp [Event.Reaction] at hre ⊢
  · rw [List.filterMap_eq_nil_iff]
    intro e he
    have hre := hr e he
    cases e <;> simp [Event.Reaction] at hre ⊢

theorem enteredIds_of_reaction {l : List Event} (h : ∀ e ∈ l, e.Reaction) : enteredIds l = [] := by
  rw [enteredIds, List.filterMap_eq_nil_iff]
  intro e he
  have hre := h e he
  cases e <;> simp [Event.Reaction] at hre ⊢

theorem conversation_congr (h : history c l = history c l') :
    conversation c l = conversation c l' ∧ completions c l = completions c l' := by
  rw [conversation, conversation, completions, completions, h]
  exact ⟨rfl, rfl⟩

theorem Message.events_seen (m : Message) (id : UInt64) (op : ℕ) :
    (m.events id op).map Event.seen = m.events id 0 := by
  unfold Message.events
  split <;> rfl

theorem View.Answers.seen {v v' : View} {id : UInt64} {fd : ℤ} {ms : List Message}
    (ha : v.Answers id fd ms v') : ∃ l, v'.trace = v.trace ++ l ∧
      l.map Event.seen = ms.flatMap (·.events id 0) ∧ ∀ e ∈ l, e.clientId = id ∧ e.Reaction := by
  induction ha with
  | nil v => exact ⟨[], (List.append_nil _).symm, rfl, by simp⟩
  | @cons v v' s m ms hs _ ih =>
    obtain ⟨l, htr, hseen, hl⟩ := ih
    refine ⟨m.events id s.op ++ l, by rw [htr, View.answer_trace, List.append_assoc], ?_, ?_⟩
    · rw [List.map_append, hseen, Message.events_seen, List.flatMap_cons]
    · intro e he
      rcases List.mem_append.mp he with he | he
      · refine ⟨Message.events_clientId he, ?_⟩
        unfold Message.events at he
        split at he <;> simp at he <;> rcases he with rfl | rfl | rfl <;> trivial
      · exact hl e he

end

/-! ## Completions of the client -/

section
variable {w w' : World} {v v' : View} {c : UInt64} {i : ℕ} {x : Held} {cqe : Cqe}

/-- One more completion, with the lines `l` it leaves in the log. -/
theorem World.Follows.extend (h : w.Follows v c) (cqe : Cqe) {l : List Event} {p : Phase}
    (hx : x.clientId = c) (hfirst : completions c v.trace = [] → x.type = .accept)
    (hdata : x.type = .read → 0 ≤ cqe.res → cqe.res = cqe.data.length)
    (htr : v'.trace = v.trace ++ x.completed cqe :: l) (hl : completions c l = [])
    (hstep : (Phase.run c (completions c v.trace)).1.step c ⟨x.type, cqe.res, cqe.data⟩ =
      (p, conversation c l)) (hin : w'.InPhase v' c p) : w'.Follows v' c := by
  have hone : conversation c [x.completed cqe] = [.completed c x.type cqe.res cqe.data] ∧
      completions c [x.completed cqe] = [⟨x.type, cqe.res, cqe.data⟩] := by
    simp [conversation, completions, history, Held.completed, Event.clientId, hx, Event.seen]
  have hsplit : v'.trace = v.trace ++ ([x.completed cqe] ++ l) := htr
  have hcomp : completions c v'.trace = completions c v.trace ++ [⟨x.type, cqe.res, cqe.data⟩] := by
    rw [hsplit, completions_append, completions_append, hone.2, hl, List.append_nil]
  refine ⟨?_, ?_, ?_⟩
  · rw [hcomp, Phase.run_concat, hstep, hsplit, conversation_append, conversation_append, hone.1, h.log]
    rfl
  · rw [hcomp, Phase.run_concat, hstep]
    exact hin
  · rw [hcomp]
    refine ⟨?_, ?_⟩
    · cases hks : completions c v.trace with
      | nil =>
        rintro k ⟨⟩
        exact hfirst hks
      | cons k ks =>
        have hacc := h.proper.accept
        rw [hks] at hacc
        exact hacc
    · intro k hk
      rcases List.mem_append.mp hk with hk | hk
      · exact h.proper.data k hk
      · obtain rfl := List.mem_singleton.mp hk
        exact hdata

theorem View.Receives.connected {fd : ℤ} (h : v.Receives c fd i x) (hl : v.Life c) :
    ∃ cl, v.Connected c cl i x ∧ cl.fd = fd := by
  have ht : x.type ≠ .accept := by simp [h.type]
  obtain ⟨cl, j, y, hcon⟩ := hl.connected_of h.op h.clientId h.client ht
  obtain ⟨rfl, rfl⟩ := hcon.eq_of_read h.op h.clientId h.type
  exact ⟨cl, hcon, (hcon.fd i x h.op h.clientId).symm.trans h.fd⟩

theorem Owns.eq_of_id {ops : ℕ → Option Held} {ts : List Ticket} (h : Owns ops ts) {s t : Ticket}
    (hs : s ∈ ts) (ht : t ∈ ts) (hid : s.id = t.id) : s = t :=
  List.inj_on_of_nodup_map h.nodup hs ht hid

theorem View.Life.gone_count (h : v.Life c) (hi : v.ops i = some x) (hx : x.clientId = c) :
    (enteredIds v.trace).count c = 1 := by
  rw [← enteredIds_history]
  cases h with
  | fresh _ hops => exact absurd hx (hops i x hi)
  | pending _ _ _ _ _ hist => rw [hist]; rfl
  | connected h => rw [h.entered]; rfl
  | gone _ _ _ _ hent => rw [hent]; rfl

theorem scan_refused {buf : List UInt8} {off rest : ℕ} {s : Scan} (h : scan buf off rest = some s)
    (hs : s.stop = .refused) :
    protHdrLen ≤ s.rest ∧ (readMessage (buf.drop s.off)).len ≤ s.rest := by
  have hl := scan_stops h
  rw [hs] at hl
  exact look_refused hl

theorem View.Receives.inPhase {fd fd' : ℤ} {known : List UInt8} {off bref len : ℕ}
    (h : v.Receives c fd i x) (hsq : ⟨i, .recv fd' bref off len⟩ ∈ v.sq) (hoff : off ≤ known.length)
    (hbuf : known <+: x.buf) : w.InPhase v c (.connected fd known off) := by
  refine ⟨i, x, ⟨⟨i, .recv fd' bref off len⟩, .queued⟩, h, List.mem_append_left _ ?_, rfl,
    ⟨fd', bref, len, rfl⟩, hoff, hbuf⟩
  exact List.mem_map.mpr ⟨_, hsq, rfl⟩

/-- The end of the receive loop for a buffer that starts with `buf`. -/
theorem View.finish_phase (w : World) {fd : ℤ} {buf : List UInt8} {s : Scan} (past : ℕ → UInt8)
    (hr : v.Receives c fd i x) (hcap : x.bufCap = 2048) (hbuf : buf <+: x.buf)
    (hrest : s.off + s.rest ≤ buf.length) (hcount : (enteredIds v.trace).count c = 1)
    (href : s.stop = .refused →
      protHdrLen ≤ s.rest ∧ (readMessage (buf.drop s.off)).len ≤ s.rest) :
    ∃ l, (v.finish i x s past).trace = v.trace ++ l ∧ (∀ e ∈ l, e.clientId = c ∧ e.Reaction) ∧
      (Phase.settle c fd buf s).2 = s.messages.flatMap (·.events c 0) ++ l.map Event.seen ∧
      w.InPhase (v.finish i x s past) c (Phase.settle c fd buf s).1 := by
  obtain ⟨rest, hx⟩ := hbuf
  obtain rfl := hr.clientId
  obtain rfl := hr.fd
  have hgone : ∀ l : List Event, enteredIds l = [] →
      (enteredIds (v.trace ++ l)).count x.clientId = 1 := by
    intro l hl
    rw [enteredIds_append, hl, List.append_nil, hcount]
  unfold View.finish Phase.settle
  cases hs : s.stop with
  | header =>
    refine ⟨[], (List.append_nil _).symm, by simp, (List.append_nil _).symm, ?_⟩
    refine View.Receives.inPhase (x := x) ⟨hr.op, rfl, hr.type, rfl, hr.client⟩
      (List.mem_append_right _ List.mem_cons_self) (by omega) ⟨rest, hx⟩
  | body =>
    by_cases hoff : s.off = 0
    · simp only [if_pos hoff]
      refine ⟨[], (List.append_nil _).symm, by simp, (List.append_nil _).symm, ?_⟩
      refine View.Receives.inPhase (x := x) ⟨hr.op, rfl, hr.type, rfl, hr.client⟩
        (List.mem_append_right _ List.mem_cons_self) (by omega) ⟨rest, hx⟩
    · simp only [if_neg hoff]
      obtain ⟨rest', hcom⟩ := compact_append buf rest s.off (2048 - s.rest) past (by omega)
      refine ⟨[], (List.append_nil _).symm, by simp, (List.append_nil _).symm, ?_⟩
      refine View.Receives.inPhase (x := { x with buf := compact x.buf s.off (x.bufCap - s.rest) past })
        ⟨Function.update_self .., rfl, hr.type, rfl, hr.client⟩
        (List.mem_append_right _ List.mem_cons_self) (length_compactKnown hrest _) ?_
      rw [hcap, ← hx, hcom]
      exact ⟨rest', rfl⟩
  | tooLong =>
    refine ⟨[.closed x.clientId x.clientFd], rfl, by simp [Event.clientId, Event.Reaction], rfl, ?_, ?_⟩
    · exact Function.update_self ..
    · exact hgone [.closed x.clientId x.clientFd] rfl
  | refused =>
    obtain ⟨h₁, h₂⟩ := href hs
    have hlen : (buf.drop s.off).length = buf.length - s.off := List.length_drop
    have hm : readMessage (x.buf.drop s.off) = readMessage (buf.drop s.off) := by
      rw [← hx, List.drop_append_of_le_length (by omega)]
      exact (readMessage_append (by omega)).2.2 (by omega)
    simp only [hm]
    generalize readMessage (buf.drop s.off) = m
    refine ⟨[.handled x.clientId m.msgt m.seqid m.payload, .closed x.clientId x.clientFd],
      List.append_assoc .., by simp [Event.clientId, Event.Reaction], rfl, Function.update_self .., ?_⟩
    refine (congrArg (List.count x.clientId) (congrArg enteredIds (List.append_assoc ..))).trans ?_
    exact hgone [.handled x.clientId m.msgt m.seqid m.payload, .closed x.clientId x.clientFd] rfl

theorem World.InPhase.gone_log (hnone : v'.clients c = none)
    (hcount : (enteredIds v.trace).count c = 1) {l : List Event} (hl : enteredIds l = [])
    (htr : v'.trace = v.trace ++ x.completed cqe :: l) : w'.InPhase v' c .gone := by
  refine ⟨hnone, ?_⟩
  have hcons : enteredIds (x.completed cqe :: l) = [] := hl
  rw [htr, enteredIds_append, hcons, List.append_nil, hcount]

theorem View.Handles.tickets {res : ℤ} (hh : v.Handles i x res v')
    (hout : ∀ t ∈ w.outstanding, t ≠ cqe.ticket → t ∈ w'.outstanding) {t : Ticket}
    (ht : t ∈ queue v.sq ++ w.outstanding) (hne : t ≠ cqe.ticket) :
    t ∈ queue v'.sq ++ w'.outstanding := by
  obtain ⟨l, hl, -⟩ := hh.sq
  rw [hl, queue, List.map_append]
  rcases List.mem_append.mp ht with ht | ht
  · exact List.mem_append_left _ (List.mem_append_left _ ht)
  · exact List.mem_append_right _ (hout t ht hne)

theorem Phase.run_ne_nil {ks : List Completion} {p : Phase} (h : (Phase.run c ks).1 = p)
    (hp : p ≠ .waiting) : ks ≠ [] := by
  rintro rfl
  exact hp h.symm

theorem View.Handles.follows_waiting (h : w.Follows v x.clientId) (hl : v.Life x.clientId)
    (hacc : x.type = .accept → v.fds x.clientFd = none) (hi : v.ops cqe.sqe.userData = some x)
    (hdata : x.type = .read → 0 ≤ cqe.res → cqe.res = cqe.data.length)
    (hp : (Phase.run x.clientId (completions x.clientId v.trace)).1 = .waiting)
    (hh : (v.log (x.completed cqe)).Handles cqe.sqe.userData x cqe.res v') :
    w'.Follows v' x.clientId := by
  have hin := h.phase
  rw [hp] at hin
  have ht := hin _ x hi rfl
  cases hh with
  | stale hc =>
    cases hl with
    | fresh _ hops => exact absurd rfl (hops _ x hi)
    | pending hc' => exact absurd (hc'.symm.trans hc) (by simp)
    | connected hcon => exact absurd ht (hcon.type_ne_accept hi rfl)
    | gone _ hops => exact absurd ht (hops _ x hi rfl)
  | dropped _ _ hfd => exact absurd (hacc ht) hfd
  | received _ _ ht' => exact absurd (ht.symm.trans ht') (by decide)
  | resumed _ _ ht' => exact absurd (ht.symm.trans ht') (by decide)
  | sent _ _ ht' => exact absurd (ht.symm.trans ht') (by decide)
  | @accepted cl cl' j bref buf hc hres _ hj hn hbuf =>
    have hne : x.clientId ≠ v.nextClientId := by
      intro he
      simp [View.log, ← he] at hn
    have hji : j ≠ cqe.sqe.userData := by
      rintro rfl
      simp at hj
    have hist : history x.clientId [.entered v.nextClientId] = [] :=
      history_append_of_ne (l := []) (by simpa [Event.clientId] using hne.symm)
    have hnil : history x.clientId [] = [] := rfl
    obtain ⟨hcon, hcom⟩ := conversation_congr (hist.trans hnil.symm)
    refine h.extend cqe (l := [.entered v.nextClientId]) (p := .connected cqe.res [] 0) rfl
      (fun _ => ht) hdata (by simp [View.log]) hcom (by rw [hp, hcon]; rfl) ?_
    have hsq : ⟨cqe.sqe.userData, .recv cqe.res x.bref 0 x.bufCap⟩ ∈ (((v.log (x.completed cqe)).connect
        cqe.sqe.userData x cl cqe.res).acceptNext j bref buf cl').sq := by simp
    refine View.Receives.inPhase (x := { x with clientFd := cqe.res, type := .read })
      ⟨?_, rfl, rfl, rfl, ?_⟩ hsq le_rfl ⟨_, rfl⟩
    · simp [Ne.symm hji]
    · simp [View.log, hne]

theorem View.Handles.follows_connected {fd : ℤ} {known : List UInt8} {off : ℕ}
    (h : w.Follows v x.clientId) (hl : v.Life x.clientId) (hw : w.Owned v)
    (hi : v.ops cqe.sqe.userData = some x) (hc : cqe.ticket ∈ queue v.sq ++ w.outstanding)
    (hout : ∀ t ∈ w.outstanding, t ≠ cqe.ticket → t ∈ w'.outstanding)
    (hdata : x.type = .read → 0 ≤ cqe.res → cqe.res = cqe.data.length)
    (hp : (Phase.run x.clientId (completions x.clientId v.trace)).1 = .connected fd known off)
    (hh : (v.log (x.completed cqe)).Handles cqe.sqe.userData x cqe.res v') :
    w'.Follows v' x.clientId := by
  have hin := h.phase
  rw [hp] at hin
  obtain ⟨i, y, t, hr, ht, hid, hreq, hoff, hknows⟩ := hin
  obtain ⟨cl, hcon, hfd⟩ := hr.connected hl
  have hxfd : x.clientFd = fd := (hcon.fd _ x hi rfl).trans hfd
  have hcount := hl.gone_count hi rfl
  have hfirst : completions x.clientId v.trace = [] → x.type = .accept :=
    fun hnil => absurd hnil (Phase.run_ne_nil hp (by simp))
  have hkeep := fun hne => hh.tickets hout ht hne
  have hsend : x.type = .write → 0 ≤ cqe.res → v'.trace = v.trace ++ [x.completed cqe] →
      v'.clients = v.clients → (∀ j, j ≠ cqe.sqe.userData → v'.ops j = v.ops j) →
      w'.Follows v' x.clientId := by
    intro hxt hres htr hcl hops
    have hne : i ≠ cqe.sqe.userData := Ne.symm (hcon.ne_of_write hi hxt)
    refine h.extend cqe (l := []) (p := .connected fd known off) rfl hfirst hdata htr rfl ?_ ?_
    · rw [hp]
      simp [Phase.step, hxt, not_lt.mpr hres, conversation, history]
    · refine ⟨i, y, t,
        ⟨(hops i hne).trans hr.op, hr.clientId, hr.type, hr.fd, by rw [hcl]; exact hr.client⟩,
        hkeep ?_, hid, hreq, hoff, hknows⟩
      rintro rfl
      exact hne hid.symm
  cases hh with
  | stale hn => exact absurd hn hr.client
  | accepted _ _ hxt => exact absurd hxt (hcon.type_ne_accept hi rfl)
  | dropped _ hres =>
    have htr : ((View.disconnect (v.log (x.completed cqe)) x.clientId x.clientFd).setOp
        cqe.sqe.userData none).trace = v.trace ++ x.completed cqe :: [.closed x.clientId x.clientFd] :=
      List.append_assoc ..
    refine h.extend cqe (l := [.closed x.clientId x.clientFd]) (p := .gone) rfl hfirst hdata htr
      (by simp [completions, history, Event.clientId]) ?_
      (World.InPhase.gone_log (Function.update_self ..) hcount rfl htr)
    rw [hp]
    simp [Phase.step, hres, hxfd, conversation, history, Event.clientId, Event.seen]
  | @received cl' s v₁ past _ hres hxt hscan hans _ =>
    obtain ⟨rfl, rfl⟩ := hcon.eq_of_read hi rfl hxt
    obtain rfl := hw.owns.eq_of_id ht hc hid
    obtain ⟨_, len, -, hcap, -⟩ := (hw.owns.fits _ hc x hi).recv hxt
    have hlen := hdata hxt hres.le
    obtain ⟨rest, hrest⟩ : writeAt known off cqe.data <+: x.buf := hknows
    have hge := length_writeAt_ge known cqe.data off hoff
    rw [← hrest, scan_append _ _ _ _ (by omega)] at hscan
    obtain ⟨hsum, -⟩ := scan_rest hscan
    obtain ⟨l₁, htr₁, hseen₁, hl₁⟩ := hans.seen
    have hent₁ := enteredIds_of_reaction fun e he => (hl₁ e he).2
    have hr₁ : v₁.Receives x.clientId fd cqe.sqe.userData x :=
      ⟨hans.op hi, rfl, hxt, hr.fd, fun hn => hr.client ((hans.client _).mp hn)⟩
    obtain ⟨l₂, htr₂, hl₂, hout₂, hphase⟩ := View.finish_phase w' past hr₁ hcap
      ⟨rest, hrest⟩ (s := s) (by omega) (by
        rw [htr₁, enteredIds_append, hent₁, List.append_nil, v.log_completed_entered, hcount])
      (scan_refused hscan)
    have hall : ∀ e ∈ l₁ ++ l₂, e.clientId = x.clientId ∧ e.Reaction := by
      intro e he
      exact (List.mem_append.mp he).elim (hl₁ e) (hl₂ e)
    obtain ⟨hconv, hcomp⟩ := reaction_append (fun e he => (hall e he).1) fun e he => (hall e he).2
    refine h.extend cqe (l := l₁ ++ l₂) (p := (Phase.settle x.clientId fd _ s).1) rfl hfirst hdata
      ?_ hcomp ?_ hphase
    · rw [htr₂, htr₁]
      simp [View.log]
    · rw [hp, hconv, List.map_append, hseen₁, ← hout₂]
      simp only [Phase.step, hxt, hscan]
      rw [if_neg (by omega), if_neg (by simp)]
  | resumed _ hres hxt =>
    refine hsend hxt hres rfl rfl fun j hj => ?_
    exact Function.update_of_ne hj _ _
  | sent _ hres hxt =>
    refine hsend hxt hres rfl rfl fun j hj => ?_
    exact Function.update_of_ne hj _ _

theorem View.Handles.follows_gone (h : w.Follows v x.clientId)
    (hdata : x.type = .read → 0 ≤ cqe.res → cqe.res = cqe.data.length)
    (hp : (Phase.run x.clientId (completions x.clientId v.trace)).1 = .gone)
    (hh : (v.log (x.completed cqe)).Handles cqe.sqe.userData x cqe.res v') :
    w'.Follows v' x.clientId := by
  have hin := h.phase
  rw [hp] at hin
  obtain ⟨hnone, hcount⟩ := hin
  cases hh with
  | stale =>
    refine h.extend cqe (l := []) (p := .gone) rfl
      (fun hnil => absurd hnil (Phase.run_ne_nil hp (by simp))) hdata rfl rfl (by rw [hp]; rfl) ?_
    exact World.InPhase.gone_log hnone hcount rfl rfl
  | dropped hc => exact absurd (hc.symm.trans hnone) (by simp)
  | accepted hc => exact absurd (hc.symm.trans hnone) (by simp)
  | received hc => exact absurd (hc.symm.trans hnone) (by simp)
  | resumed hc => exact absurd (hc.symm.trans hnone) (by simp)
  | sent hc => exact absurd (hc.symm.trans hnone) (by simp)

/-! ## Steps of others -/

theorem World.Follows.agree (h : w.Follows v c) (ha : v.AgreeOn v' c)
    (ht : ∀ t ∈ queue v.sq ++ w.outstanding, (∃ x, v.ops t.id = some x ∧ x.clientId = c) →
      t ∈ queue v'.sq ++ w'.outstanding) : w'.Follows v' c := by
  obtain ⟨hconv, hcomp⟩ := conversation_congr ha.history
  refine ⟨by rw [hconv, hcomp, h.log], ?_, hcomp ▸ h.proper⟩
  rw [hcomp]
  have hin := h.phase
  cases hp : (Phase.run c (completions c v.trace)).1 with
  | waiting =>
    rw [hp] at hin
    exact fun j y hy hc => hin j y ((ha.ops j y hc).mp hy) hc
  | connected fd known off =>
    rw [hp] at hin
    obtain ⟨i, x, t, hr, htm, rfl, hk⟩ := hin
    refine ⟨t.id, x, t, ⟨(ha.ops _ _ hr.clientId).mpr hr.op, hr.clientId, hr.type, hr.fd, ?_⟩,
      ht t htm ⟨x, hr.op, hr.clientId⟩, rfl, hk⟩
    rw [ha.client]
    exact hr.client
  | gone =>
    rw [hp] at hin
    refine ⟨ha.client.trans hin.1, ?_⟩
    rw [← enteredIds_history, ha.history, enteredIds_history]
    exact hin.2

theorem World.Follows.handles (h : w.Follows v c) (hl : v.Life c) (hw : w.Owned v)
    (hacc : x.type = .accept → v.fds x.clientFd = none) (hi : v.ops cqe.sqe.userData = some x)
    (hc : cqe.ticket ∈ queue v.sq ++ w.outstanding)
    (hout : ∀ t ∈ w.outstanding, t ≠ cqe.ticket → t ∈ w'.outstanding)
    (hh : (v.log (x.completed cqe)).Handles cqe.sqe.userData x cqe.res v')
    (hent : (enteredIds v'.trace).count c ≤ 1) : w'.Follows v' c := by
  by_cases hx : x.clientId = c
  · subst hx
    have hdata : x.type = .read → 0 ≤ cqe.res → cqe.res = cqe.data.length := by
      intro hxt hres
      obtain ⟨_, _, -, -, -, hadm⟩ := (hw.owns.fits _ hc x hi).recv hxt
      rcases hadm cqe.res cqe.data rfl with ⟨hneg, -⟩ | ⟨hlen, -⟩
      · omega
      · exact hlen
    cases hp : (Phase.run x.clientId (completions x.clientId v.trace)).1 with
    | waiting => exact View.Handles.follows_waiting h hl hacc hi hdata hp hh
    | connected fd known off => exact View.Handles.follows_connected h hl hw hi hc hout hdata hp hh
    | gone => exact View.Handles.follows_gone h hdata hp hh
  have hlog := v.agree_log (e := x.completed cqe) hx
  by_cases hn : v'.nextClientId ≠ v.nextClientId → v.nextClientId ≠ c
  · refine h.agree (hlog.trans (View.Handles.agree hh hi hx hn)) ?_
    rintro t ht ⟨y, hy, hyc⟩
    refine hh.tickets hout ht ?_
    rintro rfl
    exact hx (by rw [← hyc, Option.some.inj (hi.symm.trans hy)])
  simp only [ne_eq, Classical.not_imp, not_not] at hn
  obtain ⟨hne, rfl⟩ := hn
  rcases hh.trace with ⟨hnext, -⟩ | ⟨-, -, -, htr⟩
  · exact absurd hnext hne
  have hcount : (enteredIds v.trace).count v.nextClientId = 0 := by
    have hone : enteredIds [.entered (v.log (x.completed cqe)).nextClientId] = [v.nextClientId] := rfl
    rw [htr, enteredIds_append, v.log_completed_entered, hone, List.count_append,
      List.count_singleton_self] at hent
    omega
  obtain ⟨-, hops, hist⟩ := hl.fresh_of_count hcount
  have hist' : history v.nextClientId v'.trace = [.entered v.nextClientId] := by
    have hself : ∀ e ∈ [Event.entered v.nextClientId], e.clientId = v.nextClientId := by
      simp [Event.clientId]
    have hone := history_append_of_eq (l := (v.log (x.completed cqe)).trace) hself
    rw [htr, show (v.log (x.completed cqe)).nextClientId = v.nextClientId from rfl, hone,
      hlog.history, hist]
    rfl
  have hnil : conversation v.nextClientId v'.trace = [] ∧ completions v.nextClientId v'.trace = [] := by
    simp [conversation, completions, hist']
  refine ⟨by rw [hnil.1, hnil.2]; rfl, ?_, by rw [hnil.2]; exact ⟨by simp, by simp⟩⟩
  rw [hnil.2]
  intro j y hy hyc
  cases hh.origin hi hy with
  | kept _ hk => exact absurd hyc (hops j y hk)
  | reply _ _ _ hc' => exact absurd (hc'.symm.trans hyc) hx
  | own _ _ _ hc' => exact absurd (hc'.symm.trans hyc) hx
  | connected _ _ _ _ hc' => exact absurd (hc'.symm.trans hyc) hx
  | next _ _ ht => exact ht

/-! ## The kernel -/

theorem World.mem_execute {i : ℕ} {s : Submitted} (res : ℤ) (data : List UInt8)
    (hs : w.inflight[i]? = some s) :
    ⟨s.sqe, .done res data⟩ ∈ World.outstanding { w.perform s res data with
        inflight := w.inflight.eraseIdx i, executed := w.executed ++ [⟨s.sqe, res, data⟩] } ∧
    ∀ t ∈ w.outstanding, t ≠ s.ticket → t ∈ World.outstanding { w.perform s res data with
        inflight := w.inflight.eraseIdx i, executed := w.executed ++ [⟨s.sqe, res, data⟩] } := by
  refine ⟨?_, fun t ht hne => ?_⟩
  · simp only [World.outstanding, List.map_append, List.mem_append, List.map_singleton,
      List.mem_singleton]
    exact .inr (.inl (.inr rfl))
  · have hm := (World.outstanding_execute hs).mem_iff.mp ht
    simp only [World.outstanding, World.perform_cq, List.map_append, List.mem_append, List.mem_cons,
      List.map_singleton] at hm ⊢
    rcases hm with hm | hm | hm | hm
    · exact absurd hm hne
    · exact .inl hm
    · exact .inr (.inl (.inl hm))
    · exact .inr (.inr hm)

theorem World.Follows.execute {i : ℕ} {s : Submitted} {res : ℤ} {data : List UInt8}
    (h : w.Follows v c) (hw : w.Owned v) (hs : w.inflight[i]? = some s) :
    World.Follows { w.perform s res data with
      inflight := w.inflight.eraseIdx i, executed := w.executed ++ [⟨s.sqe, res, data⟩] }
      (v.perform s.sqe res data w.conns.length) c := by
  have htr := v.perform_trace s.sqe res data w.conns.length
  have hcl := v.perform_clients s.sqe res data w.conns.length
  obtain ⟨hnew, hold⟩ := World.mem_execute res data hs
  refine ⟨by rw [htr]; exact h.log, ?_, by rw [htr]; exact h.proper⟩
  rw [htr]
  have hin := h.phase
  cases hp : (Phase.run c (completions c v.trace)).1 with
  | waiting =>
    rw [hp] at hin
    intro j y hy hc
    obtain ⟨buf, hy'⟩ := View.perform_ops hy
    have hty := hin j _ hy' hc
    exact hty
  | gone =>
    rw [hp] at hin
    exact ⟨by rw [hcl]; exact hin.1, by rw [htr]; exact hin.2⟩
  | connected fd known off =>
    rw [hp] at hin
    obtain ⟨j, x, t, hr, ht, rfl, ⟨fd', bref, len, hreq⟩, hoff, hk⟩ := hin
    by_cases hst : t = s.ticket
    · -- the bytes go right behind what is known
      subst hst
      obtain ⟨rest, hrest⟩ : known <+: x.buf := hk
      have hperf : (v.perform s.sqe res data w.conns.length).ops s.ticket.id =
          some { x with buf := writeAt x.buf off data } := by
        replace hreq : s.sqe.request = .recv fd' bref off len := hreq
        have hop : v.ops s.sqe.userData = some x := hr.op
        simp [View.perform, hreq, hop, View.setOp, Submitted.ticket, Ticket.id]
      refine ⟨_, _, ⟨s.sqe, .done res data⟩,
        ⟨hperf, hr.clientId, hr.type, hr.fd, by rw [hcl]; exact hr.client⟩,
        List.mem_append_right _ hnew, rfl, ⟨fd', bref, len, hreq⟩, hoff, ?_⟩
      simp only
      rw [← hrest, writeAt_append_left _ _ _ _ hoff]
      exact List.prefix_append _ _
    · have hne : t.id ≠ s.sqe.userData := by
        intro he
        have hm : s.ticket ∈ queue v.sq ++ w.outstanding :=
          List.mem_append_right _ ((World.outstanding_execute hs).mem_iff.mpr List.mem_cons_self)
        exact hst (hw.owns.eq_of_id ht hm he)
      have hperf : (v.perform s.sqe res data w.conns.length).ops t.id = some x := by
        unfold View.perform
        split
        · split <;> exact hr.op
        · exact (Function.update_of_ne hne _ _).trans hr.op
        · exact hr.op
      refine ⟨_, x, t, ⟨hperf, hr.clientId, hr.type, hr.fd, by rw [hcl]; exact hr.client⟩, ?_, rfl,
        ⟨fd', bref, len, hreq⟩, hoff, hk⟩
      rw [View.perform_sq]
      rcases List.mem_append.mp ht with ht | ht
      · exact List.mem_append_left _ ht
      · exact List.mem_append_right _ (hold t ht hst)

theorem World.Follows.submit (h : w.Follows v c) (hw : w.Owned v) :
    w.submit.Follows { v with sq := [] } c := by
  refine ⟨h.log, ?_, h.proper⟩
  have hin := h.phase
  change w.submit.InPhase { v with sq := [] } c (Phase.run c (completions c v.trace)).1
  cases hp : (Phase.run c (completions c v.trace)).1 with
  | waiting => rw [hp] at hin; exact hin
  | gone => rw [hp] at hin; exact hin
  | connected fd known off =>
    rw [hp] at hin
    obtain ⟨j, x, t, hr, ht, rfl, hreq, hoff, hk⟩ := hin
    have hr' : View.Receives { v with sq := [] } c fd t.id x :=
      ⟨hr.op, hr.clientId, hr.type, hr.fd, hr.client⟩
    rcases List.mem_append.mp ht with ht | ht
    · obtain ⟨e, he, rfl⟩ := List.mem_map.mp ht
      have hsqe : (w.srv.resolve e).sqe = e := by
        simp only [Server.resolve]
        split <;> rfl
      refine ⟨_, x, (w.srv.resolve e).ticket, hr', List.mem_append_right _ ?_, by
        simp only [Submitted.ticket, Ticket.id, hsqe], ?_, hoff, hk⟩
      · rw [hw.models.sq] at he
        simp only [World.outstanding, World.submit, List.map_append, List.mem_append, List.map_map]
        exact .inl (.inr (List.mem_map.mpr ⟨e, he, rfl⟩))
      · simpa only [Submitted.ticket, hsqe] using hreq
    · refine ⟨_, x, t, hr', List.mem_append_right _ ?_, rfl, hreq, hoff, hk⟩
      simp only [World.outstanding, World.submit, List.map_append, List.mem_append] at ht ⊢
      rcases ht with ht | ht
      · exact .inl (.inl ht)
      · exact .inr ht

theorem World.Follows.moves {a : Action} (h : w.Follows v c) (hcen : v.Census) (hw : w.Owned v)
    (hl : v.Life c) (hm : w.Moves v a w' v') (hent : (enteredIds v'.trace).count c ≤ 1) :
    w'.Follows v' c := by
  cases hm with
  | execute hs hadm => exact h.execute hw hs
  | post hc =>
    refine h.agree (.refl v c) fun t ht _ => ?_
    rcases List.mem_append.mp ht with ht | ht
    · exact List.mem_append_left _ ht
    · exact List.mem_append_right _ ((World.outstanding_post hc).mem_iff.mp ht)
  | submit => exact h.submit hw
  | turn => exact h.agree (.refl v c) fun t ht _ => ht
  | @handle junk pc cqe cq srv x v' hpc hcq hsrv hx hh =>
    refine h.handles hl hw (hcen.accept hw hx) hx ?_ ?_ hh hent
    · simp [World.outstanding, hcq]
    · intro t ht hne
      simp only [World.outstanding, hcq, List.mem_append, List.map_cons, List.mem_cons] at ht ⊢
      rcases ht with ht | ht | ht | ht
      · exact .inl ht
      · exact .inr (.inl ht)
      · exact absurd ht hne
      · exact .inr (.inr ht)

theorem World.Follows.start (srv : Server) (serverFd : ℤ) (j bref : ℕ) (buf : List UInt8) (cl : Client)
    (c : UInt64) : World.Follows ⟨srv, [], [], [], [], .submit⟩
      ((View.initial serverFd).acceptNext j bref buf cl) c := by
  have htr : ((View.initial serverFd).acceptNext j bref buf cl).trace = [.entered 1] := rfl
  have hnil : conversation c [.entered 1] = [] ∧ completions c [.entered 1] = [] := by
    by_cases hc : 1 = c <;> simp [conversation, completions, history, Event.clientId, hc]
  refine ⟨by rw [htr, hnil.1, hnil.2]; rfl, ?_, by rw [htr, hnil.2]; exact ⟨by simp, by simp⟩⟩
  rw [htr, hnil.2]
  intro k y hk _
  rcases update_eq_some_iff.mp hk with ⟨-, ⟨⟩⟩ | ⟨-, ⟨⟩⟩
  rfl

/-- In every state of a run, for every client whose id was entered at most once. -/
theorem Run.follows {ok : World → Action → Prop} (hr : Run ok w) :
    ∃ v, w.Owned v ∧ w.Serving v ∧ ∀ c, (enteredIds v.trace).count c ≤ 1 → w.Follows v c := by
  refine Run.induct (P := fun w v =>
    w.Serving v ∧ ∀ c, (enteredIds v.trace).count c ≤ 1 → w.Follows v c) ?_ ?_ hr
  · intro srv serverFd j bref buf cl hfd _ _
    exact ⟨World.Serving.start srv serverFd hfd j bref buf cl,
      fun c _ => World.Follows.start srv serverFd j bref buf cl c⟩
  · rintro w v a w' v' hw ⟨hs, hf⟩ - hm -
    refine ⟨hs.moves hw hm, fun c hc => ?_⟩
    have hle := (hm.count_le c).trans hc
    exact (hf c hle).moves hs.census hw (hs.census.life c hle) hm hc

end

end Caht
