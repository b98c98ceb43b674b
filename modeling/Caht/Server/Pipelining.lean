import Caht.Server.Segmentation
import Caht.Server.Turns

/-! # Several messages in one receive

A reference for what `handle_recv` does with `SET_USERNAME` frames that arrive one
behind the other, followed by the beginning of another message: a reply to each in
order, the last name that is allowed stored, and an end that depends on the rest.
-/

namespace Caht
open Library Protocol

/-! ## The reference -/

def Alphanumeric (b : UInt8) : Prop := (48 ≤ b ∧ b ≤ 57) ∨ (65 ≤ b ∧ b ≤ 90) ∨ (97 ≤ b ∧ b ≤ 122)

instance (b : UInt8) : Decidable (Alphanumeric b) := inferInstanceAs (Decidable (_ ∨ _ ∨ _))

/-- The user names the protocol allows. -/
def ValidName (name : List UInt8) : Prop :=
  (3 ≤ name.length ∧ name.length ≤ 15) ∧ ∀ b ∈ name, Alphanumeric b

instance (name : List UInt8) : Decidable (ValidName name) := inferInstanceAs (Decidable (_ ∧ _))

def Frame.reply (f : Frame) : Response :=
  if ValidName f.payload then .setUsernameResponse f.seqid
  else if f.payload.length < 3 ∨ 15 < f.payload.length then .serverError f.seqid .invalidMsgLen
  else .serverError f.seqid .invalidUsername

/-- The last name among `names` that is allowed. -/
def lastValid (names : List (List UInt8)) : Option (List UInt8) :=
  (names.filter fun name => ValidName name).getLast?

/-- No message is complete in `r`, and the one that begins there is not too long. -/
def Unfinished (r : List UInt8) : Prop :=
  r.length < protHdrLen ∨ (r.length < (readMessage r).len ∧ (readMessage r).len ≤ bufferSize2KB)

/-- The message at the start of `r` is too long, or complete and not `SET_USERNAME`. -/
def Unwelcome (r : List UInt8) : Prop :=
  protHdrLen ≤ r.length ∧ (bufferSize2KB < (readMessage r).len ∨
    ((readMessage r).len ≤ r.length ∧ (readMessage r).msgt ≠ MessageType.setUsername.code))

/-- The queue entry `e` is a send of `bytes` to the client of `o`, from the start. -/
def Server.Sends (srv : Server) (o : Operation) (bytes : List UInt8) (e : Sqe) : Prop :=
  ∃ b r, e.request = .send o.clientFd b 0 bytes.length ∧
    srv.pool.ops[e.userData]? = some ⟨e.userData, .write, o.clientId, o.clientFd, 64, bytes.length,
      some b, 0⟩ ∧ srv.heap[b]? = some r ∧ bytes <+: r.buf

/-- The entry of a client is the same except for the user name, which is `name`; with
no name given, it is the same. -/
def Renamed (n n' : ClientInfo) : Option (List UInt8) → Prop
  | none => n' = n
  | some name => n' = { n with username := n'.username } ∧ cString n'.username = name

/-! ## Names and replies -/

theorem isalnum_iff (b : UInt8) : isalnum b = true ↔ Alphanumeric b := by
  simp only [isalnum, Alphanumeric, Bool.or_eq_true, Bool.and_eq_true, decide_eq_true_eq, or_assoc]

theorem usernameValid_iff (name : List UInt8) :
    usernameValid name = true ↔ ∀ b ∈ name, Alphanumeric b := by
  simp only [usernameValid, List.all_eq_true, isalnum_iff]

theorem judge_eq_none_iff (name : List UInt8) : judge name = none ↔ ValidName name := by
  have hlen : (name.length < minUnameLen ∨ maxUnameLen < name.length) ↔
      ¬ (3 ≤ name.length ∧ name.length ≤ 15) := by
    simp only [minUnameLen, maxUnameLen]
    omega
  rw [judge, ValidName, ← usernameValid_iff]
  by_cases h : 3 ≤ name.length ∧ name.length ≤ 15
  · rw [if_neg (fun hn => hlen.mp hn h)]
    cases usernameValid name <;> simp [h]
  · rw [if_pos (hlen.mpr h)]
    simp [h]

def Frame.toMessage (f : Frame) : Message := ⟨f.bytes.length, f.msgt, f.seqid, f.payload⟩

theorem Frame.toMessage_response (f : Frame) : f.toMessage.response = f.reply := by
  have hj := judge_eq_none_iff f.payload
  rw [Frame.reply, Message.response, Frame.toMessage]
  by_cases hv : ValidName f.payload
  · simp only [if_pos hv, hj.mpr hv]
  · rw [if_neg hv]
    by_cases hlen : f.payload.length < 3 ∨ 15 < f.payload.length
    · have hlen' : f.payload.length < minUnameLen ∨ maxUnameLen < f.payload.length := hlen
      simp only [judge, if_pos hlen', if_pos hlen]
    · have hlen' : ¬ (f.payload.length < minUnameLen ∨ maxUnameLen < f.payload.length) := hlen
      have hbad : usernameValid f.payload = false := by
        rw [Bool.eq_false_iff]
        intro hu
        exact hv ⟨by omega, (usernameValid_iff _).mp hu⟩
      simp only [judge, if_neg hlen', hbad, if_neg hlen, Bool.not_false, if_true]

/-! ## The scan of frames and a rest -/

theorem scan_frames (fs : List Frame) (hacc : ∀ f ∈ fs, f.Accepted) (pre r extra : List UInt8) :
    scan (pre ++ (stream fs ++ (r ++ extra))) pre.length ((stream fs).length + r.length) =
      (scan (pre ++ (stream fs ++ (r ++ extra))) (pre.length + (stream fs).length) r.length).map
        fun s => { s with messages := fs.map Frame.toMessage ++ s.messages } := by
  induction fs generalizing pre with
  | nil => simp [stream]
  | cons f fs ih =>
    have hrest := ih (fun g hg => hacc g (List.mem_cons_of_mem _ hg)) (pre ++ f.bytes)
    have hread : readMessage (List.drop pre.length (pre ++ (stream (f :: fs) ++ (r ++ extra)))) =
        f.toMessage := by
      rw [List.drop_left, stream_cons, List.append_assoc, readMessage_frame]
      rfl
    have hbytes : f.toMessage.len = f.bytes.length := rfl
    have hlen := f.bytes_length
    have hfit := f.fits
    have hl : look (pre ++ (stream (f :: fs) ++ (r ++ extra))) pre.length
        ((stream (f :: fs)).length + r.length) = .ok f.toMessage := by
      rw [← hread]
      refine look_of_complete ?_ ?_ ?_ ?_
      · rw [stream_cons, List.length_append]
        omega
      · rw [hread]
        exact hacc f List.mem_cons_self
      · rw [hread]
        omega
      · rw [hread, stream_cons, List.length_append]
        omega
    have hpos : f.toMessage.len ≠ 0 := by
      rw [hbytes, hlen, protHdrLen]
      omega
    have hbuf : pre ++ (stream (f :: fs) ++ (r ++ extra)) =
        pre ++ f.bytes ++ (stream fs ++ (r ++ extra)) := by
      simp only [stream_cons, List.append_assoc]
    rw [scan_look]
    simp only [hl]
    rw [if_neg hpos, hbuf, stream_cons, List.length_append, hbytes, Nat.add_assoc, Nat.add_sub_cancel_left,
      ← Nat.add_assoc, ← List.length_append, hrest, Option.map_map]
    rfl

theorem look_rest (pre r extra : List UInt8) (hrest : Unfinished r ∨ Unwelcome r) :
    ∃ stop, look (pre ++ (r ++ extra)) pre.length r.length = .error stop ∧
      (Unfinished r → stop = .header ∨ stop = .body) ∧
      (Unwelcome r → stop = .tooLong ∨ stop = .refused) := by
  rw [look, List.drop_left]
  by_cases hshort : r.length < protHdrLen
  · rw [if_pos hshort]
    refine ⟨_, rfl, fun _ => .inl rfl, ?_⟩
    rintro ⟨hlong, -⟩
    omega
  obtain ⟨hlen, hmsgt⟩ : (readMessage (r ++ extra)).len = (readMessage r).len ∧
      (readMessage (r ++ extra)).msgt = (readMessage r).msgt :=
    ⟨(readMessage_append (not_lt.mp hshort)).1, (readMessage_append (not_lt.mp hshort)).2.1⟩
  rw [if_neg hshort]
  simp only [hlen, hmsgt]
  by_cases hbig : (readMessage r).len > bufferSize2KB
  · rw [if_pos hbig]
    refine ⟨_, rfl, ?_, fun _ => .inl rfl⟩
    rintro (hlt | ⟨-, hle⟩) <;> omega
  rw [if_neg hbig]
  by_cases hpart : r.length < (readMessage r).len
  · rw [if_pos hpart]
    refine ⟨_, rfl, fun _ => .inr rfl, ?_⟩
    rintro ⟨-, hlt | ⟨hle, -⟩⟩ <;> omega
  have hdone : ¬ Unfinished r := by
    rintro (hlt | ⟨hlt, -⟩) <;> omega
  have hset : (readMessage r).msgt ≠ MessageType.setUsername.code := by
    rcases hrest with hr | ⟨-, hlt | ⟨-, hset⟩⟩
    · exact absurd hr hdone
    · omega
    · exact hset
  rw [if_neg hpart, if_pos hset]
  exact ⟨_, rfl, fun hr => absurd hr hdone, fun _ => .inr rfl⟩

/-! ## Replies and names on the view -/

section
variable {v v' : View} {i : ℕ} {x : Held} {id : UInt64} {fd : ℤ} {ms : List Message}

/-- Every message has its reply in an operation of its own, unused before. -/
theorem View.Answers.sends (ha : v.Answers id fd ms v') : ∃ sends, v'.sq = v.sq ++ sends ∧
    List.Forall₂ (fun m e => ∃ s : Slot, e = ⟨s.op, .send fd s.bref 0 m.response.bytes.length⟩ ∧
      v'.ops s.op = some (m.response.held id fd s)) ms sends ∧
    (sends.map Sqe.userData).Nodup ∧ ∀ e ∈ sends, v.ops e.userData = none := by
  induction ha with
  | nil v => exact ⟨[], (List.append_nil _).symm, .nil, List.nodup_nil, by simp⟩
  | @cons v v' s m ms hs ha ih =>
    obtain ⟨sends, hsq, hall, hnd, hnew⟩ := ih
    have hop : v'.ops s.op = some (m.response.held id fd s) :=
      ha.op (by rw [View.answer_ops, Function.update_self])
    have hne : ∀ e ∈ sends, e.userData ≠ s.op := by
      intro e he heq
      have hfree := hnew e he
      rw [View.answer_ops, heq, Function.update_self] at hfree
      cases hfree
    refine ⟨⟨s.op, .send fd s.bref 0 m.response.bytes.length⟩ :: sends, ?_, .cons ⟨s, rfl, hop⟩ hall,
      ?_, ?_⟩
    · rw [hsq, View.answer_sq, List.append_assoc]
      rfl
    · rw [List.map_cons, List.nodup_cons]
      refine ⟨?_, hnd⟩
      intro hmem
      obtain ⟨e, he, heq⟩ := List.mem_map.mp hmem
      exact hne e he heq
    · intro e he
      rcases List.mem_cons.mp he with rfl | he
      · exact hs
      · have hfree := hnew e he
        rwa [View.answer_ops, Function.update_of_ne (hne e he)] at hfree

theorem View.Answers.fds (ha : v.Answers id fd ms v') : v'.fds = v.fds := by
  induction ha with
  | nil v => rfl
  | cons _ _ ih => rw [ih, View.answer_fds]

theorem lastValid_cons (name : List UInt8) (names : List (List UInt8)) : lastValid (name :: names) =
    if ValidName name then some ((lastValid names).getD name) else lastValid names := by
  rw [lastValid, List.filter_cons]
  by_cases hv : ValidName name
  · simp only [decide_eq_true hv, if_true, if_pos hv, List.getLast?_cons, lastValid]
  · simp only [decide_eq_false hv, Bool.false_eq_true, if_false, if_neg hv, lastValid]

theorem View.Answers.renamed (ha : v.Answers id fd ms v') {c : Client} (hc : v.clients id = some c) :
    ∃ c', v'.clients id = some c' ∧ match lastValid (ms.map Message.payload) with
      | none => c' = c
      | some name => c' = { c with username := c'.username } ∧ cString c'.username = name := by
  induction ha generalizing c with
  | nil v => exact ⟨c, hc, rfl⟩
  | @cons v v' s m ms hs ha ih =>
    rw [List.map_cons, lastValid_cons]
    by_cases hv : ValidName m.payload
    · have hu := (usernameValid_iff _).mpr hv.2
      obtain ⟨c', hc', hren⟩ := ih (c := c.rename m.payload) (by
        rw [View.answer_clients, if_pos ((judge_eq_none_iff _).mpr hv)]
        simp [hc])
      refine ⟨c', hc', ?_⟩
      rw [if_pos hv]
      cases hlast : lastValid (ms.map Message.payload) with
      | none =>
        simp only [hlast] at hren
        subst hren
        exact ⟨rfl, cString_store _ _ hu⟩
      | some name =>
        simp only [hlast] at hren
        exact hren
    · obtain ⟨c', hc', hren⟩ := ih (c := c) (by
        rw [View.answer_clients, if_neg (fun hj => hv ((judge_eq_none_iff _).mp hj)), hc])
      refine ⟨c', hc', ?_⟩
      rw [if_neg hv]
      exact hren

theorem Server.Models.handleRecv_frames {srv : Server} {c : Client} (h : srv.Models v)
    (hi : v.ops i = some x) (hc : v.clients x.clientId = some c) (junk : Junk) {fs : List Frame}
    (hacc : ∀ f ∈ fs, f.Accepted) {r extra : List UInt8} (hbuf : x.buf = stream fs ++ (r ++ extra))
    (hpos : 0 < (stream fs).length + r.length) (hcap : (stream fs).length + r.length ≤ x.bufCap)
    {stop : Stop} (hstop : look x.buf (stream fs).length r.length = .error stop)
    (hroom : v.sq.length + fs.length + 1 ≤ v.entries) (hfd : v.fds x.clientFd ≠ none) :
    ∃ srv' v₁, Caht.handleRecv srv c.node i ((stream fs).length + r.length) junk = .ok srv' ∧
      v.Answers x.clientId x.clientFd (fs.map Frame.toMessage) v₁ ∧
      (stop = .tooLong ∨ stop = .refused → i ∈ srv'.pool.freeOpsIdx) ∧
      srv'.Models (v₁.finish i x ⟨fs.map Frame.toMessage, (stream fs).length, r.length, stop⟩
        junk.past) := by
  have hscan : scan x.buf 0 ((stream fs).length + r.length) =
      some ⟨fs.map Frame.toMessage, (stream fs).length, r.length, stop⟩ := by
    have hend : scan x.buf (stream fs).length r.length =
        some ⟨[], (stream fs).length, r.length, stop⟩ := by
      rw [scan_look]
      simp only [hstop]
    have hall := scan_frames fs hacc [] r extra
    rw [List.nil_append, ← hbuf, List.length_nil, Nat.zero_add, hend, Option.map_some,
      List.append_nil] at hall
    exact hall
  have hloop := h.handleRecv_loop hi hc junk hpos hcap
  cases hrun : Caht.handleRecv srv c.node i ((stream fs).length + r.length) junk with
  | error e =>
    have hfail := hloop.error hrun
    rw [View.LoopFails, hscan] at hfail
    rcases hfail with ⟨-, hfull⟩ | ⟨-, -, hnone, -⟩
    · simp only [Scan.demand, List.length_map] at hfull
      split_ifs at hfull <;> omega
    · exact absurd hnone hfd
  | ok srv' =>
    obtain ⟨s, hl⟩ := hloop.ok hrun
    obtain rfl := Option.some.inj (hl.scan.symm.trans hscan)
    obtain ⟨v₁, hans, hsrv'⟩ := hl.answers
    exact ⟨srv', v₁, rfl, hans, fun hs => (hl.dropped hs).2.op, hsrv'⟩

theorem View.Finishes.sends_frames {srv : Server} {s : Scan} {fs : List Frame} {sends : List Sqe}
    (hf : v.Finishes i x s v') (hm : srv.Models v') (hi : v.ops i = some x) (ht : x.type = .read)
    (hall : List.Forall₂ (fun m e => ∃ s : Slot,
      e = ⟨s.op, .send x.clientFd s.bref 0 m.response.bytes.length⟩ ∧
        v.ops s.op = some (m.response.held x.clientId x.clientFd s)) (fs.map Frame.toMessage) sends) :
    List.Forall₂ (fun f e => srv.Sends (x.operation i) f.reply.bytes e) fs sends := by
  refine (List.forall₂_map_left_iff.mp hall).imp ?_
  rintro f e ⟨s, rfl, hop⟩
  rw [f.toMessage_response] at hop
  have hsi : s.op ≠ i := by
    rintro rfl
    have htype := congrArg Held.type (Option.some.inj (hop.symm.trans hi))
    exact absurd (htype.trans ht) (by simp [Response.held])
  have hfin := (hf.ops_of_ne hsi).trans hop
  refine ⟨s.bref, _, ?_, hm.op _ _ hfin, hm.bufs.block _ _ hfin, List.prefix_append _ _⟩
  rw [← f.toMessage_response]
  rfl

theorem View.Answers.renamed_info {srv srv' : Server} {v₂ : View} {c : Client}
    (ha : v.Answers id fd ms v') (h : srv.Models v) (h' : srv'.Models v₂)
    (hcl : v₂.clients = v'.clients) (hc : v.clients id = some c) : ∃ m m', srv.info id = some m ∧
      srv'.info id = some m' ∧ Renamed m m' (lastValid (ms.map Message.payload)) := by
  obtain ⟨c', hc', hren⟩ := ha.renamed hc
  have hinfo := h.info id
  have hinfo' := h'.info id
  rw [hc] at hinfo
  rw [hcl, hc'] at hinfo'
  refine ⟨_, _, hinfo, hinfo', ?_⟩
  cases hlast : lastValid (ms.map Message.payload) with
  | none =>
    simp only [hlast] at hren
    rw [Renamed, hren]
  | some name =>
    simp only [hlast] at hren
    rw [Renamed]
    refine ⟨?_, hren.2⟩
    rw [hren.1]

end

/-! ## One receive -/

/-- A receive of complete `SET_USERNAME` frames and a rest queues one reply for each
frame, in order. It then arms the same operation to receive more behind the rest, or
drops the client. -/
theorem recv_agrees_with_reference (w : World) (i : ℕ) (o : Operation) (info : ℕ) (buf : List UInt8)
    (n : ℕ) (junk : Junk) (fs : List Frame) (r : List UInt8) (hw : w.Receives i o info)
    (hbuf : buf.length = 2048) (hn : 1 ≤ n ∧ n ≤ 2048) (hacc : ∀ f ∈ fs, f.Accepted)
    (hbytes : buf.take n = stream fs ++ r) (hrest : Unfinished r ∨ Unwelcome r)
    (hroom : w.srv.ring.sq.length + fs.length + 1 ≤ w.srv.ring.entries)
    (hfd : w.srv.fds o.clientFd ≠ none) :
    ∃ srv' sends, handleRecv (w.srv.setBuf o.bufRef buf) info i n junk = .ok srv' ∧
      List.Forall₂ (fun f e => srv'.Sends o f.reply.bytes e) fs sends ∧
      (sends.map Sqe.userData).Nodup ∧ (∀ e ∈ sends, w.op e.userData = none) ∧
      (Unfinished r → ∃ b m m', o.bufRef = some b ∧
        srv'.ring.sq = w.srv.ring.sq ++ sends ++
          [⟨i, .recv o.clientFd b r.length (2048 - r.length)⟩] ∧
        srv'.pool.ops[i]? = some o ∧ srv'.fds = w.srv.fds ∧ w.srv.info o.clientId = some m ∧
        srv'.info o.clientId = some m' ∧ Renamed m m' (lastValid (fs.map Frame.payload))) ∧
      (Unwelcome r → srv'.ring.sq = w.srv.ring.sq ++ sends ∧
        srv'.fds = Function.update w.srv.fds o.clientFd none ∧ srv'.info o.clientId = none ∧
        i ∈ srv'.pool.freeOpsIdx) := by
  obtain ⟨v, x, c, hs⟩ := hw.seen hbuf
  obtain rfl := hs.node
  obtain rfl := hs.operation
  have hlen : n = (stream fs).length + r.length := by
    rw [← List.length_append, ← hbytes, List.length_take, hbuf, min_eq_left hn.2]
  have hx : x.buf = stream fs ++ (r ++ buf.drop n) := by
    rw [hs.buf, ← List.append_assoc, ← hbytes, List.take_append_drop]
  have hring : (w.srv.setBuf (x.operation i).bufRef buf).ring = w.srv.ring := rfl
  have hvfds : v.fds = w.srv.fds := hs.models.fds
  have hcap := hs.bufCap
  obtain ⟨stop, hstop, hkind⟩ : ∃ stop, look x.buf (stream fs).length r.length = .error stop ∧
      (Unfinished r → stop = .header ∨ stop = .body) ∧
      (Unwelcome r → stop = .tooLong ∨ stop = .refused) := by
    rw [hx]
    exact look_rest (stream fs) r (buf.drop n) hrest
  subst hlen
  rw [← hring, ← hs.models.sq, ← hs.models.entries] at hroom
  rw [← hvfds] at hfd
  obtain ⟨srv', v₁, hrun, hans, hfree, hsrv'⟩ := hs.models.handleRecv_frames hs.op hs.client junk hacc hx
    (by omega) (by omega) hstop hroom hfd
  obtain ⟨sends, hsq, hall, hnd, hnew⟩ := hans.sends
  have hi₁ := hans.op hs.op
  have hne : ∀ e ∈ sends, e.userData ≠ i := by
    intro e he heq
    have hnone := hnew e he
    rw [heq, hs.op] at hnone
    cases hnone
  have hf := v₁.finishes i x ⟨fs.map Frame.toMessage, (stream fs).length, r.length, stop⟩ junk.past
  refine ⟨srv', sends, hrun, ?_, hnd, ?_, ?_, ?_⟩
  · exact hf.sends_frames hsrv' hi₁ hw.type hall
  · intro e he
    rw [hs.same _ (hne e he), hnew e he, Option.map_none]
  · intro hr
    obtain ⟨hsq', ⟨buf', hi'⟩, hcl', hfds'⟩ := hf.again hi₁ (hkind.1 hr)
    obtain ⟨m, m', hinfo, hinfo', hren⟩ := hans.renamed_info hs.models hsrv' hcl' hs.client
    have hop' := hsrv'.op _ _ hi'
    refine ⟨x.bref, m, m', rfl, ?_, hop', ?_, hinfo, hinfo', ?_⟩
    · rw [← hsrv'.sq, hsq', hsq, hcap, ← hring, ← hs.models.sq]
      rfl
    · rw [← hsrv'.fds, hfds', hans.fds, hvfds]
    · rwa [List.map_map] at hren
  · intro hr
    obtain ⟨hsq', -, hcl', hfds'⟩ := hf.gone (hkind.2 hr)
    refine ⟨?_, ?_, ?_, hfree (hkind.2 hr)⟩
    · rw [← hsrv'.sq, hsq', hsq, ← hring, ← hs.models.sq]
    · rw [← hsrv'.fds, hfds', hans.fds, hvfds]
      rfl
    · rw [hsrv'.info_eq_none, hcl']
      exact Function.update_self ..

/-- A name, a name that is too short and one more byte. -/
def twoFrames : List UInt8 :=
  [0, 14, 1, 0, 0, 0, 0, 0, 0, 0, 7, 97, 98, 99] ++ [0, 13, 1, 0, 0, 0, 0, 0, 0, 0, 8, 97, 33] ++ [0]

theorem recv_agrees_with_reference_two_frames : ∃ (w : World) (srv' : Server) (sends : List Sqe),
    w.Receives 0 firstRecv 0 ∧
    handleRecv (w.srv.setBuf firstRecv.bufRef (twoFrames ++ List.replicate 2020 0)) 0 0 28 .zero =
      .ok srv' ∧
    sends.length = 2 ∧ srv'.ring.sq = sends ++ [⟨0, .recv 5 127 1 2047⟩] := by
  obtain ⟨w, hw, hrecv⟩ := World.delivered_receives
    (show (World.delivered twoFrames).map _ = _ by decide +kernel)
  have hring : (World.delivered twoFrames).map (fun w => (w.srv.ring, (w.srv.fds 5).isSome)) =
      some (⟨4096, []⟩, true) := by
    decide +kernel
  rw [hw, Option.map_some] at hring
  obtain ⟨hring, hfd⟩ := Prod.mk.inj (Option.some.inj hring)
  obtain ⟨srv', sends, hok, hall, -, -, hrearm, -⟩ := recv_agrees_with_reference w 0 firstRecv 0
    (twoFrames ++ List.replicate 2020 0) 28 .zero
    [⟨1, 7, [97, 98, 99], by decide⟩, ⟨1, 8, [97, 33], by decide⟩] [0] hrecv
    (by rw [List.length_append, List.length_replicate]; rfl) (by decide) (by decide)
    (by decide +kernel) (.inl (.inl (by decide))) (by rw [hring]; decide)
    (Option.isSome_iff_ne_none.mp hfd)
  obtain ⟨b, m, m', hb, hsq, -⟩ := hrearm (.inl (by decide))
  obtain rfl := Option.some.inj hb
  rw [hring] at hsq
  exact ⟨w, srv', sends, hrecv, hok, hall.length_eq.symm, hsq⟩

end Caht
