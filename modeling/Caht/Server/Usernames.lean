import Caht.Library.Traced
import Caht.Server.Pipelining

/-! # One request to set a user name

`handle` on a `SET_USERNAME` request of any length that fits the buffer, also one
shorter than a header, for which `deser_set_username` wraps around. The case of the
switch is written once more as what it reads of the request, ending in a verdict, and
what it does after that.
-/

namespace Caht
open Library Protocol Traced

/-- The lengths and bytes of a request `handle` accepts. -/
def NamesUser (req : List UInt8) (reqLen : ℕ) : Prop :=
  (14 ≤ reqLen ∧ reqLen ≤ 26) ∧ ∀ k < reqLen, 11 ≤ k → ∃ b ∈ req[k]?, Alphanumeric b

instance (req : List UInt8) (reqLen : ℕ) : Decidable (NamesUser req reqLen) :=
  inferInstanceAs (Decidable (_ ∧ _))

/-- The reply to the request: the first check that fails decides. -/
def usernameReply (req : List UInt8) (reqLen : ℕ) (seqid : UInt64) : Response :=
  if ¬ (14 ≤ reqLen ∧ reqLen ≤ 26) then .serverError seqid .invalidMsgLen
  else if ¬ NamesUser req reqLen then .serverError seqid .invalidUsername
  else .setUsernameResponse seqid

/-- The entry of the client after the request. -/
def ClientInfo.renamedBy (n : ClientInfo) (req : List UInt8) (reqLen : ℕ) : ClientInfo :=
  if NamesUser req reqLen then
    { n with username := (req.take reqLen).drop 11 ++ 0 :: n.username.drop (reqLen - 11 + 1) }
  else n

/-- The server with `buf` in the buffer of `o` and `n` in the entry of its client. -/
def World.requested (w : World) (o : Operation) (buf : List UInt8) (info : ℕ) (n : ClientInfo) :
    Server :=
  { w.srv.setBuf o.bufRef buf with
    clients := { w.srv.clients with nodes := w.srv.clients.nodes.set info n } }

/-- One reply is queued, and of the client map only the entry `n` at `info` differs, by
the name the request has, which fits with its end into the array. -/
structure Server.AnswersName (srv : Server) (info : ℕ) (o : Operation) (n : ClientInfo)
    (req : List UInt8) (reqLen : ℕ) (seqid : UInt64) (srv' : Server) : Prop where
  reply : ∃ e, srv'.ring.sq = srv.ring.sq ++ [e] ∧
    srv'.Sends o (usernameReply req reqLen seqid).bytes e
  entry : srv.clients.nodes[info]? = some n ∧
    srv'.clients.nodes[info]? = some (n.renamedBy req reqLen)
  others : srv'.clients =
    { srv.clients with nodes := srv.clients.nodes.set info (n.renamedBy req reqLen) }
  fits : (n.renamedBy req reqLen).username.length = 16 ∧ (NamesUser req reqLen → reqLen - 11 < 16)

/-! ## What is read of the request -/

/-- The checks and the copy, with the bytes of the request they read: the code of the
error, or the name that is stored. -/
def readUsername (req : List UInt8) (reqLen : ℕ) :
    Traced Access (Except ResponseCode (List UInt8)) := do
  let u := deserSetUsername reqLen
  if u.len < minUnameLen ∨ maxUnameLen < u.len then pure (.error .invalidMsgLen)
  else
    let valid ← all isalnum req u.ptr u.len
    if !valid then pure (.error .invalidUsername)
    else
      let uname ← span req u.ptr u.len
      pure (.ok uname)

/-- What follows the checks, up to the return. -/
def answerUsername (srv : Server) (info : ℕ) (o : Operation) (seqid : UInt64) (junk : Junk) :
    Except ResponseCode (List UInt8) → Outcome (Server × ℤ)
  | .error code => do
    let srv ← sendServerError srv o.clientFd o.clientId seqid code junk
    .ok (srv, 0)
  | .ok uname => do
    let clients := srv.clients.write info (storeUsername uname)
    let name := ((clients.nodes[info]?).map ClientInfo.username).getD []
    let srv := { srv with clients := clients }.log (.username o.clientId (cString name))
    let srv ← sendSetUsernameResponse srv o.clientFd seqid o.clientId junk
    .ok (srv, 0)

section
variable {req : List UInt8} {reqLen : ℕ}

/-- Below the header the difference wraps around to a length no name has. -/
theorem deserSetUsername_range (h : reqLen ≤ 2048) :
    ((deserSetUsername reqLen).len < minUnameLen ∨ maxUnameLen < (deserSetUsername reqLen).len) ↔
      ¬ (14 ≤ reqLen ∧ reqLen ≤ 26) := by
  simp only [deserSetUsername, minUnameLen, maxUnameLen]
  by_cases hr : 11 ≤ reqLen
  · rw [sizeSub_of_le hr (by omega)]
    omega
  · have hbig := sizeSub_lt (show reqLen < 11 by omega) (by norm_num)
    omega

theorem deserSetUsername_len (h : 11 ≤ reqLen) (h' : reqLen ≤ 2048) :
    (deserSetUsername reqLen).len = reqLen - 11 := sizeSub_of_le h (by omega)

theorem namesUser_iff (h : reqLen ≤ req.length) : NamesUser req reqLen ↔
    (14 ≤ reqLen ∧ reqLen ≤ 26) ∧ usernameValid ((req.drop 11).take (reqLen - 11)) = true := by
  rw [NamesUser, usernameValid_iff]
  refine and_congr_right fun hlen => ?_
  constructor
  · intro hall b hb
    obtain ⟨k, hk, rfl⟩ := List.mem_iff_getElem.mp hb
    rw [List.length_take, List.length_drop] at hk
    obtain ⟨b, hget, hal⟩ := hall (11 + k) (by omega) (by omega)
    rw [List.getElem_take, List.getElem_drop]
    rw [Option.mem_def, List.getElem?_eq_getElem (by omega), Option.some.injEq] at hget
    rwa [hget]
  · intro hall k hk hge
    refine ⟨req[k], List.getElem?_eq_getElem (by omega), hall _ ?_⟩
    refine List.mem_iff_getElem.mpr ⟨k - 11, ?_, ?_⟩
    · rw [List.length_take, List.length_drop]
      omega
    · simp only [List.getElem_take, List.getElem_drop, Nat.add_sub_cancel' hge]

/-- The first half, on the bytes themselves. -/
theorem readUsername_eq (h : reqLen ≤ req.length) (h' : reqLen ≤ 2048) :
    (readUsername req reqLen).result =
      if (deserSetUsername reqLen).len < minUnameLen ∨ maxUnameLen < (deserSetUsername reqLen).len then
        .ok (.error .invalidMsgLen)
      else if !usernameValid ((req.drop (deserSetUsername reqLen).ptr).take
          (deserSetUsername reqLen).len) then
        .ok (.error .invalidUsername)
      else .ok (.ok ((req.drop (deserSetUsername reqLen).ptr).take (deserSetUsername reqLen).len)) := by
  rw [readUsername]
  by_cases hbad : (deserSetUsername reqLen).len < minUnameLen ∨
      maxUnameLen < (deserSetUsername reqLen).len
  · rw [if_pos hbad, if_pos hbad]
    rfl
  · rw [if_neg hbad, if_neg hbad]
    rw [deserSetUsername_range h', not_not] at hbad
    have hfit : (deserSetUsername reqLen).ptr + (deserSetUsername reqLen).len ≤ req.length := by
      rw [deserSetUsername_len (by omega) h', deserSetUsername]
      simp only
      omega
    rw [bind_result, all_result isalnum hfit, ok_bind, usernameValid]
    split
    · rfl
    · rw [bind_result, span_result hfit]
      rfl

theorem readUsername_result (h : reqLen ≤ req.length) (h' : reqLen ≤ 2048) :
    (readUsername req reqLen).result = .ok (if ¬ (14 ≤ reqLen ∧ reqLen ≤ 26) then .error .invalidMsgLen
      else if ¬ NamesUser req reqLen then .error .invalidUsername
      else .ok ((req.take reqLen).drop 11)) := by
  rw [readUsername_eq h h', if_congr (deserSetUsername_range h') rfl rfl]
  by_cases hlen : 14 ≤ reqLen ∧ reqLen ≤ 26
  · have hptr : (deserSetUsername reqLen).ptr = 11 := rfl
    have hiff := namesUser_iff h
    rw [if_neg (not_not.mpr hlen), if_neg (not_not.mpr hlen), hptr, deserSetUsername_len (by omega) h',
      List.drop_take]
    by_cases hok : NamesUser req reqLen
    · rw [(hiff.mp hok).2, if_neg (not_not.mpr hok)]
      rfl
    · have hval := Bool.eq_false_iff.mpr fun hval => hok (hiff.mpr ⟨hlen, hval⟩)
      rw [hval, if_pos hok]
      rfl
  · rw [if_pos hlen, if_pos hlen]

theorem readUsername_within (h : reqLen ≤ 2048) :
    (readUsername req reqLen).Within fun a => 11 ≤ a.index ∧ a.index < reqLen := by
  rw [readUsername]
  simp only [deserSetUsername_range h]
  by_cases hlen : 14 ≤ reqLen ∧ reqLen ≤ 26
  · rw [if_neg (not_not.mpr hlen)]
    obtain ⟨k, rfl⟩ := Nat.exists_eq_add_of_le (show 11 ≤ reqLen by omega)
    have hptr : (deserSetUsername (11 + k)).ptr = 11 := rfl
    rw [hptr, deserSetUsername_len (by omega) h, Nat.add_sub_cancel_left]
    refine (all_within isalnum).bind fun valid _ => ?_
    split
    · exact within_pure _
    · exact span_within.bind fun _ _ => within_pure _
  · rw [if_pos hlen]
    exact within_pure _

end

/-! ## The two halves of `handle` -/

section
variable {srv : Server} {info op off reqLen : ℕ} {o : Operation} {buf : List UInt8} {junk : Junk}

/-- Of the request, `handle` uses what the first half reads. -/
theorem handle_setUsername (info : ℕ) (seqid : UInt64) (junk : Junk) (hop : srv.getOp op = .ok o)
    (hget : srv.getBuf o.bufRef = .ok buf) (h : off + reqLen ≤ buf.length) (h' : reqLen ≤ 2048) :
    handle srv info op off reqLen MessageType.setUsername.code seqid junk =
      (readUsername (buf.drop off) reqLen).result >>= answerUsername
        (srv.log (.handled o.clientId MessageType.setUsername.code seqid
          (((buf.drop off).take reqLen).drop protHdrLen))) info o seqid junk := by
  have hreq : reqLen ≤ (buf.drop off).length := by
    rw [List.length_drop]
    omega
  rw [handle, hop, ok_bind, hget, ok_bind, if_pos rfl]
  rw [readUsername_eq hreq h']
  by_cases hbad : (deserSetUsername reqLen).len < minUnameLen ∨
      maxUnameLen < (deserSetUsername reqLen).len
  · rw [if_pos hbad, if_pos hbad, ok_bind]
    rfl
  · rw [if_neg hbad, if_neg hbad]
    dsimp only
    cases usernameValid (((buf.drop off).drop (deserSetUsername reqLen).ptr).take
      (deserSetUsername reqLen).len) with
    | false => rfl
    | true => rfl

theorem addSend_clients (srv : Server) (cm : ClientMap) (fd : ℤ) (id : UInt64) (r : Response) :
    addSend { srv with clients := cm } op fd id r =
      (addSend srv op fd id r).map fun srv' => { srv' with clients := cm } := by
  have hsqe : Server.getSqe { srv with clients := cm } = srv.getSqe := rfl
  have hop : ∀ f, Server.getOp ({ srv with clients := cm }.updateOp op f) op =
      (srv.updateOp op f).getOp op := fun _ => rfl
  simp only [addSend, hsqe, hop]
  cases srv.getSqe with
  | error e => rfl
  | ok _ =>
    simp only [ok_bind]
    cases (srv.updateOp op _).getOp op with
    | error e => rfl
    | ok o =>
      simp only [ok_bind]
      cases o.bufRef with
      | none => rfl
      | some b => rfl

theorem sendResponse_clients (cm : ClientMap) (fd : ℤ) (id : UInt64) (r : Response)
    (ser : ℕ → List UInt8 → Outcome (ℕ × List UInt8)) :
    sendResponse { srv with clients := cm } fd id r ser junk =
      (sendResponse srv fd id r ser junk).map fun srv' => { srv' with clients := cm } := by
  simp only [sendResponse]
  cases opPoolNewEntry srv.pool junk.op with
  | error e => rfl
  | ok new =>
    have hacq : acquireSmallBuf { srv with clients := cm, pool := new.1 } new.2 1 junk =
      { acquireSmallBuf { srv with pool := new.1 } new.2 1 junk with clients := cm } := rfl
    simp only [ok_bind, hacq]
    generalize acquireSmallBuf { srv with pool := new.1 } new.2 1 junk = srv₁
    have hop : Server.getOp { srv₁ with clients := cm } new.2 = srv₁.getOp new.2 := rfl
    have hget : ∀ b, Server.getBuf { srv₁ with clients := cm } b = srv₁.getBuf b := fun _ => rfl
    simp only [hop, hget]
    cases srv₁.getOp new.2 with
    | error e => rfl
    | ok o =>
      simp only [ok_bind]
      cases srv₁.getBuf o.bufRef with
      | error e => rfl
      | ok buf =>
        simp only [ok_bind]
        cases ser o.bufCap buf with
        | error e => rfl
        | ok res =>
          have hset : Server.setBuf { srv₁ with clients := cm } o.bufRef res.2 =
              { srv₁.setBuf o.bufRef res.2 with clients := cm } := by
            cases o.bufRef <;> rfl
          simp only [ok_bind, hset]
          exact addSend_clients ((srv₁.setBuf o.bufRef res.2).updateOp new.2 fun o =>
            { o with bufLen := res.1 }) cm fd id r

/-- A reply that has room is queued, whatever is in the client map. -/
theorem Server.Models.sendResponse_ok {v : View} (h : srv.Models v) {r : Response}
    {ser : ℕ → List UInt8 → Outcome (ℕ × List UInt8)} (hroom : v.sq.length < v.entries)
    (hser : Ends (Caht.sendResponse srv o.clientFd o.clientId r ser junk) (fun srv' =>
      v.sq.length < v.entries ∧ ∃ s, v.ops s.op = none ∧
        srv'.Models (v.reply s o.clientId o.clientFd r)) v.Full) (cm : ClientMap) :
    ∃ srv', Caht.sendResponse { srv with clients := cm } o.clientFd o.clientId r ser junk = .ok srv' ∧
      srv'.clients = cm ∧ ∃ e, srv'.ring.sq = srv.ring.sq ++ [e] ∧ srv'.Sends o r.bytes e := by
  rw [sendResponse_clients]
  cases hrun : Caht.sendResponse srv o.clientFd o.clientId r ser junk with
  | error e => exact absurd (hser.error hrun).2 (by omega)
  | ok srv₁ =>
    obtain ⟨-, s, -, hm⟩ := hser.ok hrun
    have hop : (v.reply s o.clientId o.clientFd r).ops s.op = some (r.held o.clientId o.clientFd s) :=
      Function.update_self ..
    refine ⟨_, rfl, rfl, ⟨s.op, .send o.clientFd s.bref 0 r.bytes.length⟩, ?_, s.bref, _, rfl,
      hm.op _ _ hop, hm.bufs.block _ _ hop, List.prefix_append _ _⟩
    have hsq : srv₁.ring.sq = _ := hm.sq.symm
    simp only [hsq, View.reply, View.prep, View.log, View.setOp, h.sq]

theorem bind_return {y : Outcome Server} {srv' : Server} (h : y = .ok srv') :
    (y >>= fun srv => .ok (srv, (0 : ℤ))) = .ok (srv', 0) := by
  rw [h, ok_bind]

theorem Server.Models.answerUsername_error {v : View} (h : srv.Models v)
    (hroom : v.sq.length < v.entries) (cm : ClientMap) (info : ℕ) (o : Operation) (seqid : UInt64)
    (junk : Junk) (code : ResponseCode) :
    ∃ srv', answerUsername { srv with clients := cm } info o seqid junk (.error code) = .ok (srv', 0) ∧
      srv'.clients = cm ∧
      ∃ e, srv'.ring.sq = srv.ring.sq ++ [e] ∧ srv'.Sends o (Response.serverError seqid code).bytes e := by
  obtain ⟨srv', hrun, hcl, hsq⟩ := h.sendResponse_ok (o := o) hroom
    (h.sendServerError o.clientFd o.clientId seqid code junk) cm
  exact ⟨srv', bind_return hrun, hcl, hsq⟩

theorem Server.Models.answerUsername_name {v : View} (h : srv.Models v)
    (hroom : v.sq.length < v.entries) (cm : ClientMap) (info : ℕ) (o : Operation) (seqid : UInt64)
    (junk : Junk) (uname : List UInt8) :
    ∃ srv', answerUsername { srv with clients := cm } info o seqid junk (.ok uname) = .ok (srv', 0) ∧
      srv'.clients = cm.write info (storeUsername uname) ∧
      ∃ e, srv'.ring.sq = srv.ring.sq ++ [e] ∧
        srv'.Sends o (Response.setUsernameResponse seqid).bytes e := by
  have hlog := h.log (.username o.clientId (cString
    ((((cm.write info (storeUsername uname)).nodes[info]?).map ClientInfo.username).getD [])))
  obtain ⟨srv', hrun, hcl, hsq⟩ := hlog.sendResponse_ok (o := o) hroom
    (hlog.sendSetUsernameResponse o.clientFd seqid o.clientId junk)
    (cm.write info (storeUsername uname))
  exact ⟨srv', bind_return hrun, hcl, hsq⟩

/-- Storing the name changes the user name of the entry only, from its start to the end
of the name. -/
theorem write_storeUsername {cm : ClientMap} {n : ClientInfo} (name : List UInt8) :
    ClientMap.write { cm with nodes := cm.nodes.set info n } info (storeUsername name) =
      { cm with nodes := (cm.nodes.set info
        { n with username := name ++ 0 :: n.username.drop (name.length + 1) }) } := by
  have hname : writeAt (writeAt n.username 0 name) name.length [0] =
      name ++ 0 :: n.username.drop (name.length + 1) := by
    have happ := writeAt_append n.username name [0] 0 (Nat.zero_le _)
    rw [Nat.zero_add] at happ
    rw [happ, writeAt_zero, List.length_append, List.append_assoc]
    rfl
  rw [ClientMap.write]
  congr 1
  apply List.ext_getElem?
  intro p
  by_cases hp : p = info
  · subst hp
    by_cases hlt : p < cm.nodes.length
    · rw [List.getElem?_modify_eq, List.getElem?_set_self hlt, List.getElem?_set_self hlt,
        Option.map_eq_map, Option.map_some, storeUsername, hname]
    · simp [hlt]
  · simp [Ne.symm hp]

end

/-! ## The whole request -/

section
variable {w : World} {i : ℕ} {x : Held} {v : View} {c : Client} {n : ClientInfo} {off reqLen : ℕ}

theorem ClientInfo.renamedBy_fits {req : List UInt8} (hname : n.username.length = 16)
    (hreq : reqLen ≤ req.length) :
    (n.renamedBy req reqLen).username.length = 16 ∧ (NamesUser req reqLen → reqLen - 11 < 16) := by
  refine ⟨?_, fun hn => by have := hn.1; omega⟩
  rw [ClientInfo.renamedBy]
  split
  · rename_i hn
    have hlen := hn.1
    rw [List.length_append, List.length_cons, List.length_drop, List.length_drop, List.length_take,
      hname, min_eq_left hreq]
    omega
  · exact hname

theorem World.Receives.Seen.answerUsername
    (hs : World.Receives.Seen w i (x.operation i) c.node x.buf v x c) (hname : n.username.length = 16)
    (hreq : reqLen ≤ (x.buf.drop off).length) (h' : reqLen ≤ 2048)
    (hroom : w.srv.ring.sq.length < w.srv.ring.entries) (seqid : UInt64) (junk : Junk) (e : Event)
    {verdict : Except ResponseCode (List UInt8)}
    (hread : (readUsername (x.buf.drop off) reqLen).result = .ok verdict) :
    ∃ srv', Caht.answerUsername ((w.requested (x.operation i) x.buf c.node n).log e) c.node
        (x.operation i) seqid junk verdict = .ok (srv', 0) ∧
      (w.requested (x.operation i) x.buf c.node n).AnswersName c.node (x.operation i) n
        (x.buf.drop off) reqLen seqid srv' := by
  have hlt : c.node < w.srv.clients.nodes.length := by
    obtain ⟨n', hn', -⟩ := hs.models.clientInfo hs.client
    exact (List.getElem?_eq_some_iff.mp hn').1
  have hroom' : v.sq.length < v.entries := by
    rw [hs.models.sq, hs.models.entries]
    exact hroom
  have hlog := hs.models.log e
  generalize hreqs : x.buf.drop off = req at *
  let cm : ClientMap := { w.srv.clients with nodes := w.srv.clients.nodes.set c.node n }
  have hdone : ∀ srv' : Server, srv'.clients =
      { cm with nodes := w.srv.clients.nodes.set c.node (n.renamedBy req reqLen) } →
      (∃ e', srv'.ring.sq = w.srv.ring.sq ++ [e'] ∧
        srv'.Sends (x.operation i) (usernameReply req reqLen seqid).bytes e') →
      (w.requested (x.operation i) x.buf c.node n).AnswersName c.node (x.operation i) n req reqLen
        seqid srv' := by
    intro srv' hcl hrep
    have hset : cm.nodes.set c.node (n.renamedBy req reqLen) =
        w.srv.clients.nodes.set c.node (n.renamedBy req reqLen) := List.set_set ..
    refine ⟨hrep, ⟨List.getElem?_set_self hlt, ?_⟩, ?_, ClientInfo.renamedBy_fits hname hreq⟩
    · rw [hcl]
      exact List.getElem?_set_self hlt
    · rw [hcl, ← hset]
      rfl
  have herr : ∀ code, ¬ NamesUser req reqLen → usernameReply req reqLen seqid = .serverError seqid code →
      ∃ srv', Caht.answerUsername ((w.requested (x.operation i) x.buf c.node n).log e) c.node
          (x.operation i) seqid junk (.error code) = .ok (srv', 0) ∧
        (w.requested (x.operation i) x.buf c.node n).AnswersName c.node (x.operation i) n req reqLen
          seqid srv' := by
    intro code hno hrep
    obtain ⟨srv', hrun, hcl, hsq⟩ := hlog.answerUsername_error hroom' cm c.node (x.operation i) seqid
      junk code
    refine ⟨srv', hrun, hdone srv' ?_ (hrep ▸ hsq)⟩
    rw [hcl, ClientInfo.renamedBy, if_neg hno]
  rw [readUsername_result hreq h', Except.ok.injEq] at hread
  subst hread
  by_cases hlen : 14 ≤ reqLen ∧ reqLen ≤ 26
  · rw [if_neg (not_not.mpr hlen)]
    by_cases hok : NamesUser req reqLen
    · rw [if_neg (not_not.mpr hok)]
      have hrep : usernameReply req reqLen seqid = .setUsernameResponse seqid := by
        rw [usernameReply, if_neg (not_not.mpr hlen), if_neg (not_not.mpr hok)]
      have huname : ((req.take reqLen).drop 11).length = reqLen - 11 := by
        rw [List.length_drop, List.length_take, min_eq_left hreq]
      obtain ⟨srv', hrun, hcl, hsq⟩ := hlog.answerUsername_name hroom' cm c.node (x.operation i) seqid
        junk ((req.take reqLen).drop 11)
      refine ⟨srv', hrun, hdone srv' ?_ (hrep ▸ hsq)⟩
      rw [hcl, ClientInfo.renamedBy, if_pos hok, ← huname]
      exact write_storeUsername _
    · rw [if_pos hok]
      exact herr _ hok (by rw [usernameReply, if_neg (not_not.mpr hlen), if_pos hok])
  · rw [if_pos hlen]
    exact herr _ (fun hok => hlen hok.1) (by rw [usernameReply, if_pos hlen])

end

/-- The client of a receive in any reachable state, with any user name and any other
contents of its entry; a buffer with any bytes; and a request that lies in the buffer:
one reply is queued, of the kind that the length and the bytes of the request call for.
The user name is stored exactly if they are allowed, nothing else in the client map
changes, and no byte behind the request is read. -/
theorem set_username_exact (w : World) (i : ℕ) (o : Operation) (info : ℕ) (n : ClientInfo)
    (buf : List UInt8) (off reqLen : ℕ) (seqid : UInt64) (junk : Junk) (hw : w.Receives i o info)
    (hname : n.username.length = 16) (hbuf : buf.length = 2048) (hreq : off + reqLen ≤ 2048)
    (hroom : w.srv.ring.sq.length < w.srv.ring.entries) :
    ∃ verdict srv', (readUsername (buf.drop off) reqLen).result = .ok verdict ∧
      ((readUsername (buf.drop off) reqLen).Within fun a => a.index < reqLen) ∧
      handle (w.requested o buf info n) info i off reqLen MessageType.setUsername.code seqid junk =
        answerUsername ((w.requested o buf info n).log (.handled o.clientId MessageType.setUsername.code
          seqid (((buf.drop off).take reqLen).drop protHdrLen))) info o seqid junk verdict ∧
      handle (w.requested o buf info n) info i off reqLen MessageType.setUsername.code seqid junk =
        .ok (srv', 0) ∧
      (w.requested o buf info n).AnswersName info o n (buf.drop off) reqLen seqid srv' := by
  obtain ⟨v, x, c, hs⟩ := hw.seen hbuf
  obtain rfl := hs.operation
  obtain rfl := hs.node
  obtain rfl := hs.buf
  have hlen : reqLen ≤ (x.buf.drop off).length := by
    rw [List.length_drop, hbuf]
    omega
  have hread := readUsername_result hlen (by omega)
  have hop : (w.requested (x.operation i) x.buf c.node n).getOp i = .ok (x.operation i) :=
    hs.models.getOp hs.op
  have hget : (w.requested (x.operation i) x.buf c.node n).getBuf (x.operation i).bufRef = .ok x.buf :=
    hs.models.getBuf hs.op
  have heq := handle_setUsername c.node seqid junk hop hget (by rw [hbuf]; exact hreq) (by omega)
  obtain ⟨srv', hrun, hans⟩ := hs.answerUsername hname hlen (by omega) hroom seqid junk
    (.handled x.clientId MessageType.setUsername.code seqid
      (((x.buf.drop off).take reqLen).drop protHdrLen)) hread
  rw [hread, ok_bind] at heq
  exact ⟨_, srv', hread, fun a ha => (readUsername_within (by omega) a ha).2, heq, heq.trans hrun, hans⟩

/-- A request for the name `abc`, and an entry whose user name fills the array. -/
def abcRequest : List UInt8 := [0, 14, 1, 0, 0, 0, 0, 0, 0, 0, 7, 97, 98, 99]

def filled : ClientInfo := { ClientInfo.zero with username := List.replicate 16 120 }

theorem set_username_exact_abc : ∃ (w : World) (srv' : Server), w.Receives 0 firstRecv 0 ∧
    handle (w.requested firstRecv (abcRequest ++ List.replicate 2034 0) 0 filled) 0 0 0 14
      MessageType.setUsername.code 7 .zero = .ok (srv', 0) ∧
    srv'.clients.nodes[0]? = some { ClientInfo.zero with
      username := [97, 98, 99, 0, 120, 120, 120, 120, 120, 120, 120, 120, 120, 120, 120, 120] } := by
  obtain ⟨w, hw, hrecv⟩ := World.delivered_receives
    (show (World.delivered abcRequest).map _ = _ by decide +kernel)
  have hroom : (World.delivered abcRequest).map (fun w =>
      decide (w.srv.ring.sq.length < w.srv.ring.entries)) = some true := by
    decide +kernel
  rw [hw, Option.map_some, Option.some.injEq, decide_eq_true_eq] at hroom
  have hbuf : (abcRequest ++ List.replicate 2034 0).length = 2048 := by
    rw [List.length_append, List.length_replicate]
    rfl
  obtain ⟨-, srv', -, -, -, hrun, hans⟩ := set_username_exact w 0 firstRecv 0 filled
    (abcRequest ++ List.replicate 2034 0) 0 14 7 .zero hrecv (by decide) hbuf (by decide) hroom
  refine ⟨w, srv', hrecv, hrun, hans.entry.2.trans ?_⟩
  decide +kernel

end Caht
