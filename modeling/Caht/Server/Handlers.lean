import Caht.Server.View

/-! # The handlers on the view

Each function of `server.c` that changes the state, described by what it does to
the view: `View.reply` for the two `send_*` functions, `View.answer` for `handle`,
`View.disconnect` for the closing half of `disconnect_and_free_op`, and so on. A
handler stops the process in one of the ways its lemma lists, or returns a server
that models the described view.
-/

namespace Caht
open Library Protocol

/-! ## Replies -/

def Response.bytes : Response → List UInt8
  | .serverError seqid code => frame MessageType.serverError.code seqid [code.code]
  | .setUsernameResponse seqid => frame MessageType.setUsernameResponse.code seqid []

theorem Response.bytes_length (r : Response) : 11 ≤ r.bytes.length ∧ r.bytes.length ≤ 12 := by
  cases r <;> simp [Response.bytes]

/-- Where a reply is put: an operation, its buffer and what the buffer holds after
the message. -/
structure Slot where
  op : ℕ
  bref : ℕ
  tail : List UInt8

def Response.held (r : Response) (clientId : UInt64) (fd : ℤ) (s : Slot) : Held :=
  ⟨.write, clientId, fd, 64, r.bytes.length, 0, s.bref, r.bytes ++ s.tail⟩

namespace View

def reply (v : View) (s : Slot) (clientId : UInt64) (fd : ℤ) (r : Response) : View :=
  ((v.setOp s.op (some (r.held clientId fd s))).log (.queued clientId s.op r)).prep
    ⟨s.op, .send fd s.bref 0 r.bytes.length⟩

def disconnect (v : View) (clientId : UInt64) (fd : ℤ) : View :=
  ((v.close fd).setClient clientId none).log (.closed clientId fd)

/-- `io_uring_get_sqe` returns `NULL`. -/
def Full (v : View) (e : Halt) : Prop := e = .exit "SQ is full" ∧ v.entries ≤ v.sq.length

end View

namespace Server.Models
variable {srv : Server} {v : View} {i : ℕ} {x : Held}

theorem getSqe (h : srv.Models v) :
    Ends srv.getSqe (fun _ => v.sq.length < v.entries) v.Full := by
  rw [Server.getSqe, ← h.sq, ← h.entries]
  split
  · assumption
  · exact ⟨rfl, by omega⟩

theorem addSend (h : srv.Models v) (hi : v.ops i = some x) (fd : ℤ) (id : UInt64) (r : Response) :
    Ends (Caht.addSend srv i fd id r) (fun srv' => v.sq.length < v.entries ∧ srv'.Models
      (((v.setOp i (some { x with clientId := id, processed := 0, clientFd := fd, type := .write })).log
        (.queued id i r)).prep ⟨i, .send fd x.bref 0 x.bufLen⟩)) v.Full := by
  refine h.getSqe.bind fun _ hroom => ?_
  have hu := h.updateOp hi (f := fun o =>
      { o with clientId := id, processed := 0, clientFd := fd, type := .write })
    (y := { x with clientId := id, processed := 0, clientFd := fd, type := .write })
    (fun _ => rfl) rfl rfl rfl rfl
  have hop := hu.getOp (v.setOp_self i _)
  simp only [hop, ok_bind]
  exact ⟨hroom, (hu.log _).prep _⟩

theorem sendResponse (h : srv.Models v) (fd : ℤ) (id : UInt64) (r : Response)
    {ser : ℕ → List UInt8 → Outcome (ℕ × List UInt8)} (junk : Junk)
    (hser : ∀ buf : List UInt8, buf.length = 64 →
      ser 64 buf = .ok (r.bytes.length, r.bytes ++ buf.drop r.bytes.length)) :
    Ends (Caht.sendResponse srv fd id r ser junk) (fun srv' => v.sq.length < v.entries ∧
      ∃ s, v.ops s.op = none ∧ srv'.Models (v.reply s id fd r)) v.Full := by
  obtain ⟨pool', i, y, hnew, hi, hcap, hm⟩ := h.newSmall junk
  have hop := hm.getOp (v.setOp_self i _)
  have hbuf := hm.getBuf (v.setOp_self i _)
  have hlen : y.buf.length = 64 := (hm.bufs.length i y (v.setOp_self i _)).trans hcap
  have hle := r.bytes_length
  have hfill : (r.bytes ++ y.buf.drop r.bytes.length).length = y.bufCap := by
    rw [List.length_append, List.length_drop, hlen, hcap]
    omega
  have hm₁ := hm.setBuf (v.setOp_self i _) hfill
  rw [View.setOp_setOp] at hm₁
  have hm₂ := hm₁.updateOp (v.setOp_self i _) (f := fun o => { o with bufLen := r.bytes.length })
    (y := { y with buf := r.bytes ++ y.buf.drop r.bytes.length, bufLen := r.bytes.length })
    (fun _ => rfl) rfl rfl rfl rfl
  rw [View.setOp_setOp] at hm₂
  simp only [Caht.sendResponse, hnew, ok_bind, hop]
  simp only [Held.operation, hbuf, ok_bind, hcap, hser _ hlen]
  refine (hm₂.addSend (v.setOp_self i _) fd id r).mono ?_ fun e he => he
  rintro srv' ⟨hroom, hsrv'⟩
  refine ⟨hroom, ⟨i, y.bref, y.buf.drop r.bytes.length⟩, hi, ?_⟩
  rw [View.setOp_setOp] at hsrv'
  simpa only [View.reply, Response.held, hcap] using hsrv'

theorem sendServerError (h : srv.Models v) (fd : ℤ) (id seqid : UInt64) (code : ResponseCode)
    (junk : Junk) :
    Ends (Caht.sendServerError srv fd id seqid code junk) (fun srv' => v.sq.length < v.entries ∧
      ∃ s, v.ops s.op = none ∧ srv'.Models (v.reply s id fd (.serverError seqid code))) v.Full := by
  refine h.sendResponse fd id _ junk fun buf hbuf => ?_
  rw [serServerError_eq 64 buf seqid code.code hbuf.ge (by norm_num)]
  simp [Response.bytes]

theorem sendSetUsernameResponse (h : srv.Models v) (fd : ℤ) (seqid id : UInt64) (junk : Junk) :
    Ends (Caht.sendSetUsernameResponse srv fd seqid id junk) (fun srv' => v.sq.length < v.entries ∧
      ∃ s, v.ops s.op = none ∧ srv'.Models (v.reply s id fd (.setUsernameResponse seqid))) v.Full := by
  refine h.sendResponse fd id _ junk fun buf hbuf => ?_
  rw [serSetUsernameResponse_eq 64 buf seqid hbuf.ge (by norm_num)]
  simp [Response.bytes]

/-! ## Disconnecting -/

theorem disconnectAndFreeOp (h : srv.Models v) (hi : v.ops i = some x) {c : Client}
    (hc : v.clients x.clientId = some c) (info : ℕ) :
    Ends (Caht.disconnectAndFreeOp srv (some info) i)
      (fun srv' => v.fds x.clientFd ≠ none ∧
        srv'.Models ((v.disconnect x.clientId x.clientFd).setOp i none) ∧ srv'.Returned i x)
      (fun e => e = .exit "handle_recv close client_fd" ∧ v.fds x.clientFd = none) := by
  have hop := h.getOp hi
  cases hfd : v.fds x.clientFd with
  | none =>
    refine Ends.of_error (e := .exit "handle_recv close client_fd") ?_ ⟨rfl, rfl⟩
    simp only [Caht.disconnectAndFreeOp, hop, ok_bind]
    simp [Held.operation, Caht.mustClose, ← h.fds, hfd]
  | some f =>
    obtain ⟨srv₁, hclose, hm₁⟩ := h.mustClose hfd
    have hc₁ : (v.close x.clientFd).clients x.clientId = some c := hc
    obtain ⟨cm, hdel, hm₂⟩ := hm₁.clientMapDelete hc₁
    obtain ⟨srv₂, hfree, hm₃, hi₃⟩ := (hm₂.log (.closed x.clientId x.clientFd)).freeOp (i := i) (x := x) hi
    refine Ends.of_ok (a := srv₂) ?_ ⟨by simp, hm₃, hi₃⟩
    simp only [Caht.disconnectAndFreeOp, hop, ok_bind]
    simp only [Held.operation, hclose, ok_bind, hdel, hfree]

/-! ## Arming receives and sends -/

theorem bufCap_lt (h : srv.Models v) (hi : v.ops i = some x) : x.bufCap < 2 ^ 64 := by
  rcases h.bufs.bufCap i x hi with hc | hc
  · rw [hc, h.cap64]
    norm_num
  · rw [hc, h.cap2k]
    norm_num

theorem addRecv (h : srv.Models v) (hi : v.ops i = some x) (fd : ℤ) :
    Ends (Caht.addRecv srv i fd) (fun srv' => v.sq.length < v.entries ∧ srv'.Models
      ((v.setOp i (some { x with clientFd := fd, type := .read })).prep
        ⟨i, .recv fd x.bref 0 x.bufCap⟩)) v.Full := by
  refine h.getSqe.bind fun _ hroom => ?_
  have hu := h.updateOp hi (f := fun o => { o with clientFd := fd, type := .read })
    (y := { x with clientFd := fd, type := .read }) (fun _ => rfl) rfl rfl rfl rfl
  have hop := hu.getOp (v.setOp_self i _)
  simp only [hop, ok_bind]
  exact ⟨hroom, hu.prep _⟩

theorem resumeRecv (h : srv.Models v) (hi : v.ops i = some x) (n : ℕ) (hn : n ≤ x.bufCap) :
    Ends (Caht.resumeRecv srv i n) (fun srv' => v.sq.length < v.entries ∧ srv'.Models
      (v.prep ⟨i, .recv x.clientFd x.bref n (x.bufCap - n)⟩)) v.Full := by
  refine h.getSqe.bind fun _ hroom => ?_
  simp only [h.getOp hi, ok_bind]
  simp only [Held.operation, sizeSub_of_le hn (h.bufCap_lt hi)]
  exact ⟨hroom, h.prep _⟩

theorem resumeSend (h : srv.Models v) (hi : v.ops i = some x) (n : ℕ) :
    Ends (Caht.resumeSend srv i n) (fun srv' => v.sq.length < v.entries ∧ srv'.Models
      ((v.setOp i (some { x with processed := x.processed + n })).prep
        ⟨i, .send x.clientFd x.bref (x.processed + n) (sizeSub x.bufLen (x.processed + n))⟩))
      v.Full := by
  refine h.getSqe.bind fun _ hroom => ?_
  have hu := h.updateOp hi (f := fun o => { o with processed := o.processed + n })
    (y := { x with processed := x.processed + n }) (fun _ => rfl) rfl rfl rfl rfl
  have hop := hu.getOp (v.setOp_self i _)
  simp only [hop, ok_bind]
  exact ⟨hroom, hu.prep _⟩

end Server.Models

/-! ## Accepting -/

/-- A new accept operation for the client `id`, whose entry is `c`. -/
def View.accept (v : View) (i : ℕ) (bref : ℕ) (buf : List UInt8) (id : UInt64) (c : Client) : View :=
  (((v.setOp i (some ⟨.accept, id, -1, 2048, 0, 0, bref, buf⟩)).setClient id (some c)).log
    (.entered id)).prep ⟨i, .accept v.serverFd c.node⟩

theorem Server.Models.addAccept {srv : Server} {v : View} (h : srv.Models v) (id : UInt64)
    (junk : Junk) :
    Ends (Caht.addAccept srv id junk)
      (fun srv' => v.sq.length < v.entries ∧ v.clients id = none ∧
        ∃ i bref buf c, v.ops i = none ∧ buf.length = 2048 ∧
          srv'.Models (v.accept i bref buf id c))
      (fun e => v.Full e ∨ (e = .undefined ∧ v.clients id ≠ none ∧ v.sq.length < v.entries)) := by
  refine (h.getSqe.mono (fun _ hx => hx) fun e he => .inl he).bind fun _ hroom => ?_
  obtain ⟨pool', i, y, hnew, hi, hcap, hm⟩ := h.newLarge junk
  have hu := hm.updateOp (v.setOp_self i _) (f := fun o =>
      { o with bufLen := 0, clientId := id, processed := 0, clientFd := -1, type := .accept })
    (y := ⟨.accept, id, -1, 2048, 0, 0, y.bref, y.buf⟩) (fun _ => rfl)
    (by simp [Held.operation, hcap]) rfl hcap.symm rfl
  rw [View.setOp_setOp] at hu
  have hlen : y.buf.length = 2048 := (hm.bufs.length i y (v.setOp_self i _)).trans hcap
  simp only [hnew, ok_bind]
  cases hid : v.clients id with
  | some c =>
    have hid' : (v.setOp i (some ⟨.accept, id, -1, 2048, 0, 0, y.bref, y.buf⟩)).clients id = some c :=
      hid
    have hfalse := hu.clientMapNewEntry_false hid' junk.info
    simp only [hfalse, ok_bind]
    exact .inr ⟨rfl, by simp, hroom⟩
  | none =>
    have hid' : (v.setOp i (some ⟨.accept, id, -1, 2048, 0, 0, y.bref, y.buf⟩)).clients id = none :=
      hid
    obtain ⟨cm, c, hent, hm₁⟩ := hu.clientMapNewEntry hid' junk.info
    have hw := hm₁.writeClient (c := c) (d := { c with addr := .zero, addrLen := 16 })
      (f := fun n => { n with clientAddr := .zero, clientAddrLen := 16 })
      (View.setClient_self _ id _) (by
        intro n hn
        rw [← hn]
        rfl)
    rw [View.setClient_setClient] at hw
    have hop := hu.getOp (v.setOp_self i _)
    have hfd : v.serverFd = _ := hu.serverFd
    simp only [hent, ok_bind, hop]
    refine ⟨hroom, trivial, i, y.bref, y.buf, { c with addr := .zero, addrLen := 16 }, hi, hlen, ?_⟩
    rw [View.accept, hfd]
    exact (hw.log _).prep _

end Caht
