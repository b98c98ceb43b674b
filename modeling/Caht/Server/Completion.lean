import Caht.Server.Receive

/-! # One completion

`View.Handles` lists everything the body of `handle_cqe_batch` can do with a
completion, guards included, and `View.Fails` how it can end the process. Later
invariants are proved from these lists.
-/

namespace Caht
open Library Protocol

namespace View

/-- `handle_accept` up to `add_recv`: the accept operation becomes the receive
operation of the new connection. -/
def connect (v : View) (i : ℕ) (x : Held) (c : Client) (fd : ℤ) : View :=
  ((v.setClient x.clientId (some { c with fd := fd })).setOp i
    (some { x with clientFd := fd, type := .read })).prep ⟨i, .recv fd x.bref 0 x.bufCap⟩

/-- `add_accept(srv, next_client_id); next_client_id++;` -/
def acceptNext (v : View) (j bref : ℕ) (buf : List UInt8) (c : Client) : View :=
  { v.accept j bref buf v.nextClientId c with nextClientId := v.nextClientId + 1 }

section
variable (v : View) (i : ℕ) (x : Held) (c : Client) (fd : ℤ) (bref : ℕ) (buf : List UInt8)

@[simp] theorem connect_entries : (v.connect i x c fd).entries = v.entries := rfl
@[simp] theorem connect_fds : (v.connect i x c fd).fds = v.fds := rfl
@[simp] theorem connect_trace : (v.connect i x c fd).trace = v.trace := rfl
@[simp] theorem connect_nextClientId : (v.connect i x c fd).nextClientId = v.nextClientId := rfl
@[simp] theorem connect_serverFd : (v.connect i x c fd).serverFd = v.serverFd := rfl
@[simp] theorem connect_sq :
    (v.connect i x c fd).sq = v.sq ++ [⟨i, .recv fd x.bref 0 x.bufCap⟩] := rfl
@[simp] theorem connect_ops : (v.connect i x c fd).ops =
    Function.update v.ops i (some { x with clientFd := fd, type := .read }) := rfl
@[simp] theorem connect_clients : (v.connect i x c fd).clients =
    Function.update v.clients x.clientId (some { c with fd := fd }) := rfl

@[simp] theorem acceptNext_entries : (v.acceptNext i bref buf c).entries = v.entries := by
  simp only [acceptNext, accept, prep, log, setClient, setOp]
@[simp] theorem acceptNext_fds : (v.acceptNext i bref buf c).fds = v.fds := by
  simp only [acceptNext, accept, prep, log, setClient, setOp]
@[simp] theorem acceptNext_trace :
    (v.acceptNext i bref buf c).trace = v.trace ++ [.entered v.nextClientId] := rfl
@[simp] theorem acceptNext_nextClientId :
    (v.acceptNext i bref buf c).nextClientId = v.nextClientId + 1 := rfl
@[simp] theorem acceptNext_sq :
    (v.acceptNext i bref buf c).sq = v.sq ++ [⟨i, .accept v.serverFd c.node⟩] := rfl
@[simp] theorem acceptNext_ops : (v.acceptNext i bref buf c).ops = Function.update v.ops i
    (some ⟨.accept, v.nextClientId, -1, 2048, 0, 0, bref, buf⟩) := rfl
@[simp] theorem acceptNext_clients : (v.acceptNext i bref buf c).clients =
    Function.update v.clients v.nextClientId (some c) := rfl

end

/-- `resume_send` -/
def resume (v : View) (i : ℕ) (x : Held) (n : ℕ) : View :=
  (v.setOp i (some { x with processed := x.processed + n })).prep
    ⟨i, .send x.clientFd x.bref (x.processed + n) (sizeSub x.bufLen (x.processed + n))⟩

/-- The completion with result `res` of the operation `x` in entry `i`. -/
inductive Handles (v : View) (i : ℕ) (x : Held) (res : ℤ) : View → Prop
  | stale (hc : v.clients x.clientId = none) : Handles v i x res (v.setOp i none)
  | dropped {c : Client} (hc : v.clients x.clientId = some c)
      (hres : res < 0 ∨ (x.type = .read ∧ res = 0)) (hfd : v.fds x.clientFd ≠ none) :
      Handles v i x res ((v.disconnect x.clientId x.clientFd).setOp i none)
  | accepted {c c' : Client} {j bref : ℕ} {buf : List UInt8} (hc : v.clients x.clientId = some c)
      (hres : 0 ≤ res) (ht : x.type = .accept) (hj : (v.connect i x c res).ops j = none)
      (hn : (v.connect i x c res).clients v.nextClientId = none) (hbuf : buf.length = 2048) :
      Handles v i x res ((v.connect i x c res).acceptNext j bref buf c')
  | received {c : Client} {s : Scan} {v₁ : View} {past : ℕ → UInt8}
      (hc : v.clients x.clientId = some c) (hres : 0 < res) (ht : x.type = .read)
      (hscan : scan x.buf 0 res.toNat = some s)
      (hans : v.Answers x.clientId x.clientFd s.messages v₁)
      (hfd : s.stop = .tooLong ∨ s.stop = .refused → v.fds x.clientFd ≠ none) :
      Handles v i x res (v₁.finish i x s past)
  | resumed {c : Client} (hc : v.clients x.clientId = some c) (hres : 0 ≤ res) (ht : x.type = .write)
      (hlt : res.toNat < sizeSub x.bufLen x.processed) : Handles v i x res (v.resume i x res.toNat)
  | sent {c : Client} (hc : v.clients x.clientId = some c) (hres : 0 ≤ res) (ht : x.type = .write)
      (hge : sizeSub x.bufLen x.processed ≤ res.toNat) : Handles v i x res (v.setOp i none)

/-- The ways in which the process ends in the middle of it: a descriptor that is
not open is closed, the submission queue is full, or the next client id is taken
and `info` in `add_accept` is used uninitialised. -/
inductive Fails (v : View) (i : ℕ) (x : Held) (res : ℤ) : Halt → Prop
  | close {c : Client} (hc : v.clients x.clientId = some c)
      (hres : res < 0 ∨ (x.type = .read ∧ res = 0)) (hfd : v.fds x.clientFd = none) :
      Fails v i x res (.exit "handle_recv close client_fd")
  | full (hres : 0 ≤ res) (ht : x.type ≠ .read) (hsq : v.entries ≤ v.sq.length + 1) :
      Fails v i x res (.exit "SQ is full")
  | loop {msg : String} (hres : 0 < res) (ht : x.type = .read) : Fails v i x res (.exit msg)
  | taken {c : Client} (hc : v.clients x.clientId = some c) (hres : 0 ≤ res) (ht : x.type = .accept)
      (hn : (v.connect i x c res).clients v.nextClientId ≠ none) : Fails v i x res .undefined

end View

section
variable {srv : Server} {v : View} {x : Held}

/-- The log entry for a completion. -/
def Held.completed (x : Held) (cqe : Cqe) : Event := .completed x.clientId x.type cqe.res cqe.data

theorem Server.Models.handleCqe_eq (h : srv.Models v) {cqe : Cqe}
    (hi : v.ops cqe.sqe.userData = some x) (junk : Junk) :
    Caht.handleCqe srv cqe junk =
      dispatch (srv.log (x.completed cqe)) ((v.clients x.clientId).map Client.node)
        cqe.sqe.userData x.type cqe.res junk := by
  have hget := h.pool.get (i := cqe.sqe.userData) (by simp [hi])
  have hclients : ∀ e, (srv.log e).clients = srv.clients := fun e => rfl
  simp only [Caht.handleCqe, hget, ok_bind, h.getOp hi]
  simp only [Held.operation, hclients, h.clientMapGet, ok_bind, Held.completed]

/-- The operation of a completion is given back, or it goes on with the buffer it has. -/
theorem View.Handles.self {i : ℕ} {res : ℤ} {v' : View} (hh : v.Handles i x res v')
    (hi : v.ops i = some x) :
    v'.ops i = none ∨ ∃ y, v'.ops i = some y ∧ y.bref = x.bref ∧ y.bufCap = x.bufCap := by
  cases hh with
  | stale => exact .inl (Function.update_self ..)
  | dropped => exact .inl (Function.update_self ..)
  | @accepted c c' j bref buf hc hres ht hj hn hbuf =>
    have hij : i ≠ j := by
      rintro rfl
      simp at hj
    exact .inr ⟨{ x with clientFd := res, type := .read }, by simp [hij], rfl, rfl⟩
  | @received c s v₁ past hc hres ht hscan hans hfd =>
    rcases (v₁.finishes i x s past).ops_self (hans.op hi) with ⟨-, hnone⟩ | ⟨buf, hsome⟩
    · exact .inl hnone
    · exact .inr ⟨_, hsome, rfl, rfl⟩
  | resumed => exact .inr ⟨_, Function.update_self .., rfl, rfl⟩
  | sent => exact .inl (Function.update_self ..)

theorem Server.Models.handleAccept {i : ℕ} {c : Client} (h : srv.Models v) (hi : v.ops i = some x)
    (hc : v.clients x.clientId = some c) (fd : ℤ) (junk : Junk) :
    Ends (Caht.handleAccept srv fd c.node i junk)
      (fun srv' => v.sq.length + 1 < v.entries ∧ (v.connect i x c fd).clients v.nextClientId = none ∧
        ∃ j bref buf c', (v.connect i x c fd).ops j = none ∧ buf.length = 2048 ∧
          srv'.Models ((v.connect i x c fd).acceptNext j bref buf c'))
      (fun e => (e = .exit "SQ is full" ∧ v.entries ≤ v.sq.length + 1) ∨
        (e = .undefined ∧ (v.connect i x c fd).clients v.nextClientId ≠ none ∧
          v.sq.length + 1 < v.entries)) := by
  have hw := h.writeClient (f := fun n => { n with clientFd := fd }) (d := { c with fd := fd }) hc (by
    intro n hn
    rw [← hn]
    rfl)
  refine ((hw.addRecv (x := x) hi fd).mono (fun _ hx => hx) fun e he => ?_).bind ?_
  · exact .inl ⟨he.1, he.2.trans (Nat.le_succ _)⟩
  rintro srv₁ ⟨-, hm₁⟩
  have hnext : srv₁.nextClientId = v.nextClientId := hm₁.nextClientId.symm
  rw [hnext]
  refine ((hm₁.addAccept v.nextClientId junk).mono (fun _ hx => hx) fun e he => ?_).bind ?_
  · rcases he with ⟨rfl, hfull⟩ | ⟨rfl, htaken, hroom⟩
    · refine .inl ⟨rfl, ?_⟩
      simpa [View.prep, View.setOp, View.setClient] using hfull
    · refine .inr ⟨rfl, htaken, ?_⟩
      simpa [View.prep, View.setOp, View.setClient] using hroom
  rintro srv₂ ⟨hroom, hn, j, bref, buf, c', hj, hbuf, hm₂⟩
  have hroom' : v.sq.length + 1 < v.entries := by
    simpa [View.prep, View.setOp, View.setClient] using hroom
  refine ⟨hroom', hn, j, bref, buf, c', hj, hbuf, { hm₂ with nextClientId := ?_ }⟩
  have hnext₂ : v.nextClientId = srv₂.nextClientId := hm₂.nextClientId
  simp only [View.acceptNext]
  exact congrArg (· + 1) hnext₂

theorem Server.Models.handleSend {i : ℕ} {c : Client} (h : srv.Models v) (hi : v.ops i = some x)
    (hc : v.clients x.clientId = some c) (ht : x.type = .write) {res : ℤ} (hres : 0 ≤ res) :
    Ends (Caht.handleSend srv i res.toNat)
      (fun srv' => ∃ v', v.Handles i x res v' ∧ srv'.Models v' ∧
        (v'.ops i = none → srv'.Returned i x)) v.Full := by
  have hinc : opIsIncomplete (x.operation i) res.toNat =
      decide (res.toNat < sizeSub x.bufLen x.processed) := rfl
  unfold Caht.handleSend
  rw [h.getOp hi, ok_bind, hinc]
  by_cases hlt : res.toNat < sizeSub x.bufLen x.processed
  · rw [if_pos (decide_eq_true hlt)]
    refine (h.resumeSend hi res.toNat).mono ?_ fun e he => he
    rintro srv' ⟨-, hsrv'⟩
    exact ⟨_, .resumed hc hres ht hlt, hsrv', fun hn => by simp [View.resume, View.prep, View.setOp] at hn⟩
  · rw [if_neg (by simpa using hlt)]
    obtain ⟨srv', hfree, hsrv', hret⟩ := h.freeOp hi
    rw [hfree]
    exact ⟨_, .sent hc hres ht (Nat.le_of_not_lt hlt), hsrv', fun _ => hret⟩

theorem Server.Models.handleRecv {i : ℕ} {c : Client} (h : srv.Models v) (hi : v.ops i = some x)
    (hc : v.clients x.clientId = some c) (ht : x.type = .read) {res : ℤ} (hres : 0 ≤ res)
    (hcap : res.toNat ≤ x.bufCap) (junk : Junk) :
    Ends (Caht.handleRecv srv c.node i res.toNat junk)
      (fun srv' => ∃ v', v.Handles i x res v' ∧ srv'.Models v' ∧
        (v'.ops i = none → srv'.Returned i x)) (v.Fails i x res) := by
  by_cases hz : res.toNat = 0
  · have hres₀ : res = 0 := by omega
    rw [Caht.handleRecv, if_pos hz]
    refine (h.disconnectAndFreeOp hi hc c.node).mono ?_ ?_
    · rintro srv' ⟨hfd, hsrv', hret⟩
      exact ⟨_, .dropped hc (.inr ⟨ht, hres₀⟩) hfd, hsrv', fun _ => hret⟩
    · rintro e ⟨rfl, hfd⟩
      exact .close hc (.inr ⟨ht, hres₀⟩) hfd
  · refine (h.handleRecv_loop hi hc junk (Nat.pos_of_ne_zero hz) hcap).mono ?_ ?_
    · rintro srv' ⟨s, hl⟩
      obtain ⟨v₁, hans, hsrv'⟩ := hl.answers
      refine ⟨_, .received hc (by omega) ht hl.scan hans (fun hs => (hl.dropped hs).1), hsrv',
        fun hn => ?_⟩
      rcases (v₁.finishes i x s junk.past).ops_self (hans.op hi) with ⟨hs, -⟩ | ⟨buf, hsome⟩
      · exact (hl.dropped hs).2
      · cases hsome.symm.trans hn
    · intro e he
      obtain ⟨msg, rfl⟩ := he.exit
      exact .loop (by omega) ht

/-- The spec of a completion: what it does, and where an operation it gives back goes. -/
theorem Server.Models.handleCqe (h : srv.Models v) {cqe : Cqe}
    (hi : v.ops cqe.sqe.userData = some x) (hcap : x.type = .read → cqe.res.toNat ≤ x.bufCap)
    (junk : Junk) :
    Ends (Caht.handleCqe srv cqe junk)
      (fun srv' => ∃ v', (v.log (x.completed cqe)).Handles cqe.sqe.userData x cqe.res v' ∧
        srv'.Models v' ∧ (v'.ops cqe.sqe.userData = none → srv'.Returned cqe.sqe.userData x))
      ((v.log (x.completed cqe)).Fails cqe.sqe.userData x cqe.res) := by
  have hlog := h.log (x.completed cqe)
  rw [h.handleCqe_eq hi]
  cases hc : v.clients x.clientId with
  | none =>
    obtain ⟨srv', hfree, hsrv', hret⟩ := hlog.freeOp (x := x) hi
    simp only [Option.map_none, dispatch, Caht.disconnectAndFreeOp, hfree, ite_self]
    exact ⟨_, .stale hc, hsrv', fun _ => hret⟩
  | some c =>
    simp only [Option.map_some, dispatch]
    by_cases hres : cqe.res < 0
    · rw [if_pos hres]
      refine (hlog.disconnectAndFreeOp (x := x) hi hc c.node).mono ?_ ?_
      · rintro srv' ⟨hfd, hsrv', hret⟩
        exact ⟨_, .dropped hc (.inl hres) hfd, hsrv', fun _ => hret⟩
      · rintro e ⟨rfl, hfd⟩
        exact .close hc (.inl hres) hfd
    rw [if_neg hres]
    have hres' : 0 ≤ cqe.res := by omega
    cases ht : x.type with
    | accept =>
      refine (hlog.handleAccept (x := x) hi hc cqe.res junk).mono ?_ ?_
      · rintro srv' ⟨-, hn, j, bref, buf, c', hj, hbuf, hsrv'⟩
        refine ⟨_, .accepted hc hres' ht hj hn hbuf, hsrv', fun hnone => absurd hnone ?_⟩
        have hne : cqe.sqe.userData ≠ j := by
          rintro rfl
          simp at hj
        simp [hne]
      · rintro e (⟨rfl, hfull⟩ | ⟨rfl, hn, -⟩)
        · exact .full hres' (by simp [ht]) hfull
        · exact .taken hc hres' ht hn
    | read => exact hlog.handleRecv (x := x) hi hc ht hres' (hcap ht) junk
    | write =>
      refine (hlog.handleSend (x := x) hi hc ht hres').mono (fun _ hx => hx) ?_
      rintro e ⟨rfl, hfull⟩
      exact .full hres' (by simp [ht]) (Nat.le_succ_of_le hfull)

end

end Caht
