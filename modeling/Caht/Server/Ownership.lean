import Caht.Server.System
import Caht.ClientMap.History

/-! # Who owns what

Every entry on its way (queued, submitted, executed or posted) is a `Ticket`. In
every reachable state the tickets carry distinct pool ids, exactly those of the
operations in use, and each request is about the buffer of its own operation.
-/

namespace Caht
open Library Protocol

inductive Stage where
  | queued
  | inflight (conn : Option ℕ)
  | done (res : ℤ) (data : List UInt8)
  deriving DecidableEq, Repr

structure Ticket where
  sqe : Sqe
  stage : Stage
  deriving DecidableEq, Repr

def Ticket.id (t : Ticket) : ℕ := t.sqe.userData

def Cqe.ticket (c : Cqe) : Ticket := ⟨c.sqe, .done c.res c.data⟩

def Submitted.ticket (s : Submitted) : Ticket := ⟨s.sqe, .inflight s.conn⟩

def queue (sq : List Sqe) : List Ticket := sq.map fun e => ⟨e, .queued⟩

def World.outstanding (w : World) : List Ticket :=
  w.inflight.map Submitted.ticket ++ (w.executed.map Cqe.ticket ++ w.cq.map Cqe.ticket)

def World.tickets (w : World) : List Ticket := queue w.srv.ring.sq ++ w.outstanding

/-- The request of a ticket is the one its operation stands for. -/
def Request.Fits (r : Request) (x : Held) : Prop :=
  match r with
  | .accept _ _ => x.type = .accept ∧ x.clientFd = -1 ∧ x.bufCap = 2048
  | .recv fd bref off len => x.type = .read ∧ x.clientFd = fd ∧ x.bref = bref ∧ x.bufCap = 2048 ∧
      off + len = x.bufCap
  | .send fd bref off len => x.type = .write ∧ x.clientFd = fd ∧ x.bref = bref ∧ off = x.processed ∧
      off + len = x.bufLen ∧ x.bufLen ≤ 64

/-- A result that the request admits, whatever is open. -/
def Ticket.Fits (t : Ticket) (x : Held) : Prop :=
  t.sqe.request.Fits x ∧
    ∀ res data, t.stage = .done res data → t.sqe.request.Admits (fun _ => none) res data

theorem Ticket.Fits.recv {t : Ticket} {x : Held} (h : t.Fits x) (ht : x.type = .read) :
    ∃ off len, t.sqe.request = .recv x.clientFd x.bref off len ∧ x.bufCap = 2048 ∧
      off + len = x.bufCap ∧ ∀ res data, t.stage = .done res data →
        (res < 0 ∧ data = []) ∨ (res = data.length ∧ data.length ≤ len) := by
  obtain ⟨hreq, hadm⟩ := h
  cases hr : t.sqe.request with
  | accept => simp [hr, Request.Fits, ht] at hreq
  | send => simp [hr, Request.Fits, ht] at hreq
  | recv fd bref off len =>
    rw [hr] at hreq hadm
    obtain ⟨-, rfl, rfl, hcap, hlen⟩ := hreq
    exact ⟨off, len, rfl, hcap, hlen, hadm⟩

theorem Ticket.Fits.send {t : Ticket} {x : Held} (h : t.Fits x) (ht : x.type = .write) :
    ∃ len, t.sqe.request = .send x.clientFd x.bref x.processed len ∧
      x.processed + len = x.bufLen ∧ x.bufLen ≤ 64 ∧
      ∀ res data, t.stage = .done res data → data = [] ∧ res ≤ len := by
  obtain ⟨hreq, hadm⟩ := h
  cases hr : t.sqe.request with
  | accept => simp [hr, Request.Fits, ht] at hreq
  | recv => simp [hr, Request.Fits, ht] at hreq
  | send fd bref off len =>
    rw [hr] at hreq hadm
    obtain ⟨-, rfl, rfl, rfl, hlen, hle⟩ := hreq
    exact ⟨len, rfl, hlen, hle, hadm⟩

theorem Ticket.Fits.accept {t : Ticket} {x : Held} (h : t.Fits x) (ht : x.type = .accept) :
    x.clientFd = -1 ∧ x.bufCap = 2048 := by
  obtain ⟨hreq, -⟩ := h
  cases hr : t.sqe.request with
  | accept => rw [hr] at hreq; exact hreq.2
  | recv => simp [hr, Request.Fits, ht] at hreq
  | send => simp [hr, Request.Fits, ht] at hreq

theorem Ticket.Fits.res_le {t : Ticket} {x : Held} (h : t.Fits x) {res : ℤ} {data : List UInt8}
    (hst : t.stage = .done res data) (ht : x.type = .read) : res.toNat ≤ x.bufCap := by
  obtain ⟨off, len, -, -, hlen, hadm⟩ := h.recv ht
  have hres := hadm res data hst
  omega

structure Owns (ops : ℕ → Option Held) (ts : List Ticket) : Prop where
  nodup : (ts.map Ticket.id).Nodup
  used : ∀ i, ops i ≠ none ↔ i ∈ ts.map Ticket.id
  fits : ∀ t ∈ ts, ∀ x, ops t.id = some x → t.Fits x

namespace Owns
variable {ops : ℕ → Option Held} {t s : Ticket} {ts ts' : List Ticket} {y : Held}

theorem perm (h : Owns ops ts) (hp : ts.Perm ts') : Owns ops ts' where
  nodup := (hp.map _).nodup_iff.mp h.nodup
  used i := (h.used i).trans (hp.map _).mem_iff
  fits t ht := h.fits t (hp.mem_iff.mpr ht)

theorem held (h : Owns ops ts) (ht : t ∈ ts) : ∃ x, ops t.id = some x ∧ t.Fits x := by
  have hne := (h.used t.id).mpr (List.mem_map_of_mem ht)
  obtain ⟨x, hx⟩ := Option.ne_none_iff_exists'.mp hne
  exact ⟨x, hx, h.fits t ht x hx⟩

theorem ne_of_mem (h : Owns ops (t :: ts)) (hs : s ∈ ts) : s.id ≠ t.id := by
  have hn := h.nodup
  rw [List.map_cons, List.nodup_cons] at hn
  exact fun he => hn.1 (he ▸ List.mem_map_of_mem hs)

theorem add (h : Owns ops ts) (ht : ops t.id = none) (hf : t.Fits y) :
    Owns (Function.update ops t.id (some y)) (t :: ts) := by
  have hnew : t.id ∉ ts.map Ticket.id := fun hm => (h.used t.id).mpr hm ht
  refine ⟨?_, ?_, ?_⟩
  · rw [List.map_cons]
    exact List.nodup_cons.mpr ⟨hnew, h.nodup⟩
  · intro i
    rw [List.map_cons, List.mem_cons, ← h.used i]
    by_cases hi : i = t.id
    · simp [hi]
    · simp [hi]
  · intro u hu x hx
    rcases List.mem_cons.mp hu with rfl | hu
    · rw [Function.update_self, Option.some.injEq] at hx
      exact hx ▸ hf
    · have hne : u.id ≠ t.id := fun he => hnew (he ▸ List.mem_map_of_mem hu)
      rw [Function.update_of_ne hne] at hx
      exact h.fits u hu x hx

theorem replace (h : Owns ops (t :: ts)) (hid : s.id = t.id) (hf : s.Fits y) :
    Owns (Function.update ops t.id (some y)) (s :: ts) := by
  refine ⟨?_, ?_, ?_⟩
  · have hn := h.nodup
    rwa [List.map_cons, ← hid] at hn
  · intro i
    have hu := h.used i
    rw [List.map_cons, List.mem_cons] at hu ⊢
    rw [hid, ← hu]
    by_cases hi : i = t.id
    · rw [hi, Function.update_self]
      exact iff_of_true (Option.some_ne_none y) (hi ▸ hu.mpr (.inl hi))
    · rw [Function.update_of_ne hi]
  · intro u hu x hx
    rcases List.mem_cons.mp hu with rfl | hu
    · rw [hid, Function.update_self, Option.some.injEq] at hx
      exact hx ▸ hf
    · rw [Function.update_of_ne (h.ne_of_mem hu)] at hx
      exact h.fits u (List.mem_cons_of_mem _ hu) x hx

theorem remove (h : Owns ops (t :: ts)) : Owns (Function.update ops t.id none) ts := by
  have hn := h.nodup
  rw [List.map_cons, List.nodup_cons] at hn
  refine ⟨hn.2, ?_, ?_⟩
  · intro i
    have hu := h.used i
    rw [List.map_cons, List.mem_cons] at hu
    by_cases hi : i = t.id
    · simpa [hi] using hn.1
    · rw [Function.update_of_ne hi, hu, or_iff_right hi]
  · intro u hu x hx
    rw [Function.update_of_ne (h.ne_of_mem hu)] at hx
    exact h.fits u (List.mem_cons_of_mem _ hu) x hx

/-- A ticket that moves on without its operation being touched. -/
theorem restage (h : Owns ops (t :: ts)) (hid : s.id = t.id)
    (hf : ∀ x, t.Fits x → s.Fits x) : Owns ops (s :: ts) := by
  obtain ⟨x, hx, hfit⟩ := h.held List.mem_cons_self
  have hr := h.replace hid (hf x hfit)
  rwa [show Function.update ops t.id (some x) = ops by rw [← hx, Function.update_eq_self]] at hr

end Owns

theorem queue_append (sq : List Sqe) (e : Sqe) : queue (sq ++ [e]) = queue sq ++ [⟨e, .queued⟩] := by
  simp [queue]

/-! ## Handling a completion -/

section
variable {v v' : View} {i : ℕ} {x : Held} {t : Ticket} {ts : List Ticket}

theorem Owns.push {ops : ℕ → Option Held} {sq : List Sqe} (h : Owns ops (queue sq ++ ts)) (j : ℕ)
    (r : Request) (y : Held) (hj : ops j = none) (hf : r.Fits y) :
    Owns (Function.update ops j (some y)) (queue (sq ++ [⟨j, r⟩]) ++ ts) := by
  have ha := h.add (t := ⟨⟨j, r⟩, .queued⟩) hj ⟨hf, fun _ _ hs => by cases hs⟩
  refine ha.perm ?_
  rw [queue_append, List.append_assoc]
  exact (List.perm_middle).symm

theorem Owns.requeue {ops : ℕ → Option Held} {sq : List Sqe} (h : Owns ops (queue sq ++ t :: ts))
    (r : Request) (y : Held) (hf : r.Fits y) :
    Owns (Function.update ops t.id (some y)) (queue (sq ++ [⟨t.id, r⟩]) ++ ts) := by
  have hr := (h.perm List.perm_middle).replace (s := ⟨⟨t.id, r⟩, .queued⟩) rfl
    ⟨hf, fun _ _ hs => by cases hs⟩
  refine hr.perm ?_
  rw [queue_append, List.append_assoc]
  exact (List.perm_middle).symm

theorem Response.held_fits (r : Response) (id : UInt64) (fd : ℤ) (s : Slot) :
    (Request.send fd s.bref 0 r.bytes.length).Fits (r.held id fd s) := by
  refine ⟨rfl, rfl, rfl, rfl, by simp [Response.held], ?_⟩
  have hle := r.bytes_length
  simp only [Response.held]
  omega

theorem View.Answers.owns {id : UInt64} {fd : ℤ} {ms : List Message} (ha : v.Answers id fd ms v')
    (h : Owns v.ops (queue v.sq ++ ts)) : Owns v'.ops (queue v'.sq ++ ts) := by
  induction ha with
  | nil v => exact h
  | cons hs _ ih =>
    refine ih ?_
    rw [View.answer_ops, View.answer_sq]
    exact h.push _ _ _ hs (Response.held_fits _ _ _ _)

theorem View.Finishes.owns {s : Scan} (hf : v.Finishes t.id x s v')
    (h : Owns v.ops (queue v.sq ++ t :: ts)) (hi : v.ops t.id = some x) (ht : x.type = .read)
    (hcap : x.bufCap = 2048) (hrest : s.rest ≤ x.bufCap) : Owns v'.ops (queue v'.sq ++ ts) := by
  have hfit : (Request.recv x.clientFd x.bref s.rest (x.bufCap - s.rest)).Fits x :=
    ⟨ht, rfl, rfl, hcap, by omega⟩
  have hgone := (h.perm List.perm_middle).remove
  have hkeep := h.requeue _ x hfit
  cases hf with
  | kept =>
    rwa [show Function.update v.ops t.id (some x) = v.ops by rw [← hi, Function.update_eq_self]]
      at hkeep
  | moved hs buf => exact h.requeue _ { x with buf := buf } hfit
  | tooLong => exact hgone
  | refused => exact hgone

/-- Every way of handling a completion keeps the books. -/
theorem View.Handles.owns {res : ℤ} {data : List UInt8} (hh : v.Handles t.id x res v')
    (h : Owns v.ops (queue v.sq ++ t :: ts)) (hi : v.ops t.id = some x)
    (hst : t.stage = .done res data) : Owns v'.ops (queue v'.sq ++ ts) := by
  have hfit := h.fits t (by simp) x hi
  have hgone := (h.perm List.perm_middle).remove
  cases hh with
  | stale => exact hgone
  | dropped => exact hgone
  | accepted hc hres ht hj hn hbuf =>
    have hcap := (hfit.accept ht).2
    have hrecv := h.requeue (.recv res x.bref 0 x.bufCap) { x with clientFd := res, type := .read }
      ⟨rfl, rfl, rfl, hcap, Nat.zero_add _⟩
    exact hrecv.push _ _ _ hj ⟨rfl, rfl, rfl⟩
  | @received cl s v₁ past hc hres ht hscan hans hfd =>
    have hle := hfit.res_le hst ht
    have hrest := scan_rest hscan
    obtain ⟨-, -, -, hcap, -⟩ := hfit.recv ht
    exact (v₁.finishes _ x s past).owns (hans.owns h) (hans.op hi) ht hcap (by omega)
  | resumed hc hres ht hlt =>
    obtain ⟨len, -, hlen, hle, hadm⟩ := hfit.send ht
    have hadm' := (hadm res data hst).2
    refine h.requeue (.send x.clientFd x.bref (x.processed + res.toNat)
      (sizeSub x.bufLen (x.processed + res.toNat))) _ ⟨ht, rfl, rfl, rfl, ?_, hle⟩
    rw [sizeSub_of_le (by omega) (by omega)]
    simp only
    omega
  | sent => exact hgone

end

/-! ## The first state -/

/-- The view of the server `main` sets up. -/
def View.initial (serverFd : ℤ) : View where
  entries := queueSize
  serverFd := serverFd
  ops := fun _ => none
  clients := fun _ => none
  sq := []
  fds := fun fd => if fd = serverFd then some .listener else none
  nextClientId := 1
  trace := []

theorem slabInitCap_spec (heap : List BufRef) (bufCap n : ℕ) (hn : 0 < n) (junk : ℕ → ℕ → UInt8) :
    ∃ blocks s, slabInitCap heap bufCap n junk = (heap ++ blocks, s) ∧ s.Wf (heap ++ blocks) ∧
      s.bufCap = bufCap ∧ ∀ b, b < (heap ++ blocks).length → b < heap.length ∨ b ∈ s.bufRefs := by
  have hblock : ∀ i < n, (heap ++ (List.range n).map fun i => mallocBufRef
      ⟨n, bufCap, (List.range n).map (heap.length + ·)⟩ (junk (heap.length + i)))[heap.length + i]? =
        some ⟨0, (List.range bufCap).map (junk (heap.length + i))⟩ := by
    intro i hi
    rw [List.getElem?_append_right (Nat.le_add_right _ _), Nat.add_sub_cancel_left,
      List.getElem?_map, List.getElem?_range hi, Option.map_some]
    rfl
  refine ⟨_, _, rfl, ⟨?_, ?_, ?_, ?_, ?_⟩, rfl, ?_⟩
  · exact List.nodup_range.map (fun a b h => by simpa using h)
  · intro b hb
    obtain ⟨i, hi, rfl⟩ := List.mem_map.mp hb
    exact ⟨_, hblock i (List.mem_range.mp hi), by simp⟩
  · simp
  · exact hn
  · intro b hb r hr
    obtain ⟨i, hi, rfl⟩ := List.mem_map.mp hb
    obtain rfl := Option.some.inj ((hblock i (List.mem_range.mp hi)).symm.trans hr)
    rfl
  · intro b hb
    by_cases hlt : b < heap.length
    · exact .inl hlt
    · refine .inr (List.mem_map.mpr ⟨b - heap.length, ?_, by omega⟩)
      rw [List.length_append, List.length_map, List.length_range] at hb
      rw [List.mem_range]
      omega

theorem serverInit_models (serverFd : ℤ) (junk : Junk) :
    ∃ srv, serverInit serverFd junk = .ok srv ∧ srv.Models (View.initial serverFd) := by
  obtain ⟨cm, hcm⟩ : ∃ cm, clientMapInit 1024 = .ok cm := ⟨_, rfl⟩
  have hrep := (mapInv_init hcm).represents
  obtain ⟨b64, s64, h64, hwf64, hc64, hcov64⟩ := slabInitCap_spec [] bufferSize64B slabInitLen
    (by decide) junk.buf
  obtain ⟨b2k, s2k, h2k, hwf2k, hc2k, hcov2k⟩ := slabInitCap_spec ([] ++ b64) bufferSize2KB
    slabInitLen (by decide) junk.buf
  have hwf : s64.Wf ([] ++ b64 ++ b2k) := by
    have hkeep : ∀ b ∈ s64.bufRefs, ([] ++ b64 ++ b2k)[b]? = ([] ++ b64)[b]? := by
      intro b hb
      obtain ⟨r, hr, -⟩ := hwf64.sized b hb
      exact List.getElem?_append_left (List.getElem?_eq_some_iff.mp hr).1
    refine ⟨hwf64.nodup, ?_, hwf64.len_le, hwf64.cap_pos, ?_⟩
    · intro b hb
      rw [hkeep b hb]
      exact hwf64.sized b hb
    · intro b hb
      rw [hkeep b hb]
      exact hwf64.zero b hb
  refine ⟨_, by simp only [serverInit, hcm, ok_bind, slabInit, h64, h2k]; rfl, ?_⟩
  refine ⟨rfl, rfl, rfl, rfl, rfl, rfl, ?_, ?_, ?_, hc64, hc2k, ⟨_, hrep, fun id => rfl⟩⟩
  · exact opPoolInit_wf.congr fun i => by simp [View.initial]
  · intro i h hi
    cases hi
  · refine ⟨hwf, hwf2k, by rw [hc64, hc2k]; decide, ?_, ?_, ?_, ?_, ?_, ?_⟩
    · intro i h hi
      cases hi
    · intro i h hi
      cases hi
    · intro i h hi
      cases hi
    · intro i j h h' hi
      cases hi
    · intro i h hi
      cases hi
    · intro b hb
      rcases hcov2k b hb with hlt | hm
      · exact .inl ((hcov64 b hlt).resolve_left (by simp))
      · exact .inr (.inl hm)

/-- `server_start` reaches its first `io_uring_submit` with one accept queued. -/
theorem World.start_spec (serverFd : ℤ) (junk : Junk) :
    ∃ srv j bref buf c, World.start serverFd junk = .ok ⟨srv, [], [], [], [], .submit⟩ ∧
      buf.length = 2048 ∧ srv.Models ((View.initial serverFd).acceptNext j bref buf c) := by
  obtain ⟨srv, hinit, hm⟩ := serverInit_models serverFd junk
  have hnext : srv.nextClientId = 1 := hm.nextClientId.symm
  have hends := hm.addAccept 1 junk
  cases hacc : addAccept srv 1 junk with
  | error e =>
    rcases hends.error hacc with ⟨-, hfull⟩ | ⟨-, hc⟩
    · simp [View.initial, queueSize] at hfull
    · exact absurd rfl hc.1
  | ok srv' =>
    obtain ⟨-, -, j, bref, buf, c, -, hbuf, hm'⟩ := hends.ok hacc
    refine ⟨{ srv' with nextClientId := srv'.nextClientId + 1 }, j, bref, buf, c, ?_, hbuf,
      { hm' with nextClientId := ?_ }⟩
    · simp only [World.start, hinit, ok_bind, hnext, hacc]
    · have hn : (1 : UInt64) = srv'.nextClientId := hm'.nextClientId
      exact congrArg (· + 1) hn

/-! ## Runs -/

/-- What the execution of a request does to the view; `k` is the next connection. -/
def View.perform (v : View) (sqe : Sqe) (res : ℤ) (data : List UInt8) (k : ℕ) : View :=
  match sqe.request with
  | .accept _ _ =>
    if res < 0 then v else { v with fds := Function.update v.fds res (some (.conn k)) }
  | .recv _ _ off _ =>
    v.setOp sqe.userData ((v.ops sqe.userData).map fun x => { x with buf := writeAt x.buf off data })
  | .send _ _ _ _ => v

/-- The steps of a world whose server has the view `v`, with the view after them. -/
inductive World.Moves (w : World) (v : View) : Action → World → View → Prop
  | execute {i : ℕ} {s : Submitted} {res : ℤ} {data : List UInt8} (hs : w.inflight[i]? = some s)
      (hadm : s.sqe.request.Admits v.fds res data) :
      Moves w v (.execute i res data) { w.perform s res data with
        inflight := w.inflight.eraseIdx i, executed := w.executed ++ [⟨s.sqe, res, data⟩] }
        (v.perform s.sqe res data w.conns.length)
  | post {i : ℕ} {c : Cqe} (hc : w.executed[i]? = some c) :
      Moves w v (.post i) { w with executed := w.executed.eraseIdx i, cq := w.cq ++ [c] } v
  | submit {junk : Junk} (hpc : w.pc = .submit) :
      Moves w v (.serve junk) w.submit { v with sq := [] }
  | turn {junk : Junk} {pc : Pc} (hpc : w.pc = .peek ∨ w.pc = .batch 0) :
      Moves w v (.serve junk) { w with pc := pc } v
  | handle {junk : Junk} {pc : Pc} {c : Cqe} {cq : List Cqe} {srv : Server} {x : Held} {v' : View}
      (hpc : w.pc.Handling pc) (hcq : w.cq = c :: cq) (h : handleCqe w.srv c junk = .ok srv)
      (hx : v.ops c.sqe.userData = some x)
      (hh : (v.log (x.completed c)).Handles c.sqe.userData x c.res v') :
      Moves w v (.serve junk) { w with srv := srv, cq := cq, pc := pc } v'

/-- The state of the server, its view, and the tickets that own its operations. -/
structure World.Owned (w : World) (v : View) : Prop where
  models : w.srv.Models v
  owns : Owns v.ops (queue v.sq ++ w.outstanding)

theorem eraseIdx_perm {α : Type} {l : List α} {i : ℕ} {a : α} (h : l[i]? = some a) :
    l.Perm (a :: l.eraseIdx i) := by
  obtain ⟨hi, rfl⟩ := List.getElem?_eq_some_iff.mp h
  exact (List.getElem_cons_eraseIdx_perm hi).symm

theorem World.outstanding_execute {w : World} {i : ℕ} {s : Submitted} (hs : w.inflight[i]? = some s) :
    w.outstanding.Perm (s.ticket :: ((w.inflight.eraseIdx i).map Submitted.ticket ++
      (w.executed.map Cqe.ticket ++ w.cq.map Cqe.ticket))) := by
  have hp := ((eraseIdx_perm hs).map Submitted.ticket).append_right
    (w.executed.map Cqe.ticket ++ w.cq.map Cqe.ticket)
  simpa [World.outstanding] using hp

theorem World.outstanding_post {w : World} {i : ℕ} {c : Cqe} (hc : w.executed[i]? = some c) :
    w.outstanding.Perm (World.outstanding
      { w with executed := w.executed.eraseIdx i, cq := w.cq ++ [c] }) := by
  have hp := (eraseIdx_perm hc).map Cqe.ticket
  refine List.Perm.append_left _ ?_
  refine (hp.append_right _).trans ?_
  rw [List.map_append, List.map_cons, List.map_singleton, ← List.append_assoc]
  exact (List.perm_append_singleton _ _).symm

theorem World.outstanding_handle {w : World} {c : Cqe} {cq : List Cqe} (hcq : w.cq = c :: cq) :
    w.outstanding.Perm (c.ticket :: (w.inflight.map Submitted.ticket ++
      (w.executed.map Cqe.ticket ++ cq.map Cqe.ticket))) := by
  rw [World.outstanding, hcq, List.map_cons]
  exact (List.Perm.append_left _ List.perm_middle).trans List.perm_middle

/-- Kernel writes go to the buffer of the operation that asked for them. -/
theorem World.perform_models {w : World} {v : View} {s : Submitted} {x : Held} (h : w.srv.Models v)
    (hx : v.ops s.sqe.userData = some x) (hfit : s.sqe.request.Fits x) {res : ℤ} {data : List UInt8}
    (hadm : s.sqe.request.Admits v.fds res data) :
    (w.perform s res data).srv.Models (v.perform s.sqe res data w.conns.length) := by
  unfold World.perform View.perform
  cases hreq : s.sqe.request with
  | accept fd info =>
    by_cases hres : res < 0
    · simpa only [if_pos hres] using h
    · simp only [if_neg hres]
      exact { h with fds := congrArg (Function.update · res (some (.conn w.conns.length))) h.fds }
  | recv fd bref off len =>
    rw [hreq] at hfit hadm
    obtain ⟨-, -, rfl, hcap, hlen⟩ := hfit
    have hdata : off + data.length ≤ x.buf.length := by
      rw [h.bufs.length _ x hx]
      rcases hadm with ⟨-, rfl⟩ | ⟨-, hle⟩
      · simp only [List.length_nil]
        omega
      · omega
    have hlen' : (writeAt x.buf off data).length = x.bufCap := by
      rw [writeAt_length _ _ _ hdata, h.bufs.length _ x hx]
    have hset := h.setBuf hx hlen'
    have hheap : (w.srv.heap.modify x.bref fun r => { r with buf := writeAt r.buf off data }) =
        w.srv.heap.modify x.bref fun r => { r with buf := writeAt x.buf off data } := by
      apply List.ext_getElem?
      intro q
      by_cases hq : q = x.bref
      · subst hq
        simp [h.bufs.block _ x hx]
      · simp [Ne.symm hq]
    simp only [hx, Option.map_some, hheap]
    exact hset
  | send fd bref off len =>
    simp only
    split <;> exact h

theorem World.perform_cq (w : World) (s : Submitted) (res : ℤ) (data : List UInt8) :
    (w.perform s res data).cq = w.cq := by
  unfold World.perform
  split
  · split <;> rfl
  · rfl
  · split <;> rfl

theorem View.perform_sq (v : View) (sqe : Sqe) (res : ℤ) (data : List UInt8) (k : ℕ) :
    (v.perform sqe res data k).sq = v.sq := by
  unfold View.perform
  split
  · split <;> rfl
  · rfl
  · rfl

/-- The executed entry still fits its operation, whose buffer may have new bytes. -/
theorem Owns.execute {v : View} {s : Submitted} {ts : List Ticket} {res : ℤ} {data : List UInt8}
    {k : ℕ} (h : Owns v.ops (s.ticket :: ts)) (hadm : s.sqe.request.Admits v.fds res data) :
    Owns (v.perform s.sqe res data k).ops (⟨s.sqe, .done res data⟩ :: ts) := by
  obtain ⟨x, hx, hfit⟩ := h.held List.mem_cons_self
  have hdone : ∀ res' data', Stage.done res data = .done res' data' →
      s.sqe.request.Admits (fun _ => none) res' data' := by
    intro res' data' he
    cases he
    unfold Request.Admits at hadm ⊢
    cases hreq : s.sqe.request with
    | accept => simp only [hreq] at hadm ⊢; exact ⟨hadm.1, by simp⟩
    | recv => simpa only [hreq] using hadm
    | send => simpa only [hreq] using hadm
  have hsame : Owns v.ops (⟨s.sqe, .done res data⟩ :: ts) :=
    h.restage rfl fun y hy => ⟨hy.1, hdone⟩
  have hfit₁ := hfit.1
  change v.ops s.sqe.userData = some x at hx
  change s.sqe.request.Fits x at hfit₁
  unfold View.perform
  cases hreq : s.sqe.request with
  | accept fd info => by_cases hres : res < 0 <;> simpa [hres] using hsame
  | send fd bref off len => exact hsame
  | recv fd bref off len =>
    simp only [hx, Option.map_some]
    rw [hreq] at hfit₁
    exact h.replace (s := ⟨s.sqe, .done res data⟩) rfl ⟨by rw [hreq]; exact hfit₁, hdone⟩

theorem Owns.submit {ops : ℕ → Option Held} {w : World} {sq : List Sqe}
    (h : Owns ops (queue sq ++ w.outstanding)) (hsq : w.srv.ring.sq = sq) :
    Owns ops (queue [] ++ w.submit.outstanding) := by
  have hre : ∀ (l : List Sqe) (ts : List Ticket), Owns ops (queue l ++ ts) →
      Owns ops (l.map (fun e => (w.srv.resolve e).ticket) ++ ts) := by
    intro l
    induction l with
    | nil => exact fun ts hts => hts
    | cons e l ih =>
      intro ts hts
      have hstep := hts.restage (s := (w.srv.resolve e).ticket) (by
          simp only [Submitted.ticket, Ticket.id, Server.resolve]
          split <;> rfl) (by
          intro y hy
          have hsqe : (w.srv.resolve e).sqe = e := by
            simp only [Server.resolve]
            split <;> rfl
          refine ⟨?_, fun _ _ hd => by cases hd⟩
          simp only [Submitted.ticket, hsqe]
          exact hy.1)
      exact (ih _ (hstep.perm List.perm_middle.symm)).perm List.perm_middle
  refine (hre sq _ h).perm ?_
  simp only [World.outstanding, World.submit, hsq, queue, List.map_nil, List.nil_append, List.map_append,
    List.map_map]
  rw [← List.append_assoc]
  exact List.perm_append_comm.append_right _

namespace World.Owned
variable {w w' : World} {v : View}

theorem execute (h : w.Owned v) {i : ℕ} {s : Submitted} {res : ℤ} {data : List UInt8}
    (hs : w.inflight[i]? = some s) (hadm : s.sqe.request.Admits v.fds res data) :
    World.Owned { w.perform s res data with
      inflight := w.inflight.eraseIdx i, executed := w.executed ++ [⟨s.sqe, res, data⟩] }
      (v.perform s.sqe res data w.conns.length) := by
  have hp := h.owns.perm ((List.Perm.append_left _ (World.outstanding_execute hs)).trans
    List.perm_middle)
  obtain ⟨x, hx, hfit⟩ := hp.held List.mem_cons_self
  refine ⟨World.perform_models h.models hx hfit.1 hadm, ?_⟩
  refine (hp.execute hadm).perm ?_
  rw [View.perform_sq]
  refine (List.perm_middle).symm.trans (List.Perm.append_left _ ?_)
  simp only [World.outstanding, World.perform_cq, List.map_append, List.map_singleton,
    List.append_assoc, List.singleton_append]
  refine (List.perm_middle).symm.trans (List.Perm.append_left _ ?_)
  exact (List.perm_middle).symm

theorem post (h : w.Owned v) {i : ℕ} {c : Cqe} (hc : w.executed[i]? = some c) :
    World.Owned { w with executed := w.executed.eraseIdx i, cq := w.cq ++ [c] } v :=
  ⟨h.models, h.owns.perm (List.Perm.append_left _ (World.outstanding_post hc))⟩

theorem submit (h : w.Owned v) : w.submit.Owned { v with sq := [] } :=
  ⟨{ h.models with sq := rfl }, h.owns.submit h.models.sq.symm⟩

theorem handle (h : w.Owned v) {c : Cqe} {cq : List Cqe} {srv : Server} {junk : Junk} (pc : Pc)
    (hcq : w.cq = c :: cq) (hsrv : handleCqe w.srv c junk = .ok srv) :
    ∃ x v', v.ops c.sqe.userData = some x ∧
      (v.log (x.completed c)).Handles c.sqe.userData x c.res v' ∧
      World.Owned { w with srv := srv, cq := cq, pc := pc } v' := by
  have hp := h.owns.perm (List.Perm.append_left _ (World.outstanding_handle hcq))
  obtain ⟨x, hx, hfit⟩ := hp.held (t := c.ticket) (by simp)
  obtain ⟨v', hh, hm, -⟩ := (h.models.handleCqe hx (hfit.res_le rfl) junk).ok hsrv
  exact ⟨x, v', hx, hh, hm, View.Handles.owns (t := c.ticket) hh hp hx rfl⟩

theorem fails (h : w.Owned v) {c : Cqe} {cq : List Cqe} {e : Halt} {junk : Junk}
    (hcq : w.cq = c :: cq) (he : handleCqe w.srv c junk = .error e) :
    ∃ x, v.ops c.sqe.userData = some x ∧
      (v.log (x.completed c)).Fails c.sqe.userData x c.res e := by
  have hmem : c.ticket ∈ queue v.sq ++ w.outstanding := by simp [World.outstanding, hcq]
  obtain ⟨x, hx, hfit⟩ := h.owns.held hmem
  exact ⟨x, hx, (h.models.handleCqe hx (hfit.res_le rfl) junk).error he⟩

/-- Every step of the system is a step of the view, and keeps the books. -/
theorem step {a : Action} (h : w.Owned v) (hs : w.Steps a w') :
    ∃ v', w.Moves v a w' v' ∧ w'.Owned v' := by
  cases hs with
  | execute hs hadm =>
    rw [← h.models.fds] at hadm
    exact ⟨_, .execute hs hadm, h.execute hs hadm⟩
  | post hc => exact ⟨v, .post hc, h.post hc⟩
  | submit hpc => exact ⟨_, .submit hpc, h.submit⟩
  | turn hpc => exact ⟨v, .turn hpc, h.models, h.owns⟩
  | handle hpc hcq hsrv =>
    obtain ⟨x, v', hx, hh, hv'⟩ := h.handle _ hcq hsrv
    exact ⟨v', .handle hpc hcq hsrv hx hh, hv'⟩

theorem start {srv : Server} {serverFd : ℤ} {j bref : ℕ} {buf : List UInt8} {c : Client}
    (hm : srv.Models ((View.initial serverFd).acceptNext j bref buf c)) :
    World.Owned ⟨srv, [], [], [], [], .submit⟩ ((View.initial serverFd).acceptNext j bref buf c) := by
  have hempty : Owns (View.initial serverFd).ops (queue (View.initial serverFd).sq ++ []) :=
    ⟨by simp [View.initial, queue], by simp [View.initial, queue], by simp [View.initial, queue]⟩
  exact ⟨hm, hempty.push j _ _ rfl ⟨rfl, rfl, rfl⟩⟩

end World.Owned

/-- The rule all invariants of runs are proved by: what holds of the first state
and is kept by every step holds throughout. -/
theorem Run.induct {ok : World → Action → Prop} {P : World → View → Prop}
    (hstart : ∀ srv serverFd j bref buf c, 0 ≤ serverFd → buf.length = 2048 →
      srv.Models ((View.initial serverFd).acceptNext j bref buf c) →
      P ⟨srv, [], [], [], [], .submit⟩ ((View.initial serverFd).acceptNext j bref buf c))
    (hstep : ∀ w v a w' v', w.Owned v → P w v → ok w a → w.Moves v a w' v' → w'.Owned v' → P w' v')
    {w : World} (hr : Run ok w) : ∃ v, w.Owned v ∧ P w v := by
  induction hr with
  | start hfd hw =>
    rename_i serverFd junk w
    obtain ⟨srv, j, bref, buf, c, hs, hbuf, hm⟩ := World.start_spec serverFd junk
    obtain rfl := Except.ok.inj (hs.symm.trans hw)
    exact ⟨_, World.Owned.start hm, hstart srv serverFd j bref buf c hfd hbuf hm⟩
  | step _ ha hw ih =>
    obtain ⟨v, hv, hP⟩ := ih
    obtain ⟨v', hmv, hv'⟩ := hv.step (World.steps_of_step hw)
    exact ⟨v', hv', hstep _ _ _ _ _ hv hP ha hmv hv'⟩

/-! ## The ownership invariant -/

/-- The pool ids carried by the entries on their way. -/
def World.poolIds (w : World) : List ℕ := w.tickets.map Ticket.id

theorem World.Owned.mem_poolIds {w : World} {v : View} (h : w.Owned v) (i : ℕ) :
    i ∈ w.poolIds ↔ v.ops i ≠ none := by
  rw [h.owns.used i, World.poolIds, World.tickets, h.models.sq]

theorem World.Owned.entry {w : World} {v : View} (h : w.Owned v) {i : ℕ} (hi : i ∈ w.poolIds) :
    ∃ o b r, w.srv.pool.ops[i]? = some o ∧ o.poolId = i ∧ o.bufRef = some b ∧
      w.srv.heap[b]? = some r ∧ r.ref = 1 ∧ r.buf.length = o.bufCap ∧
      (o.bufCap = 64 ∨ o.bufCap = 2048) ∧ b ∉ w.srv.slab64.bufRefs ∧ b ∉ w.srv.slab2k.bufRefs ∧
      ∀ j ∈ w.poolIds, ∀ o', w.srv.pool.ops[j]? = some o' → o'.bufRef = some b → j = i := by
  obtain ⟨x, hx⟩ := Option.ne_none_iff_exists'.mp ((h.mem_poolIds i).mp hi)
  have hb := h.models.bufs
  refine ⟨x.operation i, x.bref, ⟨1, x.buf⟩, h.models.op i x hx, rfl, rfl, hb.block i x hx, rfl,
    hb.length i x hx, ?_, (hb.off i x hx).1, (hb.off i x hx).2, ?_⟩
  · have hcap := hb.bufCap i x hx
    rwa [h.models.cap64, h.models.cap2k] at hcap
  · intro j hj o' ho' hbref
    obtain ⟨y, hy⟩ := Option.ne_none_iff_exists'.mp ((h.mem_poolIds j).mp hj)
    obtain rfl := Option.some.inj ((h.models.op j y hy).symm.trans ho')
    exact hb.inj j i y x hy hx (Option.some.inj hbref)

/-- A completion is handled: its operation goes on with its buffer, counted once as before,
or both are given back and the count is zero. -/
theorem World.Owned.completed {w : World} {v : View} (h : w.Owned v) {c : Cqe} {cq : List Cqe}
    {srv' : Server} {junk : Junk} (hcq : w.cq = c :: cq) (hsrv : handleCqe w.srv c junk = .ok srv') :
    ∃ o b r, w.srv.pool.ops[c.sqe.userData]? = some o ∧ o.bufRef = some b ∧ srv'.heap[b]? = some r ∧
      (c.sqe.userData ∉ srv'.pool.freeOpsIdx ∧ r.ref = 1 ∧
          (srv'.pool.ops[c.sqe.userData]?).bind Operation.bufRef = some b ∨
        c.sqe.userData ∈ srv'.pool.freeOpsIdx ∧ r.ref = 0 ∧
          b ∈ if o.bufCap = 64 then srv'.slab64.bufRefs else srv'.slab2k.bufRefs) := by
  have hmem : c.ticket ∈ queue v.sq ++ w.outstanding := by simp [World.outstanding, hcq]
  obtain ⟨x, hx, hfit⟩ := h.owns.held hmem
  replace hx : v.ops c.sqe.userData = some x := hx
  obtain ⟨v', hh, hm, hret⟩ := (h.models.handleCqe hx (hfit.res_le rfl) junk).ok hsrv
  refine ⟨x.operation c.sqe.userData, x.bref, ?_⟩
  rcases hh.self (x := x) hx with hnone | ⟨y, hy, hbref, -⟩
  · obtain ⟨hfree, hbuf⟩ := hret hnone
    have hslab : ∃ r, srv'.heap[x.bref]? = some r ∧ r.ref = 0 ∧
        x.bref ∈ if x.bufCap = 64 then srv'.slab64.bufRefs else srv'.slab2k.bufRefs := by
      rcases hbuf with ⟨hcap, hb⟩ | ⟨hcap, hb⟩
      · obtain ⟨r, hr, -⟩ := hm.bufs.wf.sized _ hb
        exact ⟨r, hr, hm.bufs.wf.zero _ hb r hr, by rwa [if_pos hcap]⟩
      · obtain ⟨r, hr, -⟩ := hm.bufs.wf'.sized _ hb
        exact ⟨r, hr, hm.bufs.wf'.zero _ hb r hr, by rwa [if_neg (by omega)]⟩
    obtain ⟨r, hr, hzero, hb⟩ := hslab
    exact ⟨r, h.models.op _ x hx, rfl, hr, .inr ⟨hfree, hzero, hb⟩⟩
  · refine ⟨⟨1, y.buf⟩, h.models.op _ x hx, rfl, ?_, .inl ⟨?_, rfl, ?_⟩⟩
    · rw [← hbref]
      exact hm.bufs.block _ y hy
    · rw [hm.pool.free]
      simp [hy]
    · rw [hm.op _ y hy, ← hbref]
      rfl

theorem World.Owned.freed {w : World} {v v' : View} (h : w.Owned v) {c : Cqe} {cq : List Cqe}
    {srv' : Server} {junk : Junk} (hcq : w.cq = c :: cq) (hsrv : handleCqe w.srv c junk = .ok srv')
    (hm : srv'.Models v') (hnone : v'.ops c.sqe.userData = none) :
    c.sqe.userData ∈ srv'.pool.freeOpsIdx := by
  obtain ⟨o, b, r, -, -, -, ⟨hfree, -, hbref⟩ | ⟨hfree, -⟩⟩ := h.completed hcq hsrv
  · obtain ⟨o', ho', -⟩ := Option.bind_eq_some_iff.mp hbref
    refine (hm.pool.free _).mpr ⟨(List.getElem?_eq_some_iff.mp ho').1, not_not.mpr hnone⟩
  · exact hfree

/-- In every reachable state the entries on their way carry distinct pool ids,
those of the operations not on the free list. Each has a buffer of its own with
count one, from the slab of its capacity. No buffer is lost or on a stack twice, those
on a stack have count zero, and no assertion of the pool can fail. Giving an operation
back takes one release, after which its buffer is on the stack of its slab. -/
theorem ownership_invariant (w : World) (hr : Reachable w) :
    w.poolIds.Nodup ∧
    (∀ i, i ∈ w.poolIds ↔ i < w.srv.pool.ops.length ∧ i ∉ w.srv.pool.freeOpsIdx) ∧
    w.srv.pool.freeOpsIdx.Nodup ∧
    (∀ i ∈ w.srv.pool.freeOpsIdx, ∀ o, w.srv.pool.ops[i]? = some o →
      o.bufRef = none ∧ o.clientFd = -1) ∧
    (∀ i ∈ w.poolIds, ∃ o b r, w.srv.pool.ops[i]? = some o ∧ o.poolId = i ∧ o.bufRef = some b ∧
      w.srv.heap[b]? = some r ∧ r.ref = 1 ∧ r.buf.length = o.bufCap ∧
      (o.bufCap = 64 ∨ o.bufCap = 2048) ∧ b ∉ w.srv.slab64.bufRefs ∧ b ∉ w.srv.slab2k.bufRefs ∧
      ∀ j ∈ w.poolIds, ∀ o', w.srv.pool.ops[j]? = some o' → o'.bufRef = some b → j = i) ∧
    (w.srv.slab64.bufRefs ++ w.srv.slab2k.bufRefs).Nodup ∧
    (∀ b ∈ w.srv.slab64.bufRefs, ∃ r, w.srv.heap[b]? = some r ∧ r.ref = 0 ∧ r.buf.length = 64) ∧
    (∀ b ∈ w.srv.slab2k.bufRefs, ∃ r, w.srv.heap[b]? = some r ∧ r.ref = 0 ∧ r.buf.length = 2048) ∧
    (∀ b < w.srv.heap.length, b ∈ w.srv.slab64.bufRefs ∨ b ∈ w.srv.slab2k.bufRefs ∨
      ∃ i ∈ w.poolIds, ∃ o, w.srv.pool.ops[i]? = some o ∧ o.bufRef = some b) ∧
    (∀ i ∈ w.poolIds, ∃ o b srv', w.srv.pool.ops[i]? = some o ∧ o.bufRef = some b ∧
      freeOp w.srv i = .ok srv' ∧ srv'.heap = setRef w.srv.heap b 0 ∧
      srv'.pool.freeOpsIdx = w.srv.pool.freeOpsIdx ++ [i] ∧
      (srv'.slab64.bufRefs, srv'.slab2k.bufRefs) = if o.bufCap = 64
        then (w.srv.slab64.bufRefs ++ [b], w.srv.slab2k.bufRefs)
        else (w.srv.slab64.bufRefs, w.srv.slab2k.bufRefs ++ [b])) ∧
    (∀ junk c cq srv', w.cq = c :: cq → handleCqe w.srv c junk = .ok srv' →
      ∃ o b r, w.srv.pool.ops[c.sqe.userData]? = some o ∧ o.bufRef = some b ∧
        srv'.heap[b]? = some r ∧
        (c.sqe.userData ∉ srv'.pool.freeOpsIdx ∧ r.ref = 1 ∧
            (srv'.pool.ops[c.sqe.userData]?).bind Operation.bufRef = some b ∨
          c.sqe.userData ∈ srv'.pool.freeOpsIdx ∧ r.ref = 0 ∧
            b ∈ if o.bufCap = 64 then srv'.slab64.bufRefs else srv'.slab2k.bufRefs)) ∧
    (∀ junk c cq, w.cq = c :: cq → handleCqe w.srv c junk ≠ .error .assertion) := by
  obtain ⟨v, h, -⟩ := Run.induct (P := fun _ _ => True) (fun _ _ _ _ _ _ _ _ _ => trivial)
    (fun _ _ _ _ _ _ _ _ _ _ => trivial) hr
  have hb := h.models.bufs
  refine ⟨?_, ?_, h.models.pool.nodup, h.models.pool.returned, fun i hi => h.entry hi, ?_, ?_, ?_, ?_,
    ?_, fun junk c cq srv' hcq hsrv => h.completed hcq hsrv, ?_⟩
  · rw [World.poolIds, World.tickets, ← h.models.sq]
    exact h.owns.nodup
  · intro i
    rw [h.mem_poolIds, h.models.pool.free]
    constructor
    · exact fun hi => ⟨h.models.pool.used_lt i hi, fun hf => hf.2 hi⟩
    · rintro ⟨hlt, hf⟩ hi
      exact hf ⟨hlt, fun hne => hne hi⟩
  · refine List.nodup_append.mpr ⟨hb.wf.nodup, hb.wf'.nodup, ?_⟩
    rintro b hb₁ b' hb₂ rfl
    exact hb.apart hb₁ hb₂
  · intro b hm
    obtain ⟨r, hr, hl⟩ := hb.wf.sized b hm
    exact ⟨r, hr, hb.wf.zero b hm r hr, hl.trans h.models.cap64⟩
  · intro b hm
    obtain ⟨r, hr, hl⟩ := hb.wf'.sized b hm
    exact ⟨r, hr, hb.wf'.zero b hm r hr, hl.trans h.models.cap2k⟩
  · intro b hlt
    rcases hb.cover b hlt with hm | hm | ⟨i, x, hx, rfl⟩
    · exact .inl hm
    · exact .inr (.inl hm)
    · exact .inr (.inr ⟨i, (h.mem_poolIds i).mpr (by simp [hx]), _, h.models.op i x hx, rfl⟩)
  · intro i hi
    obtain ⟨x, hx⟩ := Option.ne_none_iff_exists'.mp ((h.mem_poolIds i).mp hi)
    obtain ⟨srv', hfree, hrest⟩ := h.models.freeOp_eq hx
    exact ⟨_, x.bref, srv', h.models.op i x hx, rfl, hfree, hrest⟩
  · intro junk c cq hcq hbad
    obtain ⟨x, -, hfail⟩ := h.fails hcq hbad
    cases hfail

/-- A client is connected and its `SET_USERNAME` message has been answered: three
operations are on their way. -/
theorem ownership_invariant_reply :
    ∃ w, Reachable w ∧ w.poolIds.length = 3 ∧ w.poolIds.Nodup := by
  have hrun : (World.runMain 3 .zero ([.serve .zero] ++ Action.complete 0 5 [] ++
      Action.complete 0 14 [0, 14, 1, 0, 0, 0, 0, 0, 0, 0, 7, 97, 98, 99])).map
        (fun w => w.poolIds.length) = some 3 := by
    decide +kernel
  obtain ⟨w, hw, hlen⟩ := Option.map_eq_some_iff.mp hrun
  have hr := World.runMain_reachable (by decide) hw
  exact ⟨w, hr, hlen, (ownership_invariant w hr).1⟩

end Caht
