import Caht.Server.Completion

/-! # The server and the kernel

`World` is the server together with the kernel's side of the ring. A submitted
entry refers to the connection its descriptor stood for at that moment. The kernel
executes submitted entries in any order, at any time and with any result they
admit, and posts each completion some time later; the server runs the loop of
`server_start`. `Run` is a run from `main` all of whose steps meet a condition.
-/

namespace Caht
open Library Protocol

/-- A submitted entry and the connection its descriptor was resolved to. -/
structure Submitted where
  sqe : Sqe
  conn : Option ℕ
  deriving DecidableEq, Repr

/-- Where `server_start` is: about to submit, to wait for a completion, to peek for
more, or in a batch with `n` completions to go. -/
inductive Pc where
  | submit
  | wait
  | peek
  | batch (n : ℕ)
  deriving DecidableEq, Repr

/-- `conns` has the bytes sent so far on each accepted connection. -/
structure World where
  srv : Server
  inflight : List Submitted
  executed : List Cqe
  cq : List Cqe
  conns : List (List UInt8)
  pc : Pc

/-- A request as the kernel takes it up: its descriptor becomes a connection. -/
def Server.resolve (srv : Server) (sqe : Sqe) : Submitted :=
  let file := fun fd => match srv.fds fd with
    | some (.conn k) => some k
    | _ => none
  match sqe.request with
  | .accept _ _ => ⟨sqe, none⟩
  | .recv fd _ _ _ => ⟨sqe, file fd⟩
  | .send fd _ _ _ => ⟨sqe, file fd⟩

/-- The results a request may complete with: an error, a descriptor that is not
open, or a count up to the requested length. `data` are the bytes received. -/
def Request.Admits (r : Request) (fds : ℤ → Option File) (res : ℤ) (data : List UInt8) : Prop :=
  match r with
  | .accept _ _ => data = [] ∧ (0 ≤ res → fds res = none)
  | .recv _ _ _ len => (res < 0 ∧ data = []) ∨ (res = data.length ∧ data.length ≤ len)
  | .send _ _ _ len => data = [] ∧ res ≤ len

instance (r : Request) (fds : ℤ → Option File) (res : ℤ) (data : List UInt8) :
    Decidable (r.Admits fds res data) :=
  match r with
  | .accept _ _ => inferInstanceAs (Decidable (data = [] ∧ (0 ≤ res → fds res = none)))
  | .recv _ _ _ len =>
    inferInstanceAs (Decidable ((res < 0 ∧ data = []) ∨ (res = data.length ∧ data.length ≤ len)))
  | .send _ _ _ len => inferInstanceAs (Decidable (data = [] ∧ res ≤ len))

namespace World

/-- What the execution of a request does to descriptors, memory and streams. -/
def perform (w : World) (s : Submitted) (res : ℤ) (data : List UInt8) : World :=
  match s.sqe.request with
  | .accept _ _ =>
    if res < 0 then w else
      { w with
        srv := { w.srv with fds := Function.update w.srv.fds res (some (.conn w.conns.length)) }
        conns := w.conns ++ [[]] }
  | .recv _ bref off _ =>
    { w with srv := { w.srv with
        heap := w.srv.heap.modify bref fun r => { r with buf := writeAt r.buf off data } } }
  | .send _ bref off _ =>
    match s.conn, w.srv.heap[bref]? with
    | some k, some r =>
      { w with conns := w.conns.modify k (· ++ (r.buf.drop off).take res.toNat) }
    | _, _ => w

/-- `io_uring_submit` -/
def submit (w : World) : World :=
  { w with
    srv := { w.srv with ring := { w.srv.ring with sq := [] } }
    inflight := w.inflight ++ w.srv.ring.sq.map w.srv.resolve
    pc := .wait }

/-- `handle_cqe_batch` on the next completion. -/
def handleNext (w : World) (junk : Junk) (pc : Pc) : Option World :=
  match w.cq with
  | [] => none
  | c :: cq =>
    match handleCqe w.srv c junk with
    | .error _ => none
    | .ok srv => some { w with srv := srv, cq := cq, pc := pc }

/-- The next step of `server_start`; `none` when it waits or the process is over. -/
def serve (w : World) (junk : Junk) : Option World :=
  match w.pc with
  | .submit => some w.submit
  | .wait => w.handleNext junk .peek
  | .peek => some { w with pc := .batch (min cqeBatchSize w.cq.length) }
  | .batch 0 => some { w with pc := .submit }
  | .batch (n + 1) => w.handleNext junk (.batch n)

end World

inductive Action where
  | execute (i : ℕ) (res : ℤ) (data : List UInt8)
  | post (i : ℕ)
  | serve (junk : Junk)

def World.step (w : World) : Action → Option World
  | .execute i res data =>
    match w.inflight[i]? with
    | none => none
    | some s =>
      if s.sqe.request.Admits w.srv.fds res data then
        some { w.perform s res data with
          inflight := w.inflight.eraseIdx i
          executed := w.executed ++ [⟨s.sqe, res, data⟩] }
      else none
  | .post i =>
    match w.executed[i]? with
    | none => none
    | some c => some { w with executed := w.executed.eraseIdx i, cq := w.cq ++ [c] }
  | .serve junk => w.serve junk

/-- `main` up to the first `io_uring_submit` of `server_start`. -/
def World.start (serverFd : ℤ) (junk : Junk) : Outcome World := do
  let srv ← serverInit serverFd junk
  let srv ← addAccept srv srv.nextClientId junk
  .ok ⟨{ srv with nextClientId := srv.nextClientId + 1 }, [], [], [], [], .submit⟩

/-- The states of the runs in which every step meets `ok`. -/
inductive Run (ok : World → Action → Prop) : World → Prop
  | start {serverFd : ℤ} {junk : Junk} {w : World} (hfd : 0 ≤ serverFd)
      (h : World.start serverFd junk = .ok w) : Run ok w
  | step {w w' : World} {a : Action} (hr : Run ok w) (ha : ok w a) (h : w.step a = some w') :
      Run ok w'

/-- The states of all runs. -/
abbrev Reachable : World → Prop := Run fun _ _ => True

theorem Run.mono {ok ok' : World → Action → Prop} (h : ∀ w a, ok w a → ok' w a) {w : World}
    (hr : Run ok w) : Run ok' w := by
  induction hr with
  | start hfd hw => exact .start hfd hw
  | step _ ha hw ih => exact .step ih (h _ _ ha) hw

theorem Run.reachable {ok : World → Action → Prop} {w : World} (hr : Run ok w) : Reachable w :=
  hr.mono fun _ _ _ => trivial

/-- A given sequence of steps from the start of `main`. -/
def World.run : World → List Action → Option World
  | w, [] => some w
  | w, a :: as => (w.step a).bind fun w => w.run as

def World.runMain (serverFd : ℤ) (junk : Junk) (as : List Action) : Option World :=
  (World.start serverFd junk).toOption.bind fun w => w.run as

theorem World.run_run {ok : World → Action → Prop} {as : List Action} (hok : ∀ a ∈ as, ∀ w, ok w a)
    {w w' : World} (hr : Run ok w) (h : w.run as = some w') : Run ok w' := by
  induction as generalizing w with
  | nil =>
    obtain rfl := Option.some.inj h
    exact hr
  | cons a as ih =>
    obtain ⟨w₁, hstep, hrun⟩ := Option.bind_eq_some_iff.mp h
    exact ih (fun b hb => hok b (List.mem_cons_of_mem _ hb))
      (.step hr (hok a List.mem_cons_self w) hstep) hrun

theorem World.runMain_run {ok : World → Action → Prop} {serverFd : ℤ} (hfd : 0 ≤ serverFd) {junk : Junk}
    {as : List Action} (hok : ∀ a ∈ as, ∀ w, ok w a) {w : World}
    (h : World.runMain serverFd junk as = some w) : Run ok w := by
  obtain ⟨w₀, hstart, hrun⟩ := Option.bind_eq_some_iff.mp h
  exact World.run_run hok (.start hfd (toOption_eq_some.mp hstart)) hrun

theorem World.runMain_reachable {serverFd : ℤ} (hfd : 0 ≤ serverFd) {junk : Junk} {as : List Action}
    {w : World} (h : World.runMain serverFd junk as = some w) : Reachable w :=
  World.runMain_run hfd (fun _ _ _ => trivial) h

/-- A given sequence of steps, as long as they meet `ok`. -/
def World.runWhile (ok : World → Action → Prop) [∀ w a, Decidable (ok w a)] :
    World → List Action → Option World
  | w, [] => some w
  | w, a :: as => if ok w a then (w.step a).bind fun w => w.runWhile ok as else none

def World.runMainWhile (ok : World → Action → Prop) [∀ w a, Decidable (ok w a)] (serverFd : ℤ)
    (junk : Junk) (as : List Action) : Option World :=
  (World.start serverFd junk).toOption.bind fun w => w.runWhile ok as

theorem World.runWhile_run {ok : World → Action → Prop} [∀ w a, Decidable (ok w a)]
    {as : List Action} {w w' : World} (hr : Run ok w) (h : w.runWhile ok as = some w') : Run ok w' := by
  induction as generalizing w with
  | nil =>
    obtain rfl := Option.some.inj h
    exact hr
  | cons a as ih =>
    rw [World.runWhile] at h
    split at h
    · rename_i hok
      obtain ⟨w₁, hstep, hrun⟩ := Option.bind_eq_some_iff.mp h
      exact ih (.step hr hok hstep) hrun
    · cases h

theorem World.runMainWhile_run {ok : World → Action → Prop} [∀ w a, Decidable (ok w a)] {serverFd : ℤ}
    (hfd : 0 ≤ serverFd) {junk : Junk} {as : List Action} {w : World}
    (h : World.runMainWhile ok serverFd junk as = some w) : Run ok w := by
  obtain ⟨w₀, hstart, hrun⟩ := Option.bind_eq_some_iff.mp h
  exact World.runWhile_run (.start hfd (toOption_eq_some.mp hstart)) hrun

/-- Memory that happens to be zero, for runs on concrete inputs. -/
def Junk.zero : Junk := ⟨fun _ _ => 0, fun _ => ⟨0, .accept, 0, 0, 0, 0, none, 0⟩, .zero, fun _ => 0⟩

/-- The kernel executes entry `i`, posts the completion, and the server handles it,
finds no other one and submits. -/
def Action.complete (i : ℕ) (res : ℤ) (data : List UInt8) : List Action :=
  [.execute i res data, .post 0] ++ List.replicate 4 (.serve .zero)

/-! ## What one step does -/

/-- The server is about to take the next completion, and goes on at `pc` after it. -/
def Pc.Handling : Pc → Pc → Prop
  | .wait, pc => pc = .peek
  | .batch (n + 1), pc => pc = .batch n
  | _, _ => False

inductive World.Steps (w : World) : Action → World → Prop
  | execute {i : ℕ} {s : Submitted} {res : ℤ} {data : List UInt8} (hs : w.inflight[i]? = some s)
      (hadm : s.sqe.request.Admits w.srv.fds res data) :
      Steps w (.execute i res data) { w.perform s res data with
        inflight := w.inflight.eraseIdx i, executed := w.executed ++ [⟨s.sqe, res, data⟩] }
  | post {i : ℕ} {c : Cqe} (hc : w.executed[i]? = some c) :
      Steps w (.post i) { w with executed := w.executed.eraseIdx i, cq := w.cq ++ [c] }
  | submit {junk : Junk} (hpc : w.pc = .submit) : Steps w (.serve junk) w.submit
  | turn {junk : Junk} {pc : Pc} (hpc : w.pc = .peek ∨ w.pc = .batch 0) :
      Steps w (.serve junk) { w with pc := pc }
  | handle {junk : Junk} {pc : Pc} {c : Cqe} {cq : List Cqe} {srv : Server}
      (hpc : w.pc.Handling pc) (hcq : w.cq = c :: cq) (h : handleCqe w.srv c junk = .ok srv) :
      Steps w (.serve junk) { w with srv := srv, cq := cq, pc := pc }

theorem World.handleNext_eq_some {w w' : World} {junk : Junk} {pc : Pc}
    (h : w.handleNext junk pc = some w') : ∃ c cq srv, w.cq = c :: cq ∧
      handleCqe w.srv c junk = .ok srv ∧ w' = { w with srv := srv, cq := cq, pc := pc } := by
  unfold World.handleNext at h
  split at h
  · cases h
  · rename_i c cq hcq
    split at h
    · cases h
    · rename_i srv hsrv
      exact ⟨c, cq, srv, hcq, hsrv, (Option.some.inj h).symm⟩

theorem World.steps_of_step {w w' : World} {a : Action} (h : w.step a = some w') : w.Steps a w' := by
  cases a with
  | execute i res data =>
    simp only [World.step] at h
    split at h
    · cases h
    · rename_i s hs
      split at h
      · rename_i hadm
        obtain rfl := Option.some.inj h
        exact .execute hs hadm
      · cases h
  | post i =>
    simp only [World.step] at h
    split at h
    · cases h
    · rename_i c hc
      obtain rfl := Option.some.inj h
      exact .post hc
  | serve junk =>
    simp only [World.step, World.serve] at h
    split at h
    · rename_i hpc
      obtain rfl := Option.some.inj h
      exact .submit hpc
    · rename_i hpc
      obtain ⟨c, cq, srv, hcq, hsrv, rfl⟩ := World.handleNext_eq_some h
      exact .handle (hpc ▸ rfl) hcq hsrv
    · rename_i hpc
      obtain rfl := Option.some.inj h
      exact .turn (.inl hpc)
    · rename_i hpc
      obtain rfl := Option.some.inj h
      exact .turn (.inr hpc)
    · rename_i n hpc
      obtain ⟨c, cq, srv, hcq, hsrv, rfl⟩ := World.handleNext_eq_some h
      exact .handle (hpc ▸ rfl) hcq hsrv

end Caht
