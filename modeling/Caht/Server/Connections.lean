import Caht.Server.Descriptors

/-! # Connections

What the invariants of the earlier modules say about the pool, the map and the
descriptor table themselves: the life of a connection, and what a failed operation
does to it.
-/

namespace Caht
open Library Protocol

/-- The operation in pool entry `i`, while it is on its way. -/
def World.op (w : World) (i : ℕ) : Option Operation :=
  if i ∈ w.poolIds then w.srv.pool.ops[i]? else none

/-- The entry of a client in the map, without its link. -/
def Server.info (srv : Server) (id : UInt64) : Option ClientInfo :=
  match clientMapGet srv.clients id with
  | .ok (some p) => srv.clients.infoAt p
  | _ => none

/-- The number of accepted connections. -/
def Server.accepts (srv : Server) : ℕ := (acceptedFds srv.trace).length

section
variable {w : World} {v : View} {srv : Server}

theorem World.Owned.op (h : w.Owned v) (i : ℕ) : w.op i = (v.ops i).map (Held.operation · i) := by
  cases hi : v.ops i with
  | none =>
    rw [World.op, if_neg, Option.map_none]
    exact fun hm => (h.mem_poolIds i).mp hm hi
  | some x =>
    rw [World.op, if_pos ((h.mem_poolIds i).mpr (by simp [hi])), h.models.op i x hi, Option.map_some]

theorem World.Owned.op_eq_some (h : w.Owned v) {i : ℕ} {o : Operation} :
    w.op i = some o ↔ ∃ x, v.ops i = some x ∧ x.operation i = o := by
  rw [h.op, Option.map_eq_some_iff]

theorem Server.Models.info (h : srv.Models v) (id : UInt64) : srv.info id =
    (v.clients id).map fun c => ⟨id, c.fd, c.addr, c.addrLen, c.username, none⟩ := by
  rw [Server.info, h.clientMapGet]
  cases hc : v.clients id with
  | none => rfl
  | some c =>
    obtain ⟨n, hn, rfl, hcl⟩ := h.clientInfo hc
    simp only [Option.map_some, ClientMap.infoAt, hn]
    rw [← hcl]
    rfl

theorem Server.Models.info_eq_none (h : srv.Models v) {id : UInt64} :
    srv.info id = none ↔ v.clients id = none := by
  rw [h.info, Option.map_eq_none_iff]

theorem Server.Models.info_eq_some (h : srv.Models v) {id : UInt64} {n : ClientInfo}
    (hn : srv.info id = some n) : ∃ c, v.clients id = some c ∧ n.clientFd = c.fd := by
  rw [h.info] at hn
  obtain ⟨c, hc, rfl⟩ := Option.map_eq_some_iff.mp hn
  exact ⟨c, hc, rfl⟩

/-! ## Client ids -/

theorem ofNat_succ_inj {k l : ℕ} (hk : k + 1 < 2 ^ 64) (hl : l + 1 < 2 ^ 64)
    (h : UInt64.ofNat (k + 1) = UInt64.ofNat (l + 1)) : k = l := by
  have ht := congrArg UInt64.toNat h
  rw [UInt64.toNat_ofNat', UInt64.toNat_ofNat', Nat.mod_eq_of_lt hk, Nat.mod_eq_of_lt hl] at ht
  omega

theorem View.Numbered.unwrapped {m : ℕ} (h : v.Numbered m) (hm : m < 2 ^ 64) : v.Unwrapped := by
  rw [View.Unwrapped, h.entered]
  refine List.Nodup.map_on ?_ List.nodup_range
  intro k hk l hl he
  rw [List.mem_range] at hk hl
  exact ofNat_succ_inj (by omega) (by omega) he

/-- The next id is new, and greater than those before it unless it is zero. -/
theorem View.Numbered.lt_next {m : ℕ} (h : v.Numbered m) (hm : m < 2 ^ 64) {c : UInt64}
    (hc : c ∈ enteredIds v.trace) : c ≠ v.nextClientId ∧ (m + 1 < 2 ^ 64 → c < v.nextClientId) := by
  rw [h.entered] at hc
  obtain ⟨k, hk, rfl⟩ := List.mem_map.mp hc
  rw [List.mem_range] at hk
  rw [h.next]
  refine ⟨fun he => ?_, fun hlt => ?_⟩
  · have ht := congrArg UInt64.toNat he
    rw [UInt64.toNat_ofNat', UInt64.toNat_ofNat', Nat.mod_eq_of_lt (by omega : k + 1 < 2 ^ 64)] at ht
    omega
  · rw [UInt64.lt_iff_toNat_lt, UInt64.toNat_ofNat', UInt64.toNat_ofNat', Nat.mod_eq_of_lt hlt,
      Nat.mod_eq_of_lt (by omega : k + 1 < 2 ^ 64)]
    omega

theorem World.Serving.unwrapped (h : w.Serving v) (hw : w.Owned v)
    (hacc : w.srv.accepts < 2 ^ 64 - 1) : v.Unwrapped := by
  obtain ⟨m, hm⟩ := h.census.numbered
  have hle := hm.accepted
  rw [hw.models.trace] at hle
  exact hm.unwrapped (by simp only [Server.accepts] at hacc; omega)

/-! ## The life of a connection -/

theorem World.Serving.read (h : w.Serving v) (hu : v.Unwrapped) {c : UInt64}
    (hc : v.clients c ≠ none) (hp : ∀ i x, v.ops i = some x → x.type = .accept → x.clientId ≠ c) :
    ∃ cl i x, v.Connected c cl i x := by
  cases h.census.unwrapped_life hu c with
  | fresh hn => exact absurd hn hc
  | pending _ hi hx ht => exact absurd hx (hp _ _ hi ht)
  | connected h => exact ⟨_, _, _, h⟩
  | gone hn => exact absurd hn hc

theorem World.Serving.distinct (h : w.Serving v) (hu : v.Unwrapped) {c c' : UInt64} {cl cl' : Client}
    {i i' : ℕ} {x x' : Held} (hc : v.Connected c cl i x) (hc' : v.Connected c' cl' i' x')
    (hfd : cl.fd = cl'.fd) : c = c' := by
  have hold : w.Holds v i cl.fd :=
    .client hc.op hc.type (by rw [hc.clientId, hc.client]; simp) (hc.fd i x hc.op hc.clientId)
  have hold' : w.Holds v i' cl.fd :=
    .client hc'.op hc'.type (by rw [hc'.clientId, hc'.client]; simp)
      ((hc'.fd i' x' hc'.op hc'.clientId).trans hfd.symm)
  obtain rfl := (h.descriptors hu).inj i i' _ hold hold'
  obtain rfl := Option.some.inj (hc.op.symm.trans hc'.op)
  rw [← hc.clientId, ← hc'.clientId]

/-- A receive or send of a client in the map is for its open descriptor. -/
theorem World.Serving.open_fd (h : w.Serving v) (hu : v.Unwrapped) {i : ℕ} {x : Held}
    (hi : v.ops i = some x) (ht : x.type ≠ .accept) (hc : v.clients x.clientId ≠ none) :
    ∃ cl k, v.clients x.clientId = some cl ∧ x.clientFd = cl.fd ∧ v.fds x.clientFd = some (.conn k) := by
  obtain ⟨cl, j, y, hcon⟩ := (h.census.unwrapped_life hu x.clientId).connected_of hi rfl hc ht
  have hfd := hcon.fd i x hi rfl
  have hold : w.Holds v j cl.fd :=
    .client hcon.op hcon.type (by rwa [hcon.clientId]) (hcon.fd j y hcon.op hcon.clientId)
  obtain ⟨k, hk⟩ := (h.descriptors hu).conn j cl.fd hold
  exact ⟨cl, k, hcon.client, hfd, hfd ▸ hk⟩

theorem World.Serving.next_free (h : w.Serving v) (hw : w.Owned v)
    (hacc : w.srv.accepts < 2 ^ 64 - 1) : v.clients v.nextClientId = none ∧
      ∀ i x, v.ops i = some x → x.clientId ≠ v.nextClientId := by
  obtain ⟨m, hm⟩ := h.census.numbered
  have hle := hm.accepted
  rw [hw.models.trace] at hle
  have hnot : v.nextClientId ∉ enteredIds v.trace := fun hn =>
    (hm.lt_next (by simp only [Server.accepts] at hacc; omega) hn).1 rfl
  have hlife := h.census.unwrapped_life (h.unwrapped hw hacc) v.nextClientId
  obtain ⟨hnone, hops, -⟩ := hlife.fresh_of_count (List.count_eq_zero.mpr hnot)
  exact ⟨hnone, hops⟩

theorem World.Serving.not_undefined (h : w.Serving v) (hw : w.Owned v)
    (hacc : w.srv.accepts < 2 ^ 64 - 1) {cqe : Cqe} {cq : List Cqe} (hcq : w.cq = cqe :: cq)
    (junk : Junk) : handleCqe w.srv cqe junk ≠ .error .undefined := by
  intro hbad
  obtain ⟨x, hx, hfail⟩ := hw.fails hcq hbad
  obtain ⟨hnone, hops⟩ := h.next_free hw hacc
  cases hfail with
  | taken hc hres ht hn =>
    exact hn ((Function.update_of_ne (Ne.symm (hops _ x hx)) _ _).trans hnone)

/-- The descriptor of a client is taken once, and given back once the client is gone. -/
theorem World.Serving.taken_once {w : World} {v : View} (h : w.Serving v) (hw : w.Owned v)
    (hu : v.Unwrapped) (c : UInt64) :
    acceptedFds (history c w.srv.trace) = [] ∧ closedFds (history c w.srv.trace) = [] ∨
      ∃ fd, acceptedFds (history c w.srv.trace) = [fd] ∧
        ((∃ n k, w.srv.info c = some n ∧ n.clientFd = fd ∧ w.srv.fds fd = some (.conn k)) ∧
            closedFds (history c w.srv.trace) = [] ∨
          w.srv.info c = none ∧ closedFds (history c w.srv.trace) = [fd]) := by
  have hm := hw.models
  rw [← hm.trace, ← hm.fds]
  cases h.census.unwrapped_life hu c with
  | fresh _ _ hist => exact .inl (by rw [hist]; exact ⟨rfl, rfl⟩)
  | pending _ _ _ _ _ hist => exact .inl (by rw [hist]; exact ⟨rfl, rfl⟩)
  | @connected cl i x hcon =>
    have hmap : v.clients x.clientId ≠ none := by
      rw [hcon.clientId, hcon.client]
      simp
    obtain ⟨cl', k, hcl', hfd, hk⟩ := h.open_fd hu hcon.op (by simp [hcon.type]) hmap
    rw [hcon.clientId, hcon.client, Option.some.injEq] at hcl'
    subst hcl'
    have hn : w.srv.info c = some ⟨c, cl.fd, cl.addr, cl.addrLen, cl.username, none⟩ := by
      rw [hm.info, hcon.client]
      rfl
    exact .inr ⟨_, hcon.accepted, .inl ⟨⟨_, k, hn, rfl, hfd ▸ hk⟩, hcon.closed⟩⟩
  | gone hc _ hac hcl => exact .inr ⟨_, hac, .inr ⟨hm.info_eq_none.mpr hc, hcl⟩⟩

/-- A completion closes the descriptor of the client that leaves the map, and no other. -/
theorem World.Serving.closes {w : World} {v : View} (h : w.Serving v) (hw : w.Owned v)
    (hu : v.Unwrapped) {cqe : Cqe} {cq : List Cqe} {junk : Junk} {srv' : Server}
    (hcq : w.cq = cqe :: cq) (hrun : handleCqe w.srv cqe junk = .ok srv') (fd : ℤ) :
    (w.srv.fds fd ≠ none ∧ srv'.fds fd = none ↔
      ∃ c n, w.srv.info c = some n ∧ n.clientFd = fd ∧ srv'.info c = none) ∧
    (srv'.fds fd ≠ none → srv'.fds fd = w.srv.fds fd) := by
  obtain ⟨x, v', hx, hh, hw'⟩ := hw.handle .peek hcq hrun
  have hm' : srv'.Models v' := hw'.models
  rw [← hw.models.fds, ← hm'.fds]
  rcases hh.clients with ⟨hfds, hkeep⟩ | ⟨hfds, hopen, hmap, -, hleave⟩
  · replace hfds : v'.fds = v.fds := hfds
    rw [hfds]
    refine ⟨iff_of_false (fun hc => hc.1 hc.2) ?_, fun _ => rfl⟩
    rintro ⟨c, n, hn, -, hnone⟩
    obtain ⟨cl, hcl, -⟩ := hw.models.info_eq_some hn
    have hgone := ((hkeep c).mp (hm'.info_eq_none.mp hnone)).1
    cases hcl.symm.trans hgone
  · replace hfds : v'.fds = Function.update v.fds x.clientFd none := hfds
    replace hmap : v.clients x.clientId ≠ none := hmap
    have ht : x.type ≠ .accept := fun ht => hopen (h.census.accept hw hx ht)
    obtain ⟨cl, k, hcl, hxfd, hk⟩ := h.open_fd hu hx ht hmap
    rw [hfds]
    refine ⟨⟨fun hc => ?_, ?_⟩, fun hne => ?_⟩
    · have hfd : fd = x.clientFd := by
        by_contra hne
        rw [Function.update_of_ne hne] at hc
        exact hc.1 hc.2
      refine ⟨x.clientId, ⟨x.clientId, cl.fd, cl.addr, cl.addrLen, cl.username, none⟩, ?_, ?_, ?_⟩
      · rw [hw.models.info, hcl]
        rfl
      · exact hxfd.symm.trans hfd.symm
      · exact hm'.info_eq_none.mpr ((hleave _).mpr (.inr rfl))
    · rintro ⟨c, n, hn, rfl, hnone⟩
      obtain ⟨cl', hcl', hfd⟩ := hw.models.info_eq_some hn
      rcases (hleave c).mp (hm'.info_eq_none.mp hnone) with hgone | rfl
      · cases hcl'.symm.trans hgone
      · obtain rfl := Option.some.inj (hcl.symm.trans hcl')
        rw [hfd, ← hxfd, Function.update_self]
        exact ⟨hopen, rfl⟩
    · refine Function.update_of_ne (fun he => hne ?_) ..
      rw [he, Function.update_self]

theorem World.Serving.client_fd {w : World} {v : View} (h : w.Serving v) (hw : w.Owned v)
    (hu : v.Unwrapped) {i : ℕ} {o : Operation} {n : ClientInfo} (ho : w.op i = some o)
    (ht : o.type ≠ .accept) (hn : w.srv.info o.clientId = some n) : o.clientFd = n.clientFd := by
  obtain ⟨x, hx, rfl⟩ := hw.op_eq_some.mp ho
  obtain ⟨cl, hcl, hfd⟩ := hw.models.info_eq_some hn
  obtain ⟨cl', j, y, hcon⟩ := (h.census.unwrapped_life hu x.clientId).connected_of hx rfl
    (fun hnone => by simp [Held.operation, hnone] at hcl) ht
  obtain rfl := Option.some.inj (hcl.symm.trans hcon.client)
  exact (hcon.fd i x hx rfl).trans hfd.symm

/-- While fewer than `2 ^ 64 - 1` connections have been accepted: one accept is on
its way and its client is in the map; the next id is new, so that `info` is never
used uninitialised, and greater than all before it until the counter turns over;
each other client in the map has one receive operation, and its operations are for
its descriptor, which is open and which no other connected client has; an accepted
descriptor is closed once, by the completion that takes its client out of the map. -/
theorem connection_lifecycle (w : World) (hr : Reachable w) (hacc : w.srv.accepts < 2 ^ 64 - 1) :
    (∃ a o, w.op a = some o ∧ o.type = .accept ∧ w.srv.info o.clientId ≠ none ∧
      (∀ i o', w.op i = some o' → o'.type = .accept → i = a) ∧
      (∀ c, w.srv.info c ≠ none → c ≠ o.clientId → ∃ i o', w.op i = some o' ∧ o'.type = .read ∧
        o'.clientId = c ∧ ∀ j o'', w.op j = some o'' → o''.type = .read → o''.clientId = c → j = i) ∧
      (∀ c c' n n', c ≠ o.clientId → c' ≠ o.clientId → w.srv.info c = some n →
        w.srv.info c' = some n' → n.clientFd = n'.clientFd → c = c')) ∧
    (∀ c ∈ enteredIds w.srv.trace, c ≠ w.srv.nextClientId) ∧
    (w.srv.accepts < 2 ^ 64 - 2 → ∀ c ∈ enteredIds w.srv.trace, c < w.srv.nextClientId) ∧
    (∀ cqe cq junk, w.cq = cqe :: cq → handleCqe w.srv cqe junk ≠ .error .undefined) ∧
    (∀ i o n, w.op i = some o → o.type ≠ .accept → w.srv.info o.clientId = some n →
      o.clientFd = n.clientFd) ∧
    (∀ c, acceptedFds (history c w.srv.trace) = [] ∧ closedFds (history c w.srv.trace) = [] ∨
      ∃ fd, acceptedFds (history c w.srv.trace) = [fd] ∧
        ((∃ n k, w.srv.info c = some n ∧ n.clientFd = fd ∧ w.srv.fds fd = some (.conn k)) ∧
            closedFds (history c w.srv.trace) = [] ∨
          w.srv.info c = none ∧ closedFds (history c w.srv.trace) = [fd])) ∧
    (∀ cqe cq junk srv', w.cq = cqe :: cq → handleCqe w.srv cqe junk = .ok srv' → ∀ fd,
      (w.srv.fds fd ≠ none ∧ srv'.fds fd = none ↔
        ∃ c n, w.srv.info c = some n ∧ n.clientFd = fd ∧ srv'.info c = none) ∧
      (srv'.fds fd ≠ none → srv'.fds fd = w.srv.fds fd)) := by
  obtain ⟨v, hw, h⟩ := hr.serving
  have hu := h.unwrapped hw hacc
  have hm := hw.models
  obtain ⟨m, hnum⟩ := h.census.numbered
  have hle := hnum.accepted
  rw [hm.trace] at hle
  have hlt : m < 2 ^ 64 := by simp only [Server.accepts] at hacc; omega
  refine ⟨?_, ?_, ?_, fun cqe cq junk hcq => h.not_undefined hw hacc hcq junk,
    fun i o n ho ht hn => h.client_fd hw hu ho ht hn, h.taken_once hw hu,
    fun cqe cq junk srv' hcq hrun => h.closes hw hu hcq hrun⟩
  · obtain ⟨a, x, hx, hxt, hxc, -⟩ := h.accepting hu
    have hconn : ∀ c, w.srv.info c ≠ none → c ≠ x.clientId → ∃ cl i y, v.Connected c cl i y := by
      intro c hc hne
      refine h.read hu (fun hn => hc (hm.info_eq_none.mpr hn)) fun i y hi ht he => hne ?_
      obtain rfl := h.oneAccept i a y x hi hx ht hxt
      obtain rfl := Option.some.inj (hi.symm.trans hx)
      exact he.symm
    refine ⟨a, x.operation a, hw.op_eq_some.mpr ⟨x, hx, rfl⟩, hxt,
      fun hn => hxc (hm.info_eq_none.mp hn), ?_, ?_, ?_⟩
    · intro i o' ho' ht
      obtain ⟨y, hy, rfl⟩ := hw.op_eq_some.mp ho'
      exact h.oneAccept i a y x hy hx ht hxt
    · intro c hc hne
      obtain ⟨cl, i, y, hcon⟩ := hconn c hc hne
      refine ⟨i, y.operation i, hw.op_eq_some.mpr ⟨y, hcon.op, rfl⟩, hcon.type, hcon.clientId, ?_⟩
      intro j o'' ho'' ht hid
      obtain ⟨z, hz, rfl⟩ := hw.op_eq_some.mp ho''
      exact (hcon.eq_of_read hz hid ht).1
    · intro c c' n n' hne hne' hc hc' hfd
      obtain ⟨cl, i, y, hcon⟩ := hconn c (by simp [hc]) hne
      obtain ⟨cl', i', y', hcon'⟩ := hconn c' (by simp [hc']) hne'
      obtain ⟨d, hd, hnd⟩ := hm.info_eq_some hc
      obtain ⟨d', hd', hnd'⟩ := hm.info_eq_some hc'
      obtain rfl := Option.some.inj (hd.symm.trans hcon.client)
      obtain rfl := Option.some.inj (hd'.symm.trans hcon'.client)
      exact h.distinct hu hcon hcon' (hnd.symm.trans (hfd.trans hnd'))
  · intro c hc
    rw [← hm.trace] at hc
    rw [← hm.nextClientId]
    exact (hnum.lt_next hlt hc).1
  · intro hacc' c hc
    rw [← hm.trace] at hc
    rw [← hm.nextClientId]
    exact (hnum.lt_next hlt hc).2 (by simp only [Server.accepts] at hacc'; omega)

/-! ## A full turn of the counter -/

/-- The server waits, with nothing queued and no completion to come but those of the
entries in flight. -/
structure World.Waiting (w : World) (v : View) : Prop where
  reachable : Reachable w
  owned : w.Owned v
  serving : w.Serving v
  pc : w.pc = .wait
  executed : w.executed = []
  cq : w.cq = []
  sq : v.sq = []
  entries : v.entries = queueSize

theorem World.perform_eq (w : World) (s : Submitted) (res : ℤ) (data : List UInt8) :
    ∃ srv conns, w.perform s res data = { w with srv := srv, conns := conns } := by
  unfold World.perform
  split
  · split <;> exact ⟨_, _, rfl⟩
  · exact ⟨_, _, rfl⟩
  · split <;> exact ⟨_, _, rfl⟩

/-- The first entry in flight is executed and its completion is handled, unless this
ends the process; then the server waits again. -/
theorem World.Waiting.turn (h : w.Waiting v) {s : Submitted} {rest : List Submitted}
    (hin : w.inflight = s :: rest) (res : ℤ) (data : List UInt8) {x : Held}
    (hadm : s.sqe.request.Admits v.fds res data)
    (hx : (v.perform s.sqe res data w.conns.length).ops s.sqe.userData = some x)
    (hok : ∀ e, ¬ ((v.perform s.sqe res data w.conns.length).log (x.completed ⟨s.sqe, res, data⟩)).Fails
      s.sqe.userData x res e) :
    ∃ (w' : World) (v' : View), ((v.perform s.sqe res data w.conns.length).log
        (x.completed ⟨s.sqe, res, data⟩)).Handles s.sqe.userData x res v' ∧
      w'.inflight = rest ++ v'.sq.map w'.srv.resolve ∧
      (v'.entries = queueSize → w'.Waiting { v' with sq := [] }) := by
  obtain ⟨srv₁, conns₁, hp⟩ := w.perform_eq s res data
  have hs : w.inflight[0]? = some s := by rw [hin]; rfl
  have ho₁ := h.owned.execute hs hadm
  have hv₁ := h.serving.moves h.owned (.execute hs hadm)
  have hr₁ : Reachable { w.perform s res data with
      inflight := w.inflight.eraseIdx 0, executed := w.executed ++ [⟨s.sqe, res, data⟩] } := by
    refine .step h.reachable trivial (a := .execute 0 res data) ?_
    rw [h.owned.models.fds] at hadm
    simp only [World.step, hs, if_pos hadm]
  rw [hp, hin, h.executed] at ho₁ hv₁ hr₁
  have hc : [Cqe.mk s.sqe res data][0]? = some ⟨s.sqe, res, data⟩ := rfl
  have ho₂ := ho₁.post hc
  have hv₂ := hv₁.moves ho₁ (.post hc)
  have hr₂ : Reachable _ := .step hr₁ trivial (a := .post 0) rfl
  simp only [List.nil_append, h.cq, List.eraseIdx_zero, List.tail_cons] at ho₂ hv₂ hr₂
  cases hsrv : handleCqe srv₁ ⟨s.sqe, res, data⟩ .zero with
  | error e =>
    obtain ⟨y, hy, hfail⟩ := ho₂.fails rfl hsrv
    obtain rfl := Option.some.inj (hx.symm.trans hy)
    exact absurd hfail (hok e)
  | ok srv₃ =>
    obtain ⟨y, v', hy, hh, ho₃⟩ := ho₂.handle .peek rfl hsrv
    obtain rfl := Option.some.inj (hx.symm.trans hy)
    have hpc : w.pc.Handling .peek := by rw [h.pc]; rfl
    have hv₃ := hv₂.moves ho₂ (.handle hpc rfl hsrv hy hh)
    have hr₃ : Reachable ⟨srv₃, rest, [], [], conns₁, .peek⟩ := by
      refine .step hr₂ trivial (a := .serve .zero) ?_
      simp only [World.step, World.serve, h.pc, World.handleNext, hsrv]
    have hr₄ : Reachable ⟨srv₃, rest, [], [], conns₁, .submit⟩ :=
      .step (.step hr₃ trivial (a := .serve .zero) rfl) trivial (a := .serve .zero) rfl
    have ho₄ : World.Owned ⟨srv₃, rest, [], [], conns₁, .submit⟩ v' := ⟨ho₃.models, ho₃.owns⟩
    have hv₄ : World.Serving ⟨srv₃, rest, [], [], conns₁, .submit⟩ v' :=
      hv₃.moves (a := .serve .zero) ho₃ (.turn (.inl rfl))
    refine ⟨_, v', hh, ?_, fun hent => ⟨.step hr₄ trivial (a := .serve .zero) rfl, ho₄.submit,
      hv₄.moves (a := .serve .zero) ho₄ (.submit rfl), rfl, rfl, rfl, rfl, hent⟩⟩
    rw [ho₄.models.sq]
    rfl

theorem World.Waiting.hangUp (h : w.Waiting v) {s : Submitted} {l : List Submitted}
    (hin : w.inflight = s :: l) {x : Held} {c : Client} (hx : v.ops s.sqe.userData = some x)
    (ht : x.type = .read) (hc : v.clients x.clientId = some c) (hfd : v.fds x.clientFd ≠ none) :
    ∃ w' v', World.Waiting w' v' ∧ w'.inflight = l ∧
      v'.fds = Function.update v.fds x.clientFd none ∧ v'.nextClientId = v.nextClientId ∧
      v'.trace = v.trace ++ [.completed x.clientId .read 0 [], .closed x.clientId x.clientFd] := by
  have hm : s.ticket ∈ queue v.sq ++ w.outstanding :=
    List.mem_append_right _ (by simp [World.outstanding, hin])
  obtain ⟨off, len, hreq, -⟩ := (h.owned.owns.fits _ hm x hx).recv ht
  replace hreq : s.sqe.request = .recv x.clientFd x.bref off len := hreq
  let y : Held := { x with buf := writeAt x.buf off [] }
  have hperf : v.perform s.sqe 0 [] w.conns.length = v.setOp s.sqe.userData (some y) := by
    simp [View.perform, hreq, hx, y]
  have hy : (v.perform s.sqe 0 [] w.conns.length).ops s.sqe.userData = some y := by
    rw [hperf, View.setOp_self]
  obtain ⟨w', v', hh, hin', hwait⟩ := h.turn hin 0 [] (by rw [hreq]; exact .inr ⟨rfl, Nat.zero_le _⟩) hy
    (by
      intro e hfail
      rw [hperf] at hfail
      cases hfail with
      | close _ _ hn => exact hfd hn
      | full _ ht' => exact ht' ht
      | loop hres => exact absurd hres (lt_irrefl _)
      | taken _ _ ht' => exact absurd (ht.symm.trans ht') (by decide))
  rw [hperf] at hh
  cases hh with
  | stale hn => exact absurd (hc.symm.trans hn) (by simp)
  | accepted _ _ ht' => exact absurd (ht.symm.trans ht') (by decide)
  | received _ hres => exact absurd hres (lt_irrefl _)
  | resumed _ _ ht' => exact absurd (ht.symm.trans ht') (by decide)
  | sent _ _ ht' => exact absurd (ht.symm.trans ht') (by decide)
  | dropped =>
    refine ⟨w', _, hwait h.entries, ?_, rfl, rfl, ?_⟩
    · rw [hin']
      simp [View.disconnect, View.log, View.setOp, View.setClient, View.close, h.sq]
    · simp [View.disconnect, View.log, View.setOp, View.setClient, View.close, Held.completed, ht, y]

/-- Only an accept is in flight; `n` connections were accepted and closed. -/
structure World.Idle (w : World) (v : View) (n : ℕ) : Prop where
  waiting : w.Waiting v
  inflight : ∃ s, w.inflight = [s]
  fds : v.fds 4 = none
  accepts : (acceptedFds v.trace).length = n
  next : v.nextClientId = UInt64.ofNat (n + 2)
  entered : 1 ∈ enteredIds v.trace

theorem World.Idle.cycle {n : ℕ} (h : w.Idle v n) (hn : n < 2 ^ 64 - 1) :
    ∃ w' v', World.Idle w' v' (n + 1) := by
  obtain ⟨s, hin⟩ := h.inflight
  have hw := h.waiting.owned
  have hacc : w.srv.accepts < 2 ^ 64 - 1 := by
    rw [Server.accepts, ← hw.models.trace, h.accepts]
    exact hn
  obtain ⟨a, x, hx, hxt, hxc, -⟩ := h.waiting.serving.accepting (h.waiting.serving.unwrapped hw hacc)
  obtain ⟨hnone, hops⟩ := h.waiting.serving.next_free hw hacc
  have hids : queue v.sq ++ w.outstanding = [s.ticket] := by
    simp [World.outstanding, hin, h.waiting.executed, h.waiting.cq, h.waiting.sq, queue]
  obtain rfl : a = s.sqe.userData := by
    have hm := (hw.owns.used a).mp (by simp [hx])
    simpa [hids, Submitted.ticket, Ticket.id] using hm
  have hfit := (hw.owns.fits s.ticket (by simp [hids]) x hx).1
  obtain ⟨fd, node, hreq⟩ : ∃ fd node, s.sqe.request = .accept fd node := by
    cases hreq : s.sqe.request with
    | accept fd node => exact ⟨fd, node, rfl⟩
    | recv => simp [Submitted.ticket, hreq, Request.Fits, hxt] at hfit
    | send => simp [Submitted.ticket, hreq, Request.Fits, hxt] at hfit
  have hperf : v.perform s.sqe 4 [] w.conns.length =
      { v with fds := Function.update v.fds 4 (some (.conn w.conns.length)) } := by
    simp [View.perform, hreq]
  have hx₀ : (v.perform s.sqe 4 [] w.conns.length).ops s.sqe.userData = some x := by rw [hperf, hx]
  obtain ⟨w₁, v₁, hh₁, hin₁, hwait₁⟩ := h.waiting.turn hin 4 []
    (by rw [hreq]; exact ⟨rfl, fun _ => h.fds⟩) hx₀ (by
      intro e hfail
      rw [hperf] at hfail
      cases hfail with
      | close _ hres => exact absurd hres (by simp [hxt])
      | full _ _ hsq => simp [View.log, h.waiting.entries, h.waiting.sq, queueSize] at hsq
      | loop _ ht => exact absurd (hxt.symm.trans ht) (by decide)
      | taken _ _ _ hn' => exact hn' ((Function.update_of_ne (Ne.symm (hops _ x hx)) _ _).trans hnone))
  rw [hperf] at hh₁
  cases hh₁ with
  | stale hc => exact absurd hc hxc
  | dropped _ hres => exact absurd hres (by simp [hxt])
  | received _ _ ht => exact absurd (hxt.symm.trans ht) (by decide)
  | resumed _ _ ht => exact absurd (hxt.symm.trans ht) (by decide)
  | sent _ _ ht => exact absurd (hxt.symm.trans ht) (by decide)
  | @accepted cl cl' j bref buf hc hres ht hj hn' hbuf =>
    have hwait := hwait₁ (by simpa [View.log] using h.waiting.entries)
    have hji : j ≠ s.sqe.userData := by
      rintro rfl
      simp at hj
    have hne := hops _ x hx
    obtain ⟨w₂, v₂, hwait₂, hin₂, hfds₂, hnext₂, htr₂⟩ := hwait.hangUp
      (x := { x with clientFd := 4, type := .read }) (c := { cl with fd := 4 })
      (l := [w₁.srv.resolve ⟨j, .accept v.serverFd cl'.node⟩])
      (s := w₁.srv.resolve ⟨s.sqe.userData, .recv 4 x.bref 0 x.bufCap⟩)
      (by simpa [View.log, h.waiting.sq] using hin₁)
      (by simp [Server.resolve, Ne.symm hji]) rfl (by simp [View.log, hne]) (by simp [View.log])
    refine ⟨w₂, v₂, hwait₂, ⟨_, hin₂⟩, by simp [hfds₂], ?_, ?_, ?_⟩
    · rw [htr₂]
      simp only [View.acceptNext_trace, View.connect_trace, View.log, acceptedFds_append,
        List.length_append, h.accepts]
      simp [acceptedFds, Held.completed, hxt]
    · rw [hnext₂]
      simp only [View.acceptNext_nextClientId, View.connect_nextClientId, View.log, h.next]
      exact (UInt64.ofNat_add (n + 2) 1).symm
    · rw [htr₂]
      simp [View.log, enteredIds_append, h.entered]

theorem World.Idle.start : ∃ w v, World.Idle w v 0 := by
  obtain ⟨srv, j, bref, buf, c, hs, -, hm⟩ := World.start_spec 3 .zero
  have hr : Reachable ⟨srv, [], [], [], [], .submit⟩ := .start (by decide) hs
  have hv := World.Serving.start srv 3 (by decide) j bref buf c
  have ho := World.Owned.start hm
  refine ⟨_, _, ⟨.step hr trivial (a := .serve .zero) rfl, ho.submit,
    hv.moves (a := .serve .zero) ho (.submit rfl), rfl, rfl, rfl, rfl, by simp [View.initial]⟩,
    ?_, ?_, ?_, ?_, ?_⟩
  · refine ⟨srv.resolve ⟨j, .accept 3 c.node⟩, ?_⟩
    simp [World.submit, ← hm.sq, View.initial]
  · simp [View.initial]
  · simp [View.initial, acceptedFds]
  · simp [View.initial]
  · simp [View.initial, enteredIds]

theorem World.Idle.exists (n : ℕ) (hn : n < 2 ^ 64) : ∃ w v, World.Idle w v n := by
  induction n with
  | zero => exact World.Idle.start
  | succ n ih =>
    obtain ⟨w, v, h⟩ := ih (by omega)
    exact h.cycle (by omega)

/-- After `2 ^ 64 - 2` accepts the next id is zero, and less than those used. -/
theorem World.Idle.counter_turns : ∃ w, Reachable w ∧ w.srv.accepts = 2 ^ 64 - 2 ∧
    1 ∈ enteredIds w.srv.trace ∧ w.srv.nextClientId = 0 := by
  obtain ⟨w, v, h⟩ := World.Idle.exists (2 ^ 64 - 2) (by norm_num)
  have hm := h.waiting.owned.models
  refine ⟨w, h.waiting.reachable, ?_, ?_, ?_⟩
  · rw [Server.accepts, ← hm.trace, h.accepts]
  · rw [← hm.trace]
    exact h.entered
  · rw [← hm.nextClientId, h.next]
    decide

/-- The counter may turn over, and the entry of the pending accept has whatever
descriptor its memory held before. -/
theorem connection_lifecycle_literal :
    (∃ w, Reachable w ∧ w.srv.accepts = 2 ^ 64 - 2 ∧
      ∃ c ∈ enteredIds w.srv.trace, ¬ c < w.srv.nextClientId) ∧
    (∃ w n n', Reachable w ∧ w.srv.accepts = 1 ∧ w.srv.info 1 = some n ∧ w.srv.info 2 = some n' ∧
      n.clientFd = n'.clientFd) := by
  constructor
  · obtain ⟨w, hr, hacc, hmem, hnext⟩ := World.Idle.counter_turns
    exact ⟨w, hr, hacc, 1, hmem, by rw [hnext]; decide⟩
  · have hrun : (World.runMain 3 { Junk.zero with info := { ClientInfo.zero with clientFd := 5 } }
        [.serve .zero, .execute 0 5 [], .post 0,
          .serve { Junk.zero with info := { ClientInfo.zero with clientFd := 5 } }]).map
        (fun w => (w.srv.accepts, (w.srv.info 1).map ClientInfo.clientFd,
          (w.srv.info 2).map ClientInfo.clientFd)) = some (1, some 5, some 5) := by
      decide +kernel
    obtain ⟨w, hw, hres⟩ := Option.map_eq_some_iff.mp hrun
    simp only [Prod.mk.injEq, Option.map_eq_some_iff] at hres
    obtain ⟨hacc, ⟨n, hn, hfd⟩, n', hn', hfd'⟩ := hres
    exact ⟨w, n, n', World.runMain_reachable (by decide) hw, hacc, hn, hn', hfd.trans hfd'.symm⟩

/-- One client is connected. -/
theorem connection_lifecycle_one_client :
    ∃ w, Reachable w ∧ w.srv.accepts = 1 ∧ w.srv.info 1 ≠ none ∧
      ∀ c ∈ enteredIds w.srv.trace, c < w.srv.nextClientId := by
  have hrun : (World.runMain 3 .zero ([.serve .zero] ++ Action.complete 0 5 [])).map
      (fun w => (w.srv.accepts, (w.srv.info 1).isSome)) = some (1, true) := by
    decide +kernel
  obtain ⟨w, hw, hres⟩ := Option.map_eq_some_iff.mp hrun
  obtain ⟨hacc, hinfo⟩ := Prod.mk.inj hres
  have hr := World.runMain_reachable (by decide) hw
  refine ⟨w, hr, hacc, by simpa [Option.isSome_iff_ne_none] using hinfo, ?_⟩
  exact (connection_lifecycle w hr (by rw [hacc]; norm_num)).2.2.1 (by rw [hacc]; norm_num)

end

end Caht
