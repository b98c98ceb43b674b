import Caht.Server.Lifecycle

/-! # Descriptors

A descriptor is held by the receive operation of a client in the map or by an
accept that has completed and waits to be handled. While no client id has been
used twice, one accept is always on its way, every holder has a descriptor of its
own, and that descriptor is open.
-/

namespace Caht
open Library Protocol

section
variable {v v' : View} {i : ℕ} {x : Held} {res : ℤ}

/-- Where an operation in use after a completion comes from. -/
inductive View.Origin (v : View) (i : ℕ) (x : Held) (res : ℤ) (k : ℕ) (z : Held) : Prop
  | kept (hk : k ≠ i) (h : v.ops k = some z)
  | reply (hk : v.ops k = none) (hx : x.type = .read) (ht : z.type = .write)
      (hc : z.clientId = x.clientId) (hfd : z.clientFd = x.clientFd)
  | own (hk : k = i) (hx : x.type ≠ .accept) (ht : z.type = x.type) (hc : z.clientId = x.clientId)
      (hfd : z.clientFd = x.clientFd)
  | connected (hk : k = i) (hx : x.type = .accept) (hres : 0 ≤ res) (ht : z.type = .read)
      (hc : z.clientId = x.clientId) (hfd : z.clientFd = res)
  | next (hk : v.ops k = none) (hx : x.type = .accept) (ht : z.type = .accept)
      (hc : z.clientId = v.nextClientId)

theorem View.Answers.origin {id : UInt64} {fd : ℤ} {ms : List Message} (ha : v.Answers id fd ms v')
    (k : ℕ) (z : Held) (hz : v'.ops k = some z) : v.ops k = some z ∨
      (v.ops k = none ∧ z.type = .write ∧ z.clientId = id ∧ z.clientFd = fd) := by
  induction ha with
  | nil v => exact .inl hz
  | @cons v v' s m ms hs _ ih =>
    rcases ih hz with hk | ⟨hk, hz'⟩
    · rw [View.answer_ops] at hk
      rcases update_eq_some_iff.mp hk with ⟨rfl, ⟨⟩⟩ | ⟨-, hk⟩
      · exact .inr ⟨hs, rfl, rfl, rfl⟩
      · exact .inl hk
    · rw [View.answer_ops] at hk
      by_cases hks : k = s.op
      · simp [hks] at hk
      · rw [Function.update_of_ne hks] at hk
        exact .inr ⟨hk, hz'⟩

theorem View.Finishes.origin {s : Scan} {k : ℕ} {z : Held} (hf : v.Finishes i x s v')
    (hi : v.ops i = some x) (hz : v'.ops k = some z) : (k ≠ i ∧ v.ops k = some z) ∨
      (k = i ∧ z.type = x.type ∧ z.clientId = x.clientId ∧ z.clientFd = x.clientFd) := by
  by_cases hki : k = i
  · subst hki
    rcases hf.ops_self hi with ⟨-, hnone⟩ | ⟨buf, hsome⟩
    · exact absurd (hnone.symm.trans hz) (by simp)
    · obtain rfl := Option.some.inj (hsome.symm.trans hz)
      exact .inr ⟨rfl, rfl, rfl, rfl⟩
  · rw [hf.ops_of_ne hki] at hz
    exact .inl ⟨hki, hz⟩

theorem View.Handles.origin (hh : v.Handles i x res v') (hi : v.ops i = some x) {k : ℕ} {z : Held}
    (hz : v'.ops k = some z) : v.Origin i x res k z := by
  have hgone : Function.update v.ops i none k = some z → v.Origin i x res k z := by
    intro hk
    rcases update_eq_some_iff.mp hk with ⟨-, ⟨⟩⟩ | ⟨hki, hk⟩
    exact .kept hki hk
  cases hh with
  | stale => exact hgone hz
  | dropped => exact hgone hz
  | @accepted cl cl' j bref buf hc hres ht hj hn hbuf =>
    rcases update_eq_some_iff.mp hz with ⟨rfl, ⟨⟩⟩ | ⟨hkj, hz⟩
    · refine .next ?_ ht rfl rfl
      by_cases hki : k = i
      · subst hki
        exact absurd ((Function.update_self k _ _).symm.trans hj) (by simp)
      · exact (Function.update_of_ne hki _ _).symm.trans hj
    · rcases update_eq_some_iff.mp hz with ⟨rfl, ⟨⟩⟩ | ⟨hki, hz⟩
      · exact .connected rfl ht hres rfl rfl rfl
      · exact .kept hki hz
  | @received cl s v₁ past hc hres ht hscan hans hfd =>
    rcases (v₁.finishes i x s past).origin (hans.op hi) hz with ⟨hki, hk⟩ | ⟨hki, ht', hc', hfd'⟩
    · rcases hans.origin k z hk with hk | ⟨hk, ht', hc', hfd'⟩
      · exact .kept hki hk
      · exact .reply hk ht ht' hc' hfd'
    · exact .own hki (by simp [ht]) ht' hc' hfd'
  | resumed hc hres ht =>
    rcases update_eq_some_iff.mp hz with ⟨rfl, ⟨⟩⟩ | ⟨hki, hz⟩
    · exact .own rfl (by simp [ht]) rfl rfl rfl
    · exact .kept hki hz
  | sent => exact hgone hz

theorem View.Answers.sq {id : UInt64} {fd : ℤ} {ms : List Message} (ha : v.Answers id fd ms v') :
    ∃ l, v'.sq = v.sq ++ l ∧ (∀ e ∈ l, v.ops e.userData = none) ∧ l.length = ms.length := by
  induction ha with
  | nil v => exact ⟨[], (List.append_nil _).symm, by simp, rfl⟩
  | @cons v v' s m ms hs _ ih =>
    obtain ⟨l, hl, hnew, hlen⟩ := ih
    refine ⟨_ :: l, by rw [hl, View.answer_sq, List.append_assoc]; rfl, ?_, congrArg (· + 1) hlen⟩
    intro e he
    rcases List.mem_cons.mp he with rfl | he
    · exact hs
    · have hn := hnew e he
      rw [View.answer_ops] at hn
      by_cases hes : e.userData = s.op
      · simp [hes] at hn
      · rwa [Function.update_of_ne hes] at hn

/-- Handling a completion only adds to the queue, for its own operation and for new
ones. -/
theorem View.Handles.sq (hh : v.Handles i x res v') :
    ∃ l, v'.sq = v.sq ++ l ∧ ∀ e ∈ l, e.userData = i ∨ v.ops e.userData = none := by
  cases hh with
  | stale => exact ⟨[], (List.append_nil _).symm, by simp⟩
  | dropped => exact ⟨[], (List.append_nil _).symm, by simp⟩
  | @accepted cl cl' j bref buf hc hres ht hj =>
    refine ⟨_, List.append_assoc .., ?_⟩
    intro e he
    simp only [List.singleton_append, List.mem_cons, List.not_mem_nil, or_false] at he
    rcases he with rfl | rfl
    · exact .inl rfl
    · by_cases hji : j = i
      · exact .inl hji
      · exact .inr ((Function.update_of_ne hji _ _).symm.trans hj)
  | @received cl s v₁ past hc hres ht hscan ha hfd =>
    obtain ⟨l, hl, hnew, -⟩ := ha.sq
    obtain ⟨l', hl', hown, -⟩ := (v₁.finishes i x s past).sq
    refine ⟨l ++ l', by rw [hl', hl, List.append_assoc], ?_⟩
    intro e he
    exact (List.mem_append.mp he).elim (fun he => .inr (hnew e he)) fun he => .inl (hown e he)
  | resumed => exact ⟨_, rfl, fun e he => .inl (by rw [List.mem_singleton.mp he])⟩
  | sent => exact ⟨[], (List.append_nil _).symm, by simp⟩

theorem View.Answers.client {id : UInt64} {fd : ℤ} {ms : List Message} (ha : v.Answers id fd ms v')
    (c : UInt64) : v'.clients c = none ↔ v.clients c = none := by
  induction ha with
  | nil v => exact Iff.rfl
  | @cons v v' s m ms hs _ ih =>
    rw [ih, View.answer_clients]
    split
    · by_cases hc : c = id
      · subst hc
        simp
      · rw [Function.update_of_ne hc]
    · rfl

/-- A descriptor is closed together with the removal of its client. Apart from this
only the next client is added to the map. -/
theorem View.Handles.clients (hh : v.Handles i x res v') :
    (v'.fds = v.fds ∧ ∀ c, v'.clients c = none ↔ v.clients c = none ∧
      (v'.nextClientId = v.nextClientId ∨ c ≠ v.nextClientId)) ∨
    (v'.fds = Function.update v.fds x.clientFd none ∧ v.fds x.clientFd ≠ none ∧
      v.clients x.clientId ≠ none ∧ v'.nextClientId = v.nextClientId ∧
      ∀ c, v'.clients c = none ↔ v.clients c = none ∨ c = x.clientId) := by
  have hdel : ∀ c, Function.update v.clients x.clientId none c = none ↔
      v.clients c = none ∨ c = x.clientId := by
    intro c
    by_cases hc : c = x.clientId <;> simp [hc]
  cases hh with
  | stale => exact .inl ⟨rfl, fun c => by simp [View.setOp]⟩
  | dropped hc hres hfd => exact .inr ⟨rfl, hfd, by simp [hc], rfl, hdel⟩
  | @accepted cl cl' j bref buf hc hres ht hj hn hbuf =>
    refine .inl ⟨?_, fun c => ?_⟩
    · simp
    · have hne : v.nextClientId + 1 ≠ v.nextClientId := by simp
      simp only [View.acceptNext_clients, View.acceptNext_nextClientId, View.connect_clients,
        View.connect_nextClientId, hne, false_or]
      by_cases hcn : c = v.nextClientId
      · simp [hcn]
      · by_cases hcx : c = x.clientId
        · subst hcx
          simp [hcn, hc]
        · simp [hcn, hcx]
  | @received cl s v₁ past hc hres ht hscan hans hfd =>
    obtain ⟨hnext, hfds, -⟩ := hans.trace
    have hnext' := (v₁.finishes i x s past).trace.1.trans hnext
    rcases (v₁.finishes i x s past).clients with ⟨h₁, h₂⟩ | ⟨h₁, h₂, hstop⟩
    · refine .inl ⟨h₂.trans hfds, fun c => ?_⟩
      rw [h₁, hans.client c]
      simp [hnext']
    · refine .inr ⟨h₂.trans (by rw [hfds]), hfd hstop, by simp [hc], hnext', fun c => ?_⟩
      rw [h₁, ← hans.client c]
      by_cases hcx : c = x.clientId <;> simp [hcx]
  | resumed => exact .inl ⟨rfl, fun c => by simp [View.resume, View.prep, View.setOp]⟩
  | sent => exact .inl ⟨rfl, fun c => by simp [View.setOp]⟩

end

/-! ## The accept on its way -/

/-- An accept is on its way, for the client entered last. -/
def View.Accepting (v : View) : Prop :=
  ∃ i x, v.ops i = some x ∧ x.type = .accept ∧ v.clients x.clientId ≠ none ∧
    x.clientId + 1 = v.nextClientId

/-- At most one accept is on its way. -/
def View.OneAccept (v : View) : Prop :=
  ∀ i j x y, v.ops i = some x → v.ops j = some y → x.type = .accept → y.type = .accept → i = j

/-- No client id was used twice. -/
def View.Unwrapped (v : View) : Prop := (enteredIds v.trace).Nodup

section
variable {v v' : View} {i : ℕ} {x : Held} {cqe : Cqe} {c : UInt64}

theorem View.Census.unwrapped_life (h : v.Census) (hu : v.Unwrapped) (c : UInt64) : v.Life c :=
  h.life c (List.nodup_iff_count_le_one.mp hu c)

theorem View.Handles.unwrapped (hh : (v.log (x.completed cqe)).Handles i x cqe.res v')
    (hu : v'.Unwrapped) : v.Unwrapped := by
  rcases hh.trace with ⟨-, l, htr, -⟩ | ⟨-, -, -, htr⟩ <;>
    rw [View.Unwrapped, htr, enteredIds_append, v.log_completed_entered, List.nodup_append] at hu <;>
    exact hu.1

theorem View.OneAccept.handles {res : ℤ} (h : v.OneAccept) (hi : v.ops i = some x)
    (hh : v.Handles i x res v') : v'.OneAccept := by
  have hkept : (∀ k z, v'.ops k = some z → z.type = .accept → v.ops k = some z) → v'.OneAccept :=
    fun hsub j k y z hy hz hyt hzt => h j k y z (hsub j y hy hyt) (hsub k z hz hzt) hyt hzt
  by_cases hx : x.type = .accept
  · cases hh with
    | received _ _ ht => exact absurd (hx.symm.trans ht) (by decide)
    | resumed _ _ ht => exact absurd (hx.symm.trans ht) (by decide)
    | sent _ _ ht => exact absurd (hx.symm.trans ht) (by decide)
    | stale =>
      refine hkept fun k z hz _ => ?_
      rcases update_eq_some_iff.mp hz with ⟨-, ⟨⟩⟩ | ⟨-, hz⟩
      exact hz
    | dropped =>
      refine hkept fun k z hz _ => ?_
      rcases update_eq_some_iff.mp hz with ⟨-, ⟨⟩⟩ | ⟨-, hz⟩
      exact hz
    | @accepted cl cl' j bref buf hc hres ht hj hn hbuf =>
      have hnew : ∀ k z, ((v.connect i x cl res).acceptNext j bref buf cl').ops k = some z →
          z.type = .accept → k = j := by
        intro k z hz hzt
        rcases update_eq_some_iff.mp hz with ⟨rfl, -⟩ | ⟨-, hz⟩
        · rfl
        rcases update_eq_some_iff.mp hz with ⟨-, ⟨⟩⟩ | ⟨hki, hz⟩
        · cases hzt
        · exact absurd (h k i z x hz hi hzt hx) hki
      exact fun k l y z hy hz hyt hzt => (hnew k y hy hyt).trans (hnew l z hz hzt).symm
  · refine hkept fun k z hz hzt => ?_
    cases hh.origin hi hz with
    | kept _ hk => exact hk
    | reply _ _ ht => exact absurd (hzt.symm.trans ht) (by decide)
    | own _ _ ht => exact absurd (ht.symm.trans hzt) hx
    | connected _ hx' => exact absurd hx' hx
    | next _ hx' => exact absurd hx' hx

theorem View.Life.connected_of (h : v.Life c) (hi : v.ops i = some x) (hx : x.clientId = c)
    (hc : v.clients c ≠ none) (ht : x.type ≠ .accept) : ∃ cl j y, v.Connected c cl j y := by
  cases h with
  | fresh hn => exact absurd hn hc
  | pending _ hj _ ht' honly =>
    obtain rfl := honly i x hi hx
    obtain rfl := Option.some.inj (hi.symm.trans hj)
    exact absurd ht' ht
  | connected h => exact ⟨_, _, _, h⟩
  | gone hn => exact absurd hn hc

theorem View.Census.fresh_next (h : v.Census)
    (hh : (v.log (x.completed cqe)).Handles i x cqe.res v') (hu : v'.Unwrapped)
    (hn : v'.nextClientId ≠ v.nextClientId) :
    v.clients v.nextClientId = none ∧ (∀ j y, v.ops j = some y → y.clientId ≠ v.nextClientId) ∧
      history v.nextClientId v.trace = [] := by
  refine (h.unwrapped_life (hh.unwrapped hu) v.nextClientId).fresh_of_count ?_
  rcases hh.trace with ⟨hnext, -⟩ | ⟨-, -, -, htr⟩
  · exact absurd hnext hn
  · rw [View.Unwrapped, htr, enteredIds_append, v.log_completed_entered, List.nodup_append] at hu
    rw [List.count_eq_zero]
    exact fun hm => hu.2.2 _ hm _ (List.mem_singleton.mpr rfl) rfl

theorem View.Accepting.handles (ha : v.Accepting) (hone : v.OneAccept) (h : v.Census)
    (hi : v.ops i = some x)
    (hacc : x.type = .accept → v.fds x.clientFd = none) (hu : v'.Unwrapped)
    (hh : (v.log (x.completed cqe)).Handles i x cqe.res v') : v'.Accepting := by
  obtain ⟨a, y, hy, hyt, hyc, hyn⟩ := ha
  have hlife := h.unwrapped_life (hh.unwrapped hu) y.clientId
  by_cases hxt : x.type = .accept
  · -- the accept itself completes: it connects its client and a new one is entered
    obtain rfl := hone i a x y hi hy hxt hyt
    obtain rfl := Option.some.inj (hi.symm.trans hy)
    cases hh with
    | stale hc => exact absurd hc hyc
    | dropped _ _ hfd => exact absurd (hacc hxt) hfd
    | received _ _ ht => exact absurd (hxt.symm.trans ht) (by decide)
    | resumed _ _ ht => exact absurd (hxt.symm.trans ht) (by decide)
    | sent _ _ ht => exact absurd (hxt.symm.trans ht) (by decide)
    | @accepted cl cl' j bref buf hc hres ht hj hn hbuf =>
      refine ⟨j, _, Function.update_self j _ _, rfl, ?_, rfl⟩
      exact ne_of_eq_of_ne (Function.update_self v.nextClientId _ _) (by simp)
  · -- another client's completion leaves the pending client alone
    have hxc : x.clientId ≠ y.clientId := by
      intro he
      cases hlife with
      | fresh hc => exact hyc hc
      | pending _ hj' hxc' ht' honly' =>
        obtain rfl := honly' i x hi he
        obtain rfl := Option.some.inj (hi.symm.trans hj')
        exact hxt ht'
      | connected h => exact h.type_ne_accept hy rfl hyt
      | gone hc => exact hyc hc
    have hnext : v'.nextClientId = v.nextClientId := by
      rcases hh.trace with ⟨hnext, -⟩ | ⟨-, ht, -⟩
      · exact hnext
      · exact absurd ht hxt
    have hag := (v.agree_log (e := x.completed cqe) hxc).trans
      (View.Handles.agree hh hi hxc fun hne => absurd hnext hne)
    exact ⟨a, y, (hag.ops a y rfl).mpr hy, hyt, by rwa [hag.client], by rwa [hnext]⟩

end

/-! ## Who holds which descriptor -/

/-- Operation `i` holds the descriptor `fd`. -/
inductive World.Holds (w : World) (v : View) (i : ℕ) (fd : ℤ) : Prop
  | client {x : Held} (hx : v.ops i = some x) (ht : x.type = .read)
      (hc : v.clients x.clientId ≠ none) (hfd : x.clientFd = fd)
  | accepted {x : Held} {t : Ticket} {data : List UInt8} (ht : t ∈ w.outstanding) (hid : t.id = i)
      (hx : v.ops i = some x) (htype : x.type = .accept) (hst : t.stage = .done fd data)
      (hfd : 0 ≤ fd)

structure World.Descriptors (w : World) (v : View) : Prop where
  conn : ∀ i fd, w.Holds v i fd → ∃ k, v.fds fd = some (.conn k)
  inj : ∀ i j fd, w.Holds v i fd → w.Holds v j fd → i = j

/-- Fewer holders, of descriptors that stayed open. -/
theorem World.Descriptors.mono {w w' : World} {v v' : View} (h : w.Descriptors v)
    (hsub : ∀ i fd, w'.Holds v' i fd → w.Holds v i fd)
    (hfds : ∀ i fd, w'.Holds v' i fd → v'.fds fd = v.fds fd) : w'.Descriptors v' where
  conn := fun i fd hi => by
    rw [hfds i fd hi]
    exact h.conn i fd (hsub i fd hi)
  inj := fun i j fd hi hj => h.inj i j fd (hsub i fd hi) (hsub j fd hj)

section
variable {w w' : World} {v v' : View} {c : Cqe} {x : Held} {k : ℕ} {fd : ℤ}

/-- Only the tickets of accepts that are done matter for who holds what. -/
theorem World.Holds.of_done (h : w'.Holds v' k fd) (hops : v'.ops = v.ops) (hcl : v'.clients = v.clients)
    (hout : ∀ t ∈ w'.outstanding, ∀ res data, t.stage = .done res data → t ∈ w.outstanding) :
    w.Holds v k fd := by
  cases h with
  | client hx ht hc hfd =>
    rw [hops] at hx
    rw [hcl] at hc
    exact .client hx ht hc hfd
  | accepted ht hid hx htype hst hfd =>
    rw [hops] at hx
    exact .accepted (hout _ ht _ _ hst) hid hx htype hst hfd

theorem World.Holds.handles (hk : w'.Holds v' k fd) (hcen : v.Census) (hw : w.Owned v)
    (hout : ∀ t ∈ w'.outstanding, t ∈ w.outstanding) (hc : c.ticket ∈ w.outstanding)
    (hi : v.ops c.sqe.userData = some x) (hu : v'.Unwrapped)
    (hh : (v.log (x.completed c)).Handles c.sqe.userData x c.res v') : w.Holds v k fd := by
  have hclient : ∀ k z, v.ops k = some z → v'.clients z.clientId ≠ none →
      v.clients z.clientId ≠ none := by
    intro k z hk hz hn
    rcases hh.clients with ⟨-, hcl⟩ | ⟨-, -, -, -, hcl⟩
    · by_cases hnext : v'.nextClientId = v.nextClientId
      · exact hz ((hcl _).mpr ⟨hn, .inl hnext⟩)
      · have hfr := (hcen.fresh_next hh hu hnext).2.1 k z hk
        exact hz ((hcl _).mpr ⟨hn, .inr hfr⟩)
    · exact hz ((hcl _).mpr (.inl hn))
  cases hk with
  | client hz ht hcl hfd =>
    cases hh.origin hi hz with
    | kept _ hk => exact .client hk ht (hclient _ _ hk hcl) hfd
    | reply _ _ ht' => exact absurd (ht.symm.trans ht') (by decide)
    | own hk hx ht' hc' hfd' =>
      subst hk
      rw [hc'] at hcl
      exact .client hi (ht'.symm.trans ht) (hclient _ _ hi hcl) (hfd'.symm.trans hfd)
    | connected hk hx hres ht' hc' hfd' =>
      subst hk
      exact .accepted hc rfl hi hx (congrArg (Stage.done · c.data) (hfd'.symm.trans hfd))
        (by rw [← hfd, hfd']; exact hres)
    | next _ _ ht' => exact absurd (ht.symm.trans ht') (by decide)
  | @accepted z t data ht hid hz htype hst hfd =>
    cases hh.origin hi hz with
    | kept _ hk => exact .accepted (hout t ht) hid hk htype hst hfd
    | reply _ _ ht' => exact absurd (htype.symm.trans ht') (by decide)
    | own _ hx ht' => exact absurd (ht'.symm.trans htype) hx
    | connected _ _ _ ht' => exact absurd (htype.symm.trans ht') (by decide)
    | next hk =>
      obtain ⟨y, hy, -⟩ := hw.owns.held (List.mem_append_right _ (hout t ht))
      exact absurd ((hid ▸ hy).symm.trans hk) (by simp)

theorem World.Holds.fds_handles (hk : w'.Holds v' k fd) (h : w.Descriptors v) (hcen : v.Census)
    (hw : w.Owned v) (hout : ∀ t ∈ w'.outstanding, t ∈ w.outstanding) (hc : c.ticket ∈ w.outstanding)
    (hi : v.ops c.sqe.userData = some x) (hu : v'.Unwrapped)
    (hh : (v.log (x.completed c)).Handles c.sqe.userData x c.res v') : v'.fds fd = v.fds fd := by
  have hk₀ := hk.handles hcen hw hout hc hi hu hh
  rcases hh.clients with ⟨hfds, -⟩ | ⟨hfds, hopen, hmap, -, hcl⟩
  · rw [hfds]
    rfl
  have hx : x.type ≠ .accept := fun ht => hopen (hcen.accept hw hi ht)
  obtain ⟨cl, j, y, hconn⟩ := (hcen.unwrapped_life (hh.unwrapped hu) x.clientId).connected_of hi rfl
    hmap hx
  rw [hfds, Function.update_of_ne]
  · rfl
  rintro rfl
  have hj : w.Holds v j x.clientFd :=
    .client hconn.op hconn.type (by rw [hconn.clientId]; exact hmap)
      ((hconn.fd j y hconn.op hconn.clientId).trans (hconn.fd _ x hi rfl).symm)
  obtain rfl := h.inj k j _ hk₀ hj
  have hgone : v'.clients x.clientId = none := (hcl _).mpr (.inr rfl)
  cases hk with
  | @client z hz ht hmap' hfd =>
    refine hmap' ?_
    cases hh.origin hi hz with
    | kept _ hk =>
      obtain rfl := Option.some.inj (hconn.op.symm.trans hk)
      rw [hconn.clientId, hgone]
    | reply hk => exact absurd (hconn.op.symm.trans hk) (by simp)
    | own _ _ _ hc' => rw [hc', hgone]
    | connected _ hx' => exact absurd hx' hx
    | next hk => exact absurd (hconn.op.symm.trans hk) (by simp)
  | @accepted z t data ht hid hz htype hst hfd =>
    cases hh.origin hi hz with
    | kept _ hk =>
      obtain rfl := Option.some.inj (hconn.op.symm.trans hk)
      exact absurd (hconn.type.symm.trans htype) (by decide)
    | reply hk => exact absurd (hconn.op.symm.trans hk) (by simp)
    | own _ hx' ht' => exact absurd (ht'.symm.trans htype) hx'
    | connected _ hx' => exact absurd hx' hx
    | next hk => exact absurd (hconn.op.symm.trans hk) (by simp)

theorem World.Descriptors.handles (h : w.Descriptors v) (hcen : v.Census) (hw : w.Owned v)
    (hout : ∀ t ∈ w'.outstanding, t ∈ w.outstanding) (hc : c.ticket ∈ w.outstanding)
    (hi : v.ops c.sqe.userData = some x) (hu : v'.Unwrapped)
    (hh : (v.log (x.completed c)).Handles c.sqe.userData x c.res v') : w'.Descriptors v' :=
  h.mono (fun _ _ hk => hk.handles hcen hw hout hc hi hu hh)
    fun _ _ hk => hk.fds_handles h hcen hw hout hc hi hu hh

end

/-! ## Runs -/

section
variable {w w' : World} {v v' : View}

theorem View.perform_ops {sqe : Sqe} {res : ℤ} {data : List UInt8} {k i : ℕ} {y : Held}
    (hy : (v.perform sqe res data k).ops i = some y) : ∃ buf, v.ops i = some { y with buf := buf } := by
  unfold View.perform at hy
  cases hreq : sqe.request with
  | accept fd info =>
    rw [hreq] at hy
    by_cases hres : res < 0
    · rw [if_pos hres] at hy
      exact ⟨y.buf, hy⟩
    · rw [if_neg hres] at hy
      exact ⟨y.buf, hy⟩
  | send => rw [hreq] at hy; exact ⟨y.buf, hy⟩
  | recv fd bref off len =>
    rw [hreq] at hy
    rcases update_eq_some_iff.mp hy with ⟨rfl, hy'⟩ | ⟨-, hy'⟩
    · obtain ⟨x, hx, rfl⟩ := Option.map_eq_some_iff.mp hy'
      exact ⟨x.buf, hx⟩
    · exact ⟨y.buf, hy'⟩

theorem View.perform_held {i : ℕ} {x : Held} (hx : v.ops i = some x) (sqe : Sqe) (res : ℤ)
    (data : List UInt8) (k : ℕ) :
    ∃ buf, (v.perform sqe res data k).ops i = some { x with buf := buf } := by
  unfold View.perform
  cases sqe.request with
  | accept fd info =>
    by_cases hres : res < 0
    · exact ⟨x.buf, by simpa only [if_pos hres] using hx⟩
    · exact ⟨x.buf, by simpa only [if_neg hres] using hx⟩
  | send => exact ⟨x.buf, hx⟩
  | recv fd bref off len =>
    by_cases hi : i = sqe.userData
    · subst hi
      exact ⟨writeAt x.buf off data, by simp [View.setOp, hx]⟩
    · exact ⟨x.buf, by simpa [View.setOp, hi] using hx⟩

theorem View.perform_write {sqe : Sqe} {res : ℤ} {data : List UInt8} {k i : ℕ} {x : Held}
    (hfit : ∀ x, v.ops sqe.userData = some x → sqe.request.Fits x) (ht : x.type = .write) :
    (v.perform sqe res data k).ops i = some x ↔ v.ops i = some x := by
  unfold View.perform
  cases hreq : sqe.request with
  | accept fd info => by_cases hres : res < 0 <;> simp only [hres, if_true, if_false]
  | send => rfl
  | recv fd bref off len =>
    rw [hreq] at hfit
    simp only [View.setOp]
    by_cases hi : i = sqe.userData
    · subst hi
      rw [Function.update_self, Option.map_eq_some_iff]
      constructor
      · rintro ⟨y, hy, rfl⟩
        exact absurd ((hfit y hy).1.symm.trans ht) (by decide)
      · exact fun hx => absurd ((hfit x hx).1.symm.trans ht) (by decide)
    · rw [Function.update_of_ne hi]

theorem View.perform_clients (v : View) (sqe : Sqe) (res : ℤ) (data : List UInt8) (k : ℕ) :
    (v.perform sqe res data k).clients = v.clients := by
  unfold View.perform
  split
  · split <;> rfl
  · rfl
  · rfl

/-- A successful accept opens its descriptor; nothing else opens one. -/
theorem View.perform_fds (v : View) {sqe : Sqe} {res : ℤ} {data : List UInt8} (k : ℕ)
    (hadm : sqe.request.Admits v.fds res data) :
    (v.perform sqe res data k).fds = v.fds ∧ (∀ fd info, sqe.request = .accept fd info → res < 0) ∨
      (v.perform sqe res data k).fds = Function.update v.fds res (some (.conn k)) ∧
        v.fds res = none ∧ 0 ≤ res ∧ ∃ fd info, sqe.request = .accept fd info := by
  unfold View.perform
  cases hreq : sqe.request with
  | accept fd info =>
    rw [hreq] at hadm
    by_cases hres : res < 0
    · simp only [if_pos hres]
      exact .inl ⟨trivial, fun _ _ _ => hres⟩
    · simp only [if_neg hres]
      exact .inr ⟨trivial, hadm.2 (by omega), by omega, fd, info, rfl⟩
  | recv => exact .inl ⟨rfl, by simp⟩
  | send => exact .inl ⟨rfl, by simp⟩

theorem World.mem_outstanding_execute {i : ℕ} {s : Submitted} {res : ℤ} {data : List UInt8}
    {t : Ticket} (ht : t ∈ World.outstanding { w.perform s res data with
      inflight := w.inflight.eraseIdx i, executed := w.executed ++ [⟨s.sqe, res, data⟩] }) :
    t ∈ w.outstanding ∨ t = ⟨s.sqe, .done res data⟩ := by
  simp only [World.outstanding, World.perform_cq, List.map_append, List.mem_append,
    List.map_singleton, List.mem_singleton] at ht ⊢
  rcases ht with ht | (ht | ht) | ht
  · exact .inl (.inl ((List.Sublist.map _ (List.eraseIdx_sublist _ _)).mem ht))
  · exact .inl (.inr (.inl ht))
  · exact .inr ht
  · exact .inl (.inr (.inr ht))

/-- After an execution the holders are those of before and a successful accept. -/
theorem World.Holds.execute {i : ℕ} {s : Submitted} {res : ℤ} {data : List UInt8} (hw : w.Owned v)
    (hs : w.inflight[i]? = some s) {k : ℕ} {fd : ℤ}
    (h : World.Holds { w.perform s res data with
      inflight := w.inflight.eraseIdx i, executed := w.executed ++ [⟨s.sqe, res, data⟩] }
      (v.perform s.sqe res data w.conns.length) k fd) :
    w.Holds v k fd ∨ (k = s.sqe.userData ∧ fd = res ∧ 0 ≤ res ∧
      ∃ fd info, s.sqe.request = .accept fd info) := by
  cases h with
  | client hx ht hc hfd =>
    obtain ⟨buf, hx'⟩ := View.perform_ops hx
    rw [View.perform_clients] at hc
    exact .inl (.client hx' ht hc hfd)
  | accepted ht hid hx htype hst hfd =>
    obtain ⟨buf, hx'⟩ := View.perform_ops hx
    rcases World.mem_outstanding_execute ht with ht | rfl
    · exact .inl (.accepted ht hid hx' htype hst hfd)
    · cases hst
      subst hid
      have hm : s.ticket ∈ queue v.sq ++ w.outstanding := by
        have hmem := List.mem_of_getElem? hs
        simp only [World.outstanding, List.mem_append, List.mem_map]
        exact .inr (.inl ⟨s, hmem, rfl⟩)
      have hfit := (hw.owns.fits _ hm _ hx').1
      refine .inr ⟨rfl, rfl, hfd, ?_⟩
      cases hreq : s.sqe.request with
      | accept fd info => exact ⟨fd, info, rfl⟩
      | recv => simp [Submitted.ticket, hreq, Request.Fits, htype] at hfit
      | send => simp [Submitted.ticket, hreq, Request.Fits, htype] at hfit

theorem World.Descriptors.execute {i : ℕ} {s : Submitted} {res : ℤ} {data : List UInt8}
    (h : w.Descriptors v) (hw : w.Owned v) (hs : w.inflight[i]? = some s)
    (hadm : s.sqe.request.Admits v.fds res data) :
    World.Descriptors { w.perform s res data with
      inflight := w.inflight.eraseIdx i, executed := w.executed ++ [⟨s.sqe, res, data⟩] }
      (v.perform s.sqe res data w.conns.length) := by
  rcases v.perform_fds w.conns.length hadm with ⟨hfds, hfail⟩ | ⟨hfds, hnone, -, -⟩
  · refine h.mono ?_ fun _ fd _ => by rw [hfds]
    intro k fd hk
    rcases hk.execute hw hs with hk | ⟨-, -, hres, fd', info, hreq⟩
    · exact hk
    · have hneg := hfail fd' info hreq
      omega
  · have hne : ∀ k fd, w.Holds v k fd → fd ≠ res := by
      rintro k fd hk rfl
      obtain ⟨n, hn⟩ := h.conn k fd hk
      exact absurd (hn.symm.trans hnone) (by simp)
    refine ⟨?_, ?_⟩
    · intro k fd hk
      rcases hk.execute hw hs with hk | ⟨-, rfl, -⟩
      · rw [hfds, Function.update_of_ne (hne k fd hk)]
        exact h.conn k fd hk
      · exact ⟨_, by rw [hfds, Function.update_self]⟩
    · intro j k fd hj hk
      rcases hj.execute hw hs with hj' | ⟨rfl, rfl, -⟩
      · rcases hk.execute hw hs with hk' | ⟨-, hfd, -⟩
        · exact h.inj j k fd hj' hk'
        · exact absurd hfd (hne j fd hj')
      · rcases hk.execute hw hs with hk' | ⟨rfl, -⟩
        · exact absurd rfl (hne k _ hk')
        · rfl

/-- What holds in every state of a run. -/
structure World.Serving (w : World) (v : View) : Prop where
  census : v.Census
  conns : ∀ fd k, v.fds fd = some (.conn k) → k < w.conns.length
  conn_inj : ∀ fd fd' k, v.fds fd = some (.conn k) → v.fds fd' = some (.conn k) → fd = fd'
  oneAccept : v.OneAccept
  accepting : v.Unwrapped → v.Accepting
  descriptors : v.Unwrapped → w.Descriptors v

theorem World.perform_conns_length (w : World) (s : Submitted) (res : ℤ) (data : List UInt8) :
    w.conns.length ≤ (w.perform s res data).conns.length ∧
      ((∃ fd info, s.sqe.request = .accept fd info) → 0 ≤ res →
        w.conns.length < (w.perform s res data).conns.length) := by
  unfold World.perform
  cases s.sqe.request with
  | accept fd info =>
    by_cases hres : res < 0
    · simp only [if_pos hres]
      exact ⟨le_rfl, by omega⟩
    · simp [if_neg hres]
  | recv => simp
  | send =>
    simp only
    split <;> simp

theorem World.mem_submit {t : Ticket} :
    t ∈ w.submit.outstanding ↔ t ∈ w.outstanding ∨ ∃ e ∈ w.srv.ring.sq, t = (w.srv.resolve e).ticket := by
  simp only [World.outstanding, World.submit, List.map_append, List.mem_append, List.map_map,
    List.mem_map, Function.comp_apply]
  constructor
  · rintro ((ht | ⟨e, he, rfl⟩) | ht)
    · exact .inl (.inl ht)
    · exact .inr ⟨e, he, rfl⟩
    · exact .inl (.inr ht)
  · rintro ((ht | ht) | ⟨e, he, rfl⟩)
    · exact .inl (.inl ht)
    · exact .inr ht
    · exact .inl (.inr ⟨e, he, rfl⟩)

theorem World.done_of_submit {t : Ticket} {res : ℤ} {data : List UInt8}
    (ht : t ∈ w.submit.outstanding) (hst : t.stage = .done res data) : t ∈ w.outstanding := by
  rcases World.mem_submit.mp ht with ht | ⟨e, -, rfl⟩
  · exact ht
  · cases hst

theorem World.Serving.restage (h : w.Serving v) (hcen : v'.Census) (hops : v'.ops = v.ops)
    (hcl : v'.clients = v.clients) (hfds : v'.fds = v.fds) (hnext : v'.nextClientId = v.nextClientId)
    (htr : v'.trace = v.trace) (hconns : w'.conns = w.conns)
    (hout : ∀ t ∈ w'.outstanding, ∀ res data, t.stage = .done res data → t ∈ w.outstanding) :
    w'.Serving v' where
  census := hcen
  conns := fun fd k hk => by
    rw [hfds] at hk
    rw [hconns]
    exact h.conns fd k hk
  conn_inj := by
    rw [hfds]
    exact h.conn_inj
  oneAccept := by
    rw [View.OneAccept, hops]
    exact h.oneAccept
  accepting := by
    rw [View.Unwrapped, View.Accepting, htr, hops, hcl, hnext]
    exact h.accepting
  descriptors := fun hu => by
    rw [View.Unwrapped, htr] at hu
    exact (h.descriptors hu).mono (fun _ _ hk => hk.of_done hops hcl hout) fun _ _ _ => by rw [hfds]

/-- The kernel executes an entry: a new connection has a number no other one has. -/
theorem World.Serving.execute {i : ℕ} {s : Submitted} {res : ℤ} {data : List UInt8} (h : w.Serving v)
    (hw : w.Owned v) (hs : w.inflight[i]? = some s) (hadm : s.sqe.request.Admits v.fds res data)
    (hcen : (v.perform s.sqe res data w.conns.length).Census) :
    World.Serving { w.perform s res data with
      inflight := w.inflight.eraseIdx i, executed := w.executed ++ [⟨s.sqe, res, data⟩] }
      (v.perform s.sqe res data w.conns.length) := by
  have htr := v.perform_trace s.sqe res data w.conns.length
  obtain ⟨hlen, hlen'⟩ := w.perform_conns_length s res data
  refine ⟨hcen, ?_, ?_, ?_, ?_, ?_⟩
  · intro fd k hfd
    rcases v.perform_fds w.conns.length hadm with ⟨he, -⟩ | ⟨he, -, hres, hreq⟩
    · rw [he] at hfd
      exact (h.conns fd k hfd).trans_le hlen
    · rw [he] at hfd
      rcases update_eq_some_iff.mp hfd with ⟨-, ⟨⟩⟩ | ⟨-, hfd⟩
      · exact hlen' hreq hres
      · exact (h.conns fd k hfd).trans_le hlen
  · intro fd fd' k hfd hfd'
    rcases v.perform_fds w.conns.length hadm with ⟨he, -⟩ | ⟨he, -, -, -⟩
    · rw [he] at hfd hfd'
      exact h.conn_inj fd fd' k hfd hfd'
    · rw [he] at hfd hfd'
      rcases update_eq_some_iff.mp hfd with ⟨rfl, ⟨⟩⟩ | ⟨-, h₁⟩ <;>
        rcases update_eq_some_iff.mp hfd' with ⟨rfl, hk⟩ | ⟨-, h₂⟩
      · rfl
      · exact absurd (h.conns fd' _ h₂) (lt_irrefl _)
      · cases hk
        exact absurd (h.conns fd _ h₁) (lt_irrefl _)
      · exact h.conn_inj fd fd' k h₁ h₂
  · intro j k y z hy hz hyt hzt
    obtain ⟨_, hy'⟩ := View.perform_ops hy
    obtain ⟨_, hz'⟩ := View.perform_ops hz
    exact h.oneAccept j k _ _ hy' hz' hyt hzt
  · intro hu
    rw [View.Unwrapped, htr] at hu
    obtain ⟨a, y, hy, hyt, hyc, hyn⟩ := h.accepting hu
    obtain ⟨buf, hy'⟩ := View.perform_held hy s.sqe res data w.conns.length
    refine ⟨a, _, hy', hyt, by rwa [View.perform_clients], hyn.trans ?_⟩
    exact (v.perform_nextClientId s.sqe res data w.conns.length).symm
  · intro hu
    rw [View.Unwrapped, htr] at hu
    exact (h.descriptors hu).execute hw hs hadm

/-- Handling a completion opens no connection. -/
theorem World.Serving.handles (h : w.Serving v) (hw : w.Owned v) (hcen : v'.Census)
    (hconns : w'.conns = w.conns) (hout : ∀ t ∈ w'.outstanding, t ∈ w.outstanding)
    (hc : c.ticket ∈ w.outstanding) (hx : v.ops c.sqe.userData = some x)
    (hh : (v.log (x.completed c)).Handles c.sqe.userData x c.res v') : w'.Serving v' := by
  have hsub : ∀ fd k, v'.fds fd = some (.conn k) → v.fds fd = some (.conn k) := by
    intro fd k hfd
    rcases hh.fds with he | he
    · rwa [he] at hfd
    · rw [he] at hfd
      rcases update_eq_some_iff.mp hfd with ⟨-, ⟨⟩⟩ | ⟨-, hfd⟩
      exact hfd
  refine ⟨hcen, fun fd k hfd => hconns ▸ h.conns fd k (hsub fd k hfd),
    fun fd fd' k hfd hfd' => h.conn_inj fd fd' k (hsub fd k hfd) (hsub fd' k hfd'), ?_, ?_, ?_⟩
  · exact h.oneAccept.handles (v := v.log (x.completed c)) hx hh
  · exact fun hu => (h.accepting (hh.unwrapped hu)).handles h.oneAccept h.census hx
      (h.census.accept hw hx) hu hh
  · exact fun hu => (h.descriptors (hh.unwrapped hu)).handles h.census hw hout hc hx hu hh

theorem World.Serving.moves {a : Action} (h : w.Serving v) (hw : w.Owned v)
    (hm : w.Moves v a w' v') : w'.Serving v' := by
  have hcen := h.census.moves hw hm
  cases hm with
  | execute hs hadm => exact h.execute hw hs hadm hcen
  | post hc =>
    exact h.restage hcen rfl rfl rfl rfl rfl rfl fun t ht _ _ _ =>
      (World.outstanding_post hc).mem_iff.mpr ht
  | submit hpc =>
    exact h.restage hcen rfl rfl rfl rfl rfl rfl fun t ht _ _ hst => World.done_of_submit ht hst
  | turn hpc => exact h.restage hcen rfl rfl rfl rfl rfl rfl fun t ht _ _ _ => ht
  | @handle junk pc c cq srv x v' hpc hcq hsrv hx hh =>
    refine h.handles hw hcen rfl ?_ ?_ hx hh
    · intro t ht
      exact (World.outstanding_handle hcq).mem_iff.mpr (List.mem_cons_of_mem _ ht)
    · exact (World.outstanding_handle hcq).mem_iff.mpr List.mem_cons_self

theorem World.Serving.start (srv : Server) (serverFd : ℤ) (hfd : 0 ≤ serverFd) (j bref : ℕ)
    (buf : List UInt8) (cl : Client) : World.Serving ⟨srv, [], [], [], [], .submit⟩
      ((View.initial serverFd).acceptNext j bref buf cl) := by
  have hconn : ∀ fd k, (View.initial serverFd).fds fd ≠ some (.conn k) := by
    intro fd k hfd
    by_cases he : fd = serverFd <;> simp [View.initial, he] at hfd
  have hops : ∀ k y, ((View.initial serverFd).acceptNext j bref buf cl).ops k = some y →
      k = j ∧ y.type = .accept := by
    intro k y hk
    rcases update_eq_some_iff.mp hk with ⟨rfl, ⟨⟩⟩ | ⟨-, ⟨⟩⟩
    exact ⟨rfl, rfl⟩
  have hnone : ∀ i fd, ¬ World.Holds ⟨srv, [], [], [], [], .submit⟩
      ((View.initial serverFd).acceptNext j bref buf cl) i fd := by
    intro i fd hi
    cases hi with
    | client hx ht => exact absurd ((hops _ _ hx).2.symm.trans ht) (by decide)
    | accepted ht => simp [World.outstanding] at ht
  refine ⟨View.Census.start serverFd hfd j bref buf cl, fun fd k h => absurd h (hconn fd k),
    fun fd _ k h => absurd h (hconn fd k), ?_, fun _ => ?_, fun _ => ?_⟩
  · exact fun k l y z hy hz _ _ => (hops k y hy).1.trans (hops l z hz).1.symm
  · refine ⟨j, _, Function.update_self j _ _, rfl, ?_, rfl⟩
    simp
  · exact ⟨fun i fd h => absurd h (hnone i fd), fun i _ fd h => absurd h (hnone i fd)⟩

theorem Run.serving {ok : World → Action → Prop} (hr : Run ok w) : ∃ v, w.Owned v ∧ w.Serving v := by
  refine Run.induct ?_ ?_ hr
  · intro srv serverFd j bref buf cl hfd _ _
    exact World.Serving.start srv serverFd hfd j bref buf cl
  · intro w v a w' v' hw h _ hm _
    exact h.moves hw hm

end

end Caht
