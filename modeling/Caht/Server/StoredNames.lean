import Mathlib.Logic.Relation
import Caht.Server.Pipelining

/-! # The user names in the client map

An entry of the client map keeps its user name as long as its client is connected. A
recycled entry starts with the zeros of `client_map_add_free`, a new one with the bytes
`malloc` returns, which nothing sets: they are the name of the client until it sends
one. Whether all names are well formed is decided by the first of these bytes.
-/

namespace Caht
open Library Protocol

/-- What a line of the log makes of the name accepted for the client so far. -/
def nameAfter (id : UInt64) (name : Option (List UInt8)) : Event → Option (List UInt8)
  | .entered c => if c = id then none else name
  | .handled c msgt _ payload =>
    if c = id ∧ msgt = MessageType.setUsername.code ∧ ValidName payload then some payload else name
  | _ => name

/-- The last name accepted on the connection of the client, if any was. -/
def lastAccepted (id : UInt64) (trace : List Event) : Option (List UInt8) :=
  trace.foldl (nameAfter id) none

/-- An array of 16 bytes that ends a C string: the name, or the empty string. -/
structure Named (username : List UInt8) (name : Option (List UInt8)) : Prop where
  size : username.length = 16
  terminated : 0 ∈ username
  string : cString username = name.getD []
  valid : ∀ s ∈ name, ValidName s

/-- The names in the client map are those accepted. -/
def World.NamesOk (w : World) : Prop :=
  ∀ id n, w.srv.info id = some n → Named n.username (lastAccepted id w.srv.trace)

/-- A block whose user name starts with its end. -/
def ClientInfo.Blank (n : ClientInfo) : Prop := n.username.length = 16 ∧ n.username.head? = some 0

/-- The next step of the server handles the accept of a client in the map, and there is
no entry to recycle for the next one. -/
def World.Allocates (w : World) : Prop :=
  (∃ pc, w.pc.Handling pc) ∧ ∃ cqe ∈ w.cq.head?, ∃ o ∈ w.op cqe.sqe.userData,
    o.type = .accept ∧ 0 ≤ cqe.res ∧ w.srv.info o.clientId ≠ none ∧ w.srv.clients.free = []

/-- A block that is allocated for the client map is blank. -/
def World.GetsBlank (w : World) : Action → Prop
  | .serve junk => w.Allocates → junk.info.Blank
  | _ => True

/-- The worlds after some steps, each of which meets `GetsBlank`. -/
def World.RunsTo : World → World → Prop :=
  Relation.ReflTransGen fun w w' => ∃ a, w.GetsBlank a ∧ w.step a = some w'

/-! ## Names in the log -/

section
variable {id : UInt64} {t l : List Event}

theorem lastAccepted_append : lastAccepted id (t ++ l) = l.foldl (nameAfter id) (lastAccepted id t) :=
  List.foldl_append ..

theorem nameAfter_of_ne {e : Event} (h : e.clientId ≠ id) (name : Option (List UInt8)) :
    nameAfter id name e = name := by
  cases e with
  | entered => exact if_neg h
  | handled => exact if_neg fun hc => h hc.1
  | completed => rfl
  | username => rfl
  | queued => rfl
  | closed => rfl

theorem lastAccepted_append_of_ne (h : ∀ e ∈ l, e.clientId ≠ id) :
    lastAccepted id (t ++ l) = lastAccepted id t := by
  rw [lastAccepted_append]
  induction l with
  | nil => rfl
  | cons e l ih =>
    rw [List.foldl_cons, nameAfter_of_ne (h e List.mem_cons_self)]
    exact ih fun e' he' => h e' (List.mem_cons_of_mem _ he')

theorem lastAccepted_entered : lastAccepted id (t ++ [.entered id]) = none := by
  rw [lastAccepted_append]
  exact if_pos rfl

theorem lastAccepted_events {m : Message} (hset : m.msgt = MessageType.setUsername.code) (op : ℕ) :
    lastAccepted id (t ++ m.events id op) =
      if ValidName m.payload then some m.payload else lastAccepted id t := by
  rw [lastAccepted_append, Message.events]
  by_cases hv : ValidName m.payload
  · simp [(judge_eq_none_iff _).mpr hv, hv, nameAfter, hset]
  · have hj : judge m.payload ≠ none := fun hj => hv ((judge_eq_none_iff _).mp hj)
    simp [hj, hv, nameAfter]

end

/-! ## Names in an entry -/

theorem Named.blank {n : ClientInfo} (h : n.Blank) : Named n.username none := by
  obtain ⟨hlen, hhead⟩ := h
  obtain ⟨l, hl⟩ := List.head?_eq_some_iff.mp hhead
  rw [hl] at hlen ⊢
  exact ⟨hlen, List.mem_cons_self, rfl, by simp⟩

theorem named_none_iff {n : ClientInfo} : Named n.username none ↔ n.Blank := by
  refine ⟨fun h => ⟨h.size, ?_⟩, Named.blank⟩
  have hne := h.size
  have hstr := h.string
  cases hu : n.username with
  | nil => simp [hu] at hne
  | cons b l =>
    rw [hu, cString, List.takeWhile_cons] at hstr
    split at hstr
    · cases hstr
    · rename_i hb
      simpa using hb

theorem Named.zero : Named (List.replicate 16 0) none := ⟨rfl, by decide, rfl, by simp⟩

theorem Named.store {username name : List UInt8} (h : username.length = 16) (hv : ValidName name) :
    Named (writeAt (writeAt username 0 name) name.length [0]) (some name) := by
  have hle := hv.1.2
  have hlen : (writeAt username 0 name).length = 16 := by
    rw [writeAt_length _ _ _ (by omega), h]
  refine ⟨?_, ?_, cString_store _ _ ((usernameValid_iff _).mpr hv.2), ?_⟩
  · rw [writeAt_length _ _ _ (by rw [hlen, List.length_singleton]; omega), hlen]
  · simp [writeAt]
  · rintro s ⟨⟩
    exact hv

/-! ## Steps of the view -/

def View.NamesOk (v : View) : Prop :=
  ∀ id c, v.clients id = some c → Named c.username (lastAccepted id v.trace)

section
variable {v v' : View} {i : ℕ} {x : Held} {l : List Event}

theorem World.Owned.namesOk_iff {w : World} (hw : w.Owned v) : w.NamesOk ↔ v.NamesOk := by
  constructor
  · intro h id c hc
    have hn := h id ⟨id, c.fd, c.addr, c.addrLen, c.username, none⟩ (by rw [hw.models.info, hc]; rfl)
    rwa [← hw.models.trace] at hn
  · intro h id n hn
    rw [hw.models.info] at hn
    obtain ⟨c, hc, rfl⟩ := Option.map_eq_some_iff.mp hn
    rw [← hw.models.trace]
    exact h id c hc

theorem View.NamesOk.remove (h : v.NamesOk) {k : UInt64} (htr : v'.trace = v.trace ++ l)
    (hl : ∀ e ∈ l, e.clientId = k) (hcl : v'.clients = Function.update v.clients k none) :
    v'.NamesOk := by
  intro id c hc
  rw [hcl] at hc
  rcases update_eq_some_iff.mp hc with ⟨-, ⟨⟩⟩ | ⟨hne, hc⟩
  rw [htr, lastAccepted_append_of_ne fun e he => (hl e he).trans_ne hne.symm]
  exact h id c hc

theorem View.NamesOk.answer (h : v.NamesOk) (s : Slot) (k : UInt64) (fd : ℤ) {m : Message}
    (hset : m.msgt = MessageType.setUsername.code) : (v.answer s k fd m).NamesOk := by
  have hj := judge_eq_none_iff m.payload
  intro id c hc
  rw [View.answer_clients] at hc
  rw [View.answer_trace]
  by_cases hid : id = k
  · subst hid
    rw [lastAccepted_events hset]
    by_cases hv : ValidName m.payload
    · rw [if_pos (hj.mpr hv), Function.update_self] at hc
      obtain ⟨c₀, hc₀, rfl⟩ := Option.map_eq_some_iff.mp hc
      rw [if_pos hv]
      exact Named.store (h id c₀ hc₀).size hv
    · rw [if_neg (fun hn => hv (hj.mp hn))] at hc
      rw [if_neg hv]
      exact h id c hc
  · rw [lastAccepted_append_of_ne fun e he => (Message.events_clientId he).trans_ne (Ne.symm hid)]
    have hold : v.clients id = some c := by
      split at hc
      · rwa [Function.update_of_ne hid] at hc
      · exact hc
    exact h id c hold

theorem View.Answers.namesOk {k : UInt64} {fd : ℤ} {ms : List Message} (ha : v.Answers k fd ms v')
    (hset : ∀ m ∈ ms, m.msgt = MessageType.setUsername.code) (h : v.NamesOk) : v'.NamesOk := by
  induction ha with
  | nil => exact h
  | @cons v v' s m ms hs _ ih =>
    exact ih (fun m' hm' => hset m' (List.mem_cons_of_mem _ hm'))
      (h.answer s k fd (hset m List.mem_cons_self))

theorem View.Finishes.namesOk {s : Scan} (hf : v.Finishes i x s v') (h : v.NamesOk) : v'.NamesOk := by
  cases hf with
  | kept => exact h
  | moved => exact h
  | tooLong =>
    exact h.remove (l := [.closed x.clientId x.clientFd]) rfl (by simp [Event.clientId]) rfl
  | refused hs m =>
    refine h.remove (l := [.handled x.clientId m.msgt m.seqid m.payload, .closed x.clientId x.clientFd])
      (List.append_assoc ..) ?_ rfl
    intro e he
    simp only [List.mem_cons, List.not_mem_nil, or_false] at he
    rcases he with rfl | rfl <;> rfl

/-- A step keeps the names well formed, if the entry of a client that is new in the map
has none. -/
theorem View.Handles.namesOk {res : ℤ} (hh : v.Handles i x res v') (h : v.NamesOk)
    (hnew : x.type = .accept → 0 ≤ res → v.clients x.clientId ≠ none →
      ∀ c, v'.clients v.nextClientId = some c → Named c.username none) : v'.NamesOk := by
  cases hh with
  | stale => exact h
  | dropped =>
    exact h.remove (l := [.closed x.clientId x.clientFd]) rfl (by simp [Event.clientId]) rfl
  | @accepted cl c' j bref buf hc hres ht hj hn hbuf =>
    have htr : ((v.connect i x cl res).acceptNext j bref buf c').trace =
        v.trace ++ [.entered v.nextClientId] := rfl
    intro id c hid
    rw [htr]
    by_cases hne : id = v.nextClientId
    · subst hne
      rw [lastAccepted_entered]
      exact hnew ht hres (by simp [hc]) c hid
    · rw [lastAccepted_append_of_ne (by simpa [Event.clientId] using Ne.symm hne)]
      have hold : (v.connect i x cl res).clients id = some c :=
        (Function.update_of_ne hne _ _).symm.trans hid
      rcases update_eq_some_iff.mp hold with ⟨rfl, ⟨⟩⟩ | ⟨-, hold⟩
      · exact h x.clientId cl hc
      · exact h id c hold
  | @received cl s v₁ past hc hres ht hscan hans hfd =>
    exact (v₁.finishes i x s past).namesOk (hans.namesOk (scan_messages hscan) h)
  | resumed => exact h
  | sent => exact h

end

/-! ## New entries -/

/-- The user name of the entry that `client_map_new_entry` would take next. -/
def Server.freshName (srv : Server) (junk : Junk) : List UInt8 :=
  if srv.clients.free = [] then junk.info.username else List.replicate 16 0

section
variable {srv srv' : Server} {v : View} {i : ℕ} {x : Held} {c : Client} {id : UInt64} {fd : ℤ}
  {junk : Junk}

/-- The entry a client gets has the user name its block had, which a store to other
fields keeps. -/
theorem ClientMap.Entered.info {cm cm' : ClientMap} {m : UInt64 → Option ℕ} {junk : ClientInfo} {p : ℕ}
    (he : cm.Entered m id junk cm' p) {f : ClientInfo → ClientInfo}
    (hf : ∀ n, (f n).username = n.username) : clientMapGet (cm'.write p f) id = .ok (some p) ∧
      ∃ n, (cm'.write p f).infoAt p = some n ∧
        n.username = if cm.free = [] then junk.username else List.replicate 16 0 := by
  have hself : Function.update m id (some p) id = some p := Function.update_self ..
  refine ⟨((he.represents.write hself f).get id).trans (congrArg Except.ok hself), ?_⟩
  obtain ⟨n, hn, hname⟩ : ∃ n, cm'.infoAt p = some n ∧
      n.username = if cm.free = [] then junk.username else List.replicate 16 0 := by
    rcases he.source with ⟨hfree, -, -, -, hn⟩ | ⟨hmem, -, -, hn⟩
    · exact ⟨_, hn, by rw [if_pos hfree]⟩
    · refine ⟨_, hn, ?_⟩
      rw [if_neg (List.ne_nil_of_mem hmem)]
      rfl
  obtain ⟨k, hk, rfl⟩ := Option.map_eq_some_iff.mp hn
  rw [ClientMap.infoAt, ClientMap.write_node, if_pos rfl, hk]
  exact ⟨_, rfl, (hf k).trans hname⟩

theorem addAccept_clients (hrun : addAccept srv id junk = .ok srv') :
    ∃ cm p, clientMapNewEntry srv.clients id junk.info = .ok (cm, some p) ∧
      srv'.clients = cm.write p fun n => { n with clientAddr := .zero, clientAddrLen := 16 } := by
  obtain ⟨-, -, hrun⟩ := bind_ok_iff.mp hrun
  obtain ⟨⟨pool, op⟩, -, hrun⟩ := bind_ok_iff.mp hrun
  obtain ⟨⟨cm, info⟩, hnew, hrun⟩ := bind_ok_iff.mp hrun
  cases info with
  | none => cases hrun
  | some p =>
    obtain ⟨o, -, hrun⟩ := bind_ok_iff.mp hrun
    obtain rfl := Except.ok.inj hrun
    exact ⟨cm, p, hnew, rfl⟩

theorem addAccept_info (h : srv.Models v) (hrun : addAccept srv id junk = .ok srv') :
    ∃ n, srv'.info id = some n ∧ n.username = srv.freshName junk := by
  obtain ⟨cm, p, hnew, hcl⟩ := addAccept_clients hrun
  obtain ⟨m, hm, -⟩ := h.clients
  have hid : m id = none := by
    cases hid : m id with
    | none => rfl
    | some q =>
      rw [hm.newEntry_false hid] at hnew
      cases hnew
  obtain ⟨cm', p', hnew', he⟩ := hm.newEntry hid junk.info
  obtain ⟨rfl, hp⟩ := Prod.mk.inj (Except.ok.inj (hnew.symm.trans hnew'))
  obtain rfl := Option.some.inj hp
  obtain ⟨hget, n, hn, hname⟩ := he.info (f := fun n =>
    { n with clientAddr := .zero, clientAddrLen := 16 }) fun _ => rfl
  refine ⟨n, ?_, hname⟩
  rw [Server.info, hcl, hget]
  exact hn

theorem addRecv_clients (hrun : addRecv srv i fd = .ok srv') : srv'.clients = srv.clients := by
  obtain ⟨-, -, hrun⟩ := bind_ok_iff.mp hrun
  obtain ⟨o, -, hrun⟩ := bind_ok_iff.mp hrun
  split at hrun
  · cases hrun
  · obtain rfl := Except.ok.inj hrun
    rfl

theorem handleAccept_info (h : srv.Models v) (hi : v.ops i = some x)
    (hc : v.clients x.clientId = some c) (hrun : handleAccept srv fd c.node i junk = .ok srv') :
    ∃ n, srv'.info v.nextClientId = some n ∧ n.username = srv.freshName junk := by
  obtain ⟨srv₁, hrecv, hrun⟩ := bind_ok_iff.mp hrun
  obtain ⟨srv₂, hacc, hrun⟩ := bind_ok_iff.mp hrun
  obtain rfl := Except.ok.inj hrun
  have hw := h.writeClient (f := fun n => { n with clientFd := fd }) (d := { c with fd := fd }) hc (by
    intro n hn
    rw [← hn]
    rfl)
  obtain ⟨-, hm₁⟩ := (hw.addRecv (x := x) hi fd).ok hrecv
  obtain ⟨n, hn, hname⟩ := addAccept_info hm₁ hacc
  have hnext : srv₁.nextClientId = v.nextClientId := hm₁.nextClientId.symm
  refine ⟨n, ?_, hname.trans ?_⟩
  · rw [hnext] at hn
    exact hn
  · rw [Server.freshName, addRecv_clients hrecv]
    rfl

end

/-! ## Steps of the system -/

section
variable {w w' : World} {v v' : View} {x : Held} {srv : Server} {junk : Junk} {cqe : Cqe}

theorem World.Owned.accepted_info (hw : w.Owned v) (hsrv : handleCqe w.srv cqe junk = .ok srv)
    (hx : v.ops cqe.sqe.userData = some x) (ht : x.type = .accept) (hres : 0 ≤ cqe.res)
    (hcl : v.clients x.clientId ≠ none) :
    ∃ n, srv.info v.nextClientId = some n ∧ n.username = w.srv.freshName junk := by
  obtain ⟨c, hc⟩ := Option.ne_none_iff_exists'.mp hcl
  rw [hw.models.handleCqe_eq hx, hc, ht] at hsrv
  simp only [Option.map_some, dispatch, if_neg (not_lt.mpr hres)] at hsrv
  obtain ⟨n, hn, hname⟩ := handleAccept_info (x := x) (hw.models.log (x.completed cqe)) hx hc hsrv
  exact ⟨n, hn, hname⟩

theorem View.Handles.entered {i : ℕ} {res : ℤ} (hh : v.Handles i x res v') (ht : x.type = .accept)
    (hres : 0 ≤ res) (hcl : v.clients x.clientId ≠ none) :
    v'.trace = v.trace ++ [.entered v.nextClientId] := by
  cases hh with
  | stale hc => exact absurd hc hcl
  | dropped hc hbad =>
    rcases hbad with hneg | ⟨hread, -⟩
    · omega
    · rw [ht] at hread
      cases hread
  | accepted => rfl
  | received hc hpos hread =>
    rw [ht] at hread
    cases hread
  | resumed hc hpos hwrite =>
    rw [ht] at hwrite
    cases hwrite
  | sent hc hpos hwrite =>
    rw [ht] at hwrite
    cases hwrite

theorem View.NamesOk.completed (h : v.NamesOk) (e : Event)
    (he : ∀ id name, nameAfter id name e = name) : (v.log e).NamesOk := by
  intro id c hc
  have hsame : lastAccepted id (v.log e).trace = lastAccepted id v.trace := by
    rw [View.log, lastAccepted_append]
    exact he id _
  rw [hsame]
  exact h id c hc

theorem World.Allocates.of_accept (hw : w.Owned v) {pc : Pc} {cq : List Cqe} (hpc : w.pc.Handling pc)
    (hcq : w.cq = cqe :: cq) (hx : v.ops cqe.sqe.userData = some x) (ht : x.type = .accept)
    (hres : 0 ≤ cqe.res) (hcl : v.clients x.clientId ≠ none) (hfree : w.srv.clients.free = []) :
    w.Allocates := by
  refine ⟨⟨pc, hpc⟩, cqe, by rw [hcq]; rfl, x.operation cqe.sqe.userData,
    hw.op_eq_some.mpr ⟨x, hx, rfl⟩, ht, hres, ?_, hfree⟩
  exact fun hnone => hcl (hw.models.info_eq_none.mp hnone)

/-- A step that allocates nothing, or a blank block, keeps the names well formed. -/
theorem View.NamesOk.moves {a : Action} (h : v.NamesOk) (hw : w.Owned v) (hm : w.Moves v a w' v')
    (hw' : w'.Owned v') (hok : w.GetsBlank a) : v'.NamesOk := by
  cases hm with
  | execute hs hadm =>
    intro id c hc
    rw [View.perform_clients] at hc
    rw [View.perform_trace]
    exact h id c hc
  | post => exact h
  | submit => exact h
  | turn => exact h
  | @handle junk pc cqe cq srv x v' hpc hcq hsrv hx hh =>
    refine hh.namesOk (h.completed _ fun _ _ => rfl) ?_
    intro ht hres hcl c hc
    obtain ⟨n, hn, hname⟩ := hw.accepted_info hsrv hx ht hres hcl
    replace hc : v'.clients v.nextClientId = some c := hc
    have hinfo := hw'.models.info v.nextClientId
    rw [hc] at hinfo
    obtain rfl := Option.some.inj (hn.symm.trans hinfo)
    rw [Server.freshName] at hname
    replace hname : c.username = _ := hname
    rw [hname]
    by_cases hfree : w.srv.clients.free = []
    · rw [if_pos hfree]
      exact Named.blank (hok (.of_accept hw hpc hcq hx ht hres hcl hfree))
    · rw [if_neg hfree]
      exact Named.zero

/-- A step after which the names are well formed has not allocated any other block. -/
theorem View.NamesOk.getsBlank {a : Action} (h' : v'.NamesOk) (hw : w.Owned v) (hm : w.Moves v a w' v')
    (hw' : w'.Owned v') : w.GetsBlank a := by
  cases hm with
  | execute => trivial
  | post => trivial
  | submit hpc =>
    rintro ⟨⟨pc, hpc'⟩, -⟩
    rw [hpc] at hpc'
    exact hpc'.elim
  | turn hpc =>
    rintro ⟨⟨pc, hpc'⟩, -⟩
    rcases hpc with hpc | hpc <;>
    · rw [hpc] at hpc'
      exact hpc'.elim
  | @handle junk pc cqe cq srv x v' hpc hcq hsrv hx hh =>
    rintro ⟨-, d, hd, o, ho, ht, hres, hinfo, hfree⟩
    rw [hcq] at hd
    obtain rfl := Option.some.inj hd
    obtain ⟨y, hy, rfl⟩ := hw.op_eq_some.mp ho
    obtain rfl := Option.some.inj (hx.symm.trans hy)
    have hcl : v.clients x.clientId ≠ none := fun hnone => hinfo (hw.models.info_eq_none.mpr hnone)
    obtain ⟨n, hn, hname⟩ := hw.accepted_info hsrv hx ht hres hcl
    obtain ⟨c, hc, hcn⟩ := Option.map_eq_some_iff.mp ((hw'.models.info v.nextClientId).symm.trans hn)
    have hnamed := h' v.nextClientId c hc
    have htr : v'.trace = (v.log (x.completed cqe)).trace ++ [.entered v.nextClientId] :=
      hh.entered ht hres hcl
    rw [htr, lastAccepted_entered] at hnamed
    rw [Server.freshName, if_pos hfree, ← hcn] at hname
    replace hname : c.username = junk.info.username := hname
    rw [hname] at hnamed
    exact named_none_iff.mp hnamed

end

/-! ## Runs -/

theorem serverInit_free {serverFd : ℤ} {junk : Junk} {srv : Server}
    (h : serverInit serverFd junk = .ok srv) : srv.clients.free = [] := by
  obtain ⟨cm, hcm, h⟩ := bind_ok_iff.mp h
  obtain rfl := Except.ok.inj h
  obtain rfl := Except.ok.inj hcm
  rfl

theorem World.start_names {serverFd : ℤ} {junk : Junk} {w : World}
    (h : World.start serverFd junk = .ok w) :
    ∃ v, w.Owned v ∧ (v.NamesOk ↔ junk.info.Blank) := by
  obtain ⟨srv, j, bref, buf, c, hs, -, hm⟩ := World.start_spec serverFd junk
  obtain rfl := Except.ok.inj (hs.symm.trans h)
  refine ⟨_, World.Owned.start hm, ?_⟩
  obtain ⟨srv₀, hinit, h⟩ := bind_ok_iff.mp h
  obtain ⟨srv₁, hacc, h⟩ := bind_ok_iff.mp h
  obtain ⟨srv₂, hinit₂, hm₀⟩ := serverInit_models serverFd junk
  obtain rfl := Except.ok.inj (hinit.symm.trans hinit₂)
  have hnext : srv₀.nextClientId = 1 := hm₀.nextClientId.symm
  rw [hnext] at hacc
  obtain ⟨n, hn, hname⟩ := addAccept_info hm₀ hacc
  have hsrv : { srv₁ with nextClientId := srv₁.nextClientId + 1 } = srv :=
    congrArg World.srv (Except.ok.inj h)
  have hn' : srv.info 1 = some n := by
    rw [← hsrv]
    exact hn
  have hc : ((View.initial serverFd).acceptNext j bref buf c).clients 1 = some c := by
    simp [View.acceptNext, View.accept, View.initial, View.prep, View.log, View.setClient]
  rw [hm.info, hc] at hn'
  rw [Server.freshName, if_pos (serverInit_free hinit), ← Option.some.inj hn'] at hname
  replace hname : c.username = junk.info.username := hname
  have htr : ((View.initial serverFd).acceptNext j bref buf c).trace = [] ++ [.entered 1] := rfl
  rw [← named_none_iff, ← hname]
  constructor
  · intro hok
    have hnamed := hok 1 c hc
    rwa [htr, lastAccepted_entered] at hnamed
  · intro hnamed id d hd
    rcases update_eq_some_iff.mp hd with ⟨rfl, ⟨⟩⟩ | ⟨-, hd⟩
    · rw [htr]
      exact lastAccepted_entered (t := []) ▸ hnamed
    · cases hd

theorem World.RunsTo.namesOk {w₀ w : World} (hr : w₀.RunsTo w) (h : ∃ v, w₀.Owned v ∧ v.NamesOk) :
    ∃ v, w.Owned v ∧ v.NamesOk := by
  induction hr with
  | refl => exact h
  | tail _ hs ih =>
    obtain ⟨a, ha, hstep⟩ := hs
    obtain ⟨v, hv, hok⟩ := ih
    obtain ⟨v', hm, hv'⟩ := hv.step (World.steps_of_step hstep)
    exact ⟨v', hv', hok.moves hv hm hv' ha⟩

/-- At the start the names are well formed exactly if the first block was blank. As long
as all blocks are, they are well formed in every state of every run, and the first block
that is not makes them ill formed. -/
theorem usernames_wellformed_iff (serverFd : ℤ) (junk : Junk) (w₀ : World)
    (hstart : World.start serverFd junk = .ok w₀) :
    (w₀.NamesOk ↔ junk.info.Blank) ∧
    (junk.info.Blank → ∀ w, w₀.RunsTo w → w.NamesOk ∧
      ∀ a w', w.step a = some w' → (w'.NamesOk ↔ w.GetsBlank a)) := by
  obtain ⟨v₀, hv₀, hiff⟩ := World.start_names hstart
  refine ⟨hv₀.namesOk_iff.trans hiff, fun hblank w hr => ?_⟩
  obtain ⟨v, hv, hok⟩ := hr.namesOk ⟨v₀, hv₀, hiff.mpr hblank⟩
  refine ⟨hv.namesOk_iff.mpr hok, fun a w' hstep => ?_⟩
  obtain ⟨v', hm, hv'⟩ := hv.step (World.steps_of_step hstep)
  rw [hv'.namesOk_iff]
  exact ⟨fun h' => h'.getsBlank hv hm hv', fun ha => hok.moves hv hm hv' ha⟩

/-- Memory that is zero is blank, and so every step on it. -/
theorem World.run_runsTo {as : List Action} (hok : ∀ a ∈ as, ∀ junk, a = .serve junk → junk = .zero)
    {w w' : World} (h : w.run as = some w') : w.RunsTo w' := by
  induction as generalizing w with
  | nil =>
    obtain rfl := Option.some.inj h
    exact .refl
  | cons a as ih =>
    obtain ⟨w₁, hstep, hrun⟩ := Option.bind_eq_some_iff.mp h
    refine .head ⟨a, ?_, hstep⟩ (ih (fun b hb => hok b (List.mem_cons_of_mem _ hb)) hrun)
    cases a with
    | execute => trivial
    | post => trivial
    | serve junk =>
      obtain rfl := hok _ List.mem_cons_self junk rfl
      exact fun _ => ⟨rfl, rfl⟩

/-- A client has connected and sent its name, which its entry then has. -/
theorem usernames_wellformed_named : ∃ w₀ w n, World.start 3 .zero = .ok w₀ ∧ w₀.RunsTo w ∧
    w.srv.info 1 = some n ∧ Named n.username (some [97, 98, 99]) := by
  have hrun : (World.runMain 3 .zero ([.serve .zero] ++ Action.complete 0 5 [] ++
      Action.complete 0 14 [0, 14, 1, 0, 0, 0, 0, 0, 0, 0, 7, 97, 98, 99])).map
        (fun w => ((w.srv.info 1).isSome, lastAccepted 1 w.srv.trace)) =
          some (true, some [97, 98, 99]) := by
    decide +kernel
  obtain ⟨w, hw, hres⟩ := Option.map_eq_some_iff.mp hrun
  obtain ⟨hinfo, hlast⟩ := Prod.mk.inj hres
  obtain ⟨n, hn⟩ := Option.isSome_iff_exists.mp hinfo
  obtain ⟨w₀, hstart, hrun⟩ := Option.bind_eq_some_iff.mp hw
  have hreach : w₀.RunsTo w := World.run_runsTo (by simp [Action.complete, List.replicate]) hrun
  have hok := ((usernames_wellformed_iff 3 .zero w₀ (toOption_eq_some.mp hstart)).2 ⟨rfl, rfl⟩ w
    hreach).1
  exact ⟨w₀, w, n, toOption_eq_some.mp hstart, hreach, hn, hlast ▸ hok 1 n hn⟩

/-- Blocks that hold sixteen times the letter `A`. -/
def Junk.letters : Junk :=
  { Junk.zero with info := { ClientInfo.zero with username := List.replicate 16 65 } }

/-- The first client has connected, and its user name does not end in its array. -/
theorem username_without_end : ∃ w n, Reachable w ∧ w.srv.info 1 = some n ∧ n.clientFd = 5 ∧
    n.username = List.replicate 16 65 ∧ ¬ w.NamesOk := by
  have hrun : (World.runMain 3 .letters ([.serve .zero] ++ Action.complete 0 5 [])).map (fun w =>
      (w.srv.info 1).map fun n => (n.clientFd, n.username)) =
        some (some (5, List.replicate 16 65)) := by
    decide +kernel
  obtain ⟨w, hw, hres⟩ := Option.map_eq_some_iff.mp hrun
  obtain ⟨n, hn, hnn⟩ := Option.map_eq_some_iff.mp hres
  obtain ⟨hfd, hname⟩ := Prod.mk.inj hnn
  refine ⟨w, n, World.runMain_reachable (by decide) hw, hn, hfd, hname, fun hok => ?_⟩
  have hend := (hok 1 n hn).terminated
  rw [hname] at hend
  exact absurd hend (by decide)

end Caht
