import Caht.Server.Handlers

/-! # The receive loop

`scan` reads a received buffer the way the loop of `handle_recv` does, without
acting on it: the messages it answers and how it stops. `handle_recv` then is the
replies to these messages, one by one, followed by what the stop calls for.
-/

namespace Caht
open Library Protocol

structure Message where
  len : ℕ
  msgt : UInt8
  seqid : UInt64
  payload : List UInt8
  deriving DecidableEq, Repr

/-- The message `deser_header` and `handle` see at the start of `bytes`. -/
def readMessage (bytes : List UInt8) : Message :=
  let (len, msgt, seqid) := deserHeader bytes
  ⟨len.toNat, msgt, seqid, (bytes.take len.toNat).drop protHdrLen⟩

/-- The code of the error a `SET_USERNAME` message is answered with, if any. -/
def judge (payload : List UInt8) : Option ResponseCode :=
  if payload.length < minUnameLen ∨ maxUnameLen < payload.length then some .invalidMsgLen
  else if !usernameValid payload then some .invalidUsername
  else none

def Message.response (m : Message) : Response :=
  match judge m.payload with
  | some code => .serverError m.seqid code
  | none => .setUsernameResponse m.seqid

/-- How the loop ends: too few bytes for a header, too few for the message, a
length no message has, or a message `handle` refuses. -/
inductive Stop where
  | header
  | body
  | tooLong
  | refused
  deriving DecidableEq, Repr

structure Scan where
  messages : List Message
  off : ℕ
  rest : ℕ
  stop : Stop
  deriving DecidableEq, Repr

/-- `none` when the loop comes to a message of length zero, which it answers again
and again. -/
def scanFrom (buf : List UInt8) : ℕ → ℕ → ℕ → Option Scan
  | fuel, off, rest =>
    if rest < protHdrLen then some ⟨[], off, rest, .header⟩
    else
      let m := readMessage (buf.drop off)
      if m.len > bufferSize2KB then some ⟨[], off, rest, .tooLong⟩
      else if rest < m.len then some ⟨[], off, rest, .body⟩
      else if m.msgt ≠ MessageType.setUsername.code then some ⟨[], off, rest, .refused⟩
      else match fuel with
        | 0 => none
        | fuel + 1 =>
          if m.len = 0 then none
          else (scanFrom buf fuel (off + m.len) (rest - m.len)).map fun s =>
            { s with messages := m :: s.messages }

def scan (buf : List UInt8) (off rest : ℕ) : Option Scan := scanFrom buf rest off rest

theorem scanFrom_eq_scan (buf : List UInt8) (fuel off rest : ℕ) (h : rest ≤ fuel) :
    scanFrom buf fuel off rest = scan buf off rest := by
  induction fuel using Nat.strong_induction_on generalizing off rest with
  | _ fuel ih =>
    rw [scan]
    obtain rfl | hlt := h.eq_or_lt
    · rfl
    unfold scanFrom
    by_cases hrest : rest < protHdrLen
    · simp only [if_pos hrest]
    obtain ⟨fuel, rfl⟩ : ∃ k, fuel = k + 1 := ⟨fuel - 1, by omega⟩
    obtain ⟨rest, rfl⟩ : ∃ k, rest = k + 1 := ⟨rest - 1, by simp [protHdrLen] at hrest; omega⟩
    by_cases hz : (readMessage (buf.drop off)).len = 0
    · simp [hz]
    · have h₁ := ih fuel (by omega) (off + (readMessage (buf.drop off)).len)
        (rest + 1 - (readMessage (buf.drop off)).len) (by omega)
      have h₂ := ih rest (by omega) (off + (readMessage (buf.drop off)).len)
        (rest + 1 - (readMessage (buf.drop off)).len) (by omega)
      simp only [h₁, h₂]

theorem scan_eq (buf : List UInt8) (off rest : ℕ) : scan buf off rest =
    if rest < protHdrLen then some ⟨[], off, rest, .header⟩
    else if (readMessage (buf.drop off)).len > bufferSize2KB then some ⟨[], off, rest, .tooLong⟩
    else if rest < (readMessage (buf.drop off)).len then some ⟨[], off, rest, .body⟩
    else if (readMessage (buf.drop off)).msgt ≠ MessageType.setUsername.code then
      some ⟨[], off, rest, .refused⟩
    else if (readMessage (buf.drop off)).len = 0 then none
    else (scan buf (off + (readMessage (buf.drop off)).len)
      (rest - (readMessage (buf.drop off)).len)).map fun s =>
        { s with messages := readMessage (buf.drop off) :: s.messages } := by
  rw [scan, scanFrom]
  by_cases hrest : rest < protHdrLen
  · simp only [if_pos hrest]
  obtain ⟨rest, rfl⟩ : ∃ k, rest = k + 1 := ⟨rest - 1, by simp [protHdrLen] at hrest; omega⟩
  by_cases hz : (readMessage (buf.drop off)).len = 0
  · simp [hz]
  · have h := scanFrom_eq_scan buf rest (off + (readMessage (buf.drop off)).len)
      (rest + 1 - (readMessage (buf.drop off)).len) (by omega)
    simp only [h]

/-- What a turn of the loop finds at the start of the bytes that are left. -/
def look (buf : List UInt8) (off rest : ℕ) : Except Stop Message :=
  if rest < protHdrLen then .error .header
  else
    let m := readMessage (buf.drop off)
    if m.len > bufferSize2KB then .error .tooLong
    else if rest < m.len then .error .body
    else if m.msgt ≠ MessageType.setUsername.code then .error .refused
    else .ok m

theorem scan_look (buf : List UInt8) (off rest : ℕ) : scan buf off rest =
    match look buf off rest with
    | .error stop => some ⟨[], off, rest, stop⟩
    | .ok m => if m.len = 0 then none else (scan buf (off + m.len) (rest - m.len)).map fun s =>
        { s with messages := m :: s.messages } := by
  rw [scan_eq, look]
  simp only
  by_cases hrest : rest < protHdrLen
  · simp only [if_pos hrest]
  by_cases hbig : (readMessage (buf.drop off)).len > bufferSize2KB
  · simp only [if_neg hrest, if_pos hbig]
  by_cases hpart : rest < (readMessage (buf.drop off)).len
  · simp only [if_neg hrest, if_neg hbig, if_pos hpart]
  by_cases hset : (readMessage (buf.drop off)).msgt ≠ MessageType.setUsername.code
  · simp only [if_neg hrest, if_neg hbig, if_neg hpart, if_pos hset]
  · simp only [if_neg hrest, if_neg hbig, if_neg hpart, if_neg hset]

theorem look_ok {buf : List UInt8} {off rest : ℕ} {m : Message} (h : look buf off rest = .ok m) :
    m = readMessage (buf.drop off) ∧ protHdrLen ≤ rest ∧ m.len ≤ bufferSize2KB ∧ m.len ≤ rest ∧
      m.msgt = MessageType.setUsername.code := by
  unfold look at h
  simp only at h
  split_ifs at h with hrest hbig hpart hset
  obtain rfl := Except.ok.inj h
  exact ⟨rfl, not_lt.mp hrest, not_lt.mp hbig, not_lt.mp hpart, not_not.mp hset⟩

theorem look_header {buf : List UInt8} {off rest : ℕ} (h : look buf off rest = .error .header) :
    rest < protHdrLen := by
  by_contra hrest
  rw [look, if_neg hrest] at h
  simp only at h
  split_ifs at h <;> cases h

theorem look_body_iff {buf : List UInt8} {off rest : ℕ} : look buf off rest = .error .body ↔
    protHdrLen ≤ rest ∧ (readMessage (buf.drop off)).len ≤ bufferSize2KB ∧
      rest < (readMessage (buf.drop off)).len := by
  rw [look]
  by_cases h : rest < protHdrLen
  · simp only [if_pos h]
    simp
    omega
  · simp only [if_neg h]
    split_ifs <;> simp <;> omega

theorem look_refused {buf : List UInt8} {off rest : ℕ} (h : look buf off rest = .error .refused) :
    protHdrLen ≤ rest ∧ (readMessage (buf.drop off)).len ≤ rest := by
  unfold look at h
  simp only at h
  split_ifs at h with hrest hbig hpart hset
  · cases h
  · cases h
  · cases h
  · exact ⟨not_lt.mp hrest, not_lt.mp hpart⟩

/-- The rule for what a scan finds: it holds where the loop stops, and is carried back
over each message it goes on behind. -/
theorem scan_rule {buf : List UInt8} {P : ℕ → ℕ → Scan → Prop}
    (stop : ∀ off rest st, look buf off rest = .error st → P off rest ⟨[], off, rest, st⟩)
    (next : ∀ off rest m s, look buf off rest = .ok m → P (off + m.len) (rest - m.len) s →
      P off rest { s with messages := m :: s.messages })
    {off rest : ℕ} {s : Scan} (h : scan buf off rest = some s) : P off rest s := by
  induction rest using Nat.strong_induction_on generalizing off s with
  | _ rest ih =>
    rw [scan_look] at h
    cases hl : look buf off rest with
    | error st =>
      simp only [hl, Option.some.injEq] at h
      subst h
      exact stop off rest st hl
    | ok m =>
      simp only [hl] at h
      obtain ⟨-, -, -, hle, -⟩ := look_ok hl
      split at h
      · cases h
      · obtain ⟨s', hs', rfl⟩ := Option.map_eq_some_iff.mp h
        exact next off rest m s' hl (ih _ (by omega) hs')

theorem scan_stops {buf : List UInt8} {off rest : ℕ} {s : Scan} (h : scan buf off rest = some s) :
    look buf s.off s.rest = .error s.stop :=
  scan_rule (P := fun _ _ s => look buf s.off s.rest = .error s.stop) (fun _ _ _ hl => hl)
    (fun _ _ _ _ _ hs => hs) h

theorem scan_rest {buf : List UInt8} {off rest : ℕ} {s : Scan} (h : scan buf off rest = some s) :
    s.off + s.rest = off + rest ∧ s.rest ≤ rest := by
  refine scan_rule (P := fun off rest s => s.off + s.rest = off + rest ∧ s.rest ≤ rest)
    (fun _ _ _ _ => ⟨rfl, le_rfl⟩) (fun off rest m s hl hs => ?_) h
  obtain ⟨-, -, -, hle, -⟩ := look_ok hl
  simp only
  omega

theorem scan_messages {buf : List UInt8} {off rest : ℕ} {s : Scan} (h : scan buf off rest = some s) :
    ∀ m ∈ s.messages, m.msgt = MessageType.setUsername.code := by
  refine scan_rule (P := fun _ _ s => ∀ m ∈ s.messages, m.msgt = MessageType.setUsername.code)
    (fun _ _ _ _ => by simp) (fun off rest m s hl hs => ?_) h
  obtain ⟨-, -, -, -, hset⟩ := look_ok hl
  exact List.forall_mem_cons.mpr ⟨hset, hs⟩

/-- The queue entries the loop takes: one for each reply, and one to receive more. -/
def Scan.demand (s : Scan) : ℕ :=
  s.messages.length + if s.stop = .header ∨ s.stop = .body then 1 else 0

namespace View

/-- What `handle` does with a `SET_USERNAME` message. -/
def answer (v : View) (s : Slot) (id : UInt64) (fd : ℤ) (m : Message) : View :=
  let v := v.log (.handled id m.msgt m.seqid m.payload)
  let v := match judge m.payload with
    | some _ => v
    | none =>
      (v.setClient id ((v.clients id).map (Client.rename · m.payload))).log (.username id m.payload)
  v.reply s id fd m.response

/-- A sequence of such messages, each reply in an operation unused before. -/
inductive Answers (id : UInt64) (fd : ℤ) : View → List Message → View → Prop
  | nil (v : View) : Answers id fd v [] v
  | cons {v v' : View} {s : Slot} {m : Message} {ms : List Message} (hs : v.ops s.op = none)
      (h : Answers id fd (v.answer s id fd m) ms v') : Answers id fd v (m :: ms) v'

/-- The end of the loop for the operation `x` in entry `i`. -/
def finish (v : View) (i : ℕ) (x : Held) (s : Scan) (past : ℕ → UInt8) : View :=
  let v' := v.prep ⟨i, .recv x.clientFd x.bref s.rest (x.bufCap - s.rest)⟩
  let gone := fun v : View => (v.disconnect x.clientId x.clientFd).setOp i none
  match s.stop with
  | .header => v'
  | .body =>
    if s.off = 0 then v'
    else v'.setOp i (some { x with buf := compact x.buf s.off (x.bufCap - s.rest) past })
  | .tooLong => gone v
  | .refused =>
    let m := readMessage (x.buf.drop s.off)
    gone (v.log (.handled x.clientId m.msgt m.seqid m.payload))

/-- What an end of the loop can do: it arms the receive again, with the buffer as it was
or moved, or it drops the client. -/
inductive Finishes (v : View) (i : ℕ) (x : Held) (s : Scan) : View → Prop
  | kept (hs : s.stop = .header ∨ s.stop = .body) :
      v.Finishes i x s (v.prep ⟨i, .recv x.clientFd x.bref s.rest (x.bufCap - s.rest)⟩)
  | moved (hs : s.stop = .body) (buf : List UInt8) :
      v.Finishes i x s ((v.prep ⟨i, .recv x.clientFd x.bref s.rest (x.bufCap - s.rest)⟩).setOp i
        (some { x with buf := buf }))
  | tooLong (hs : s.stop = .tooLong) :
      v.Finishes i x s ((v.disconnect x.clientId x.clientFd).setOp i none)
  | refused (hs : s.stop = .refused) (m : Message) :
      v.Finishes i x s (((v.log (.handled x.clientId m.msgt m.seqid m.payload)).disconnect
        x.clientId x.clientFd).setOp i none)

theorem finishes (v : View) (i : ℕ) (x : Held) (s : Scan) (past : ℕ → UInt8) :
    v.Finishes i x s (v.finish i x s past) := by
  unfold finish
  cases hs : s.stop with
  | header => exact .kept (.inl hs)
  | body =>
    by_cases hoff : s.off = 0
    · simp only [if_pos hoff]
      exact .kept (.inr hs)
    · simp only [if_neg hoff]
      exact .moved hs _
  | tooLong => exact .tooLong hs
  | refused => exact .refused hs _

namespace Finishes
variable {v v' : View} {i : ℕ} {x : Held} {s : Scan}

theorem entries (h : v.Finishes i x s v') : v'.entries = v.entries := by
  cases h <;> rfl

theorem clients (h : v.Finishes i x s v') :
    v'.clients = v.clients ∧ v'.fds = v.fds ∨
      v'.clients = Function.update v.clients x.clientId none ∧
        v'.fds = Function.update v.fds x.clientFd none ∧ (s.stop = .tooLong ∨ s.stop = .refused) := by
  cases h with
  | kept => exact .inl ⟨rfl, rfl⟩
  | moved => exact .inl ⟨rfl, rfl⟩
  | tooLong hs => exact .inr ⟨rfl, rfl, .inl hs⟩
  | refused hs => exact .inr ⟨rfl, rfl, .inr hs⟩

theorem sq (h : v.Finishes i x s v') :
    ∃ l, v'.sq = v.sq ++ l ∧ (∀ e ∈ l, e.userData = i) ∧
      (s.stop = .tooLong ∨ s.stop = .refused → l = []) := by
  cases h with
  | kept hs => exact ⟨_, rfl, by simp, by rcases hs with hs | hs <;> simp [hs]⟩
  | moved hs => exact ⟨_, rfl, by simp, by simp [hs]⟩
  | tooLong => exact ⟨[], (List.append_nil _).symm, by simp, fun _ => rfl⟩
  | refused => exact ⟨[], (List.append_nil _).symm, by simp, fun _ => rfl⟩

theorem ops_of_ne (h : v.Finishes i x s v') {k : ℕ} (hk : k ≠ i) : v'.ops k = v.ops k := by
  cases h with
  | kept => rfl
  | moved => exact Function.update_of_ne hk _ _
  | tooLong => exact Function.update_of_ne hk _ _
  | refused => exact Function.update_of_ne hk _ _

theorem ops_self (h : v.Finishes i x s v') (hi : v.ops i = some x) :
    (s.stop = .tooLong ∨ s.stop = .refused) ∧ v'.ops i = none ∨
      ∃ buf, v'.ops i = some { x with buf := buf } := by
  cases h with
  | kept => exact .inr ⟨x.buf, hi⟩
  | moved => exact .inr ⟨_, Function.update_self ..⟩
  | tooLong hs => exact .inl ⟨.inl hs, Function.update_self ..⟩
  | refused hs => exact .inl ⟨.inr hs, Function.update_self ..⟩

theorem again (h : v.Finishes i x s v') (hi : v.ops i = some x)
    (hs : s.stop = .header ∨ s.stop = .body) :
    v'.sq = v.sq ++ [⟨i, .recv x.clientFd x.bref s.rest (x.bufCap - s.rest)⟩] ∧
      (∃ buf, v'.ops i = some { x with buf := buf }) ∧ v'.clients = v.clients ∧ v'.fds = v.fds := by
  cases h with
  | kept => exact ⟨rfl, ⟨x.buf, hi⟩, rfl, rfl⟩
  | moved => exact ⟨rfl, ⟨_, Function.update_self ..⟩, rfl, rfl⟩
  | tooLong hs' => simp [hs'] at hs
  | refused hs' => simp [hs'] at hs

theorem rearmed (h : v.Finishes i x s v') {e : Sqe} (he : e ∈ v'.sq) (hnew : e ∉ v.sq) :
    (s.stop = .header ∨ s.stop = .body) ∧
      e = ⟨i, .recv x.clientFd x.bref s.rest (x.bufCap - s.rest)⟩ := by
  have hadded : e ∈ v.sq ++ [⟨i, .recv x.clientFd x.bref s.rest (x.bufCap - s.rest)⟩] →
      e = ⟨i, .recv x.clientFd x.bref s.rest (x.bufCap - s.rest)⟩ := fun hmem =>
    List.mem_singleton.mp ((List.mem_append.mp hmem).resolve_left hnew)
  cases h with
  | kept hs => exact ⟨hs, hadded he⟩
  | moved hs => exact ⟨.inr hs, hadded he⟩
  | tooLong => exact absurd he hnew
  | refused => exact absurd he hnew

theorem gone (h : v.Finishes i x s v') (hs : s.stop = .tooLong ∨ s.stop = .refused) :
    v'.sq = v.sq ∧ v'.ops = Function.update v.ops i none ∧
      v'.clients = Function.update v.clients x.clientId none ∧
      v'.fds = Function.update v.fds x.clientFd none := by
  cases h with
  | kept hs' => rcases hs' with hs' | hs' <;> simp [hs'] at hs
  | moved hs' => simp [hs'] at hs
  | tooLong => exact ⟨rfl, rfl, rfl, rfl⟩
  | refused => exact ⟨rfl, rfl, rfl, rfl⟩

end Finishes

end View

/-! ## `handle` -/

theorem cString_store (old name : List UInt8) (h : usernameValid name) :
    cString (writeAt (writeAt old 0 name) name.length [0]) = name := by
  have hw : writeAt (writeAt old 0 name) name.length [0] =
      name ++ 0 :: (name ++ old.drop name.length).drop (name.length + 1) := by
    rw [writeAt_zero, writeAt, List.take_left, List.append_assoc]
    rfl
  have hne : ∀ b ∈ name, (b != 0) = true := by
    intro b hb
    have hb' := List.all_eq_true.mp h b hb
    rw [bne_iff_ne]
    rintro rfl
    exact absurd hb' (by decide)
  rw [hw, cString, List.takeWhile_append_of_pos hne]
  simp

theorem sizeSub_lt {a b : ℕ} (h : a < b) (hb : b < 2 ^ 63) : 2 ^ 63 < sizeSub a b := by
  unfold sizeSub
  omega

section
variable {srv : Server} {v : View} {i : ℕ} {x : Held} {c : Client}

/-- The length test on the wrapped difference is the test on the payload. -/
private theorem uname_len {reqLen : ℕ} {bytes : List UInt8} (hlen : reqLen ≤ bytes.length)
    (h16 : reqLen < 2 ^ 16) :
    ((deserSetUsername reqLen).len < minUnameLen ∨ maxUnameLen < (deserSetUsername reqLen).len ↔
      ((bytes.take reqLen).drop protHdrLen).length < minUnameLen ∨
        maxUnameLen < ((bytes.take reqLen).drop protHdrLen).length) := by
  have hp : ((bytes.take reqLen).drop protHdrLen).length = reqLen - 11 := by
    rw [List.length_drop, List.length_take, min_eq_left hlen, protHdrLen]
  rw [hp, minUnameLen, maxUnameLen, deserSetUsername]
  by_cases hr : 11 ≤ reqLen
  · simp only [sizeSub_of_le hr (by omega : reqLen < 2 ^ 64)]
  · have hbig := sizeSub_lt (show reqLen < 11 by omega) (by norm_num)
    simp only
    omega

private theorem uname_eq {reqLen : ℕ} {bytes : List UInt8} (h16 : reqLen < 2 ^ 16)
    (h : ¬ ((deserSetUsername reqLen).len < minUnameLen ∨ maxUnameLen < (deserSetUsername reqLen).len)) :
    (bytes.drop (deserSetUsername reqLen).ptr).take (deserSetUsername reqLen).len =
      (bytes.take reqLen).drop protHdrLen := by
  have hr : 11 ≤ reqLen := by
    by_contra hlt
    have hbig := sizeSub_lt (show reqLen < 11 by omega) (by norm_num)
    simp only [deserSetUsername, maxUnameLen, minUnameLen] at h
    omega
  simp only [deserSetUsername, protHdrLen, sizeSub_of_le hr (by omega : reqLen < 2 ^ 64)]
  rw [List.drop_take]

theorem Server.Models.handle (h : srv.Models v) (hi : v.ops i = some x)
    (hc : v.clients x.clientId = some c) (junk : Junk) {off : ℕ} {m : Message}
    (hm : m = readMessage (x.buf.drop off)) (hlen : m.len ≤ (x.buf.drop off).length)
    (hset : m.msgt = MessageType.setUsername.code) :
    Ends (Caht.handle srv c.node i off m.len m.msgt m.seqid junk)
      (fun r => r.2 = 0 ∧ v.sq.length < v.entries ∧ ∃ s, v.ops s.op = none ∧
        r.1.Models (v.answer s x.clientId x.clientFd m)) v.Full := by
  have h16 : m.len < 2 ^ 16 := by
    rw [hm]
    exact (deserHeader (x.buf.drop off)).1.toNat_lt
  have hpay : ((x.buf.drop off).take m.len).drop protHdrLen = m.payload := by rw [hm]; rfl
  have hbuf := h.getBuf hi
  have hlog := h.log (.handled x.clientId m.msgt m.seqid m.payload)
  simp only [Caht.handle, h.getOp hi, ok_bind]
  simp only [Held.operation, hbuf, ok_bind, hpay, if_pos hset, uname_len hlen h16]
  by_cases hbad : m.payload.length < minUnameLen ∨ maxUnameLen < m.payload.length
  · rw [if_pos hbad]
    refine (hlog.sendServerError x.clientFd x.clientId m.seqid .invalidMsgLen junk).bind ?_
    rintro srv' ⟨hroom, s, hs, hsrv'⟩
    refine ⟨rfl, hroom, s, hs, ?_⟩
    simpa only [View.answer, Message.response, judge, if_pos hbad] using hsrv'
  · rw [if_neg hbad, uname_eq h16 (by rwa [uname_len hlen h16, hpay]), hpay]
    cases hval : usernameValid m.payload with
    | false =>
      simp only [Bool.not_false, if_true]
      refine (hlog.sendServerError x.clientFd x.clientId m.seqid .invalidUsername junk).bind ?_
      rintro srv' ⟨hroom, s, hs, hsrv'⟩
      refine ⟨rfl, hroom, s, hs, ?_⟩
      simpa [View.answer, Message.response, judge, if_neg hbad, hval] using hsrv'
    | true =>
      have hw := hlog.writeClient (f := storeUsername m.payload) (d := c.rename m.payload) hc (by
        intro n hn
        rw [← hn]
        rfl)
      obtain ⟨n, hn, -, hcl⟩ := hw.clientInfo (View.setClient_self _ _ _)
      have hname : ((((srv.log (.handled x.clientId m.msgt m.seqid m.payload)).clients.write c.node
          (storeUsername m.payload)).nodes[c.node]?).map ClientInfo.username).getD [] =
          writeAt (writeAt c.username 0 m.payload) m.payload.length [0] :=
        (congrArg (fun o => (o.map ClientInfo.username).getD []) hn).trans
          (congrArg Client.username hcl)
      simp only [Bool.not_true, Bool.false_eq_true, if_false, hname, cString_store _ _ hval]
      refine ((hw.log (.username x.clientId m.payload)).sendSetUsernameResponse x.clientFd m.seqid
        x.clientId junk).bind ?_
      rintro srv' ⟨hroom, s, hs, hsrv'⟩
      refine ⟨rfl, hroom, s, hs, ?_⟩
      have hc' : (v.log (.handled x.clientId m.msgt m.seqid m.payload)).clients x.clientId = some c := hc
      simpa [View.answer, Message.response, judge, if_neg hbad, hval, hc'] using hsrv'

theorem Server.Models.handle_refused (h : srv.Models v) (hi : v.ops i = some x) (info : ℕ)
    (junk : Junk) {off : ℕ} {m : Message} (hm : m = readMessage (x.buf.drop off))
    (hset : m.msgt ≠ MessageType.setUsername.code) :
    Caht.handle srv info i off m.len m.msgt m.seqid junk =
      .ok (srv.log (.handled x.clientId m.msgt m.seqid m.payload), -1) := by
  have hpay : ((x.buf.drop off).take m.len).drop protHdrLen = m.payload := by rw [hm]; rfl
  simp only [Caht.handle, h.getOp hi, ok_bind]
  simp only [Held.operation, h.getBuf hi, ok_bind, hpay, if_neg hset]

/-! ## The loop -/

theorem View.answer_entries (v : View) (s : Slot) (id : UInt64) (fd : ℤ) (m : Message) :
    (v.answer s id fd m).entries = v.entries := by
  unfold View.answer
  split <;> rfl

theorem View.answer_sq (v : View) (s : Slot) (id : UInt64) (fd : ℤ) (m : Message) :
    (v.answer s id fd m).sq = v.sq ++ [⟨s.op, .send fd s.bref 0 m.response.bytes.length⟩] := by
  unfold View.answer
  split <;> rfl

theorem View.answer_fds (v : View) (s : Slot) (id : UInt64) (fd : ℤ) (m : Message) :
    (v.answer s id fd m).fds = v.fds := by
  unfold View.answer
  split <;> rfl

theorem View.answer_ops (v : View) (s : Slot) (id : UInt64) (fd : ℤ) (m : Message) :
    (v.answer s id fd m).ops = Function.update v.ops s.op (some (m.response.held id fd s)) := by
  unfold View.answer
  split <;> rfl

theorem View.answer_clients (v : View) (s : Slot) (id : UInt64) (fd : ℤ) (m : Message) :
    (v.answer s id fd m).clients = if judge m.payload = none then
      Function.update v.clients id ((v.clients id).map (Client.rename · m.payload)) else v.clients := by
  unfold View.answer
  split
  · rename_i hj
    simp [hj, View.reply, View.prep, View.log, View.setOp]
  · rename_i hj
    simp [hj, View.reply, View.prep, View.log, View.setOp, View.setClient]

/-- The lines in the log for one answered message. -/
def Message.events (m : Message) (id : UInt64) (op : ℕ) : List Event :=
  .handled id m.msgt m.seqid m.payload ::
    ((if judge m.payload = none then [.username id m.payload] else []) ++ [.queued id op m.response])

theorem View.answer_trace (v : View) (s : Slot) (id : UInt64) (fd : ℤ) (m : Message) :
    (v.answer s id fd m).trace = v.trace ++ m.events id s.op := by
  unfold View.answer Message.events
  split
  · rename_i hj
    simp [hj, View.reply, View.prep, View.log, View.setOp]
  · rename_i hj
    simp [hj, View.reply, View.prep, View.log, View.setOp, View.setClient]

theorem View.answer_nextClientId (v : View) (s : Slot) (id : UInt64) (fd : ℤ) (m : Message) :
    (v.answer s id fd m).nextClientId = v.nextClientId := by
  unfold View.answer
  split <;> rfl

theorem View.Answers.op {id : UInt64} {fd : ℤ} {ms : List Message} (ha : v.Answers id fd ms v')
    (hi : v.ops i = some x) : v'.ops i = some x := by
  induction ha with
  | nil v => exact hi
  | cons hs _ ih =>
    refine ih ?_
    rw [View.answer_ops, Function.update_of_ne (fun he => by simp [← he, hi] at hs), hi]

theorem View.answer_client (v : View) (s : Slot) (id : UInt64) (fd : ℤ) (m : Message) {c : Client}
    (hc : v.clients id = some c) :
    ∃ c', (v.answer s id fd m).clients id = some c' ∧ c'.node = c.node ∧ c'.fd = c.fd := by
  rw [View.answer_clients]
  split
  · exact ⟨c.rename m.payload, by simp [hc], rfl, rfl⟩
  · exact ⟨c, hc, rfl, rfl⟩

theorem compact_length (buf : List UInt8) (off n : ℕ) (past : ℕ → UInt8) (h : n ≤ buf.length) :
    (compact buf off n past).length = buf.length := by
  have hn : ((buf.drop off).take n ++ (List.range (n - (buf.length - off))).map past).length = n := by
    simp only [List.length_append, List.length_take, List.length_drop, List.length_map,
      List.length_range]
    omega
  rw [compact, writeAt_length _ _ _ (by rw [hn]; omega)]

/-! ## One turn -/

/-- How a turn of the loop ends: the function returns, or goes on behind the message. -/
inductive Turn where
  | done (srv : Server)
  | next (srv : Server) (off bytesRead : ℕ)

/-- The body of the loop of `handle_recv`, with the test before it and the call of
`resume_recv` after it. -/
def recvTurn (info op : ℕ) (junk : Junk) (srv : Server) (off bytesRead : ℕ) : Outcome Turn :=
  if bytesRead < protHdrLen then (resumeRecv srv op bytesRead).map .done else do
    let o ← srv.getOp op
    let buf ← srv.getBuf o.bufRef
    let (reqLen, reqMsgt, reqSeqid) := deserHeader (buf.drop off)
    if reqLen.toNat > bufferSize2KB then (disconnectAndFreeOp srv (some info) op).map .done
    else if bytesRead < reqLen.toNat then
      let srv := if off ≠ 0 then
          srv.setBuf o.bufRef (compact buf off (sizeSub o.bufCap bytesRead) junk.past)
        else srv
      (resumeRecv srv op bytesRead).map .done
    else do
      let (srv, ret) ← handle srv info op off reqLen.toNat reqMsgt reqSeqid junk
      if ret = -1 then (disconnectAndFreeOp srv (some info) op).map .done
      else .ok (.next srv (off + reqLen.toNat) (bytesRead - reqLen.toNat))

private theorem map_done_bind (y : Outcome Server) (f : Turn → Outcome Server) :
    y.map Turn.done >>= f = y >>= fun srv => f (.done srv) := by
  cases y <;> rfl

theorem recvLoop_succ (info op : ℕ) (junk : Junk) (fuel : ℕ) (srv : Server) (off bytesRead : ℕ) :
    Caht.recvLoop info op junk (fuel + 1) srv off bytesRead =
      recvTurn info op junk srv off bytesRead >>= fun t => match t with
        | .done srv => .ok srv
        | .next srv off bytesRead => Caht.recvLoop info op junk fuel srv off bytesRead := by
  have hok : ∀ y : Outcome Server, (y >>= fun srv => .ok srv) = y := fun y => by cases y <;> rfl
  rw [Caht.recvLoop, recvTurn]
  by_cases hrest : bytesRead < protHdrLen
  · simp only [if_pos hrest, map_done_bind, hok]
  simp only [if_neg hrest, bind_assoc]
  refine bind_congr fun o => bind_congr fun buf => ?_
  by_cases hbig : (deserHeader (buf.drop off)).1.toNat > bufferSize2KB
  · simp only [if_pos hbig, map_done_bind, hok]
  by_cases hpart : bytesRead < (deserHeader (buf.drop off)).1.toNat
  · simp only [if_neg hbig, if_pos hpart, map_done_bind, hok]
  simp only [if_neg hbig, if_neg hpart, bind_assoc]
  refine bind_congr fun r => ?_
  by_cases hret : r.2 = -1
  · simp only [if_pos hret, map_done_bind, hok]
  · simp only [if_neg hret, ok_bind]

/-- What a turn leaves behind. -/
def View.Turned (v : View) (i : ℕ) (x : Held) (off rest : ℕ) (past : ℕ → UInt8) : Turn → Prop
  | .done srv' => ∃ stop, look x.buf off rest = .error stop ∧
      (stop = .header ∨ stop = .body → v.sq.length < v.entries) ∧
      (stop = .tooLong ∨ stop = .refused → v.fds x.clientFd ≠ none ∧ srv'.Returned i x) ∧
      srv'.Models (v.finish i x ⟨[], off, rest, stop⟩ past)
  | .next srv' off' rest' => ∃ m s, look x.buf off rest = .ok m ∧ off' = off + m.len ∧
      rest' = rest - m.len ∧ v.sq.length < v.entries ∧ v.ops s.op = none ∧
      srv'.Models (v.answer s x.clientId x.clientFd m)

/-- How a turn ends the process. -/
def View.TurnFails (v : View) (x : Held) (off rest : ℕ) (e : Halt) : Prop :=
  (v.Full e ∧ ∀ stop, look x.buf off rest = .error stop → stop = .header ∨ stop = .body) ∨
    ((look x.buf off rest = .error .tooLong ∨ look x.buf off rest = .error .refused) ∧
      e = .exit "handle_recv close client_fd" ∧ v.fds x.clientFd = none)

private theorem ends_map_done {y : Outcome Server} {P : Server → Prop} {E F : Halt → Prop}
    {Q : Turn → Prop} (h : Ends y P E) (hP : ∀ srv, P srv → Q (.done srv)) (hE : ∀ e, E e → F e) :
    Ends (y.map Turn.done) Q F := by
  cases y with
  | ok srv => exact hP srv h
  | error e => exact hE e h

theorem Server.Models.recvTurn (h : srv.Models v) (hi : v.ops i = some x)
    (hc : v.clients x.clientId = some c) (junk : Junk) (off rest : ℕ) (hlen : off + rest ≤ x.bufCap) :
    Ends (Caht.recvTurn c.node i junk srv off rest) (v.Turned i x off rest junk.past)
      (v.TurnFails x off rest) := by
  unfold Caht.recvTurn
  by_cases hrest : rest < protHdrLen
  · have hlook : look x.buf off rest = .error .header := by rw [look, if_pos hrest]
    rw [if_pos hrest]
    refine ends_map_done (h.resumeRecv hi rest (by omega)) ?_ fun e he => .inl ⟨he, by simp [hlook]⟩
    rintro srv' ⟨hroom, hsrv'⟩
    exact ⟨.header, hlook, fun _ => hroom, by simp, hsrv'⟩
  rw [if_neg hrest]
  simp only [h.getOp hi, ok_bind]
  simp only [Held.operation, h.getBuf hi, ok_bind]
  have hlook : look x.buf off rest = _ := if_neg hrest
  simp only at hlook
  generalize hm : readMessage (x.buf.drop off) = m at hlook
  obtain ⟨hml, hmt, hms⟩ : (deserHeader (x.buf.drop off)).1.toNat = m.len ∧
      (deserHeader (x.buf.drop off)).2.1 = m.msgt ∧
      (deserHeader (x.buf.drop off)).2.2 = m.seqid := by
    rw [← hm]
    exact ⟨rfl, rfl, rfl⟩
  simp only [hml, hmt, hms]
  by_cases hbig : m.len > bufferSize2KB
  · rw [if_pos hbig] at hlook ⊢
    refine ends_map_done (h.disconnectAndFreeOp hi hc c.node) ?_ fun e he => .inr ⟨.inl hlook, he⟩
    rintro srv' ⟨hfd, hsrv', hfree⟩
    exact ⟨.tooLong, hlook, by simp, fun _ => ⟨hfd, hfree⟩, hsrv'⟩
  rw [if_neg hbig] at hlook ⊢
  by_cases hpart : rest < m.len
  · rw [if_pos hpart] at hlook ⊢
    have hfull : ∀ e, v.Full e → v.TurnFails x off rest e := fun e he => .inl ⟨he, by simp [hlook]⟩
    by_cases hoff : off = 0
    · simp only [hoff, ne_eq, not_true_eq_false, if_false]
      refine ends_map_done (h.resumeRecv hi rest (by omega)) ?_ (hoff ▸ hfull)
      rintro srv' ⟨hroom, hsrv'⟩
      exact ⟨.body, hoff ▸ hlook, fun _ => hroom, by simp, hsrv'⟩
    · simp only [ne_eq, hoff, not_false_eq_true, if_true]
      rw [sizeSub_of_le (by omega) (h.bufCap_lt hi)]
      have hlen' : (compact x.buf off (x.bufCap - rest) junk.past).length = x.bufCap := by
        rw [compact_length _ _ _ _ (by rw [h.bufs.length i x hi]; omega), h.bufs.length i x hi]
      have hb := h.setBuf hi hlen'
      refine ends_map_done (hb.resumeRecv (v.setOp_self i _) rest (by simp only; omega)) ?_ hfull
      rintro srv' ⟨hroom, hsrv'⟩
      refine ⟨.body, hlook, fun _ => hroom, by simp, ?_⟩
      simp only [View.finish, if_neg hoff]
      exact hsrv'
  rw [if_neg hpart] at hlook ⊢
  have hroom : m.len ≤ (x.buf.drop off).length := by
    rw [List.length_drop, h.bufs.length i x hi]
    omega
  by_cases hset : m.msgt = MessageType.setUsername.code
  · rw [if_neg (not_not.mpr hset)] at hlook
    refine ((h.handle hi hc junk hm.symm hroom hset).mono (fun _ hr => hr) fun e he => ?_).bind ?_
    · exact .inl ⟨he, by simp [hlook]⟩
    rintro ⟨srv₁, ret⟩ ⟨hret, hfree, s, hs, hm₁⟩
    obtain rfl : ret = 0 := hret
    simp only [show ¬ ((0 : ℤ) = -1) by decide, if_false]
    exact ⟨m, s, hlook, rfl, rfl, hfree, hs, hm₁⟩
  · rw [if_pos hset] at hlook
    rw [h.handle_refused hi c.node junk hm.symm hset]
    have hlog := h.log (.handled x.clientId m.msgt m.seqid m.payload)
    simp only [ok_bind, if_true]
    refine ends_map_done (hlog.disconnectAndFreeOp (x := x) hi hc c.node) ?_ fun e he =>
      .inr ⟨.inr hlook, he⟩
    rintro srv' ⟨hfd, hsrv', hfree⟩
    refine ⟨.refused, hlook, by simp, fun _ => ⟨hfd, hfree⟩, ?_⟩
    simp only [View.finish, hm]
    exact hsrv'

/-! ## The loop -/

/-- How the loop ends the process: more entries are needed than the queue has room
for, or a descriptor that is not open is closed. -/
def View.LoopFails (v : View) (x : Held) (off rest : ℕ) (e : Halt) : Prop :=
  match scan x.buf off rest with
  | none => e = .exit "SQ is full"
  | some s => (e = .exit "SQ is full" ∧ v.entries < v.sq.length + s.demand) ∨
      (e = .exit "handle_recv close client_fd" ∧ (s.stop = .tooLong ∨ s.stop = .refused) ∧
        v.fds x.clientFd = none ∧ v.sq.length + s.demand ≤ max v.sq.length v.entries)

/-- What the loop leaves behind. -/
structure View.Looped (v : View) (i : ℕ) (x : Held) (off rest : ℕ) (past : ℕ → UInt8) (s : Scan)
    (srv' : Server) : Prop where
  scan : scan x.buf off rest = some s
  answers : ∃ v₁, v.Answers x.clientId x.clientFd s.messages v₁ ∧ srv'.Models (v₁.finish i x s past)
  dropped : s.stop = .tooLong ∨ s.stop = .refused →
    v.fds x.clientFd ≠ none ∧ srv'.Returned i x
  room : v.sq.length + s.demand ≤ max v.sq.length v.entries

theorem View.TurnFails.loopFails {off rest : ℕ} {e : Halt} (h : v.TurnFails x off rest e) :
    v.LoopFails x off rest e := by
  have hscan := scan_look x.buf off rest
  unfold View.LoopFails
  rcases h with ⟨⟨rfl, hfull⟩, hstop⟩ | ⟨hstop, rfl, hfd⟩
  · cases hl : look x.buf off rest with
    | error stop =>
      simp only [hl] at hscan
      rw [hscan]
      refine .inl ⟨rfl, ?_⟩
      simp only [Scan.demand, if_pos (hstop stop hl)]
      omega
    | ok m =>
      simp only [hl] at hscan
      by_cases hz : m.len = 0
      · rw [hscan, if_pos hz]
      · rw [hscan, if_neg hz]
        cases scan x.buf (off + m.len) (rest - m.len) with
        | none => exact rfl
        | some s =>
          refine .inl ⟨rfl, ?_⟩
          simp only [Scan.demand, List.length_cons]
          omega
  · rcases hstop with hl | hl
    · simp only [hl] at hscan
      rw [hscan]
      exact .inr ⟨rfl, .inl rfl, hfd, by simp [Scan.demand]⟩
    · simp only [hl] at hscan
      rw [hscan]
      exact .inr ⟨rfl, .inr rfl, hfd, by simp [Scan.demand]⟩

theorem View.answer_sq_length (v : View) (s : Slot) (id : UInt64) (fd : ℤ) (m : Message) :
    (v.answer s id fd m).sq.length = v.sq.length + 1 := by
  rw [View.answer_sq, List.length_append, List.length_singleton]

section
variable {off rest : ℕ} {m : Message} {s : Slot}

theorem View.Looped.cons {past : ℕ → UInt8} {sc : Scan} {srv' : Server}
    (h : (v.answer s x.clientId x.clientFd m).Looped i x (off + m.len) (rest - m.len) past sc srv')
    (hl : look x.buf off rest = .ok m) (hz : m.len ≠ 0) (hs : v.ops s.op = none)
    (hroom : v.sq.length < v.entries) :
    v.Looped i x off rest past { sc with messages := m :: sc.messages } srv' := by
  obtain ⟨hscan, ⟨v₁, hans, hsrv'⟩, hdrop, hdem⟩ := h
  refine ⟨?_, ⟨v₁, .cons hs hans, hsrv'⟩, by rwa [View.answer_fds] at hdrop, ?_⟩
  · rw [scan_look]
    simp only [hl, if_neg hz, hscan, Option.map_some]
  · rw [View.answer_sq_length, View.answer_entries] at hdem
    simp only [Scan.demand, List.length_cons] at hdem ⊢
    omega

/-- The process ends after a message, which may have been found again and again. -/
theorem View.LoopFails.cons {e : Halt}
    (h : (v.answer s x.clientId x.clientFd m).LoopFails x (off + m.len) (rest - m.len) e)
    (hl : look x.buf off rest = .ok m) (hroom : v.sq.length < v.entries) :
    v.LoopFails x off rest e := by
  have hscan := scan_look x.buf off rest
  simp only [hl] at hscan
  unfold View.LoopFails at h ⊢
  rw [View.answer_sq_length, View.answer_entries, View.answer_fds] at h
  by_cases hz : m.len = 0
  · rw [if_pos hz] at hscan
    rw [hz, Nat.add_zero, Nat.sub_zero, hscan] at h
    rw [hscan]
    exact h
  · rw [hscan, if_neg hz]
    cases hrest : scan x.buf (off + m.len) (rest - m.len) with
    | none =>
      rw [hrest] at h
      exact h
    | some sc =>
      rw [hrest] at h
      rcases h with ⟨rfl, hlt⟩ | ⟨rfl, hstop, hnone, hle⟩
      · refine .inl ⟨rfl, ?_⟩
        simp only [Scan.demand, List.length_cons] at hlt ⊢
        omega
      · refine .inr ⟨rfl, hstop, hnone, ?_⟩
        simp only [Scan.demand, List.length_cons] at hle ⊢
        omega

end

/-- What the loop does from offset `off` on, with `rest` bytes to go. -/
theorem Server.Models.recvLoop (junk : Junk) (fuel : ℕ) {srv : Server} {v : View} {c : Client}
    (off rest : ℕ) (h : srv.Models v) (hi : v.ops i = some x) (hc : v.clients x.clientId = some c)
    (hlen : off + rest ≤ x.bufCap) (hfuel : rest + (v.entries - v.sq.length) < fuel) :
    Ends (Caht.recvLoop c.node i junk fuel srv off rest)
      (fun srv' => ∃ s, v.Looped i x off rest junk.past s srv') (v.LoopFails x off rest) := by
  induction fuel generalizing srv v c off rest with
  | zero => omega
  | succ fuel ih =>
    rw [recvLoop_succ]
    refine ((h.recvTurn hi hc junk off rest hlen).mono (fun _ ht => ht) fun e he => he.loopFails).bind ?_
    intro t ht
    cases t with
    | done srv' =>
      obtain ⟨stop, hl, hroom, hfd, hsrv'⟩ := ht
      have hscan := scan_look x.buf off rest
      simp only [hl] at hscan
      refine ⟨_, hscan, ⟨v, .nil v, hsrv'⟩, hfd, ?_⟩
      simp only [Scan.demand, List.length_nil]
      split_ifs with hstop
      · have hr := hroom hstop
        omega
      · omega
    | next srv₁ off' rest' =>
      obtain ⟨m, s, hl, rfl, rfl, hroom, hs, hm₁⟩ := ht
      obtain ⟨-, -, -, hmlen, -⟩ := look_ok hl
      obtain ⟨c', hc', hnode, -⟩ := v.answer_client s x.clientId x.clientFd m hc
      have hne : i ≠ s.op := fun he => by simp [← he, hi] at hs
      have hi₁ : (v.answer s x.clientId x.clientFd m).ops i = some x := by
        rw [View.answer_ops, Function.update_of_ne hne, hi]
      -- either bytes or queue entries become fewer
      have hloop := ih (off + m.len) (rest - m.len) hm₁ hi₁ hc' (by omega) (by
        rw [View.answer_sq_length, View.answer_entries]
        omega)
      rw [hnode] at hloop
      refine hloop.mono ?_ fun e he => he.cons hl hroom
      rintro srv' ⟨sc, hsc⟩
      by_cases hz : m.len = 0
      · -- the same message would be found again
        have hnone := scan_look x.buf off rest
        simp only [hl, if_pos hz] at hnone
        have hsome := hsc.scan
        rw [hz, Nat.add_zero, Nat.sub_zero, hnone] at hsome
        cases hsome
      · exact ⟨_, hsc.cons hl hz hs hroom⟩

/-- A receive that delivered something, from the first byte on. -/
theorem Server.Models.handleRecv_loop (h : srv.Models v) (hi : v.ops i = some x)
    (hc : v.clients x.clientId = some c) (junk : Junk) {n : ℕ} (hn : 0 < n) (hcap : n ≤ x.bufCap) :
    Ends (Caht.handleRecv srv c.node i n junk) (fun srv' => ∃ s, v.Looped i x 0 n junk.past s srv')
      (v.LoopFails x 0 n) := by
  rw [Caht.handleRecv, if_neg hn.ne', ← h.entries, ← h.sq]
  exact Server.Models.recvLoop junk (n + (v.entries - v.sq.length) + 1) 0 n h hi hc (by omega) (by omega)

theorem View.LoopFails.exit {v : View} {x : Held} {off rest : ℕ} {e : Halt}
    (h : v.LoopFails x off rest e) : ∃ msg, e = .exit msg := by
  unfold View.LoopFails at h
  split at h
  · exact ⟨_, h⟩
  · rcases h with ⟨rfl, -⟩ | ⟨rfl, -⟩ <;> exact ⟨_, rfl⟩

end

end Caht
