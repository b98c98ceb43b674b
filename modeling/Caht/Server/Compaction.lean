import Caht.Server.Pipelining

/-! # The rest of a receive

When the loop of `handle_recv` ends at an incomplete message, the rest of the bytes
has to be at the start of the buffer before more are received behind it. A rest
shorter than a header stays where it is. A longer one is moved, but the length of
the move is the free space behind it and not its own.
-/

namespace Caht
open Library Protocol

/-- The region a turn of the loop moves to the start of the buffer: the arguments of
its `memmove`, if it comes to it. -/
def memmoveSource (op : ℕ) (srv : Server) (off bytesRead : ℕ) : Outcome (Option (ℕ × ℕ)) :=
  if bytesRead < protHdrLen then .ok none else do
    let o ← srv.getOp op
    let buf ← srv.getBuf o.bufRef
    let (reqLen, _, _) := deserHeader (buf.drop off)
    if reqLen.toNat > bufferSize2KB then .ok none
    else if bytesRead < reqLen.toNat ∧ off ≠ 0 then .ok (some (off, sizeSub o.bufCap bytesRead))
    else .ok none

/-- The buffer of `o` starts with the last `r` of the `n` bytes in `buf`, and nothing
behind the buffer was read on the way. -/
structure Compacted (srv : Server) (info i : ℕ) (junk : Junk) (o : Operation) (buf : List UInt8)
    (n r : ℕ) (srv' : Server) : Prop where
  kept : ∃ buf', srv'.getBuf o.bufRef = .ok buf' ∧ buf'.take r = (buf.take n).drop (n - r)
  inside : ∀ k srv₁ off rest p len, Turns info i junk k srv 0 n srv₁ off rest →
    memmoveSource i srv₁ off rest = .ok (some (p, len)) → p + len ≤ 2048

/-- Nothing was consumed; or the rest is shorter than a header and the buffer happens
to start with the same bytes; or it is longer and not shorter than what was consumed,
and what the move leaves out happens to be in place. -/
def StaysWhole (buf : List UInt8) (n r : ℕ) : Prop :=
  r = n ∨ (r < protHdrLen ∧ buf.take r = (buf.drop (n - r)).take r) ∨
    (protHdrLen ≤ r ∧ n - r ≤ r ∧ (r ≤ 1024 ∨ (buf.drop (2048 - r)).take (2 * r - 2048) =
      (buf.drop (n - r + (2048 - r))).take (2 * r - 2048)))

instance (buf : List UInt8) (n r : ℕ) : Decidable (StaysWhole buf n r) :=
  inferInstanceAs (Decidable (_ ∨ _ ∨ _))

/-! ## The last turn -/

theorem recvLoop_turns {info op : ℕ} {junk : Junk} {fuel : ℕ} {srv srv' : Server} {off rest : ℕ}
    (h : recvLoop info op junk fuel srv off rest = .ok srv') : ∃ k srv₁ off₁ rest₁,
      Turns info op junk k srv off rest srv₁ off₁ rest₁ ∧
      recvTurn info op junk srv₁ off₁ rest₁ = .ok (.done srv') := by
  induction fuel generalizing srv off rest with
  | zero => cases h
  | succ fuel ih =>
    rw [recvLoop_succ] at h
    obtain ⟨t, ht, h⟩ := bind_ok_iff.mp h
    cases t with
    | done srv₁ =>
      obtain rfl := Except.ok.inj h
      exact ⟨0, srv, off, rest, .zero srv off rest, ht⟩
    | next srv₁ off₁ rest₁ =>
      obtain ⟨k, srv₂, off₂, rest₂, hk, hdone⟩ := ih h
      exact ⟨k + 1, srv₂, off₂, rest₂, .succ ht hk, hdone⟩

theorem Turns.last_unique {info op : ℕ} {junk : Junk} {k k' : ℕ} {srv srv₁ srv₂ : Server}
    {off rest off₁ rest₁ off₂ rest₂ : ℕ} (h₁ : Turns info op junk k srv off rest srv₁ off₁ rest₁)
    (h₂ : Turns info op junk k' srv off rest srv₂ off₂ rest₂)
    (hs₁ : ∀ s o r, recvTurn info op junk srv₁ off₁ rest₁ ≠ .ok (.next s o r))
    (hs₂ : ∀ s o r, recvTurn info op junk srv₂ off₂ rest₂ ≠ .ok (.next s o r)) :
    srv₁ = srv₂ ∧ off₁ = off₂ ∧ rest₁ = rest₂ := by
  induction h₁ generalizing k' with
  | zero =>
    cases h₂ with
    | zero => exact ⟨rfl, rfl, rfl⟩
    | succ h _ => exact absurd h (hs₁ _ _ _)
  | succ h _ ih =>
    cases h₂ with
    | zero => exact absurd h (hs₂ _ _ _)
    | succ h' h₂ =>
      obtain ⟨rfl, rfl, rfl⟩ := Turn.next.inj (Except.ok.inj (h.symm.trans h'))
      exact ih h₂ hs₁

section
variable {srv : Server} {v : View} {i : ℕ} {x : Held}

theorem Server.Models.memmoveSource (h : srv.Models v) (hi : v.ops i = some x) {off rest : ℕ}
    (hlen : rest ≤ x.bufCap) :
    Caht.memmoveSource i srv off rest = .ok (if look x.buf off rest = .error .body ∧ off ≠ 0 then
      some (off, x.bufCap - rest) else none) := by
  have hbody : look x.buf off rest = .error .body ↔ _ := look_body_iff
  rw [Caht.memmoveSource]
  by_cases hrest : rest < protHdrLen
  · rw [if_pos hrest, if_neg (fun hb => absurd (hbody.mp hb.1).1 (by omega))]
  rw [if_neg hrest]
  simp only [h.getOp hi, ok_bind]
  simp only [Held.operation, h.getBuf hi, ok_bind, sizeSub_of_le hlen (h.bufCap_lt hi)]
  have hm : (deserHeader (x.buf.drop off)).1.toNat = (readMessage (x.buf.drop off)).len := rfl
  simp only [hm]
  by_cases hbig : (readMessage (x.buf.drop off)).len > bufferSize2KB
  · rw [if_pos hbig, if_neg (fun hb => absurd (hbody.mp hb.1).2.1 (by omega))]
  rw [if_neg hbig]
  by_cases hb : rest < (readMessage (x.buf.drop off)).len ∧ off ≠ 0
  · rw [if_pos hb, if_pos ⟨hbody.mpr ⟨by omega, by omega, hb.1⟩, hb.2⟩]
  · rw [if_neg hb, if_neg (fun hb' => hb ⟨(hbody.mp hb'.1).2.2, hb'.2⟩)]

/-- Only the last turn moves anything, and it stays inside the buffer if there is more
to keep than was consumed. -/
theorem Turns.inside_iff {srv₁ srv' : Server} {c : Client} {junk : Junk} {k off rest n : ℕ}
    (ht : Turns c.node i junk k srv 0 n srv₁ off rest) (h : srv.Models v) (hi : v.ops i = some x)
    (hc : v.clients x.clientId = some c) (hcap : x.bufCap = 2048) (hn : n ≤ 2048)
    (hdone : recvTurn c.node i junk srv₁ off rest = .ok (.done srv')) :
    (∀ k srv₁ off rest p len, Turns c.node i junk k srv 0 n srv₁ off rest →
      memmoveSource i srv₁ off rest = .ok (some (p, len)) → p + len ≤ 2048) ↔
    (look x.buf off rest = .error .body → off ≤ rest) := by
  obtain ⟨v₁, c₁, hm₁, hi₁, -, -, hsum, -, -⟩ := ht.reach h hi hc (by omega)
  constructor
  · intro hinside hbody
    by_contra hlt
    have hmove : memmoveSource i srv₁ off rest = .ok (some (off, x.bufCap - rest)) := by
      rw [hm₁.memmoveSource hi₁ (by omega), if_pos ⟨hbody, by omega⟩]
    have hle := hinside _ _ _ _ _ _ ht hmove
    omega
  · intro hle k₂ srv₂ off₂ rest₂ p len ht₂ hmove
    obtain ⟨v₂, c₂, hm₂, hi₂, hc₂, hnode₂, hsum₂, -, -⟩ := ht₂.reach h hi hc (by omega)
    rw [hm₂.memmoveSource hi₂ (by omega)] at hmove
    split_ifs at hmove with hbody
    · obtain ⟨rfl, rfl⟩ := Prod.mk.inj (Option.some.inj (Except.ok.inj hmove))
      have hstop₂ : ∀ s o r, recvTurn c.node i junk srv₂ off₂ rest₂ ≠ .ok (.next s o r) := by
        intro s o r hnext
        rw [← hnode₂] at hnext
        obtain ⟨m, -, -, hl, -⟩ := hm₂.next hi₂ hc₂ (by omega) hnext
        rw [hbody.1] at hl
        cases hl
      have hstop : ∀ s o r, recvTurn c.node i junk srv₁ off rest ≠ .ok (.next s o r) := by
        intro s o r hnext
        cases hdone.symm.trans hnext
      obtain ⟨rfl, rfl, rfl⟩ := ht.last_unique ht₂ hstop hstop₂
      have hoff := hle hbody.1
      omega
    · cases hmove

end

/-! ## The bytes -/

theorem compact_take_iff {buf : List UInt8} {off r : ℕ} (past : ℕ → UInt8) (hbuf : buf.length = 2048)
    (hr : off + r ≤ 2048) (hle : off ≤ r) :
    (compact buf off (2048 - r) past).take r = (buf.drop off).take r ↔
      (r ≤ 1024 ∨ (buf.drop (2048 - r)).take (2 * r - 2048) =
        (buf.drop (off + (2048 - r))).take (2 * r - 2048)) := by
  have hlen : ((buf.drop off).take (2048 - r)).length = 2048 - r := by
    rw [List.length_take, List.length_drop]
    omega
  have hc : compact buf off (2048 - r) past =
      (buf.drop off).take (2048 - r) ++ buf.drop (2048 - r) := by
    rw [compact, show 2048 - r - (buf.length - off) = 0 by omega, List.range_zero, List.map_nil,
      List.append_nil, writeAt_zero, hlen]
  rw [hc]
  by_cases hsmall : r ≤ 1024
  · simp only [hsmall, true_or, iff_true]
    rw [List.take_append_of_le_length (by omega), List.take_take, min_eq_left (by omega)]
  · have hsplit : (buf.drop off).take r = (buf.drop off).take (2048 - r) ++
        (buf.drop (off + (2048 - r))).take (2 * r - 2048) := by
      have hadd : 2048 - r + (2 * r - 2048) = r := by omega
      rw [← List.drop_drop, ← List.take_add, hadd]
    rw [hsplit, List.take_append, List.take_of_length_le (by omega), hlen, List.append_cancel_left_eq,
      show r - (2048 - r) = 2 * r - 2048 by omega]
    simp only [hsmall, false_or]

theorem staysWhole_iff_header {buf : List UInt8} {off r : ℕ} (hr : r < protHdrLen) :
    StaysWhole buf (off + r) r ↔ buf.take r = (buf.drop off).take r := by
  rw [StaysWhole, Nat.add_sub_cancel]
  constructor
  · rintro (hall | ⟨-, hsame⟩ | ⟨hge, -⟩)
    · obtain rfl : off = 0 := by omega
      rfl
    · exact hsame
    · omega
  · exact fun hsame => .inr (.inl ⟨hr, hsame⟩)

theorem staysWhole_iff_moved {buf : List UInt8} {off r : ℕ} (past : ℕ → UInt8) (hbuf : buf.length = 2048)
    (hr : protHdrLen ≤ r) (hn : off + r ≤ 2048) (hoff : off ≠ 0) : StaysWhole buf (off + r) r ↔
      (compact buf off (2048 - r) past).take r = (buf.drop off).take r ∧ off ≤ r := by
  rw [StaysWhole, Nat.add_sub_cancel]
  constructor
  · rintro (hall | ⟨hlt, -⟩ | ⟨-, hle, hsame⟩)
    · omega
    · omega
    · exact ⟨(compact_take_iff past hbuf hn hle).mpr hsame, hle⟩
  · rintro ⟨hkept, hle⟩
    exact .inr (.inr ⟨hr, hle, (compact_take_iff past hbuf hn hle).mp hkept⟩)

/-- What there is to show about the buffer `buf'` the loop ends with. -/
theorem compacted_iff {srv srv' : Server} {info i : ℕ} {junk : Junk} {o : Operation}
    {buf buf' : List UInt8} {off r : ℕ} {inner : Prop} (hget : srv'.getBuf o.bufRef = .ok buf')
    (hinside : (∀ k srv₁ off' rest p len, Turns info i junk k srv 0 (off + r) srv₁ off' rest →
      memmoveSource i srv₁ off' rest = .ok (some (p, len)) → p + len ≤ 2048) ↔ inner) :
    Compacted srv info i junk o buf (off + r) r srv' ↔
      buf'.take r = (buf.drop off).take r ∧ inner := by
  have hlast : (buf.take (off + r)).drop (off + r - r) = (buf.drop off).take r := by
    rw [List.drop_take, Nat.add_sub_cancel, Nat.add_sub_cancel_left]
  rw [← hinside, ← hlast]
  constructor
  · rintro ⟨⟨buf'', hget', hkept⟩, hin⟩
    obtain rfl := Except.ok.inj (hget.symm.trans hget')
    exact ⟨hkept, hin⟩
  · rintro ⟨hkept, hin⟩
    exact ⟨⟨buf', hget, hkept⟩, hin⟩

/-- In every reachable state, and for every receive after which the rest of the bytes
is waited for: the rest is at the start of the buffer, and the move read nothing
outside, exactly under `StaysWhole`. -/
theorem recv_compacts_iff (w : World) (i : ℕ) (o : Operation) (info : ℕ) (buf : List UInt8) (n r : ℕ)
    (junk : Junk) (cqe : Cqe) (srv' : Server) (fd : ℤ) (b len : ℕ) (hw : w.Receives i o info)
    (hcq : cqe ∈ w.cq) (hid : cqe.sqe.userData = i) (hbuf : buf.length = 2048)
    (hn : 1 ≤ n ∧ n ≤ 2048)
    (hrun : handleRecv (w.srv.setBuf o.bufRef buf) info i n junk = .ok srv')
    (hend : srv'.ring.sq.getLast? = some ⟨i, .recv fd b r len⟩) :
    Compacted (w.srv.setBuf o.bufRef buf) info i junk o buf n r srv' ↔ StaysWhole buf n r := by
  obtain ⟨v, x, c, hs⟩ := hw.seen hbuf
  obtain rfl := hs.node
  obtain rfl := hs.operation
  obtain rfl := hs.buf
  rw [handleRecv, if_neg (by omega)] at hrun
  obtain ⟨k, srv₁, off, rest, ht, hdone⟩ := recvLoop_turns hrun
  have hcap := hs.bufCap
  have hinside := ht.inside_iff hs.models hs.op hs.client hcap hn.2 hdone
  obtain ⟨v₁, c₁, hm₁, hi₁, hc₁, hnode, hsum, hold, -⟩ := ht.reach hs.models hs.op hs.client (by omega)
  rw [← hnode] at hdone
  obtain ⟨stop, hl, -, -, hsrv'⟩ := (hm₁.recvTurn hi₁ hc₁ junk off rest (by omega)).ok hdone
  rw [← hsrv'.sq] at hend
  have hf := v₁.finishes i x ⟨[], off, rest, stop⟩ junk.past
  have hnew : (⟨i, .recv fd b r len⟩ : Sqe) ∉ v₁.sq := hs.not_queued hcq hid rfl (hold _)
  obtain ⟨hstop, he⟩ := hf.rearmed (List.mem_of_getLast? hend) hnew
  simp only [Sqe.mk.injEq, Request.recv.injEq] at he
  obtain rfl : rest = r := he.2.2.2.1.symm
  obtain rfl : n = off + rest := by omega
  rcases hstop with rfl | rfl
  · -- the rest is shorter than a header and stays where it is
    rw [staysWhole_iff_header (look_header hl), compacted_iff (hsrv'.getBuf (x := x) hi₁) hinside, hl]
    simp
  · obtain ⟨hge, -, -⟩ := look_body_iff.mp hl
    have hinner : (look x.buf off rest = .error .body → off ≤ rest) ↔ off ≤ rest :=
      ⟨fun h => h hl, fun h _ => h⟩
    rw [hinner] at hinside
    by_cases hz : off = 0
    · subst hz
      simp only [View.finish, if_true] at hsrv'
      rw [compacted_iff (hsrv'.getBuf (x := x) hi₁) hinside]
      exact ⟨fun _ => .inl (Nat.zero_add _).symm, fun _ => ⟨rfl, Nat.zero_le _⟩⟩
    · simp only [View.finish, if_neg hz, hcap] at hsrv'
      rw [compacted_iff (hsrv'.getBuf (View.setOp_self _ i _)) hinside]
      exact (staysWhole_iff_moved junk.past hbuf hge (by omega) hz).symm

/-- Fourteen bytes of a message and twenty of a longer one, which are moved. -/
def moved : List UInt8 := [0, 14, 1, 0, 0, 0, 0, 0, 0, 0, 7, 97, 98, 99] ++
  [0, 100, 1, 0, 0, 0, 0, 0, 0, 0, 8] ++ List.replicate 9 97

theorem recv_compacts_moved : ∃ (w : World) (srv' : Server), w.Receives 0 firstRecv 0 ∧
    Compacted (w.srv.setBuf firstRecv.bufRef (moved ++ List.replicate 2014 0)) 0 0 .zero firstRecv
      (moved ++ List.replicate 2014 0) 34 20 srv' := by
  obtain ⟨w, hw, hrecv⟩ := World.delivered_receives
    (show (World.delivered moved).map _ = _ by decide +kernel)
  have hend : (World.delivered moved).map (fun w => (w.cq.map (fun c => c.sqe.userData),
      (handleRecv (w.srv.setBuf firstRecv.bufRef (moved ++ List.replicate 2014 0)) 0 0 34
        .zero).toOption.bind (fun srv' => srv'.ring.sq.getLast?))) =
        some ([0], some ⟨0, .recv 5 127 20 2028⟩) := by
    decide +kernel
  rw [hw, Option.map_some] at hend
  obtain ⟨hcq, hend⟩ := Prod.mk.inj (Option.some.inj hend)
  obtain ⟨cqe, hmem, hid⟩ := List.mem_map.mp (hcq ▸ List.mem_singleton_self 0)
  obtain ⟨srv', hok, hlast⟩ := Option.bind_eq_some_iff.mp hend
  refine ⟨w, srv', hrecv, (recv_compacts_iff w 0 firstRecv 0 (moved ++ List.replicate 2014 0) 34 20
    .zero cqe srv' 5 127 2028 hrecv hmem hid ?_ (by decide) (toOption_eq_some.mp hok) hlast).mpr
      (by decide)⟩
  rw [List.length_append, List.length_replicate]
  rfl

/-- Behind a whole message there is one more byte, 9. The next receive is to go behind
it, but the buffer still starts with the byte 0 of the message. -/
def behind : List UInt8 := [0, 14, 1, 0, 0, 0, 0, 0, 0, 0, 7, 97, 98, 99] ++ [9]

theorem recv_leaves_rest_behind : ∃ (w : World) (srv' : Server), w.Receives 0 firstRecv 0 ∧
    w.cq.map (fun c => (c.sqe.userData, c.res)) = [(0, 15)] ∧
    handleRecv (w.srv.setBuf firstRecv.bufRef (behind ++ List.replicate 2033 0)) 0 0 15 .zero =
      .ok srv' ∧
    srv'.ring.sq.getLast? = some ⟨0, .recv 5 127 1 2047⟩ ∧
    ¬ Compacted (w.srv.setBuf firstRecv.bufRef (behind ++ List.replicate 2033 0)) 0 0 .zero firstRecv
      (behind ++ List.replicate 2033 0) 15 1 srv' := by
  obtain ⟨w, hw, hrecv⟩ := World.delivered_receives
    (show (World.delivered behind).map _ = _ by decide +kernel)
  have hend : (World.delivered behind).map (fun w => (w.cq.map (fun c => (c.sqe.userData, c.res)),
      (handleRecv (w.srv.setBuf firstRecv.bufRef (behind ++ List.replicate 2033 0)) 0 0 15
        .zero).toOption.map (fun srv' => (srv'.ring.sq.getLast?,
          (srv'.getBuf (some 127)).toOption.map (List.take 1))))) =
        some ([(0, 15)], some (some ⟨0, .recv 5 127 1 2047⟩, some [0])) := by
    decide +kernel
  rw [hw, Option.map_some] at hend
  obtain ⟨hcq, hend⟩ := Prod.mk.inj (Option.some.inj hend)
  obtain ⟨srv', hok, hres'⟩ := Option.map_eq_some_iff.mp hend
  obtain ⟨hlast, hbuf⟩ := Prod.mk.inj hres'
  refine ⟨w, srv', hrecv, hcq, toOption_eq_some.mp hok, hlast, ?_⟩
  rintro ⟨⟨buf', hget, hkept⟩, -⟩
  rw [show firstRecv.bufRef = some 127 from rfl] at hget
  rw [hget] at hbuf
  have htake : buf'.take 1 = [0] := Option.some.inj hbuf
  rw [htake] at hkept
  exact absurd hkept (by decide)

end Caht
