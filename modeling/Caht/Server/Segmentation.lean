import Caht.Server.Conversation
import Mathlib.Data.List.TakeWhile

/-! # Messages and segments

A client sends a stream of frames and `recv` returns it in pieces. As long as every
piece starts where a frame starts, `handle` is given the frames that have arrived,
whatever the pieces. A piece that starts inside a frame is not parsed together with
what came before: `handle_recv` is only told the length of the last piece.
-/

namespace Caht
open Library Protocol

/-- A message that fits into a receive buffer. -/
structure Frame where
  msgt : UInt8
  seqid : UInt64
  payload : List UInt8
  fits : protHdrLen + payload.length ≤ bufferSize2KB

def Frame.bytes (f : Frame) : List UInt8 := frame f.msgt f.seqid f.payload

def Frame.message (f : Frame) : UInt8 × UInt64 × List UInt8 := (f.msgt, f.seqid, f.payload)

def stream (fs : List Frame) : List UInt8 := fs.flatMap Frame.bytes

/-- The frames that are complete after `n` bytes. -/
def arrived : List Frame → ℕ → List Frame
  | [], _ => []
  | f :: fs, n => if f.bytes.length ≤ n then f :: arrived fs (n - f.bytes.length) else []

def Frame.Accepted (f : Frame) : Prop := f.msgt = MessageType.setUsername.code

instance (f : Frame) : Decidable f.Accepted := inferInstanceAs (Decidable (_ = _))

/-- The frames up to the first one for which `handle` returns `-1`. -/
def untilRefused : List Frame → List Frame
  | [] => []
  | f :: fs => if f.Accepted then f :: untilRefused fs else [f]

def Event.message : Event → Option (UInt8 × UInt64 × List UInt8)
  | .handled _ msgt seqid payload => some (msgt, seqid, payload)
  | _ => none

def Event.piece : Event → Option (List UInt8)
  | .completed _ .read res data => if 0 < res then some data else none
  | _ => none

def Event.isClosed : Event → Bool
  | .closed _ _ => true
  | _ => false

/-- The messages that were passed to `handle`. -/
def handledIn (l : List Event) : List (UInt8 × UInt64 × List UInt8) := l.filterMap Event.message

/-- The pieces `recv` returned until the client was dropped. -/
def pieces (l : List Event) : List (List UInt8) :=
  (l.takeWhile fun e => !e.isClosed).filterMap Event.piece

/-- Every piece starts where a frame starts. -/
def Aligned (fs : List Frame) (ds : List (List UInt8)) : Prop :=
  ∀ ds₁ d ds₂, ds = ds₁ ++ d :: ds₂ → ∃ j, ds₁.flatten = stream (fs.take j)

/-! ## Frames -/

section
variable {f : Frame} {fs fs' : List Frame} {n : ℕ}

theorem Frame.bytes_length (f : Frame) : f.bytes.length = protHdrLen + f.payload.length :=
  frame_length _ _ _

theorem stream_cons : stream (f :: fs) = f.bytes ++ stream fs := List.flatMap_cons

theorem stream_append : stream (fs ++ fs') = stream fs ++ stream fs' := List.flatMap_append

theorem arrived_append : arrived (fs ++ fs') ((stream fs).length + n) = fs ++ arrived fs' n := by
  induction fs with
  | nil => simp [stream]
  | cons f fs ih =>
    rw [stream_cons, List.length_append, List.cons_append, arrived, if_pos (by omega), Nat.add_assoc,
      Nat.add_sub_cancel_left, ih, List.cons_append]

theorem untilRefused_append (h : ∀ f ∈ fs, f.Accepted) :
    untilRefused (fs ++ fs') = fs ++ untilRefused fs' := by
  induction fs with
  | nil => rfl
  | cons f fs ih =>
    rw [List.cons_append, untilRefused, if_pos (h f List.mem_cons_self),
      ih fun g hg => h g (List.mem_cons_of_mem _ hg), List.cons_append]

theorem untilRefused_eq (h : ∀ f ∈ fs, f.Accepted) : untilRefused fs = fs := by
  have happ : untilRefused (fs ++ []) = fs ++ untilRefused [] := untilRefused_append h
  simpa [untilRefused] using happ

theorem readMessage_frame (f : Frame) (rest : List UInt8) :
    readMessage (f.bytes ++ rest) = ⟨f.bytes.length, f.msgt, f.seqid, f.payload⟩ := by
  have hfit := f.fits
  have h16 : 11 + f.payload.length < 2 ^ 16 := by
    simp only [protHdrLen, bufferSize2KB] at hfit
    omega
  have hlen : (UInt16.ofNat (11 + f.payload.length)).toNat = f.bytes.length := by
    rw [UInt16.toNat_ofNat', Nat.mod_eq_of_lt h16, f.bytes_length, protHdrLen]
  have hd : ((f.bytes ++ rest).take f.bytes.length).drop protHdrLen = f.payload := by
    have hdrop := frame_drop f.msgt f.seqid f.payload []
    rw [List.append_nil, List.append_nil] at hdrop
    rw [List.take_left]
    exact hdrop
  rw [readMessage, Frame.bytes, deserHeader_frame _ _ _ _ h16]
  simp only [hlen]
  exact congrArg (Message.mk _ _ _) hd

theorem arrived_of_lt (h : n < protHdrLen) : arrived fs n = [] := by
  cases fs with
  | nil => rfl
  | cons f fs =>
    have hlen := f.bytes_length
    rw [arrived, if_neg (by omega)]

/-- The messages of a scan, the refused one included. -/
def Scan.seen (s : Scan) (buf : List UInt8) : List Message :=
  if s.stop = .refused then s.messages ++ [readMessage (buf.drop s.off)] else s.messages

/-- What `handle` is given of a message. -/
def Message.parts (m : Message) : UInt8 × UInt64 × List UInt8 := (m.msgt, m.seqid, m.payload)

/-- The loop on a buffer that has the bytes `d` of a stream of frames at `pre.length`. -/
theorem scan_stream (fs : List Frame) (pre d tail extra : List UInt8) (h : d ++ tail = stream fs) :
    ∃ s, scan (pre ++ (d ++ extra)) pre.length d.length = some s ∧
      (s.seen (pre ++ (d ++ extra))).map Message.parts =
        (untilRefused (arrived fs d.length)).map Frame.message ∧
      (s.stop = .refused ∨ (s.stop = .header ∨ s.stop = .body) ∧
        (∀ f ∈ arrived fs d.length, f.Accepted) ∧
        s.rest + (stream (arrived fs d.length)).length = d.length) := by
  induction fs generalizing pre d with
  | nil =>
    obtain ⟨rfl, -⟩ := List.append_eq_nil_iff.mp h
    rw [scan_eq, if_pos (by decide)]
    exact ⟨_, rfl, rfl, .inr ⟨.inl rfl, by simp [arrived], rfl⟩⟩
  | cons f fs ih =>
    rw [scan_eq, List.drop_left]
    by_cases hshort : d.length < protHdrLen
    · rw [if_pos hshort, arrived_of_lt hshort]
      exact ⟨_, rfl, rfl, .inr ⟨.inl rfl, by simp, rfl⟩⟩
    rw [if_neg hshort]
    have hlen := f.bytes_length
    have hfit := f.fits
    rw [stream_cons] at h
    by_cases hpart : d.length < f.bytes.length
    · -- the header is there, and the length in it is the one of the frame
      obtain ⟨d', hd'⟩ : d <+: f.bytes :=
        List.prefix_of_prefix_length_le ⟨_, h⟩ ⟨_, rfl⟩ hpart.le
      have hread : (readMessage (d ++ extra)).len = f.bytes.length := by
        have hwhole := readMessage_frame f []
        rw [List.append_nil, ← hd'] at hwhole
        rw [(readMessage_append (not_lt.mp hshort)).1, ← (readMessage_append (not_lt.mp hshort)).1,
          hwhole, hd']
      rw [hread, if_neg (by omega), if_pos hpart, arrived, if_neg (by omega)]
      exact ⟨_, rfl, rfl, .inr ⟨.inr rfl, by simp, rfl⟩⟩
    · obtain ⟨d', rfl⟩ : f.bytes <+: d :=
        List.prefix_of_prefix_length_le ⟨_, rfl⟩ ⟨_, h⟩ (not_lt.mp hpart)
      rw [List.append_assoc, List.append_cancel_left_eq] at h
      have hd' : (f.bytes ++ d').length - f.bytes.length = d'.length := by simp
      rw [List.append_assoc f.bytes, readMessage_frame, if_neg (by simp only; omega), if_neg hpart,
        arrived, if_pos (not_lt.mp hpart), untilRefused, hd']
      by_cases hacc : f.Accepted
      · obtain ⟨s, hs, hseen, hstop⟩ := ih (pre ++ f.bytes) d' h
        rw [List.length_append, List.append_assoc] at hs
        rw [List.append_assoc] at hseen
        have hpos : f.bytes.length ≠ 0 := by
          rw [hlen, protHdrLen]
          omega
        have hset : f.msgt = MessageType.setUsername.code := hacc
        rw [if_neg (not_not.mpr hset), if_neg hpos, if_pos hacc, hs]
        refine ⟨_, rfl, ?_, ?_⟩
        · rw [List.map_cons, ← hseen]
          simp only [Scan.seen]
          split <;> rfl
        · refine hstop.imp id ?_
          rintro ⟨hst, hall, hrest⟩
          refine ⟨hst, ?_, ?_⟩
          · simpa [hacc] using hall
          · rw [stream_cons, List.length_append, List.length_append]
            simp only
            omega
      · have hset : f.msgt ≠ MessageType.setUsername.code := hacc
        rw [if_pos hset, if_neg hacc]
        refine ⟨_, rfl, ?_, .inl rfl⟩
        simp only [Scan.seen, List.drop_left, readMessage_frame]
        rfl

end

/-! ## Pieces -/

section
variable {c : UInt64} {l out : List Event} {fs : List Frame} {ds : List (List UInt8)}
  {d : List UInt8} {k : Completion}

theorem Aligned.left (h : Aligned fs (ds ++ [d])) : Aligned fs ds := by
  rintro ds₁ d₁ ds₂ rfl
  exact h ds₁ d₁ (ds₂ ++ [d]) (by simp)

theorem handledIn_append {l' : List Event} : handledIn (l ++ l') = handledIn l ++ handledIn l' :=
  List.filterMap_append

theorem handledIn_events (ms : List Message) (op : ℕ) :
    handledIn (ms.flatMap (·.events c op)) = ms.map Message.parts := by
  induction ms with
  | nil => rfl
  | cons m ms ih =>
    rw [List.flatMap_cons, handledIn_append, ih, List.map_cons]
    unfold Message.events
    split <;> rfl

theorem pieces_of_reaction (h : ∀ e ∈ out, e.Reaction) : pieces out = [] := by
  rw [pieces, List.filterMap_eq_nil_iff]
  intro e he
  have hre := h e ((List.takeWhile_sublist _).subset he)
  cases e <;> first | rfl | exact hre.elim

theorem pieces_append (hl : ∀ e ∈ l, e.isClosed = false) : pieces (l ++ out) = pieces l ++ pieces out := by
  have hall : ∀ e ∈ l, (!e.isClosed) = true := fun e he => by rw [hl e he]; rfl
  have htake : l.takeWhile (fun e => !e.isClosed) = l := List.takeWhile_eq_self_iff.mpr hall
  rw [pieces, List.takeWhile_append_of_pos hall, List.filterMap_append, pieces, htake, pieces]

theorem pieces_closed (hl : ∃ e ∈ l, e.isClosed) : pieces (l ++ out) = pieces l := by
  have htake : (l ++ out).takeWhile (fun e => !e.isClosed) = l.takeWhile fun e => !e.isClosed := by
    obtain ⟨e, he, hec⟩ := hl
    rw [List.takeWhile_append, if_neg]
    intro hlen
    have hself := (List.takeWhile_prefix fun e : Event => !e.isClosed).eq_of_length hlen
    have hopen := List.takeWhile_eq_self_iff.mp hself e he
    simp [hec] at hopen
  rw [pieces, htake, pieces]

theorem pieces_completed (hl : ∀ e ∈ l, e.isClosed = false) (hout : ∀ e ∈ out, e.Reaction) :
    pieces (l ++ .completed c k.type k.res k.data :: out) =
      pieces l ++ if k.type = .read ∧ 0 < k.res then [k.data] else [] := by
  have hone : pieces [.completed c k.type k.res k.data] =
      if k.type = .read ∧ 0 < k.res then [k.data] else [] := by
    rcases k with ⟨type, res, data⟩
    cases type <;> by_cases hres : 0 < res <;> simp [pieces, Event.isClosed, Event.piece, hres]
  rw [List.append_cons, pieces_append (l := l ++ [_]), pieces_append hl, hone, pieces_of_reaction hout,
    List.append_nil]
  intro e he
  rcases List.mem_append.mp he with he | he
  · exact hl e he
  · rw [List.mem_singleton.mp he]
    rfl

theorem pieces_cons (e : Event) (l : List Event) :
    pieces (e :: l) = if e.isClosed then [] else e.piece.toList ++ pieces l := by
  cases hc : e.isClosed with
  | true => simp [pieces, hc]
  | false => cases hp : e.piece <;> simp [pieces, hc, hp]

theorem handledIn_cons (e : Event) (l : List Event) :
    handledIn (e :: l) = e.message.toList ++ handledIn l := by
  cases he : e.message <;> simp [handledIn, he]

theorem Event.seen_parsed (e : Event) :
    e.seen.isClosed = e.isClosed ∧ e.seen.piece = e.piece ∧ e.seen.message = e.message := by
  cases e <;> exact ⟨rfl, rfl, rfl⟩

/-- What a client sees of its log has the same pieces and messages. -/
theorem conversation_parsed (c : UInt64) (l : List Event) :
    pieces (conversation c l) = pieces (history c l) ∧
      handledIn (conversation c l) = handledIn (history c l) := by
  rw [conversation]
  generalize history c l = l
  induction l with
  | nil => exact ⟨rfl, rfl⟩
  | cons e l ih =>
    obtain ⟨hp, hh⟩ := ih
    by_cases he : e = .entered c
    · rw [List.filter_cons_of_neg (by simp [he]), hp, hh, pieces_cons, handledIn_cons, he]
      exact ⟨rfl, rfl⟩
    · obtain ⟨hc, hpi, hm⟩ := e.seen_parsed
      rw [List.filter_cons_of_pos (by simp [he]), List.map_cons, pieces_cons, pieces_cons,
        handledIn_cons, handledIn_cons, hc, hpi, hm, hp, hh]
      exact ⟨rfl, rfl⟩

/-! ## Phases -/

/-- The messages that were handled, when the pieces cut a stream of frames at
boundaries. -/
def Phase.Parsed (fs : List Frame) (p : Phase) (l : List Event) : Prop :=
  match p with
  | .waiting => l = []
  | .connected _ _ off => (∀ e ∈ l, e.isClosed = false) ∧
      ((pieces l).flatten <+: stream fs → Aligned fs (pieces l) →
        (∀ f ∈ arrived fs (pieces l).flatten.length, f.Accepted) ∧
        handledIn l = (arrived fs (pieces l).flatten.length).map Frame.message ∧
        off + (stream (arrived fs (pieces l).flatten.length)).length = (pieces l).flatten.length)
  | .gone => (∃ e ∈ l, e.isClosed) ∧
      ((pieces l).flatten <+: stream fs → Aligned fs (pieces l) →
        handledIn l = (untilRefused (arrived fs (pieces l).flatten.length)).map Frame.message)

theorem Phase.step_reaction (c : UInt64) (p : Phase) (k : Completion) :
    ∀ e ∈ (p.step c k).2, e.Reaction := by
  have hevents : ∀ (ms : List Message), ∀ e ∈ ms.flatMap (·.events c 0), e.Reaction := by
    intro ms e he
    obtain ⟨m, -, hm⟩ := List.mem_flatMap.mp he
    unfold Message.events at hm
    split at hm <;> simp at hm <;> rcases hm with rfl | rfl | rfl <;> trivial
  unfold Phase.step
  split
  · simp
  · simp
  · split
    · simp [Event.Reaction]
    split
    · simp
    simp only
    split
    · simp
    · unfold Phase.settle
      split
      · exact hevents _
      · exact hevents _
      · intro e he
        rcases List.mem_append.mp he with he | he
        · exact hevents _ e he
        · simp at he
          subst he
          trivial
      · intro e he
        rcases List.mem_append.mp he with he | he
        · exact hevents _ e he
        · simp at he
          rcases he with rfl | rfl <;> trivial

theorem parsed_quiet (hl : ∀ e ∈ l, e.isClosed = false) (hk : ¬ (k.type = .read ∧ 0 < k.res))
    (hout : ∀ e ∈ out, e.Reaction) (hnone : handledIn out = []) :
    pieces (l ++ .completed c k.type k.res k.data :: out) = pieces l ∧
      handledIn (l ++ .completed c k.type k.res k.data :: out) = handledIn l := by
  rw [pieces_completed hl hout, if_neg hk, List.append_nil, handledIn_append, handledIn_cons, hnone]
  exact ⟨rfl, List.append_nil _⟩

theorem arrived_boundary {j : ℕ} (hj : ds.flatten = stream (fs.take j)) (n : ℕ) :
    arrived fs (ds.flatten.length + n) = fs.take j ++ arrived (fs.drop j) n := by
  have happ : arrived (fs.take j ++ fs.drop j) ((stream (fs.take j)).length + n) =
      fs.take j ++ arrived (fs.drop j) n := arrived_append
  rwa [List.take_append_drop, ← hj] at happ

theorem Phase.settle_handledIn (c : UInt64) (fd : ℤ) (buf : List UInt8) (s : Scan) :
    handledIn (Phase.settle c fd buf s).2 = (s.seen buf).map Message.parts := by
  have hclosed : handledIn [.closed c fd] = [] := rfl
  unfold Phase.settle Scan.seen
  cases s.stop with
  | header => simp [handledIn_events]
  | body => simp [handledIn_events]
  | tooLong => simp [handledIn_append, handledIn_events, hclosed]
  | refused =>
    simp [handledIn_append, handledIn_events, handledIn_cons, hclosed, Event.message, Message.parts]

theorem Phase.settle_open (c : UInt64) (fd : ℤ) (buf : List UInt8) {s : Scan}
    (h : s.stop = .header ∨ s.stop = .body) :
    (∃ known, (Phase.settle c fd buf s).1 = .connected fd known s.rest) ∧
      ∀ e ∈ (Phase.settle c fd buf s).2, e.isClosed = false := by
  have hevents : ∀ e ∈ s.messages.flatMap (·.events c 0), e.isClosed = false := by
    intro e he
    obtain ⟨m, -, hm⟩ := List.mem_flatMap.mp he
    unfold Message.events at hm
    split at hm <;> simp at hm <;> rcases hm with rfl | rfl | rfl <;> rfl
  unfold Phase.settle
  rcases h with hst | hst
  · simp only [hst]
    exact ⟨⟨_, rfl⟩, hevents⟩
  · simp only [hst]
    exact ⟨⟨_, rfl⟩, hevents⟩

theorem Phase.settle_gone (c : UInt64) (fd : ℤ) (buf : List UInt8) {s : Scan}
    (h : s.stop = .tooLong ∨ s.stop = .refused) :
    (Phase.settle c fd buf s).1 = .gone ∧ ∃ e ∈ (Phase.settle c fd buf s).2, e.isClosed := by
  unfold Phase.settle
  rcases h with hst | hst
  · simp only [hst]
    exact ⟨trivial, .closed c fd, by simp, rfl⟩
  · simp only [hst]
    exact ⟨trivial, .closed c fd, by simp, rfl⟩

/-- What the loop finds in a piece that starts at a boundary: the frames `a` were
handled before, the frames `b` have arrived with the piece. -/
theorem Phase.Parsed.scan {fd : ℤ} {known : List UInt8} {off : ℕ}
    (h : (Phase.connected fd known off).Parsed fs l)
    (hpre : (pieces l ++ [d]).flatten <+: stream fs) (hal : Aligned fs (pieces l ++ [d])) :
    ∃ s a b, Caht.scan (writeAt known off d) 0 d.length = some s ∧
      arrived fs (pieces l ++ [d]).flatten.length = a ++ b ∧ (∀ f ∈ a, f.Accepted) ∧
      handledIn l = a.map Frame.message ∧
      (s.seen (writeAt known off d)).map Message.parts = (untilRefused b).map Frame.message ∧
      (s.stop = .refused ∨ (s.stop = .header ∨ s.stop = .body) ∧ (∀ f ∈ b, f.Accepted) ∧
        s.rest + (stream (a ++ b)).length = (pieces l ++ [d]).flatten.length) := by
  obtain ⟨-, hbefore⟩ := h
  obtain ⟨tail, htail⟩ := hpre
  obtain ⟨j, hj⟩ := hal (pieces l) d [] rfl
  have hcut : arrived fs (pieces l).flatten.length = fs.take j := by
    have hzero := arrived_boundary hj 0
    have hnil : arrived (fs.drop j) 0 = [] := arrived_of_lt (by decide)
    rwa [Nat.add_zero, hnil, List.append_nil] at hzero
  have hstream : stream fs = stream (fs.take j) ++ stream (fs.drop j) := by
    rw [← stream_append, List.take_append_drop]
  rw [hstream, List.flatten_append, hj] at htail
  simp only [List.flatten_cons, List.flatten_nil, List.append_nil, List.append_assoc,
    List.append_cancel_left_eq] at htail
  obtain ⟨hacc, hhand, hoff⟩ := hbefore ⟨stream (fs.drop j), by rw [hj, hstream]⟩ hal.left
  rw [hcut] at hacc hhand hoff
  obtain rfl : off = 0 := by
    rw [hj] at hoff
    omega
  obtain ⟨s, hs, hseen, hstop⟩ := scan_stream (fs.drop j) [] d tail (known.drop d.length) htail
  have hlen : (pieces l ++ [d]).flatten.length = (pieces l).flatten.length + d.length := by simp
  rw [writeAt_zero]
  refine ⟨s, fs.take j, arrived (fs.drop j) d.length, hs, ?_, hacc, hhand, hseen, ?_⟩
  · rw [hlen, arrived_boundary hj]
  · refine hstop.imp id ?_
    rintro ⟨hst, hall, hrest⟩
    refine ⟨hst, hall, ?_⟩
    rw [hlen, stream_append, List.length_append, hj]
    omega

theorem Phase.Parsed.received {fd : ℤ} {known : List UInt8} {off : ℕ}
    (h : (Phase.connected fd known off).Parsed fs l) (hread : k.type = .read) (hpos : 0 < k.res) {s : Scan}
    (hs : Caht.scan (writeAt known off k.data) 0 k.data.length = some s)
    (hout : ∀ e ∈ (Phase.settle c fd (writeAt known off k.data) s).2, e.Reaction) :
    (Phase.settle c fd (writeAt known off k.data) s).1.Parsed fs
      (l ++ .completed c k.type k.res k.data :: (Phase.settle c fd (writeAt known off k.data) s).2) := by
  have hpieces := pieces_completed (c := c) (k := k) h.1 hout
  rw [if_pos ⟨hread, hpos⟩] at hpieces
  have hall : handledIn (l ++ .completed c k.type k.res k.data ::
      (Phase.settle c fd (writeAt known off k.data) s).2) =
      handledIn l ++ (s.seen (writeAt known off k.data)).map Message.parts := by
    rw [handledIn_append, handledIn_cons, Phase.settle_handledIn]
    rfl
  by_cases hst : s.stop = .header ∨ s.stop = .body
  · obtain ⟨⟨known', hphase⟩, hopen⟩ := Phase.settle_open c fd (writeAt known off k.data) hst
    rw [hphase]
    refine ⟨?_, ?_⟩
    · intro e he
      rcases List.mem_append.mp he with he | he
      · exact h.1 e he
      rcases List.mem_cons.mp he with rfl | he
      · rfl
      · exact hopen e he
    · rw [hpieces, hall]
      intro hpre hal
      obtain ⟨s', a, b, hs', hab, hacc, hhand, hseen, hstop⟩ := h.scan hpre hal
      obtain rfl := Option.some.inj (hs'.symm.trans hs)
      rcases hstop with hstop | ⟨-, haccb, hrest⟩
      · simp [hstop] at hst
      rw [hab]
      refine ⟨fun f hf => (List.mem_append.mp hf).elim (hacc f) (haccb f), ?_, hrest⟩
      rw [List.map_append, hhand, hseen, untilRefused_eq haccb]
  · have hst' : s.stop = .tooLong ∨ s.stop = .refused := by
      cases hstop : s.stop <;> simp [hstop] at hst ⊢
    obtain ⟨hphase, e, he, hec⟩ := Phase.settle_gone c fd (writeAt known off k.data) hst'
    rw [hphase]
    refine ⟨⟨e, List.mem_append_right _ (List.mem_cons_of_mem _ he), hec⟩, ?_⟩
    rw [hpieces, hall]
    intro hpre hal
    obtain ⟨s', a, b, hs', hab, hacc, hhand, hseen, -⟩ := h.scan hpre hal
    obtain rfl := Option.some.inj (hs'.symm.trans hs)
    rw [hab, untilRefused_append hacc, List.map_append, hhand, hseen]

theorem Phase.Parsed.step {p : Phase} (h : p.Parsed fs l) (haccept : p = .waiting → k.type = .accept)
    (hdata : k.type = .read → 0 ≤ k.res → k.res = k.data.length) :
    (p.step c k).1.Parsed fs (l ++ .completed c k.type k.res k.data :: (p.step c k).2) := by
  have hout := Phase.step_reaction c p k
  cases p with
  | waiting =>
    obtain rfl : l = [] := h
    have hk : ¬ (k.type = .read ∧ 0 < k.res) := by simp [haccept rfl]
    obtain ⟨hp, hh⟩ := parsed_quiet (c := c) (l := []) (by simp) hk hout rfl
    refine ⟨by simp [Phase.step, Event.isClosed], ?_⟩
    rw [hp, hh]
    intro _ _
    have hnil : arrived fs (pieces []).flatten.length = [] := arrived_of_lt (by decide)
    rw [hnil]
    exact ⟨by simp, rfl, rfl⟩
  | gone =>
    obtain ⟨⟨e, he, hec⟩, hbefore⟩ := h
    refine ⟨⟨e, List.mem_append_left _ he, hec⟩, ?_⟩
    have hh : handledIn (l ++ [.completed c k.type k.res k.data]) = handledIn l := by
      rw [handledIn_append]
      exact List.append_nil _
    simp only [Phase.step]
    rwa [pieces_closed ⟨e, he, hec⟩, hh]
  | connected fd known off =>
    simp only [Phase.step] at hout ⊢
    by_cases hdrop : k.res < 0 ∨ (k.type = .read ∧ k.res = 0)
    · simp only [if_pos hdrop] at hout ⊢
      obtain ⟨hp, hh⟩ := parsed_quiet (c := c) (k := k) h.1 (by omega) hout rfl
      refine ⟨⟨.closed c fd, by simp, rfl⟩, ?_⟩
      rw [hp, hh]
      intro hpre hal
      obtain ⟨hacc, hhand, -⟩ := h.2 hpre hal
      rw [untilRefused_eq hacc, hhand]
    simp only [if_neg hdrop] at hout ⊢
    by_cases hread : k.type = .read
    · have hpos : 0 < k.res := by
        simp only [hread, true_and] at hdrop
        omega
      have hlen := hdata hread hpos.le
      simp only [hread, ne_eq, not_true_eq_false, if_false, hlen, Int.toNat_natCast] at hout ⊢
      cases hs : Caht.scan (writeAt known off k.data) 0 k.data.length with
      | none =>
        have hno : ∀ e ∈ ([] : List Event), e.Reaction := by simp
        have hp := pieces_completed (c := c) (k := k) h.1 hno
        rw [if_pos ⟨hread, hpos⟩, hread, hlen] at hp
        refine ⟨fun e he => ?_, ?_⟩
        · rcases List.mem_append.mp he with he | he
          · exact h.1 e he
          · rw [List.mem_singleton.mp he]
            rfl
        · simp only [hp]
          intro hpre hal
          obtain ⟨s, _, _, hs', -⟩ := h.scan hpre hal
          exact absurd (hs'.symm.trans hs) (by simp)
      | some s =>
        simp only [hs] at hout
        have hrec := h.received (c := c) hread hpos hs hout
        rwa [hread, hlen] at hrec
    · simp only [ne_eq, hread, not_false_eq_true, if_true] at hout ⊢
      obtain ⟨hp, hh⟩ := parsed_quiet (c := c) (k := k) h.1 (by simp [hread]) hout rfl
      refine ⟨fun e he => ?_, ?_⟩
      · rcases List.mem_append.mp he with he | he
        · exact h.1 e he
        · rw [List.mem_singleton.mp he]
          rfl
      · rw [hp, hh]
        exact h.2

theorem Phase.run_parsed (c : UInt64) (fs : List Frame) {ks : List Completion} (h : Proper ks) :
    (Phase.run c ks).1.Parsed fs (Phase.run c ks).2 := by
  induction ks using List.reverseRecOn with
  | nil => rfl
  | append_singleton ks k ih =>
    have hks : Proper ks :=
      ⟨fun k' hk' => h.accept k' (by
          obtain ⟨ks', rfl⟩ := List.head?_eq_some_iff.mp hk'
          rfl),
        fun k' hk' => h.data k' (List.mem_append_left _ hk')⟩
    rw [Phase.run_concat]
    refine (ih hks).step (fun hw => ?_) (h.data k (by simp))
    obtain rfl | ⟨ks, k', rfl⟩ := ks.eq_nil_or_concat'
    · exact h.accept k rfl
    · -- only the empty conversation is waiting
      have hl := ih hks
      rw [hw, Phase.run_concat] at hl
      exact absurd hl (by simp [Phase.Parsed])

end

/-- For every client whose pieces cut a stream of frames at boundaries, `handle` was
given the frames that have arrived, up to one it refuses. -/
theorem segmentation_at_boundaries (c : UInt64) (fs : List Frame) (w : World) (hr : Reachable w)
    (hc : (enteredIds w.srv.trace).count c ≤ 1)
    (hpre : (pieces (history c w.srv.trace)).flatten <+: stream fs)
    (hal : Aligned fs (pieces (history c w.srv.trace))) :
    handledIn (history c w.srv.trace) =
      (untilRefused (arrived fs (pieces (history c w.srv.trace)).flatten.length)).map Frame.message := by
  obtain ⟨v, hw, -, hf⟩ := hr.follows
  have hfollow := hf c (by rwa [hw.models.trace])
  obtain ⟨hpieces, hhandled⟩ := conversation_parsed c w.srv.trace
  have hlog := hfollow.log
  have hparsed := Phase.run_parsed c fs hfollow.proper
  rw [← hlog, hw.models.trace] at hparsed
  rw [← hpieces] at hpre hal ⊢
  rw [← hhandled]
  generalize (Phase.run c (completions c w.srv.trace)).1 = p at hparsed
  cases p with
  | waiting =>
    rw [show conversation c w.srv.trace = [] from hparsed,
      show arrived fs (pieces []).flatten.length = [] from arrived_of_lt (by decide)]
    rfl
  | connected fd known off =>
    obtain ⟨hacc, hhand, -⟩ := hparsed.2 hpre hal
    rw [untilRefused_eq hacc, hhand]
  | gone => exact hparsed.2 hpre hal

/-- The name `abc`. -/
def Frame.abc : Frame := ⟨1, 7, [97, 98, 99], by decide⟩

/-- A whole message, and a part of the next one. -/
theorem segmentation_at_boundaries_two_pieces : ∃ w, Reachable w ∧
    pieces (history 1 w.srv.trace) = [Frame.abc.bytes, [0, 14, 1, 0, 0]] ∧
    handledIn (history 1 w.srv.trace) = [Frame.abc.message] := by
  have hrun : (World.runMain 3 .zero ([.serve .zero] ++ Action.complete 0 5 [] ++
      Action.complete 0 14 Frame.abc.bytes ++ Action.complete 2 5 [0, 14, 1, 0, 0])).map
      (fun w => ((enteredIds w.srv.trace).count 1, pieces (history 1 w.srv.trace))) =
      some (1, [Frame.abc.bytes, [0, 14, 1, 0, 0]]) := by
    decide +kernel
  obtain ⟨w, hw, hres⟩ := Option.map_eq_some_iff.mp hrun
  obtain ⟨hcount, hp⟩ := Prod.mk.inj hres
  have hr := World.runMain_reachable (by decide) hw
  have hal : Aligned [.abc, .abc] (pieces (history 1 w.srv.trace)) := by
    intro ds₁ d ds₂ hds
    rw [hp] at hds
    rcases ds₁ with _ | ⟨d₁, _ | ⟨d₂, ds₁⟩⟩
    · exact ⟨0, rfl⟩
    · obtain ⟨rfl, -⟩ := List.cons.inj hds
      exact ⟨1, by decide⟩
    · simp at hds
  have hmain := segmentation_at_boundaries 1 [.abc, .abc] w hr hcount.le
    (by rw [hp]; decide +kernel) hal
  refine ⟨w, hr, hp, ?_⟩
  rw [hmain, hp]
  decide +kernel

/-- The same message in two pieces: all of it has arrived, and it is not handled. -/
theorem segmentation_inside_header : ∃ w, Reachable w ∧ (enteredIds w.srv.trace).count 1 = 1 ∧
    (pieces (history 1 w.srv.trace)).flatten = stream [.abc] ∧
    untilRefused (arrived [.abc] (pieces (history 1 w.srv.trace)).flatten.length) = [.abc] ∧
    handledIn (history 1 w.srv.trace) = [] := by
  have hrun : (World.runMain 3 .zero ([.serve .zero] ++ Action.complete 0 5 [] ++
      Action.complete 0 5 [0, 14, 1, 0, 0] ++ Action.complete 1 9 [0, 0, 0, 0, 0, 7, 97, 98, 99])).map
      (fun w => ((enteredIds w.srv.trace).count 1, pieces (history 1 w.srv.trace),
        (handledIn (history 1 w.srv.trace)).length)) =
      some (1, [[0, 14, 1, 0, 0], [0, 0, 0, 0, 0, 7, 97, 98, 99]], 0) := by
    decide +kernel
  obtain ⟨w, hw, hres⟩ := Option.map_eq_some_iff.mp hrun
  obtain ⟨hcount, hres⟩ := Prod.mk.inj hres
  obtain ⟨hp, hh⟩ := Prod.mk.inj hres
  refine ⟨w, World.runMain_reachable (by decide) hw, hcount, ?_, ?_, List.length_eq_zero_iff.mp hh⟩
  · rw [hp]
    decide +kernel
  · rw [hp]
    rfl

end Caht
