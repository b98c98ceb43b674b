import Caht.Library.Framing
import Caht.Server.InOrder

/-! # What a client reads

A client cuts what it receives into messages by the length `deser_header` finds, and reads
the code of an error with `deser_server_error`. Responses are read back one by one, and a
response that is not there whole is not read.
-/

namespace Caht
open Library Protocol

def ResponseCode.ofCode (code : UInt8) : Option ResponseCode :=
  [success, invalidMsgType, invalidMsgLen, invalidUsername, failure].find? fun c => c.code = code

/-- The first response of a stream, and what comes after it. -/
def readResponse (buf : List UInt8) : Option (Response × List UInt8) :=
  if buf.length < protHdrLen then none else
    let (len, msgt, seqid) := deserHeader buf
    if buf.length < len.toNat then none else
      if msgt = MessageType.setUsernameResponse.code then
        some (.setUsernameResponse seqid, buf.drop len.toNat)
      else if msgt = MessageType.serverError.code then do
        let code ← deserServerError len.toNat buf
        let code ← ResponseCode.ofCode code
        some (.serverError seqid code, buf.drop len.toNat)
      else none

theorem ResponseCode.ofCode_code (c : ResponseCode) : ofCode c.code = some c := by
  cases c <;> decide

theorem readResponse_frame (msgt : UInt8) (seqid : UInt64) (payload rest : List UInt8)
    (h : 11 + payload.length < 2 ^ 16) :
    readResponse (frame msgt seqid payload ++ rest) =
      if msgt = MessageType.setUsernameResponse.code then some (.setUsernameResponse seqid, rest)
      else if msgt = MessageType.serverError.code then do
        let code ← deserServerError (11 + payload.length) (frame msgt seqid payload ++ rest)
        let code ← ResponseCode.ofCode code
        some (.serverError seqid code, rest)
      else none := by
  have hlen : (UInt16.ofNat (11 + payload.length)).toNat = 11 + payload.length := by
    rw [UInt16.toNat_ofNat', Nat.mod_eq_of_lt h]
  have hlong : ¬ (frame msgt seqid payload ++ rest).length < 11 + payload.length := by simp
  have hhdr : ¬ (frame msgt seqid payload ++ rest).length < protHdrLen := by
    rw [protHdrLen]
    omega
  have hdrop : (frame msgt seqid payload ++ rest).drop (11 + payload.length) = rest := by
    rw [← frame_length msgt seqid payload, List.drop_left]
  simp only [readResponse, if_neg hhdr, deserHeader_frame msgt seqid payload rest h, hlen, if_neg hlong,
    hdrop]

theorem readResponse_whole (r : Response) (rest : List UInt8) :
    readResponse (r.bytes ++ rest) = some (r, rest) := by
  cases r with
  | serverError seqid code =>
    have hcode : deserServerError 12 (frame MessageType.serverError.code seqid [code.code] ++ rest) =
        some code.code := by
      rw [deserServerError, if_neg (by simp), getD_payload]
    rw [Response.bytes, readResponse_frame _ _ _ _ (by simp), if_neg (by decide), if_pos rfl]
    simp only [List.length_singleton, hcode, Option.bind_eq_bind, Option.bind_some,
      ResponseCode.ofCode_code]
  | setUsernameResponse seqid =>
    rw [Response.bytes, readResponse_frame _ _ _ _ (by simp), if_pos rfl]

/-- The header says how much is missing. -/
theorem readResponse_cut (r : Response) {s : List UInt8} (hs : s <+: r.bytes) (hne : s ≠ r.bytes) :
    readResponse s = none := by
  obtain ⟨t, ht⟩ := hs
  have hlt : s.length < r.bytes.length := by
    have hpos : t ≠ [] := fun hnil => hne (by rw [← ht, hnil, List.append_nil])
    rw [← ht, List.length_append]
    exact Nat.lt_add_of_pos_right (List.length_pos_of_ne_nil hpos)
  by_cases hshort : s.length < protHdrLen
  · rw [readResponse, if_pos hshort]
  · have hhdr := r.deserHeader_bytes []
    rw [List.append_nil, ← ht, deserHeader_append (not_lt.mp hshort), ht] at hhdr
    rw [readResponse, if_neg hshort]
    simp only [hhdr, if_pos hlt]

theorem Response.readsBack : ReadsBack readResponse Response.bytes where
  nonempty r := List.ne_nil_of_length_pos (by have := r.bytes_length; omega)
  whole := readResponse_whole
  empty := rfl
  cut r _ hs hne := readResponse_cut r hs hne

/-- When every client is in lockstep, a connected client reads the responses its messages
call for, in their order. The last one is missing until all of it has been sent. -/
theorem lockstep_client_reads (w : World) (hr : Run World.Lockstep w)
    (hacc : w.srv.accepts < 2 ^ 64 - 1) (c : UInt64) (info : ClientInfo)
    (hinfo : w.srv.info c = some info)
    (hread : ∃ i o, w.op i = some o ∧ o.type = .read ∧ o.clientId = c) :
    ∃ k stream, w.srv.fds info.clientFd = some (.conn k) ∧ w.conns[k]? = some stream ∧
      readAll readResponse stream =
        if w.Answered c then calledFor c w.srv.trace else (calledFor c w.srv.trace).dropLast := by
  obtain ⟨k, stream, hk, hst, hpre, hlast, hall⟩ := hr.stream_in_order hacc hinfo hread
  refine ⟨k, stream, hk, hst, ?_⟩
  rcases Response.readsBack.readAll_prefix hpre hlast with ⟨heq, hread⟩ | ⟨hne, hread⟩
  · rw [if_pos (hall.mpr heq), hread]
  · rw [if_neg fun ha => hne (hall.mp ha), hread]

/-- The reply to a first name is there, the error for a second one has not been sent whole. -/
theorem lockstep_client_reads_first : ∃ w stream, Run World.Lockstep w ∧ w.conns = [stream] ∧
    stream.length = 16 ∧
    calledFor 1 w.srv.trace = [.setUsernameResponse 7, .serverError 8 .invalidMsgLen] ∧
    readAll readResponse stream = [.setUsernameResponse 7] := by
  have hrun : (World.runMainWhile World.Lockstep 3 .zero ([.serve .zero] ++ Action.complete 0 5 [] ++
      Action.complete 0 14 [0, 14, 1, 0, 0, 0, 0, 0, 0, 0, 7, 97, 98, 99] ++ Action.complete 1 11 [] ++
      Action.complete 1 12 [0, 12, 1, 0, 0, 0, 0, 0, 0, 0, 8, 97] ++ [.execute 1 5 []])).map
      (fun w => (decide (w.srv.accepts = 1 ∧ (w.srv.info 1).isSome ∧
        (w.op 0).map (fun o => (o.type, o.clientId)) = some (.read, 1) ∧ ¬ w.Answered 1),
        calledFor 1 w.srv.trace, w.conns.map List.length)) =
      some (true, [.setUsernameResponse 7, .serverError 8 .invalidMsgLen], [16]) := by
    decide +kernel
  obtain ⟨w, hw, hres⟩ := Option.map_eq_some_iff.mp hrun
  simp only [Prod.mk.injEq, decide_eq_true_eq, Option.map_eq_some_iff] at hres
  obtain ⟨⟨hacc, hinfo, ⟨o, ho, ht, hid⟩, hopen⟩, hcalls, hconns⟩ := hres
  obtain ⟨info, hinfo⟩ := Option.isSome_iff_exists.mp hinfo
  obtain ⟨stream, hst, hlen⟩ := List.map_eq_singleton_iff.mp hconns
  have hr := World.runMainWhile_run (by decide) hw
  obtain ⟨k, stream', -, hk, hread⟩ := lockstep_client_reads w hr (by rw [hacc]; norm_num) 1 info hinfo
    ⟨0, o, ho, ht, hid⟩
  have hs : stream' = stream := by
    have hmem := List.mem_of_getElem? hk
    rwa [hst, List.mem_singleton] at hmem
  rw [hs, if_neg hopen, hcalls] at hread
  exact ⟨w, stream, hr, hst, hlen, hcalls, hread⟩

end Caht
