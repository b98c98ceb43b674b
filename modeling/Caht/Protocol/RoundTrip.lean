import Caht.Protocol.Wire
import Mathlib.Data.UInt

/-! # Serialise, then deserialise

Each serialiser leaves one frame at the start of the buffer and nothing else
changed; `deser_header` and the matching `deser_*` read the same values back.
-/

namespace Caht.Protocol
open Library

/-- The bytes of one user id on the wire. -/
def uidBytes (uid : UInt64) : List UInt8 := beBytes 8 uid.toNat

theorem uidBytes_length (uid : UInt64) : (uidBytes uid).length = 8 := by simp [uidBytes]

theorem writeUids_eq (uids : List UInt64) (buf : List UInt8) (i : ℕ)
    (h : 12 + i * 8 + uids.length * 8 ≤ buf.length) :
    writeUids buf i uids = writeAt buf (12 + i * 8) (uids.flatMap uidBytes) := by
  induction uids generalizing buf i with
  | nil => simp [writeUids]
  | cons uid uids ih =>
    have hb : leBytes 8 (htonll uid).toNat = uidBytes uid := by
      rw [htonll_toNat, leBytes_byteSwap, uidBytes]
    have hoff : 12 + (i + 1) * 8 = 12 + i * 8 + (uidBytes uid).length := by
      rw [uidBytes_length]
      ring
    rw [List.length_cons] at h
    have hlen := writeAt_length buf (12 + i * 8) (uidBytes uid) (by rw [uidBytes_length]; omega)
    rw [writeUids, hb, ih _ _ (by rw [hlen]; omega), hoff, writeAt_append _ _ _ _ (by omega),
      List.flatMap_cons]

theorem readUids_eq (uids : List UInt64) (buf rest : List UInt8)
    (h : buf.drop 12 = uids.flatMap uidBytes ++ rest) : readUids buf uids.length = uids := by
  apply List.ext_getElem
  · simp [readUids]
  · intro i hi hi'
    have hb := flatMap_block uidBytes 8 uidBytes_length uids rest i hi'
    have hv : beValue (uidBytes uids[i]) = uids[i].toNat :=
      beValue_beBytes 8 _ (uids[i]).toNat_lt
    apply UInt64.toNat_inj.mp
    simp only [readUids, List.getElem_map, List.getElem_range]
    rw [← List.drop_drop, h, hb, ntohll_ofNat_leValue _ (uidBytes_length _), hv]

/-- What a serialiser leaves behind in a buffer that held `old`: exactly the
frame of the message, of the length it returns, which is also the big-endian
value of the first two bytes; `deser_header` reads the message's header. -/
structure Serialised (old buf : List UInt8) (len : ℕ) (msgt : MessageType) (seqid : UInt64)
    (payload : List UInt8) : Prop where
  written : buf = frame msgt.code seqid payload ++ old.drop len
  length : (frame msgt.code seqid payload).length = len
  lenField : beValue (buf.take 2) = len
  header : ∃ hdr, deserHeader buf = (hdr, msgt.code, seqid) ∧ hdr.toNat = len

theorem serialised_frame (old payload : List UInt8) (msgt : MessageType) (seqid : UInt64)
    (h : 11 + payload.length < 2 ^ 16) :
    Serialised old (frame msgt.code seqid payload ++ old.drop (11 + payload.length))
      (11 + payload.length) msgt seqid payload where
  written := rfl
  length := frame_length _ _ _
  lenField := by
    have ht : (frame msgt.code seqid payload ++ old.drop (11 + payload.length)).take 2 =
        beBytes 2 (11 + payload.length) := by
      rw [frame, List.append_assoc, List.take_append_of_le_length (by simp),
        List.take_of_length_le (by simp)]
    rw [ht, beValue_beBytes _ _ h]
  header := by
    refine ⟨_, deserHeader_frame _ _ _ _ h, ?_⟩
    rw [UInt16.toNat_ofNat', Nat.mod_eq_of_lt h]

section
variable (bufLen : ℕ) (buf : List UInt8) (seqid : UInt64)

theorem serServerError_eq (code : UInt8) (hbuf : bufLen ≤ buf.length) (h : 12 ≤ bufLen) :
    serServerError bufLen buf seqid code =
      .ok (12, frame MessageType.serverError.code seqid [code] ++ buf.drop 12) := by
  have hw := writeAt_setHeader buf [code] .serverError seqid (by simp) (by omega)
  have hlt : ¬ bufLen < (12 : UInt16).toNat := by
    change ¬ bufLen < 12
    omega
  rw [serServerError, if_neg hlt]
  exact congrArg (fun b => Except.ok (12, b)) hw

theorem serSetUsername_eq (uname : List UInt8) (hbuf : bufLen ≤ buf.length)
    (h : 11 + uname.length ≤ min bufLen 65535) :
    serSetUsername bufLen buf seqid uname = .ok (11 + uname.length,
      frame MessageType.setUsername.code seqid uname ++ buf.drop (11 + uname.length)) := by
  have hlt : 11 + uname.length < 2 ^ 16 := by omega
  have hw := writeAt_setHeader buf uname .setUsername seqid hlt (by omega)
  have hlen : (UInt16.ofNat (11 + uname.length)).toNat = 11 + uname.length := by
    rw [UInt16.toNat_ofNat', Nat.mod_eq_of_lt hlt]
  simp only [serSetUsername, hlen, hw]
  rw [if_neg (by omega)]

theorem serSetUsernameResponse_eq (hbuf : bufLen ≤ buf.length) (h : 11 ≤ bufLen) :
    serSetUsernameResponse bufLen buf seqid =
      .ok (11, frame MessageType.setUsernameResponse.code seqid [] ++ buf.drop 11) := by
  have hw := writeAt_setHeader buf [] .setUsernameResponse seqid (by simp) (by omega)
  have hlt : ¬ bufLen < (11 : UInt64).toNat := by
    change ¬ bufLen < 11
    omega
  rw [writeAt_nil] at hw
  rw [serSetUsernameResponse, if_neg hlt]
  exact congrArg (fun b => Except.ok (11, b)) hw

theorem serCreateGroup_eq (uids : List UInt64) (hbuf : bufLen ≤ buf.length)
    (hc : uids.length ≤ maxUidsPerMsg) (h : 12 + 8 * uids.length ≤ bufLen) :
    serCreateGroup buf bufLen seqid uids (UInt8.ofNat uids.length) = .ok (12 + 8 * uids.length,
      frame MessageType.createGroup.code seqid
        (UInt8.ofNat uids.length :: uids.flatMap uidBytes) ++ buf.drop (12 + 8 * uids.length)) := by
  have hc' : uids.length ≤ 200 := hc
  have hn : (UInt8.ofNat uids.length).toNat = uids.length := by
    rw [UInt8.toNat_ofNat']
    omega
  have hfl := flatMap_length uidBytes 8 uidBytes_length uids
  have hpay : 12 + uids.length * 8 =
      11 + (UInt8.ofNat uids.length :: uids.flatMap uidBytes).length := by
    rw [List.length_cons, hfl]
    omega
  have hsl : (setHeader buf (UInt16.ofNat (12 + uids.length * 8)) .createGroup seqid).length =
      buf.length := by
    rw [setHeader_eq _ _ _ _ (by omega)]
    simp
    omega
  have hcl := writeAt_length (setHeader buf (UInt16.ofNat (12 + uids.length * 8)) .createGroup seqid)
    11 [UInt8.ofNat uids.length] (by rw [hsl]; simp; omega)
  have hj := writeAt_append (setHeader buf (UInt16.ofNat (12 + uids.length * 8)) .createGroup seqid)
    [UInt8.ofNat uids.length] (uids.flatMap uidBytes) 11 (by omega)
  have hw := writeAt_setHeader buf (UInt8.ofNat uids.length :: uids.flatMap uidBytes) .createGroup
    seqid (by rw [← hpay]; omega) (by omega)
  rw [← hpay] at hw
  simp only [serCreateGroup, hn]
  rw [if_neg (by omega), if_neg (by omega), List.take_length,
    writeUids_eq _ _ _ (by rw [hcl, hsl]; omega)]
  simp only [List.length_singleton, List.singleton_append] at hj
  rw [Nat.zero_mul, Nat.add_zero, hj, hw]
  simp only [Nat.mul_comm]

theorem getD_payload (msgt : UInt8) (b : UInt8) (payload rest : List UInt8) :
    (frame msgt seqid (b :: payload) ++ rest).getD 11 0 = b := by
  have hd := frame_drop msgt seqid (b :: payload) rest
  have hg : ((frame msgt seqid (b :: payload) ++ rest).drop 11)[0]? = some b := by
    rw [hd]
    rfl
  rw [List.getElem?_drop] at hg
  simp [List.getD, hg]

theorem deserCreateGroup_frame (uids : List UInt64) (rest : List UInt8)
    (hc : uids.length ≤ maxUidsPerMsg) :
    deserCreateGroup (12 + 8 * uids.length) (frame MessageType.createGroup.code seqid
      (UInt8.ofNat uids.length :: uids.flatMap uidBytes) ++ rest) =
      some ⟨UInt8.ofNat uids.length, uids, 12, 8 * uids.length⟩ := by
  have hc' : uids.length ≤ 200 := hc
  have hn : (UInt8.ofNat uids.length).toNat = uids.length := by
    rw [UInt8.toNat_ofNat']
    omega
  have hs : uids.length * 8 = sizeSub (12 + 8 * uids.length) 12 := by
    rw [sizeSub_of_le (by omega) (by omega)]
    omega
  have hdrop : (frame MessageType.createGroup.code seqid
      (UInt8.ofNat uids.length :: uids.flatMap uidBytes) ++ rest).drop 12 =
        uids.flatMap uidBytes ++ rest := by
    rw [show 12 = 11 + 1 from rfl, ← List.drop_drop, frame_drop]
    rfl
  simp only [deserCreateGroup, getD_payload, hn]
  rw [if_neg (by omega), if_neg (by omega), if_neg (not_not.mpr hs), readUids_eq _ _ _ hdrop,
    mul_comm]

/-- Every message the program can serialise comes back unchanged, whatever the
buffer held before: the length returned is the number of bytes written and the
number on the wire, the header is read back, and so is the payload. -/
theorem wire_round_trip (hbuf : bufLen ≤ buf.length) :
    (∀ code, 12 ≤ bufLen → ∃ buf', serServerError bufLen buf seqid code = .ok (12, buf') ∧
      Serialised buf buf' 12 .serverError seqid [code] ∧ deserServerError 12 buf' = some code) ∧
    (∀ uname : List UInt8, 11 + uname.length ≤ min bufLen 65535 → ∃ buf',
      serSetUsername bufLen buf seqid uname = .ok (11 + uname.length, buf') ∧
      Serialised buf buf' (11 + uname.length) .setUsername seqid uname ∧
      (deserSetUsername (11 + uname.length)).len = uname.length ∧
      (buf'.drop (deserSetUsername (11 + uname.length)).ptr).take uname.length = uname) ∧
    (11 ≤ bufLen → ∃ buf', serSetUsernameResponse bufLen buf seqid = .ok (11, buf') ∧
      Serialised buf buf' 11 .setUsernameResponse seqid []) ∧
    (∀ uids : List UInt64, uids.length ≤ 200 → 12 + 8 * uids.length ≤ bufLen → ∃ buf',
      serCreateGroup buf bufLen seqid uids (UInt8.ofNat uids.length) =
        .ok (12 + 8 * uids.length, buf') ∧
      Serialised buf buf' (12 + 8 * uids.length) .createGroup seqid
        (UInt8.ofNat uids.length :: uids.flatMap uidBytes) ∧
      ∃ cg, deserCreateGroup (12 + 8 * uids.length) buf' = some cg ∧ cg.uids = uids ∧
        cg.uidsLen.toNat = uids.length ∧
        (buf'.drop cg.uidsRaw).take cg.uidsRawLen = uids.flatMap uidBytes ∧
        cg.uidsRaw = 12 ∧ cg.uidsRawLen = 8 * uids.length) := by
  refine ⟨fun code h => ?_, fun uname h => ?_, fun h => ?_, fun uids hc h => ?_⟩
  · refine ⟨_, serServerError_eq _ _ _ code hbuf h, serialised_frame buf [code] _ _ (by simp), ?_⟩
    rw [deserServerError, if_neg (by simp), getD_payload]
  · have hlt : 11 + uname.length < 2 ^ 16 := by omega
    refine ⟨_, serSetUsername_eq _ _ _ uname hbuf h, serialised_frame buf uname _ _ hlt, ?_, ?_⟩
    · rw [deserSetUsername, sizeSub_of_le (by omega) (by omega), Nat.add_sub_cancel_left]
    · rw [deserSetUsername, frame_drop, List.take_left]
  · exact ⟨_, serSetUsernameResponse_eq _ _ _ hbuf h, serialised_frame buf [] _ _ (by simp)⟩
  · have hlen : 12 + 8 * uids.length =
        11 + (UInt8.ofNat uids.length :: uids.flatMap uidBytes).length := by
      rw [List.length_cons, flatMap_length uidBytes 8 uidBytes_length]
      omega
    have hs := serialised_frame buf (UInt8.ofNat uids.length :: uids.flatMap uidBytes) .createGroup
      seqid (by rw [← hlen]; omega)
    rw [← hlen] at hs
    refine ⟨_, serCreateGroup_eq _ _ _ uids hbuf hc h, hs, _, deserCreateGroup_frame seqid uids _ hc,
      rfl, ?_, ?_, rfl, rfl⟩
    · rw [UInt8.toNat_ofNat']
      omega
    · rw [show 12 = 11 + 1 from rfl, ← List.drop_drop, frame_drop, List.cons_append,
        List.drop_one, List.tail_cons, List.take_left' (by
          rw [flatMap_length uidBytes 8 uidBytes_length, mul_comm])]

/-- Two ids in a 64-byte buffer. -/
theorem wire_round_trip_two_ids :
    ∃ buf', serCreateGroup (List.replicate 64 7) 64 5 [1, 2 ^ 63] 2 = .ok (28, buf') ∧
      ∃ cg, deserCreateGroup 28 buf' = some cg ∧ cg.uids = [1, 2 ^ 63] := by
  obtain ⟨-, -, -, h⟩ := wire_round_trip 64 (List.replicate 64 7) 5 (by simp)
  obtain ⟨buf', hser, -, cg, hcg, huids, -⟩ := h [1, 2 ^ 63] (by decide) (by decide)
  exact ⟨buf', hser, cg, hcg, huids⟩

end

end Caht.Protocol
