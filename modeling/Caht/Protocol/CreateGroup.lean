import Caht.Protocol.RoundTrip
import Mathlib.Data.List.GetD

/-! # The grammar of a group request

`deser_create_group` accepts exactly the messages whose count and length agree,
and what it accepts `ser_create_group` writes back byte for byte.
-/

namespace Caht.Protocol
open Library

/-- The `i`-th id of a message. -/
def readUid (buf : List UInt8) (i : ℕ) : UInt64 :=
  ntohll (UInt64.ofNat (leValue ((buf.drop (12 + i * 8)).take 8)))

/-- `for (uint8_t i = 0; i < *uids_len; ++i) uids[i] = ...;` on the caller's array. -/
def copyUids (buf : List UInt8) (uidsLen : UInt8) : ℕ → UInt8 → List UInt64 → Outcome (List UInt64)
  | 0, _, _ => .error .diverges
  | fuel + 1, i, uids =>
    if i < uidsLen then
      if i.toNat < uids.length then
        copyUids buf uidsLen fuel (i + 1) (uids.set i.toNat (readUid buf i.toNat))
      else .error .undefined
    else .ok uids

theorem readUids_succ (buf : List UInt8) (n : ℕ) :
    readUids buf (n + 1) = readUids buf n ++ [readUid buf n] := by
  rw [readUids, List.range_succ, List.map_append]
  rfl

@[simp] theorem readUids_length (buf : List UInt8) (n : ℕ) : (readUids buf n).length = n := by
  simp [readUids]

theorem readUid_toNat {buf : List UInt8} {i : ℕ} (h : 12 + (i + 1) * 8 ≤ buf.length) :
    (readUid buf i).toNat = beValue ((buf.drop (12 + i * 8)).take 8) := by
  apply ntohll_ofNat_leValue
  rw [List.length_take, List.length_drop]
  omega

/-- From any index on, the loop fills the entries up to the count and no others. -/
theorem copyUids_eq (buf : List UInt8) (uidsLen : UInt8) (arr : List UInt64)
    (hn : uidsLen.toNat ≤ arr.length) (fuel k : ℕ) (hk : k ≤ uidsLen.toNat)
    (hfuel : uidsLen.toNat - k < fuel) :
    copyUids buf uidsLen fuel (UInt8.ofNat k) (readUids buf k ++ arr.drop k) =
      .ok (readUids buf uidsLen.toNat ++ arr.drop uidsLen.toNat) := by
  have hu := uidsLen.toNat_lt
  have hi : (UInt8.ofNat k).toNat = k := by
    rw [UInt8.toNat_ofNat']
    omega
  induction fuel generalizing k with
  | zero => omega
  | succ fuel ih =>
    simp only [copyUids, UInt8.lt_iff_toNat_lt, hi]
    by_cases hlt : k < uidsLen.toNat
    · have hnext : UInt8.ofNat k + 1 = UInt8.ofNat (k + 1) := (UInt8.ofNat_add k 1).symm
      have hset : (readUids buf k ++ arr.drop k).set k (readUid buf k) =
          readUids buf (k + 1) ++ arr.drop (k + 1) := by
        rw [List.set_append_right _ _ (by simp), readUids_length, Nat.sub_self,
          List.drop_eq_getElem_cons (by omega), List.set_cons_zero, readUids_succ, List.append_assoc,
          List.singleton_append]
      have hroom : k < (readUids buf k ++ arr.drop k).length := by
        rw [List.length_append, readUids_length, List.length_drop]
        omega
      rw [if_pos hlt, if_pos hroom, hset, hnext]
      exact ih (k + 1) (by omega) (by omega) (by rw [UInt8.toNat_ofNat']; omega)
    · obtain rfl : k = uidsLen.toNat := by omega
      rw [if_neg hlt]

theorem readUids_flatMap (buf : List UInt8) (n : ℕ) (h : 12 + n * 8 ≤ buf.length) :
    (readUids buf n).flatMap uidBytes = (buf.drop 12).take (n * 8) := by
  induction n with
  | zero => simp [readUids]
  | succ n ih =>
    have hblock : uidBytes (readUid buf n) = (buf.drop (12 + n * 8)).take 8 := by
      have hb := beBytes_beValue ((buf.drop (12 + n * 8)).take 8)
      rwa [← readUid_toNat h, List.length_take, List.length_drop, min_eq_left (by omega)] at hb
    rw [readUids_succ, List.flatMap_append, ih (by omega), List.flatMap_singleton, hblock,
      Nat.succ_mul, List.take_add, List.drop_drop]

theorem deserCreateGroup_eq {bufLen : ℕ} (hlt : bufLen < 2 ^ 64) (buf : List UInt8) :
    deserCreateGroup bufLen buf =
      if 12 ≤ bufLen ∧ (buf.getD 11 0).toNat ≤ 200 ∧ bufLen = 12 + 8 * (buf.getD 11 0).toNat then
        some ⟨buf.getD 11 0, readUids buf (buf.getD 11 0).toNat, 12, (buf.getD 11 0).toNat * 8⟩
      else none := by
  rw [deserCreateGroup]
  by_cases hshort : bufLen < 12
  · rw [if_pos hshort, if_neg (by omega)]
  have hsub : sizeSub bufLen 12 = bufLen - 12 := sizeSub_of_le (by omega) hlt
  rw [if_neg hshort]
  simp only [hsub, maxUidsPerMsg]
  by_cases hmax : 200 < (buf.getD 11 0).toNat
  · rw [if_pos hmax, if_neg (by omega)]
  rw [if_neg hmax]
  by_cases hlen : (buf.getD 11 0).toNat * 8 = bufLen - 12
  · rw [if_neg (not_not.mpr hlen), if_pos (by omega)]
  · rw [if_pos hlen, if_neg (by omega)]

theorem getD_of_take {buf buf' : List UInt8} {n i : ℕ} (h : buf'.take n = buf.take n) (hi : i < n) :
    buf'.getD i 0 = buf.getD i 0 := by
  have hg := congrArg (fun l => l[i]?) h
  simp only [List.getElem?_take_of_lt hi] at hg
  simp [List.getD, hg]

theorem readUids_congr {buf buf' : List UInt8} {n : ℕ}
    (h : buf'.take (12 + n * 8) = buf.take (12 + n * 8)) : readUids buf' n = readUids buf n := by
  apply List.map_congr_left
  intro i hi
  rw [List.mem_range] at hi
  have hblock : ∀ l : List UInt8, (l.drop (12 + i * 8)).take 8 =
      ((l.take (12 + n * 8)).drop (12 + i * 8)).take 8 := by
    intro l
    rw [List.drop_take, List.take_take, min_eq_left (by omega)]
  rw [hblock buf', hblock buf, h]

theorem take_eq_header (buf : List UInt8) (h : 11 ≤ buf.length) (len : UInt16) (msgt : UInt8)
    (seqid : UInt64) (hdr : deserHeader buf = (len, msgt, seqid)) :
    buf.take 11 = beBytes 2 len.toNat ++ msgt :: beBytes 8 seqid.toNat := by
  simp only [deserHeader, Prod.mk.injEq] at hdr
  obtain ⟨hlen, hmsgt, hseq⟩ := hdr
  have hl : beBytes 2 len.toNat = buf.take 2 := by
    have hb := beBytes_beValue (buf.take 2)
    rw [← ntohs_ofNat_leValue _ (by rw [List.length_take]; omega), hlen] at hb
    rwa [List.length_take, min_eq_left (by omega)] at hb
  have hs : beBytes 8 seqid.toNat = (buf.drop 3).take 8 := by
    have hb := beBytes_beValue ((buf.drop 3).take 8)
    rw [← ntohll_ofNat_leValue _ (by rw [List.length_take, List.length_drop]; omega), hseq] at hb
    rwa [List.length_take, List.length_drop, min_eq_left (by omega)] at hb
  have hm : (buf.drop 2).take 1 = [msgt] := by
    rw [List.drop_eq_getElem_cons (by omega), List.take_succ_cons, List.take_zero, ← hmsgt,
      List.getD_eq_getElem _ _ (by omega)]
  calc buf.take 11 = buf.take 2 ++ ((buf.drop 2).take 1 ++ (buf.drop 3).take 8) := by
        rw [show 11 = 2 + (1 + 8) from rfl, List.take_add, List.take_add, List.drop_drop]
    _ = _ := by rw [hl, hs, hm]; rfl

/-- An accepted message is the frame of what was read from it. -/
theorem take_eq_frame {bufLen n : ℕ} {buf : List UInt8} (hbuf : bufLen ≤ buf.length)
    (hn : bufLen = 12 + 8 * n) (hcount : (buf.getD 11 0).toNat = n) {len : UInt16} {seqid : UInt64}
    (hdr : deserHeader buf = (len, MessageType.createGroup.code, seqid)) (hlen : len.toNat = bufLen) :
    buf.take bufLen = frame MessageType.createGroup.code seqid
      (buf.getD 11 0 :: (readUids buf n).flatMap uidBytes) := by
  have hflat := readUids_flatMap buf n (by omega)
  have hcl : ((readUids buf n).flatMap uidBytes).length = n * 8 := by
    rw [flatMap_length uidBytes 8 uidBytes_length, readUids_length]
  have hhead := take_eq_header buf (by omega) len _ seqid hdr
  have hbyte : (buf.drop 11).take 1 = [buf.getD 11 0] := by
    rw [List.drop_eq_getElem_cons (by omega), List.take_succ_cons, List.take_zero,
      List.getD_eq_getElem _ _ (by omega)]
  have hsize : 11 + (buf.getD 11 0 :: (readUids buf n).flatMap uidBytes).length = bufLen := by
    rw [List.length_cons, hcl]
    omega
  calc buf.take bufLen = buf.take 11 ++ ((buf.drop 11).take 1 ++ (buf.drop 12).take (n * 8)) := by
        rw [hn, show 12 + 8 * n = 11 + (1 + n * 8) by omega, List.take_add, List.take_add,
          List.drop_drop]
    _ = _ := by rw [hhead, hbyte, ← hflat, frame, hsize, hlen]; simp

/-- Accepted are the messages with a count of at most 200 that agrees with the
length. Of an accepted one only the bytes of the message are read, the copy loop
fills that many entries of the caller's array, and serialising what was read gives
the message back. -/
theorem deserCreateGroup_grammar (bufLen : ℕ) (buf : List UInt8) (hlt : bufLen < 2 ^ 64)
    (hbuf : bufLen ≤ buf.length) :
    ((deserCreateGroup bufLen buf).isSome ↔ 12 ≤ bufLen ∧
      ∃ n ≤ 200, (buf.getD 11 0).toNat = n ∧ bufLen = 12 + 8 * n) ∧
    ∀ cg, deserCreateGroup bufLen buf = some cg →
      (∀ buf', buf'.take bufLen = buf.take bufLen → deserCreateGroup bufLen buf' = some cg) ∧
      cg.uidsLen = buf.getD 11 0 ∧ cg.uids.length = cg.uidsLen.toNat ∧
      (∀ (i : ℕ) uid, cg.uids[i]? = some uid →
        uid.toNat = beValue ((buf.drop (12 + 8 * i)).take 8)) ∧
      cg.uidsRaw = 12 ∧ cg.uidsRaw + cg.uidsRawLen = bufLen ∧
      (∀ arr : List UInt64, arr.length = maxUidsPerMsg →
        copyUids buf cg.uidsLen 256 0 arr = .ok (cg.uids ++ arr.drop cg.uidsLen.toNat)) ∧
      (∀ len seqid, deserHeader buf = (len, MessageType.createGroup.code, seqid) →
        len.toNat = bufLen → ∀ outLen out, bufLen ≤ outLen → outLen ≤ out.length →
          serCreateGroup out outLen seqid cg.uids cg.uidsLen =
            .ok (bufLen, buf.take bufLen ++ out.drop bufLen)) := by
  have heq := deserCreateGroup_eq hlt buf
  refine ⟨?_, ?_⟩
  · rw [heq]
    split_ifs with hok
    · exact iff_of_true rfl ⟨hok.1, _, hok.2.1, rfl, hok.2.2⟩
    · refine iff_of_false (by simp) ?_
      rintro ⟨hle, n, hn, rfl, hlen⟩
      exact hok ⟨hle, hn, hlen⟩
  intro cg hcg
  rw [heq] at hcg
  split_ifs at hcg with hok
  obtain ⟨-, hn, hlen⟩ := hok
  obtain rfl := Option.some.inj hcg
  refine ⟨?_, rfl, readUids_length _ _, ?_, rfl, by simp only; omega, ?_, ?_⟩
  · intro buf' hsame
    have hbyte := getD_of_take hsame (show 11 < bufLen by omega)
    have huids : readUids buf' (buf.getD 11 0).toNat = readUids buf (buf.getD 11 0).toNat := by
      apply readUids_congr
      rwa [show 12 + (buf.getD 11 0).toNat * 8 = bufLen by omega]
    rw [deserCreateGroup_eq hlt, hbyte, if_pos ⟨by omega, hn, hlen⟩, huids]
  · intro i uid hi
    have hlt' := (List.getElem?_eq_some_iff.mp hi).1
    rw [readUids_length] at hlt'
    rw [readUids, List.getElem?_map, List.getElem?_range hlt', Option.map_some, Option.some.injEq] at hi
    rw [← hi, Nat.mul_comm 8 i]
    exact readUid_toNat (by omega)
  · intro arr harr
    have hfuel : (buf.getD 11 0).toNat - 0 < 256 := by omega
    have hcopy := copyUids_eq buf (buf.getD 11 0) arr (by rw [harr]; exact hn) 256 0 (Nat.zero_le _) hfuel
    simpa [readUids] using hcopy
  · intro len seqid hdr hl outLen out hle hout
    have htake := take_eq_frame hbuf hlen rfl hdr hl
    have hser := serCreateGroup_eq outLen out seqid (readUids buf (buf.getD 11 0).toNat) hout
      (by rw [readUids_length]; exact hn) (by rw [readUids_length]; omega)
    rw [readUids_length, UInt8.ofNat_toNat, ← hlen, ← htake] at hser
    exact hser

/-- A request for a group of one. -/
theorem deserCreateGroup_grammar_one :
    ∃ cg, deserCreateGroup 20 ([0, 20, 3] ++ [0, 0, 0, 0, 0, 0, 0, 9] ++ [1] ++ [1, 0, 0, 0, 0, 0, 0, 2]) =
        some cg ∧ cg.uids = [2 ^ 56 + 2] ∧
      serCreateGroup (List.replicate 24 7) 24 9 cg.uids cg.uidsLen =
        .ok (20, [0, 20, 3, 0, 0, 0, 0, 0, 0, 0, 9, 1, 1, 0, 0, 0, 0, 0, 0, 2, 7, 7, 7, 7]) := by
  have h := deserCreateGroup_grammar 20
    ([0, 20, 3] ++ [0, 0, 0, 0, 0, 0, 0, 9] ++ [1] ++ [1, 0, 0, 0, 0, 0, 0, 2]) (by norm_num) (by simp)
  obtain ⟨cg, hcg⟩ := Option.isSome_iff_exists.mp (h.1.mpr ⟨by norm_num, 1, by norm_num, rfl, rfl⟩)
  have huids : (deserCreateGroup 20
      ([0, 20, 3] ++ [0, 0, 0, 0, 0, 0, 0, 9] ++ [1] ++ [1, 0, 0, 0, 0, 0, 0, 2])).map CreateGroup.uids =
        some [2 ^ 56 + 2] := by
    decide +kernel
  rw [hcg, Option.map_some, Option.some.injEq] at huids
  obtain ⟨-, -, -, -, -, -, -, hser⟩ := h.2 cg hcg
  exact ⟨cg, hcg, huids, hser 20 9 (by decide +kernel) rfl 24 (List.replicate 24 7) (by norm_num) (by simp)⟩

end Caht.Protocol
