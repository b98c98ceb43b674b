import Caht.Library.Bytes
import Caht.Library.Outcome

/-! # The wire protocol

Every message starts with a packed header: a two-byte length, a one-byte type
and an eight-byte sequence number. Serialisers write through the packed struct
(fields in host order, swapped by `htons` and `htonll`), deserialisers copy the
bytes of each field out again. The host is little-endian, so a field's image in
memory is `leBytes` of its value.
-/

namespace Caht.Protocol
open Library

def protHdrLen : ℕ := 11
def maxUidsPerMsg : ℕ := 200
def minUnameLen : ℕ := 3
def maxUnameLen : ℕ := 15

inductive MessageType where
  | serverError
  | setUsername
  | setUsernameResponse
  | createGroup
  | createGroupResonse
  deriving DecidableEq, Repr

/-- The value of the enumerator, as it travels in the `msgt` byte. -/
def MessageType.code : MessageType → UInt8
  | .serverError => 0
  | .setUsername => 1
  | .setUsernameResponse => 2
  | .createGroup => 3
  | .createGroupResonse => 4

/-- `size_t` subtraction, which wraps. -/
@[irreducible] def sizeSub (a b : ℕ) : ℕ := (a + 2 ^ 64 - b) % 2 ^ 64

theorem sizeSub_of_le {a b : ℕ} (h : b ≤ a) (ha : a < 2 ^ 64) : sizeSub a b = a - b := by
  unfold sizeSub
  omega

/-! ## Byte order

`htons`, `htonl` and their inverses are the C library's byte swaps on a
little-endian host; the 64-bit versions are built from them in `utils.c`. -/

def htons (x : UInt16) : UInt16 := UInt16.ofNat (byteSwap 2 x.toNat)
def ntohs (x : UInt16) : UInt16 := UInt16.ofNat (byteSwap 2 x.toNat)
def htonl (x : UInt32) : UInt32 := UInt32.ofNat (byteSwap 4 x.toNat)
def ntohl (x : UInt32) : UInt32 := UInt32.ofNat (byteSwap 4 x.toNat)

def htonll (val : UInt64) : UInt64 :=
  (htonl (val >>> 32).toUInt32).toUInt64 |||
    ((htonl (val &&& 0xFFFFFFFF).toUInt32).toUInt64 <<< 32)

def ntohll (val : UInt64) : UInt64 :=
  (ntohl (val >>> 32).toUInt32).toUInt64 |||
    ((ntohl (val &&& 0xFFFFFFFF).toUInt32).toUInt64 <<< 32)

theorem htons_toNat (x : UInt16) : (htons x).toNat = byteSwap 2 x.toNat := by
  have h : byteSwap 2 x.toNat < 2 ^ 16 := byteSwap_lt 2 _
  rw [htons, UInt16.toNat_ofNat', Nat.mod_eq_of_lt h]

/-- The two swapped halves take each other's place without overlapping. -/
private theorem htonll_halves (v : UInt64) :
    (htonll v).toNat = byteSwap 4 (v.toNat / 2 ^ 32) + 2 ^ 32 * byteSwap 4 (v.toNat % 2 ^ 32) := by
  have hhi : byteSwap 4 (v.toNat / 2 ^ 32) < 2 ^ 32 := byteSwap_lt 4 _
  have hlo : byteSwap 4 (v.toNat % 2 ^ 32) < 2 ^ 32 := byteSwap_lt 4 _
  have hv := v.toNat_lt
  have hh : (v.toNat >>> (UInt64.toNat 32 % 64)) % 2 ^ 32 = v.toNat / 2 ^ 32 := by
    change v.toNat >>> 32 % 2 ^ 32 = _
    rw [Nat.shiftRight_eq_div_pow]
    omega
  have hl : (v.toNat &&& UInt64.toNat 4294967295) % 2 ^ 32 = v.toNat % 2 ^ 32 := by
    change (v.toNat &&& (2 ^ 32 - 1)) % 2 ^ 32 = _
    rw [Nat.and_two_pow_sub_one_eq_mod, Nat.mod_mod]
  simp only [htonll, htonl, UInt64.toNat_or, UInt64.toNat_shiftLeft, UInt32.toNat_toUInt64,
    UInt32.toNat_ofNat', UInt64.toNat_toUInt32, UInt64.toNat_shiftRight, UInt64.toNat_and, hh, hl]
  change _ % 2 ^ 32 ||| (_ % 2 ^ 32) <<< 32 % 2 ^ 64 = _
  rw [Nat.mod_eq_of_lt hhi, Nat.mod_eq_of_lt hlo, Nat.shiftLeft_eq, Nat.mod_eq_of_lt (by omega),
    Nat.or_comm, mul_comm, ← Nat.two_pow_add_eq_or_of_lt hhi, add_comm]

/-- The hand-written 64-bit swap is the swap of all eight bytes. -/
theorem htonll_toNat (v : UInt64) : (htonll v).toNat = byteSwap 8 v.toNat := by
  have hhi : byteSwap 4 (v.toNat / 2 ^ 32) < 256 ^ 4 := byteSwap_lt 4 _
  have hlt : (htonll v).toNat < 256 ^ 8 := (htonll v).toNat_lt
  have hsplit : leBytes 8 v.toNat = leBytes 4 (v.toNat % 2 ^ 32) ++ leBytes 4 (v.toNat / 2 ^ 32) := by
    have h := leBytes_add 4 4 v.toNat
    rwa [← leBytes_mod 4 v.toNat] at h
  have hbytes : leBytes 8 (htonll v).toNat = beBytes 8 v.toNat := by
    have h := leBytes_add_mul 4 4 _ (byteSwap 4 (v.toNat % 2 ^ 32)) hhi
    rw [leBytes_byteSwap, leBytes_byteSwap] at h
    rw [htonll_halves, beBytes, hsplit, List.reverse_append]
    exact h
  have h := leValue_leBytes 8 (htonll v).toNat
  rw [hbytes, Nat.mod_eq_of_lt hlt] at h
  exact h.symm

theorem ntohs_eq_htons : ntohs = htons := rfl

theorem ntohll_eq_htonll : ntohll = htonll := rfl

theorem ntohs_ofNat_leValue (l : List UInt8) (h : l.length = 2) :
    (ntohs (UInt16.ofNat (leValue l))).toNat = beValue l := by
  have hl : leValue l < 2 ^ 16 := by simpa [h] using leValue_lt l
  have hb := leBytes_leValue l
  rw [h] at hb
  rw [ntohs_eq_htons, htons_toNat, UInt16.toNat_ofNat', Nat.mod_eq_of_lt hl, byteSwap, beBytes,
    hb, beValue]

theorem ntohll_ofNat_leValue (l : List UInt8) (h : l.length = 8) :
    (ntohll (UInt64.ofNat (leValue l))).toNat = beValue l := by
  have hl : leValue l < 2 ^ 64 := by simpa [h] using leValue_lt l
  have hb := leBytes_leValue l
  rw [h] at hb
  rw [ntohll_eq_htonll, htonll_toNat, UInt64.toNat_ofNat', Nat.mod_eq_of_lt hl, byteSwap, beBytes,
    hb, beValue]

/-! ## Packed structs

`Header` is `len` at offset 0, `msgt` at 2, `seqid` at 3. `ServerError` adds
`code` at 11, `SetUsernameRequest` the username bytes at 11, and `CreateGroup`
`uids_len` at 11 and the ids from 12 on. -/

/-- The three stores every serialiser makes through its `hdr` member. -/
def setHeader (buf : List UInt8) (len : UInt16) (msgt : MessageType) (seqid : UInt64) :
    List UInt8 :=
  let buf := writeAt buf 0 (leBytes 2 (htons len).toNat)
  let buf := writeAt buf 2 [msgt.code]
  writeAt buf 3 (leBytes 8 (htonll seqid).toNat)

def deserHeader (buf : List UInt8) : UInt16 × UInt8 × UInt64 :=
  (ntohs (UInt16.ofNat (leValue (buf.take 2))), buf.getD 2 0,
    ntohll (UInt64.ofNat (leValue ((buf.drop 3).take 8))))

def deserServerError (bufLen : ℕ) (buf : List UInt8) : Option UInt8 :=
  if bufLen ≠ 12 then none else some (buf.getD 11 0)

def serServerError (bufLen : ℕ) (buf : List UInt8) (seqid : UInt64) (code : UInt8) :
    Outcome (ℕ × List UInt8) :=
  let len : UInt16 := 12
  if bufLen < len.toNat then .error .assertion else
    .ok (len.toNat, writeAt (setHeader buf len .serverError seqid) 11 [code])

/-- The `uname` pointer, as an offset into the message, and `uname_len`. -/
structure Uname where
  ptr : ℕ
  len : ℕ
  deriving DecidableEq, Repr

def deserSetUsername (bufLen : ℕ) : Uname := ⟨11, sizeSub bufLen 11⟩

/-- The length is computed in 16 bits, the copy is made with the full `uname_len`. -/
def serSetUsername (bufLen : ℕ) (buf : List UInt8) (seqid : UInt64) (uname : List UInt8) :
    Outcome (ℕ × List UInt8) :=
  let len : UInt16 := UInt16.ofNat (11 + uname.length)
  if bufLen < len.toNat then .error .assertion else
    .ok (len.toNat, writeAt (setHeader buf len .setUsername seqid) 11 uname)

def serSetUsernameResponse (bufLen : ℕ) (buf : List UInt8) (seqid : UInt64) :
    Outcome (ℕ × List UInt8) :=
  let len : UInt64 := 11
  if bufLen < len.toNat then .error .assertion else
    .ok (len.toNat, setHeader buf len.toUInt16 .setUsernameResponse seqid)

/-- What `deser_create_group` stores through its output pointers on success. -/
structure CreateGroup where
  uidsLen : UInt8
  uids : List UInt64
  uidsRaw : ℕ
  uidsRawLen : ℕ
  deriving DecidableEq, Repr

/-- The copy loop: `uids[i]` is read from the eight bytes at `base + 8 * i`. -/
def readUids (buf : List UInt8) (n : ℕ) : List UInt64 :=
  (List.range n).map fun i => ntohll (UInt64.ofNat (leValue ((buf.drop (12 + i * 8)).take 8)))

def deserCreateGroup (bufLen : ℕ) (buf : List UInt8) : Option CreateGroup :=
  if bufLen < 12 then none else
    let uidsLen := buf.getD 11 0
    if maxUidsPerMsg < uidsLen.toNat then none else
      let expectedUidsLen := uidsLen.toNat * 8
      if expectedUidsLen ≠ sizeSub bufLen 12 then none else
        some ⟨uidsLen, readUids buf uidsLen.toNat, 12, expectedUidsLen⟩

/-- The store loop, from index `i` on. -/
def writeUids (buf : List UInt8) (i : ℕ) : List UInt64 → List UInt8
  | [] => buf
  | uid :: uids => writeUids (writeAt buf (12 + i * 8) (leBytes 8 (htonll uid).toNat)) (i + 1) uids

def serCreateGroup (buf : List UInt8) (bufLen : ℕ) (seqid : UInt64) (uids : List UInt64)
    (uidsLen : UInt8) : Outcome (ℕ × List UInt8) :=
  if maxUidsPerMsg < uidsLen.toNat then .error .assertion else
    let len := 12 + uidsLen.toNat * 8
    if bufLen < len then .error .assertion else
      let buf := writeAt (setHeader buf (UInt16.ofNat len) .createGroup seqid) 11 [uidsLen]
      .ok (len, writeUids buf 0 (uids.take uidsLen.toNat))

/-! ## The format on the wire -/

/-- A message as the documentation lays it out: all numbers big-endian. -/
def frame (msgt : UInt8) (seqid : UInt64) (payload : List UInt8) : List UInt8 :=
  beBytes 2 (11 + payload.length) ++ msgt :: (beBytes 8 seqid.toNat ++ payload)

@[simp] theorem frame_length (msgt : UInt8) (seqid : UInt64) (payload : List UInt8) :
    (frame msgt seqid payload).length = 11 + payload.length := by
  simp [frame]
  omega

theorem setHeader_eq (buf : List UInt8) (len : UInt16) (msgt : MessageType) (seqid : UInt64)
    (h : 11 ≤ buf.length) : setHeader buf len msgt seqid =
      beBytes 2 len.toNat ++ msgt.code :: (beBytes 8 seqid.toNat ++ buf.drop 11) := by
  have h2 := writeAt_append buf (beBytes 2 len.toNat) [msgt.code] 0 (by omega)
  have h3 := writeAt_append buf (beBytes 2 len.toNat ++ [msgt.code]) (beBytes 8 seqid.toNat) 0
    (by omega)
  simp only [beBytes_length, List.length_append, List.length_singleton, Nat.zero_add] at h2 h3
  simp only [setHeader, htons_toNat, htonll_toNat, leBytes_byteSwap]
  rw [h2, h3, writeAt_zero]
  simp

theorem deserHeader_eq (n : ℕ) (hn : n < 2 ^ 16) (msgt : UInt8) (seqid : UInt64)
    (rest : List UInt8) :
    deserHeader (beBytes 2 n ++ msgt :: (beBytes 8 seqid.toNat ++ rest)) =
      (UInt16.ofNat n, msgt, seqid) := by
  have hlen : (beBytes 2 n ++ msgt :: (beBytes 8 seqid.toNat ++ rest)).take 2 = beBytes 2 n := by
    rw [List.take_append_of_le_length (by simp), List.take_of_length_le (by simp)]
  have hmsgt : (beBytes 2 n ++ msgt :: (beBytes 8 seqid.toNat ++ rest)).getD 2 0 = msgt := by
    simp [List.getD]
  have hseq : ((beBytes 2 n ++ msgt :: (beBytes 8 seqid.toNat ++ rest)).drop 3).take 8 =
      beBytes 8 seqid.toNat := by
    rw [List.drop_append, List.drop_of_length_le (by simp), List.nil_append, beBytes_length,
      List.drop_one, List.tail_cons, List.take_append_of_le_length (by simp),
      List.take_of_length_le (by simp)]
  have hs : (ntohll (UInt64.ofNat (leValue (beBytes 8 seqid.toNat)))).toNat = seqid.toNat := by
    rw [ntohll_ofNat_leValue _ (by simp), beValue_beBytes _ _ seqid.toNat_lt]
  have hl : (ntohs (UInt16.ofNat (leValue (beBytes 2 n)))).toNat = n := by
    rw [ntohs_ofNat_leValue _ (by simp), beValue_beBytes _ _ hn]
  refine Prod.ext ?_ (Prod.ext hmsgt ?_)
  · rw [deserHeader, hlen]
    apply UInt16.toNat_inj.mp
    rw [hl, UInt16.toNat_ofNat', Nat.mod_eq_of_lt hn]
  · rw [deserHeader, hseq]
    exact UInt64.toNat_inj.mp hs

theorem deserHeader_frame (msgt : UInt8) (seqid : UInt64) (payload rest : List UInt8)
    (h : 11 + payload.length < 2 ^ 16) :
    deserHeader (frame msgt seqid payload ++ rest) =
      (UInt16.ofNat (11 + payload.length), msgt, seqid) := by
  have he : frame msgt seqid payload ++ rest = beBytes 2 (11 + payload.length) ++
      msgt :: (beBytes 8 seqid.toNat ++ (payload ++ rest)) := by
    simp [frame]
  rw [he, deserHeader_eq _ h]

theorem frame_drop (msgt : UInt8) (seqid : UInt64) (payload rest : List UInt8) :
    (frame msgt seqid payload ++ rest).drop 11 = payload ++ rest := by
  have he : frame msgt seqid payload ++ rest = (beBytes 2 (11 + payload.length) ++
      msgt :: beBytes 8 seqid.toNat) ++ (payload ++ rest) := by
    simp [frame]
  rw [he, List.drop_append, List.drop_of_length_le (by simp)]
  simp

theorem writeAt_setHeader (buf payload : List UInt8) (msgt : MessageType) (seqid : UInt64)
    (hn : 11 + payload.length < 2 ^ 16) (h : 11 ≤ buf.length) :
    writeAt (setHeader buf (UInt16.ofNat (11 + payload.length)) msgt seqid) 11 payload =
      frame msgt.code seqid payload ++ buf.drop (11 + payload.length) := by
  have hlen : (UInt16.ofNat (11 + payload.length)).toNat = 11 + payload.length := by
    rw [UInt16.toNat_ofNat', Nat.mod_eq_of_lt hn]
  have hhdr : (beBytes 2 (11 + payload.length) ++
      msgt.code :: beBytes 8 seqid.toNat).length = 11 := by simp
  have he : setHeader buf (UInt16.ofNat (11 + payload.length)) msgt seqid =
      writeAt buf 0 (beBytes 2 (11 + payload.length) ++ msgt.code :: beBytes 8 seqid.toNat) := by
    rw [setHeader_eq _ _ _ _ h, hlen, writeAt_zero, hhdr]
    simp
  have hj := writeAt_append buf (beBytes 2 (11 + payload.length) ++
    msgt.code :: beBytes 8 seqid.toNat) payload 0 (by omega)
  rw [hhdr, Nat.zero_add] at hj
  rw [he, hj, writeAt_zero, List.length_append, hhdr]
  simp [frame]

end Caht.Protocol
