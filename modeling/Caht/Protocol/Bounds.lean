import Caht.Protocol.RoundTrip

/-! # Where the serialisers write

The stores each serialiser makes, in order, and when all of them stay inside the
capacity the caller gave. `ser_set_username` compares a 16-bit length with the
capacity but copies the full name, so a long name passes its assertion.
-/

namespace Caht.Protocol
open Library

/-- An offset, and the bytes stored from there on. -/
abbrev Stores := List (ℕ × List UInt8)

def applyStores (buf : List UInt8) (stores : Stores) : List UInt8 :=
  stores.foldl (fun buf s => writeAt buf s.1 s.2) buf

def headerStores (len : UInt16) (msgt : MessageType) (seqid : UInt64) : Stores :=
  [(0, leBytes 2 (htons len).toNat), (2, [msgt.code]), (3, leBytes 8 (htonll seqid).toNat)]

def uidStores (i : ℕ) : List UInt64 → Stores
  | [] => []
  | uid :: uids => (12 + i * 8, leBytes 8 (htonll uid).toNat) :: uidStores (i + 1) uids

def serverErrorStores (seqid : UInt64) (code : UInt8) : Stores :=
  headerStores 12 .serverError seqid ++ [(11, [code])]

def setUsernameStores (seqid : UInt64) (uname : List UInt8) : Stores :=
  headerStores (UInt16.ofNat (11 + uname.length)) .setUsername seqid ++ [(11, uname)]

def setUsernameResponseStores (seqid : UInt64) : Stores :=
  headerStores 11 .setUsernameResponse seqid

def createGroupStores (seqid : UInt64) (uids : List UInt64) (uidsLen : UInt8) : Stores :=
  headerStores (UInt16.ofNat (12 + uidsLen.toNat * 8)) .createGroup seqid ++
    (11, [uidsLen]) :: uidStores 0 (uids.take uidsLen.toNat)

/-- Every byte stored has an index below `bufLen`. -/
def Below (bufLen : ℕ) (stores : Stores) : Prop := ∀ s ∈ stores, ∀ k < s.2.length, s.1 + k < bufLen

/-- A call that gets past its assertions makes the given stores, all of them below
`bufLen`, and both the length it returns and the one in the header are `len`. -/
def StaysInside (bufLen : ℕ) (buf : List UInt8) (call : Outcome (ℕ × List UInt8)) (stores : Stores)
    (len : ℕ) : Prop :=
  ∀ n buf', call = .ok (n, buf') → buf' = applyStores buf stores ∧ Below bufLen stores ∧ n = len ∧
    beValue (buf'.take 2) = len

theorem applyStores_append (buf : List UInt8) (a b : Stores) :
    applyStores buf (a ++ b) = applyStores (applyStores buf a) b :=
  List.foldl_append

theorem applyStores_uidStores (buf : List UInt8) (i : ℕ) (uids : List UInt64) :
    applyStores buf (uidStores i uids) = writeUids buf i uids := by
  induction uids generalizing buf i with
  | nil => rfl
  | cons uid uids ih => exact ih _ _

theorem below_append {bufLen : ℕ} {a b : Stores} :
    Below bufLen (a ++ b) ↔ Below bufLen a ∧ Below bufLen b := by
  simp only [Below, List.mem_append, or_imp, forall_and]

theorem below_headerStores {bufLen : ℕ} (h : 11 ≤ bufLen) (len : UInt16) (msgt : MessageType)
    (seqid : UInt64) : Below bufLen (headerStores len msgt seqid) := by
  intro s hs k hk
  simp only [headerStores, List.mem_cons, List.not_mem_nil, or_false] at hs
  rcases hs with rfl | rfl | rfl <;> simp at hk ⊢ <;> omega

theorem below_single {bufLen off : ℕ} {data : List UInt8} (h : off + data.length ≤ bufLen) :
    Below bufLen [(off, data)] := by
  intro s hs k hk
  obtain rfl := List.mem_singleton.mp hs
  simp only at hk ⊢
  omega

theorem below_uidStores {bufLen : ℕ} (uids : List UInt64) (i : ℕ)
    (h : 12 + i * 8 + uids.length * 8 ≤ bufLen) : Below bufLen (uidStores i uids) := by
  induction uids generalizing i with
  | nil =>
    intro s hs
    cases hs
  | cons uid uids ih =>
    rw [List.length_cons] at h
    have hhead : Below bufLen [(12 + i * 8, leBytes 8 (htonll uid).toNat)] :=
      below_single (by rw [leBytes_length]; omega)
    exact below_append.mpr ⟨hhead, ih (i + 1) (by omega)⟩

section
variable {bufLen : ℕ} {buf : List UInt8} (hbuf : bufLen ≤ buf.length) (seqid : UInt64)
include hbuf

theorem serServerError_inside (code : UInt8) :
    StaysInside bufLen buf (serServerError bufLen buf seqid code) (serverErrorStores seqid code) 12 := by
  intro n buf' hcall
  have hle : 12 ≤ bufLen := by
    by_contra hlt
    have hshort : bufLen < (12 : UInt16).toNat := by
      change bufLen < 12
      omega
    rw [serServerError, if_pos hshort] at hcall
    cases hcall
  have heq := serServerError_eq bufLen buf seqid code hbuf hle
  obtain ⟨rfl, rfl⟩ := Prod.mk.inj (Except.ok.inj (heq.symm.trans hcall))
  refine ⟨?_, ?_, rfl, ?_⟩
  · have hlt : ¬ bufLen < (12 : UInt16).toNat := by
      change ¬ bufLen < 12
      omega
    rw [serServerError, if_neg hlt] at hcall
    exact (Prod.mk.inj (Except.ok.inj hcall)).2.symm
  · exact below_append.mpr ⟨below_headerStores (by omega) _ _ _, below_single (by simpa using hle)⟩
  · exact (serialised_frame buf [code] .serverError seqid (by simp)).lenField

theorem serSetUsernameResponse_inside :
    StaysInside bufLen buf (serSetUsernameResponse bufLen buf seqid)
      (setUsernameResponseStores seqid) 11 := by
  intro n buf' hcall
  have hle : 11 ≤ bufLen := by
    by_contra hlt
    have hshort : bufLen < (11 : UInt64).toNat := by
      change bufLen < 11
      omega
    rw [serSetUsernameResponse, if_pos hshort] at hcall
    cases hcall
  have heq := serSetUsernameResponse_eq bufLen buf seqid hbuf hle
  obtain ⟨rfl, rfl⟩ := Prod.mk.inj (Except.ok.inj (heq.symm.trans hcall))
  refine ⟨?_, below_headerStores hle _ _ _, rfl, ?_⟩
  · have hlt : ¬ bufLen < (11 : UInt64).toNat := by
      change ¬ bufLen < 11
      omega
    rw [serSetUsernameResponse, if_neg hlt] at hcall
    exact (Prod.mk.inj (Except.ok.inj hcall)).2.symm
  · exact (serialised_frame buf [] .setUsernameResponse seqid (by simp)).lenField

theorem serCreateGroup_inside (uids : List UInt64) (hc : uids.length ≤ 255) :
    StaysInside bufLen buf (serCreateGroup buf bufLen seqid uids (UInt8.ofNat uids.length))
      (createGroupStores seqid uids (UInt8.ofNat uids.length)) (12 + 8 * uids.length) := by
  intro n buf' hcall
  have hn : (UInt8.ofNat uids.length).toNat = uids.length := by
    rw [UInt8.toNat_ofNat']
    omega
  by_cases hmax : maxUidsPerMsg < uids.length
  · simp [serCreateGroup, hn, hmax] at hcall
  by_cases hshort : bufLen < 12 + uids.length * 8
  · simp [serCreateGroup, hn, hmax, hshort] at hcall
  have heq := serCreateGroup_eq bufLen buf seqid uids hbuf (not_lt.mp hmax) (by omega)
  have hlen : 12 + 8 * uids.length =
      11 + (UInt8.ofNat uids.length :: uids.flatMap uidBytes).length := by
    rw [List.length_cons, flatMap_length uidBytes 8 uidBytes_length]
    omega
  have hs := serialised_frame buf (UInt8.ofNat uids.length :: uids.flatMap uidBytes) .createGroup
    seqid (by rw [← hlen]; omega)
  rw [← hlen] at hs
  obtain ⟨rfl, rfl⟩ := Prod.mk.inj (Except.ok.inj (heq.symm.trans hcall))
  refine ⟨?_, ?_, rfl, hs.lenField⟩
  · simp only [serCreateGroup, hn, if_neg hmax, if_neg hshort] at hcall
    rw [← (Prod.mk.inj (Except.ok.inj hcall)).2, createGroupStores, applyStores_append, hn]
    exact (applyStores_uidStores _ 0 _).symm
  · rw [createGroupStores, hn, List.take_length]
    refine below_append.mpr ⟨below_headerStores (by omega) _ _ _, ?_⟩
    rw [← List.singleton_append]
    refine below_append.mpr ⟨below_single ?_, below_uidStores uids 0 (by omega)⟩
    rw [List.length_singleton]
    omega

omit hbuf in
/-- The assertion sees the length modulo `2 ^ 16`, and so does the caller. -/
theorem serSetUsername_ok {uname : List UInt8} (h : (11 + uname.length) % 2 ^ 16 ≤ bufLen) :
    serSetUsername bufLen buf seqid uname = .ok ((11 + uname.length) % 2 ^ 16,
      applyStores buf (setUsernameStores seqid uname)) := by
  have hlen : (UInt16.ofNat (11 + uname.length)).toNat = (11 + uname.length) % 2 ^ 16 :=
    UInt16.toNat_ofNat'
  simp only [serSetUsername, hlen, if_neg (not_lt.mpr h)]
  rfl

/-- The stores are as long as the name, so they fit exactly when the length did
not lose its high bits. -/
theorem serSetUsername_inside_iff (uname : List UInt8) :
    StaysInside bufLen buf (serSetUsername bufLen buf seqid uname) (setUsernameStores seqid uname)
      (11 + uname.length) ↔
    11 + uname.length < 2 ^ 16 ∨ bufLen < (11 + uname.length) % 2 ^ 16 := by
  by_cases hshort : bufLen < (11 + uname.length) % 2 ^ 16
  · refine iff_of_true ?_ (.inr hshort)
    intro n buf' hcall
    rw [serSetUsername, UInt16.toNat_ofNat', if_pos hshort] at hcall
    cases hcall
  have hok : serSetUsername bufLen buf seqid uname = _ := serSetUsername_ok seqid (not_lt.mp hshort)
  rw [or_iff_left hshort]
  constructor
  · intro h
    have hn := (h _ _ hok).2.2.1
    omega
  · intro hlt n buf' hcall
    have hle : 11 + uname.length ≤ bufLen := by omega
    have heq := serSetUsername_eq bufLen buf seqid uname hbuf (by omega)
    obtain ⟨rfl, hbuf'⟩ := Prod.mk.inj (Except.ok.inj (heq.symm.trans hcall))
    refine ⟨(Prod.mk.inj (Except.ok.inj (hok.symm.trans hcall))).2.symm, ?_, rfl, ?_⟩
    · exact below_append.mpr ⟨below_headerStores (by omega) _ _ _, below_single hle⟩
    · rw [← hbuf']
      exact (serialised_frame buf uname .setUsername seqid hlt).lenField

end

/-- All four serialisers stay inside the buffer and agree on the length, except
`ser_set_username` on a name whose length does not fit in 16 bits when what is
left of it passes for a short one. -/
theorem serialisers_inside (bufLen : ℕ) (buf : List UInt8) (hbuf : bufLen ≤ buf.length)
    (seqid : UInt64) (code : UInt8) (uids : List UInt64) (hc : uids.length ≤ 255)
    (uname : List UInt8) :
    (StaysInside bufLen buf (serServerError bufLen buf seqid code) (serverErrorStores seqid code) 12 ∧
      StaysInside bufLen buf (serSetUsername bufLen buf seqid uname) (setUsernameStores seqid uname)
        (11 + uname.length) ∧
      StaysInside bufLen buf (serSetUsernameResponse bufLen buf seqid)
        (setUsernameResponseStores seqid) 11 ∧
      StaysInside bufLen buf (serCreateGroup buf bufLen seqid uids (UInt8.ofNat uids.length))
        (createGroupStores seqid uids (UInt8.ofNat uids.length)) (12 + 8 * uids.length)) ↔
    11 + uname.length < 2 ^ 16 ∨ bufLen < (11 + uname.length) % 2 ^ 16 := by
  rw [← serSetUsername_inside_iff hbuf seqid uname]
  constructor
  · exact fun h => h.2.1
  · intro h
    exact ⟨serServerError_inside hbuf seqid code, h, serSetUsernameResponse_inside hbuf seqid,
      serCreateGroup_inside hbuf seqid uids hc⟩

theorem serialisers_inside_short_name :
    StaysInside 32 (List.replicate 32 0) (serSetUsername 32 (List.replicate 32 0) 5 [97, 98, 99])
      (setUsernameStores 5 [97, 98, 99]) 14 :=
  ((serialisers_inside 32 (List.replicate 32 0) (by simp) 5 0 [] (by simp) [97, 98, 99]).mpr
    (.inl (by decide))).2.1

/-- A name of 65525 bytes passes for an empty message, whatever the capacity. -/
theorem serSetUsername_overflow :
    ¬ StaysInside 2048 (List.replicate 2048 0)
        (serSetUsername 2048 (List.replicate 2048 0) 5 (List.replicate 65525 97))
        (setUsernameStores 5 (List.replicate 65525 97)) (11 + (List.replicate 65525 (97 : UInt8)).length) ∧
      ¬ Below 2048 (setUsernameStores 5 (List.replicate 65525 97)) ∧
      ∃ buf', serSetUsername 2048 (List.replicate 2048 0) 5 (List.replicate 65525 97) = .ok (0, buf') := by
  refine ⟨?_, ?_, ?_⟩
  · rw [serSetUsername_inside_iff List.length_replicate.ge 5, List.length_replicate]
    decide
  · intro h
    have hlast := h (11, List.replicate 65525 97) (List.mem_append_right _ List.mem_cons_self) 65524
      (by rw [List.length_replicate]; norm_num)
    norm_num at hlast
  · have hok : serSetUsername 2048 (List.replicate 2048 0) 5 (List.replicate 65525 97) = _ :=
      serSetUsername_ok 5 (by rw [List.length_replicate]; norm_num)
    rw [List.length_replicate] at hok
    exact ⟨_, hok⟩

end Caht.Protocol
