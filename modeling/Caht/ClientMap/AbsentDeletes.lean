import Caht.ClientMap.History

/-! # Deleting ids that are not in the map

`client_map_delete` looks at the head of the bucket before it compares anything
with `NULL`. For an id that is not in the map it needs a colliding one that is.
-/

namespace Caht
open Library

/-- The maps that adding and deleting, of present and of absent ids, leads to. -/
inductive ClientMap.Reachable (cap : ℕ) : ClientMap → Prop where
  | init {cm : ClientMap} (h : clientMapInit cap = .ok cm) : Reachable cap cm
  | newEntry {cm cm' : ClientMap} (id : UInt64) (junk : ClientInfo) {entry : Option ℕ}
      (h : Reachable cap cm) (hnew : clientMapNewEntry cm id junk = .ok (cm', entry)) :
      Reachable cap cm'
  | delete {cm cm' : ClientMap} (id : UInt64) {b : Bool} (h : Reachable cap cm)
      (hdel : clientMapDelete cm id = .ok (cm', b)) : Reachable cap cm'

/-- An id of the map is in the same bucket. -/
def ClientMap.Collides (cm : ClientMap) (id : UInt64) : Prop :=
  ∃ other p, clientMapGet cm other = .ok (some p) ∧
    ClientMap.hash cm.bucketsCap other = ClientMap.hash cm.bucketsCap id

section
variable {cm : ClientMap} {m : UInt64 → Option ℕ} {id : UInt64}

/-- A bucket is empty, or its first node is an entry of the map. -/
theorem ClientMap.Represents.collides_iff (h : cm.Represents m) :
    cm.Collides id ↔ cm.bucket id ≠ none := by
  obtain ⟨chains, hw, hm⟩ := h
  have hi := ClientMap.hash_lt hw.cap_pos id
  have hchain := hw.linked _ hi
  constructor
  · rintro ⟨other, p, hget, hhash⟩ hnone
    rw [ClientMap.Represents.get ⟨chains, hw, hm⟩, Except.ok.injEq] at hget
    obtain ⟨hp, n, hn, rfl⟩ := (hm other p).mp hget
    have hmem := hw.mem_chain hp hn
    rw [ClientMap.bucket] at hnone
    rw [hnone, isChain_none] at hchain
    rw [hhash, hchain] at hmem
    cases hmem
  · intro hne
    obtain ⟨head, hhead⟩ := Option.ne_none_iff_exists'.mp hne
    rw [ClientMap.bucket] at hhead
    cases hc : chains.getD (ClientMap.hash cm.bucketsCap id) [] with
    | nil =>
      rw [hc, isChain_nil, hhead] at hchain
      cases hchain
    | cons q l =>
      rw [hc] at hchain
      obtain ⟨-, n, hn, -⟩ := isChain_cons.mp hchain
      have hq : q ∈ chains.getD (ClientMap.hash cm.bucketsCap id) [] := hc ▸ List.mem_cons_self
      refine ⟨n.clientId, q, ?_, hw.home _ hi q hq n hn⟩
      rw [ClientMap.Represents.get ⟨chains, hw, hm⟩]
      exact congrArg _ ((hm _ q).mpr ⟨mem_flatten_of_getD hq, n, hn, rfl⟩)

theorem ClientMap.Represents.delete_absent (h : cm.Represents m) (hid : m id = none)
    (hne : cm.bucket id ≠ none) : clientMapDelete cm id = .ok (cm, false) := by
  obtain ⟨chains, hw, hm⟩ := h
  have hi := ClientMap.hash_lt hw.cap_pos id
  have hchain := hw.linked _ hi
  have hle := hchain.length_le (hw.chain_nodup (ClientMap.hash cm.bucketsCap id))
  obtain ⟨head, hhead⟩ := Option.ne_none_iff_exists'.mp hne
  have hno : ∀ q ∈ chains.getD (ClientMap.hash cm.bucketsCap id) [], ∀ n,
      cm.nodes[q]? = some n → n.clientId ≠ id := by
    intro q hq n hn hnid
    have hsome := (hm id q).mpr ⟨mem_flatten_of_getD hq, n, hn, hnid⟩
    rw [hid] at hsome
    cases hsome
  cases hc : chains.getD (ClientMap.hash cm.bucketsCap id) [] with
  | nil =>
    rw [hc, isChain_nil] at hchain
    rw [ClientMap.bucket, hchain] at hhead
    cases hhead
  | cons q l =>
    rw [hc] at hchain hno hle
    obtain ⟨hq, n, hn, hrest⟩ := isChain_cons.mp hchain
    replace hq : cm.bucket id = some q := hq
    rw [List.length_cons] at hle
    have hnid : n.clientId ≠ id := hno q List.mem_cons_self n hn
    rcases findPrevFrom_eq (fun n => n.clientId == id) hrest cm.nodes.length q (by omega) with
      ⟨hfind, -⟩ | ⟨l₁, p, l₂, rfl, hp, -, -⟩
    · simp [clientMapDelete, hq, hn, hnid, hfind]
    · obtain ⟨np, hnp, hpid⟩ := testAt_eq_true.mp hp
      exact absurd (by simpa using hpid) (hno p (by simp) np hnp)

theorem clientMapDelete_empty (h : cm.bucket id = none) :
    clientMapDelete cm id = .error .undefined := by
  rw [clientMapDelete, h]

end

theorem ClientMap.Reachable.represents {cap : ℕ} {cm : ClientMap} (h : Reachable cap cm) :
    ∃ m, cm.Represents m := by
  induction h with
  | init hinit => exact ⟨_, (mapInv_init hinit).represents⟩
  | newEntry id junk _ hnew ih =>
    obtain ⟨m, hm⟩ := ih
    cases hid : m id with
    | some p =>
      rw [hm.newEntry_false hid, Except.ok.injEq, Prod.mk.injEq] at hnew
      exact ⟨m, hnew.1 ▸ hm⟩
    | none =>
      obtain ⟨cm₁, p, hrun, he⟩ := hm.newEntry hid junk
      rw [hrun, Except.ok.injEq, Prod.mk.injEq] at hnew
      exact ⟨_, hnew.1 ▸ he.represents⟩
  | @delete cm cm' id b _ hdel ih =>
    obtain ⟨m, hm⟩ := ih
    cases hid : m id with
    | some p =>
      obtain ⟨cm₁, hrun, hr⟩ := hm.delete hid
      rw [hrun, Except.ok.injEq, Prod.mk.injEq] at hdel
      exact ⟨_, hdel.1 ▸ hr.represents⟩
    | none =>
      have hne : cm.bucket id ≠ none := by
        intro hnone
        rw [clientMapDelete_empty hnone] at hdel
        cases hdel
      rw [hm.delete_absent hid hne, Except.ok.injEq, Prod.mk.injEq] at hdel
      exact ⟨m, hdel.1 ▸ hm⟩

/-- Deleting an id that is not in the map fails without harm exactly when another
id of the map is in its bucket. Otherwise the `NULL` in the bucket is dereferenced. -/
theorem clientMapDelete_absent_iff {cap : ℕ} {cm : ClientMap} (h : ClientMap.Reachable cap cm)
    {id : UInt64} (hid : clientMapGet cm id = .ok none) :
    (clientMapDelete cm id = .ok (cm, false) ↔ cm.Collides id) ∧
      (clientMapDelete cm id = .error .undefined ↔ ¬ cm.Collides id) := by
  obtain ⟨m, hm⟩ := h.represents
  rw [hm.get, Except.ok.injEq] at hid
  rw [hm.collides_iff]
  by_cases hb : cm.bucket id = none
  · simp [clientMapDelete_empty hb, hb]
  · simp [hm.delete_absent hid hb, hb]

/-- Three ids of one bucket, of which the middle one is deleted twice. -/
theorem clientMapDelete_absent_iff_twice :
    ∃ cm, ClientMap.Reachable 16 cm ∧ clientMapDelete cm 17 = .ok (cm, false) := by
  have h₀ : ClientMap.Reachable 16 _ := .init rfl
  have h₁ : ClientMap.Reachable 16 _ := .newEntry 1 .zero h₀ rfl
  have h₂ : ClientMap.Reachable 16 _ := .newEntry 17 .zero h₁ rfl
  have h₃ : ClientMap.Reachable 16 _ := .newEntry 33 .zero h₂ rfl
  have h₄ : ClientMap.Reachable 16 _ := .delete 17 h₃ rfl
  exact ⟨_, h₄, (clientMapDelete_absent_iff h₄ rfl).1.mpr ⟨33, 2, rfl, rfl⟩⟩

/-- Any id, in a new map. -/
theorem clientMapDelete_undefined :
    ¬ ∀ cm, clientMapInit 16 = .ok cm → clientMapDelete cm 5 = .ok (cm, false) := by
  intro h
  exact absurd (h _ rfl) (by decide)

end Caht
