import Caht.ClientMap.Refinement

/-! # Runs of the client map

A run is any sequence of calls in which `client_map_delete` is given present
ids only and nothing is written through a pointer after its entry was deleted.
`History` is what an observer of the calls remembers: for each id added and not
deleted since, the node `client_map_new_entry` returned for it, and the largest
number of such ids so far.
-/

namespace Caht
open Library

structure History where
  live : List (UInt64 × ℕ)
  peak : ℕ
  deriving DecidableEq, Repr

def History.lookup (h : History) (id : UInt64) : Option ℕ := h.live.lookup id

def History.enter (h : History) (id : UInt64) (p : ℕ) : History :=
  ⟨(id, p) :: h.live, max h.peak (h.live.length + 1)⟩

def History.remove (h : History) (id : UInt64) : History :=
  { h with live := h.live.filter fun e => id != e.1 }

inductive MapCall where
  | newEntry (id : UInt64) (junk : ClientInfo)
  | get (id : UInt64)
  | delete (id : UInt64)
  | write (id : UInt64) (f : ClientInfo → ClientInfo)

def MapCall.Allowed (h : History) : MapCall → Prop
  | .delete id => h.lookup id ≠ none
  | _ => True

instance (h : History) : (c : MapCall) → Decidable (c.Allowed h)
  | .newEntry _ _ => isTrue trivial
  | .get _ => isTrue trivial
  | .delete id => inferInstanceAs (Decidable (h.lookup id ≠ none))
  | .write _ _ => isTrue trivial

def MapCall.run (s : ClientMap × History) : MapCall → Outcome (ClientMap × History)
  | .newEntry id junk => do
    let (cm, entry) ← clientMapNewEntry s.1 id junk
    .ok (cm, match entry with
      | none => s.2
      | some p => s.2.enter id p)
  | .get id => do
    let _ ← clientMapGet s.1 id
    .ok s
  | .delete id => do
    let (cm, _) ← clientMapDelete s.1 id
    .ok (cm, s.2.remove id)
  | .write id f => .ok (match s.2.lookup id with
    | none => s
    | some p => (s.1.write p f, s.2))

inductive MapReaches (cap : ℕ) : ClientMap → History → Prop
  | init {cm : ClientMap} (h : clientMapInit cap = .ok cm) : MapReaches cap cm ⟨[], 0⟩
  | call {cm cm' : ClientMap} {h h' : History} (c : MapCall) (hr : MapReaches cap cm h)
      (ha : c.Allowed h) (hc : c.run (cm, h) = .ok (cm', h')) : MapReaches cap cm' h'

theorem History.lookup_enter (h : History) (id : UInt64) (p : ℕ) :
    (h.enter id p).lookup = Function.update h.lookup id (some p) := by
  funext a
  by_cases ha : a = id
  · subst ha
    simp [History.lookup, History.enter]
  · have hb : (a == id) = false := by simpa using ha
    simp [History.lookup, History.enter, List.lookup_cons, hb, ha]

theorem lookup_filter_ne (l : List (UInt64 × ℕ)) (id a : UInt64) :
    (l.filter fun e => id != e.1).lookup a = if a = id then none else l.lookup a := by
  induction l with
  | nil => simp
  | cons e l ih =>
    obtain ⟨b, q⟩ := e
    by_cases hb : id = b
    · subst hb
      by_cases ha : a = id
      · simp [ha] at ih ⊢
      · have hne : (a == id) = false := by simpa using ha
        simp [ih, ha, List.lookup_cons, hne]
    · have hbn : (id != b) = true := by simpa using hb
      by_cases hab : a = b
      · subst hab
        simp [hbn, Ne.symm hb]
      · have hne : (a == b) = false := by simpa using hab
        simp only [List.filter_cons, hbn, if_true, List.lookup_cons, hne, ih]

theorem History.lookup_remove (h : History) (id : UInt64) :
    (h.remove id).lookup = Function.update h.lookup id none := by
  funext a
  rw [History.lookup, History.remove, lookup_filter_ne, Function.update_apply]
  rfl

/-- Distinct ids are listed, as many as there are nodes outside the free array. -/
structure MapInv (cap : ℕ) (cm : ClientMap) (h : History) : Prop where
  bucketsCap : cm.bucketsCap = cap
  represents : cm.Represents h.lookup
  keys : (h.live.map Prod.fst).Nodup
  live_length : h.live.length + cm.free.length = cm.nodes.length
  peak : h.peak = cm.nodes.length

theorem mapInv_init {cap : ℕ} {cm : ClientMap} (hc : clientMapInit cap = .ok cm) :
    MapInv cap cm ⟨[], 0⟩ := by
  unfold clientMapInit at hc
  split_ifs at hc with hz
  have hpos : 0 < cap := Nat.pos_of_ne_zero fun h => hz (.inl h)
  obtain rfl := Except.ok.inj hc
  have hempty : ∀ i, (List.replicate cap ([] : List ℕ)).getD i [] = [] := by
    intro i
    by_cases hi : i < cap <;> simp [List.getD, hi]
  have hflat : (List.replicate cap ([] : List ℕ)).flatten = [] := by simp
  have hnone : ∀ i, (List.replicate cap (none : Option ℕ)).getD i none = none := by
    intro i
    by_cases hi : i < cap <;> simp [List.getD, hi]
  refine ⟨rfl, ⟨List.replicate cap [], ?_, ?_⟩, by simp, rfl, rfl⟩
  · constructor
    · exact hpos
    · simp
    · simp
    · intro i _
      rw [hempty]
      exact isChain_nil.mpr (hnone i)
    · simp
    · intro i _ p hp
      rw [hempty] at hp
      cases hp
    · intro p hp
      cases hp
    · exact Nat.zero_le _
    · exact (by decide : 0 < freeInitLen)
  · intro id p
    rw [hflat]
    simp [History.lookup]

theorem lookup_eq_none {l : List (UInt64 × ℕ)} {id : UInt64} (h : l.lookup id = none) :
    id ∉ l.map Prod.fst := by
  intro hm
  obtain ⟨e, he, rfl⟩ := List.mem_map.mp hm
  have hb := List.lookup_eq_none_iff.mp h e he
  simp at hb

theorem mapInv_enter {cap : ℕ} {cm cm' : ClientMap} {h : History} {id : UInt64} {junk : ClientInfo} {p : ℕ}
    (hi : MapInv cap cm h) (hid : h.lookup id = none) (he : cm.Entered h.lookup id junk cm' p) :
    MapInv cap cm' (h.enter id p) := by
  have hlen := hi.live_length
  have hpk := hi.peak
  refine ⟨he.bucketsCap.trans hi.bucketsCap, ?_, ?_, ?_, ?_⟩
  · rw [History.lookup_enter]
    exact he.represents
  · simpa [History.enter, hi.keys] using lookup_eq_none hid
  · simp only [History.enter, List.length_cons]
    rcases he.source with ⟨hf, hf', -, hl, -⟩ | ⟨-, hf, hl, -⟩
    · rw [hf'] at *
      rw [hf] at hlen
      simp only [List.length_nil] at *
      omega
    · omega
  · simp only [History.enter]
    rcases he.source with ⟨hf, -, -, hl, -⟩ | ⟨-, hf, hl, -⟩
    · rw [hf, List.length_nil] at hlen
      omega
    · omega

theorem filter_key_length {l : List (UInt64 × ℕ)} {id : UInt64} {p : ℕ}
    (hk : (l.map Prod.fst).Nodup) (hl : l.lookup id = some p) :
    (l.filter fun e => id != e.1).length + 1 = l.length := by
  induction l with
  | nil => simp at hl
  | cons e l ih =>
    obtain ⟨b, q⟩ := e
    rw [List.map_cons, List.nodup_cons] at hk
    by_cases hb : id = b
    · subst hb
      have hall : l.filter (fun e => id != e.1) = l := by
        apply List.filter_eq_self.mpr
        intro e he
        have hne : id ≠ e.1 := fun h => hk.1 (List.mem_map.mpr ⟨e, he, h.symm⟩)
        simpa using hne
      simp [hall]
    · have hbn : (id != b) = true := by simpa using hb
      have hbe : (id == b) = false := by simpa using hb
      rw [List.lookup_cons, hbe] at hl
      simp only [List.filter_cons, hbn, if_true, List.length_cons, ih hk.2 hl]

theorem mapInv_remove {cap : ℕ} {cm cm' : ClientMap} {h : History} {id : UInt64} {p : ℕ}
    (hi : MapInv cap cm h) (hid : h.lookup id = some p) (hr : cm.Removed h.lookup id p cm') :
    MapInv cap cm' (h.remove id) := by
  have hlen := hi.live_length
  have hflt := filter_key_length hi.keys hid
  refine ⟨hr.bucketsCap.trans hi.bucketsCap, ?_, ?_, ?_, ?_⟩
  · rw [History.lookup_remove]
    exact hr.represents
  · exact (List.filter_sublist.map Prod.fst).nodup hi.keys
  · simp only [History.remove, hr.free, hr.nodes_length, List.length_append,
      List.length_singleton]
    omega
  · rw [hr.nodes_length]
    exact hi.peak

theorem mapInv_step {cap : ℕ} {cm : ClientMap} {h : History} (hi : MapInv cap cm h) (c : MapCall)
    (ha : c.Allowed h) : ∃ r, c.run (cm, h) = .ok r ∧ MapInv cap r.1 r.2 := by
  cases c with
  | newEntry id junk =>
    cases hid : h.lookup id with
    | some p =>
      refine ⟨(cm, h), ?_, hi⟩
      simp [MapCall.run, hi.represents.newEntry_false hid junk]
    | none =>
      obtain ⟨cm', p, hnew, he⟩ := hi.represents.newEntry hid junk
      refine ⟨(cm', h.enter id p), ?_, mapInv_enter hi hid he⟩
      simp [MapCall.run, hnew]
  | get id => exact ⟨(cm, h), by simp [MapCall.run, hi.represents.get id], hi⟩
  | delete id =>
    obtain ⟨p, hid⟩ := Option.ne_none_iff_exists'.mp ha
    obtain ⟨cm', hdel, hr⟩ := hi.represents.delete hid
    refine ⟨(cm', h.remove id), ?_, mapInv_remove hi hid hr⟩
    simp [MapCall.run, hdel]
  | write id f =>
    cases hid : h.lookup id with
    | none => exact ⟨(cm, h), by simp [MapCall.run, hid], hi⟩
    | some p =>
      refine ⟨(cm.write p f, h), by simp [MapCall.run, hid], hi.bucketsCap,
        hi.represents.write hid f, hi.keys, ?_, ?_⟩
      · simpa [ClientMap.write] using hi.live_length
      · simpa [ClientMap.write] using hi.peak

theorem mapInv_reaches {cap : ℕ} {cm : ClientMap} {h : History} (hr : MapReaches cap cm h) :
    MapInv cap cm h := by
  induction hr with
  | init hc => exact mapInv_init hc
  | call c _ ha hc ih =>
    obtain ⟨r, hrun, hinv⟩ := mapInv_step ih c ha
    obtain rfl := Except.ok.inj (hrun.symm.trans hc)
    exact hinv

/-- The client map is a finite map with stable entries, over any run that starts
from `client_map_init` with a power of two. -/
theorem clientMap_refines (k : ℕ) {cm : ClientMap} {h : History} (hr : MapReaches (2 ^ k) cm h) :
    (∃ cm₀, clientMapInit (2 ^ k) = .ok cm₀) ∧
    (∀ c : MapCall, c.Allowed h → ∃ r, c.run (cm, h) = .ok r) ∧
    (∀ id, clientMapGet cm id = .ok (h.lookup id)) ∧
    (∀ id p, h.lookup id = some p → ∃ n, cm.nodes[p]? = some n ∧ n.clientId = id) ∧
    (∀ id junk, clientMapNewEntry cm id junk = .ok (cm, none) ↔ h.lookup id ≠ none) ∧
    (∀ id junk, h.lookup id = none → ∃ cm' p, clientMapNewEntry cm id junk = .ok (cm', some p) ∧
      (∀ a, h.lookup a ≠ some p) ∧
      (p < cm.nodes.length → cm'.infoAt p = some { ClientInfo.zero with clientId := id })) ∧
    (∃ chains : List (List ℕ), chains.length = 2 ^ k ∧
      (∀ i < 2 ^ k, IsChain ClientInfo.next cm.nodes (cm.buckets.getD i none) (chains.getD i [])) ∧
      (∀ i < 2 ^ k, ∀ p ∈ chains.getD i [], ∀ n, cm.nodes[p]? = some n →
        n.clientId.toNat &&& (2 ^ k - 1) = i) ∧
      (chains.flatten ++ cm.free).Perm (List.range cm.nodes.length)) ∧
    cm.free.length ≤ cm.freeCap ∧
    cm.nodes.length = h.peak := by
  have hi := mapInv_reaches hr
  have hcap := hi.bucketsCap
  have hrep := hi.represents
  refine ⟨?_, ?_, hrep.get, fun id p => hrep.clientId, ?_, ?_, ?_, ?_, hi.peak.symm⟩
  · refine ⟨_, if_neg ?_⟩
    rintro (hz | hz)
    · exact absurd hz (by positivity)
    · rw [Nat.and_two_pow_sub_one_eq_mod, Nat.mod_self] at hz
      exact hz rfl
  · intro c ha
    obtain ⟨r, hrun, -⟩ := mapInv_step hi c ha
    exact ⟨r, hrun⟩
  · intro id junk
    constructor
    · intro hnew hid
      obtain ⟨cm', p, hnew', -⟩ := hrep.newEntry hid junk
      rw [hnew] at hnew'
      cases hnew'
    · intro hid
      obtain ⟨p, hp⟩ := Option.ne_none_iff_exists'.mp hid
      exact hrep.newEntry_false hp junk
  · intro id junk hid
    obtain ⟨cm', p, hnew, he⟩ := hrep.newEntry hid junk
    refine ⟨cm', p, hnew, he.fresh, fun hp => ?_⟩
    rcases he.source with ⟨-, -, rfl, -⟩ | ⟨-, -, -, hinfo⟩
    · exact absurd hp (lt_irrefl _)
    · exact hinfo
  · obtain ⟨chains, hw, -⟩ := hrep
    have hlen := hw.chains_length
    have hlinked := hw.linked
    have hhome := hw.home
    rw [hcap] at hlen hlinked hhome
    exact ⟨chains, hlen, hlinked, hhome, hw.places⟩
  · obtain ⟨chains, hw, -⟩ := hrep
    exact hw.free_le

/-- Two ids of one bucket, the older one deleted. -/
theorem clientMap_refines_collision :
    ∃ cm h, MapReaches (2 ^ 4) cm h ∧ h.live = [(17, 1)] ∧ clientMapGet cm 17 = .ok (some 1) ∧
      cm.nodes.length = 2 := by
  have h₁ : MapReaches (2 ^ 4) _ _ := .call (.newEntry 1 .zero) (.init rfl) trivial rfl
  have h₂ : MapReaches (2 ^ 4) _ _ := .call (.newEntry 17 .zero) h₁ trivial rfl
  have h₃ : MapReaches (2 ^ 4) _ _ := .call (.delete 1) h₂ (by decide) rfl
  obtain ⟨-, -, hget, -, -, -, -, -, hpeak⟩ := clientMap_refines 4 h₃
  exact ⟨_, _, h₃, rfl, hget 17, hpeak⟩

end Caht
