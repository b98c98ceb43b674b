import Caht.Groups.CidSet

/-! # Histories of one set of client ids

What any sequence of `cid_set_insert` calls leaves in a set that starts empty.
-/

namespace Caht
open Library CidSet

/-- A call of `cid_set_insert`, with what `malloc` finds if the call grows the table. -/
structure CidInsert where
  id : UInt64
  junk : ℕ → UInt64

def CidInsert.run (set : CidSet) (c : CidInsert) : Outcome CidSet :=
  cidSetInsert set c.id c.junk

/-- Eight slots, all of them empty. -/
def emptyCidSet : CidSet := ⟨0, 8, List.replicate 8 emptyVal⟩

/-- The ids a sequence of calls inserts. -/
def insertedIds (calls : List CidInsert) : Finset UInt64 := (calls.map CidInsert.id).toFinset

namespace CidSet

/-- The table stands for `s`: its shape, its load, where each id is, and what a
search answers. -/
structure Holds (set : CidSet) (s : Finset UInt64) : Prop where
  pow : ∃ k, set.cap = 2 ^ k
  cap_ge : 8 ≤ set.cap
  cap_le : set.cap ≤ max 8 (8 * set.len / 3)
  array : set.ids.length = set.cap
  len_slots : set.len = set.ids.countP fun v => v ≠ emptyVal
  len_ids : set.len = s.card
  room : ∃ i < set.cap, set.ids[i]? = some emptyVal
  stored : ∀ id, id ≠ emptyVal → (id ∈ set.ids ↔ id ∈ s)
  slot : ∀ id ∈ s, ∃! i : ℕ, set.ids[i]? = some id
  path : ∀ id ∈ s, ∀ i : ℕ, set.ids[i]? = some id → ∃ d < set.cap, (hash id set.cap + d) % set.cap = i ∧
    ∀ e ≤ d, set.ids[(hash id set.cap + e) % set.cap]? ≠ some emptyVal
  search : ∀ x, cidSetExists set x = .ok (decide (x ∈ s))
  terminates : ∀ x, ∃ set', set.insert x = .ok set'

/-- `Wf`, and no larger than the load asks for. -/
structure Compact (set : CidSet) (s : Finset UInt64) : Prop where
  wf : set.Wf s
  nonempty : emptyVal ∉ s
  cap_le : set.cap = 8 ∨ 3 * set.cap ≤ 8 * set.len

theorem compact_init (junk : ℕ → UInt64) : (cidSetInit junk).Compact ∅ :=
  ⟨wf_init junk, by simp, .inl rfl⟩

theorem compact_empty : emptyCidSet.Compact ∅ := by
  have hinit : cidSetInit (fun _ => 0) = emptyCidSet := by decide
  exact hinit ▸ compact_init _

section
variable {set : CidSet} {s : Finset UInt64}

theorem Compact.insert (h : set.Compact s) (c : CidInsert) (hid : c.id ≠ emptyVal) :
    ∃ set', c.run set = .ok set' ∧ set'.Compact (s ∪ {c.id}) := by
  obtain ⟨set', hins, hwf, hcap⟩ := h.wf.cidSetInsert hid c.junk
  refine ⟨set', hins, hwf, ?_, ?_⟩
  · rw [Finset.mem_union, Finset.mem_singleton]
    exact not_or.mpr ⟨h.nonempty, hid.symm⟩
  · have hle : set.len ≤ set'.len := by
      rw [h.wf.table.len_eq_card, hwf.table.len_eq_card]
      exact Finset.card_le_card Finset.subset_union_left
    have hold := h.cap_le
    omega

theorem Compact.runAll (h : set.Compact s) {calls : List CidInsert}
    (hid : ∀ c ∈ calls, c.id ≠ emptyVal) :
    ∃ set', runAll CidInsert.run set calls = .ok set' ∧ set'.Compact (s ∪ insertedIds calls) := by
  obtain ⟨set', hrun, -, s', h', hs'⟩ := runAll_total
    (I := fun l (set : CidSet) => (∀ c ∈ l, c.id ≠ emptyVal) ∧
      ∃ s', set.Compact s' ∧ s' ∪ insertedIds l = s ∪ insertedIds calls)
    (by
      rintro c l set ⟨hid, s', h, hs'⟩
      obtain ⟨set₁, hrun₁, h₁⟩ := h.insert c (hid c List.mem_cons_self)
      refine ⟨set₁, hrun₁, fun c' hc' => hid c' (List.mem_cons_of_mem _ hc'), _, h₁, ?_⟩
      rw [← hs', insertedIds, insertedIds, List.map_cons, List.toFinset_cons, Finset.union_assoc,
        Finset.insert_eq])
    ⟨hid, s, h, rfl⟩
  refine ⟨set', hrun, ?_⟩
  rw [← hs']
  simpa [insertedIds] using h'

theorem Compact.empty_mem (h : set.Compact s) : emptyVal ∈ set.ids := by
  have hload := h.wf.load
  have hcap := h.wf.cap
  apply empty_mem_of_stored_lt
  rw [← h.wf.table.len, h.wf.table.length]
  omega

/-- A search for any value stops within one turn, at its slot or at an empty one. -/
theorem Compact.probe_eq (h : set.Compact s) (x : UInt64) :
    ∃ i, probe emptyVal set.ids (set.cap - 1) x set.cap (hash x set.cap) =
      .ok (decide (x ∈ s), i) := by
  obtain ⟨k, hk⟩ := h.wf.table.pow
  have hlen : set.ids.length = 2 ^ k := h.wf.table.length.trans hk
  obtain ⟨d, -, v, hv, hprobe, -, hres⟩ := h.wf.table.probed.search hlen h.empty_mem x
  have hdec : decide (v ≠ emptyVal) = decide (x ∈ s) := by
    rcases hres with ⟨rfl, hnew⟩ | ⟨hne, rfl⟩
    · have hx : x ∉ s := by
        intro hx
        obtain ⟨hmem, hne⟩ := mem_stored.mp ((h.wf.table.mem x).mpr hx)
        exact hnew hne hmem
      simp [hx]
    · have hmem := (h.wf.table.mem v).mp (mem_stored.mpr ⟨List.mem_of_getElem? hv, hne⟩)
      simp [hne, hmem]
  refine ⟨(home x + d) % set.ids.length, ?_⟩
  rw [← hdec, ← hprobe, hlen, hk, hash_eq]

theorem Compact.search (h : set.Compact s) (x : UInt64) :
    cidSetExists set x = .ok (decide (x ∈ s)) := by
  obtain ⟨i, hprobe⟩ := h.probe_eq x
  simp [cidSetExists, hprobe]

theorem Compact.terminates (h : set.Compact s) (x : UInt64) :
    ∃ set', set.insert x = .ok set' := by
  obtain ⟨i, hprobe⟩ := h.probe_eq x
  by_cases hx : x ∈ s
  · exact ⟨set, by simp [CidSet.insert, hprobe, hx]⟩
  · exact ⟨{ set with ids := set.ids.set i x, len := set.len + 1 },
      by simp [CidSet.insert, hprobe, hx]⟩

/-- The probe path from the slot `hash` gives, which is the home slot cut down to
the table. -/
theorem Compact.path (h : set.Compact s) {id : UInt64} (hne : id ≠ emptyVal) {i : ℕ}
    (hi : set.ids[i]? = some id) :
    ∃ d < set.cap, (hash id set.cap + d) % set.cap = i ∧
      ∀ e ≤ d, set.ids[(hash id set.cap + e) % set.cap]? ≠ some emptyVal := by
  obtain ⟨k, hk⟩ := h.wf.table.pow
  obtain ⟨d, hd, hidx, hocc⟩ := h.wf.table.probed.path id i hne hi
  rw [h.wf.table.length] at hd hidx
  have hhash : ∀ e, (hash id set.cap + e) % set.cap = (home id + e) % set.cap := by
    intro e
    rw [hk, hash_eq, Nat.mod_add_mod]
  refine ⟨d, hd, by rw [hhash, hidx], ?_⟩
  intro e he
  rw [hhash]
  rcases he.lt_or_eq with hlt | rfl
  · have ho := hocc e hlt
    rwa [h.wf.table.length] at ho
  · rw [hidx, hi]
    exact fun hc => hne (Option.some.inj hc)

theorem Compact.holds (h : set.Compact s) : set.Holds s := by
  have hne : ∀ id ∈ s, id ≠ emptyVal := fun id hid he => h.nonempty (he ▸ hid)
  have hslots : ∀ id, id ≠ emptyVal → (id ∈ set.ids ↔ id ∈ s) := by
    intro id hid
    rw [← h.wf.table.mem, mem_stored]
    exact (and_iff_left hid).symm
  obtain ⟨j, hj, hje⟩ := List.getElem_of_mem h.empty_mem
  constructor
  case pow => exact h.wf.table.pow
  case cap_ge => exact h.wf.cap
  case cap_le =>
    rcases h.cap_le with hcap | hcap
    · exact le_max_of_le_left hcap.le
    · exact le_max_of_le_right (by omega)
  case array => exact h.wf.table.length
  case len_slots => rw [List.countP_eq_length_filter, h.wf.table.len, stored]
  case len_ids => exact h.wf.table.len_eq_card
  case room => exact ⟨j, h.wf.table.length ▸ hj, by rw [List.getElem?_eq_getElem hj, hje]⟩
  case stored => exact hslots
  case slot =>
    intro id hid
    obtain ⟨i, hi, hie⟩ := List.getElem_of_mem ((hslots id (hne id hid)).mpr hid)
    have hget : set.ids[i]? = some id := by rw [List.getElem?_eq_getElem hi, hie]
    exact ⟨i, hget, fun i' hi' => h.wf.table.probed.uniq id i' i (hne id hid) hi' hget⟩
  case path => exact fun id hid i hi => h.path (hne id hid) hi
  case search => exact h.search
  case terminates => exact h.terminates

end

end CidSet

/-- Any sequence of inserts gives a table that stands for the set of the ids
inserted. Inserting one of them again changes neither the count nor an answer,
and the answers do not depend on the order. -/
theorem cidSet_inserts (calls : List CidInsert) (hid : ∀ c ∈ calls, c.id ≠ emptyVal) :
    ∃ set, runAll CidInsert.run emptyCidSet calls = .ok set ∧ set.Holds (insertedIds calls) ∧
      (∀ id ∈ insertedIds calls, ∀ junk, ∃ set', cidSetInsert set id junk = .ok set' ∧
        set'.Holds (insertedIds calls) ∧ set'.len = set.len ∧
        ∀ x, cidSetExists set' x = cidSetExists set x) ∧
      (∀ calls' : List CidInsert, (calls'.map CidInsert.id).Perm (calls.map CidInsert.id) →
        ∃ set', runAll CidInsert.run emptyCidSet calls' = .ok set' ∧ set'.len = set.len ∧
          ∀ x, cidSetExists set' x = cidSetExists set x) := by
  obtain ⟨set, hrun, hset⟩ := compact_empty.runAll hid
  rw [Finset.empty_union] at hset
  refine ⟨set, hrun, hset.holds, ?_, ?_⟩
  · intro id hmem junk
    obtain ⟨set', hins, hset'⟩ := hset.insert ⟨id, junk⟩ fun he => hset.nonempty (he ▸ hmem)
    have hsame : insertedIds calls ∪ {id} = insertedIds calls :=
      Finset.union_eq_left.mpr (Finset.singleton_subset_iff.mpr hmem)
    rw [hsame] at hset'
    refine ⟨set', hins, hset'.holds, ?_, ?_⟩
    · rw [hset'.holds.len_ids, hset.holds.len_ids]
    · intro x
      rw [hset'.search, hset.search]
  · intro calls' hperm
    have hsame : insertedIds calls' = insertedIds calls := List.toFinset_eq_of_perm _ _ hperm
    have hid' : ∀ c ∈ calls', c.id ≠ emptyVal := by
      intro c hc
      obtain ⟨c₀, hc₀, he⟩ := List.mem_map.mp (hperm.subset (List.mem_map_of_mem hc))
      exact he ▸ hid c₀ hc₀
    obtain ⟨set', hrun', hset'⟩ := compact_empty.runAll hid'
    rw [Finset.empty_union, hsame] at hset'
    refine ⟨set', hrun', ?_, ?_⟩
    · rw [hset'.holds.len_ids, hset.holds.len_ids]
    · intro x
      rw [hset'.search, hset.search]

/-- Two ids with one home slot, one of them inserted twice. -/
theorem cidSet_inserts_collision :
    ∃ set, runAll CidInsert.run emptyCidSet [⟨1, fun _ => 7⟩, ⟨9, fun _ => 0⟩, ⟨1, fun _ => 3⟩] =
        .ok set ∧ hash 1 8 = hash 9 8 ∧ set.len = 2 ∧ cidSetExists set 9 = .ok true ∧
      cidSetExists set emptyVal = .ok false := by
  obtain ⟨set, hrun, hset, -⟩ := cidSet_inserts
    [⟨1, fun _ => 7⟩, ⟨9, fun _ => 0⟩, ⟨1, fun _ => 3⟩] (by simp [emptyVal])
  refine ⟨set, hrun, by decide, ?_, ?_, ?_⟩
  · rw [hset.len_ids]
    rfl
  · rw [hset.search]
    rfl
  · rw [hset.search]
    rfl

end Caht
