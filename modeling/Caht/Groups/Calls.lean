import Caht.Groups.Refinement

/-! # What a call of `groups_insert` reports

Every path through `groups_insert` returns `false`. The table itself is kept as the
header says: a refused allocation changes nothing, and any other call makes the
client a member of the group.
-/

namespace Caht
open Library

/-- The tables that calls of `groups_insert` lead to from `size` buckets of `NULL`. -/
inductive Groups.Reachable (size : ℕ) : Groups → Prop where
  | empty : Reachable size (emptyGroups size)
  | insert {g g' : Groups} {gid cid : UInt64} {alloc b : Bool} {junk : ℕ → UInt64}
      (h : Reachable size g) (hins : groupsInsert g gid cid alloc junk = .ok (g', b)) :
      Reachable size g'

/-- A new group is needed, and its `malloc` fails. -/
def Groups.Refused (g : Groups) (gid : UInt64) (alloc : Bool) : Prop :=
  groupsGet g gid = .ok none ∧ alloc = false

/-- `groups_get` finds the group, and its iterator goes over the client. -/
def Groups.Member (g : Groups) (gid cid : UInt64) : Prop :=
  ∃ it s, groupsGet g gid = .ok (some it) ∧ Drains it s ∧ cid ∈ s

/-- What the header says of one call: `false` if and only if `malloc` of the group
failed, and then nothing has changed; otherwise the client is in the group. -/
def Groups.Truthful (g : Groups) (gid cid : UInt64) (alloc : Bool) (junk : ℕ → UInt64) : Prop :=
  ∃ g' b, groupsInsert g gid cid alloc junk = .ok (g', b) ∧ (b = false ↔ g.Refused gid alloc) ∧
    (g.Refused gid alloc → g' = g) ∧ (¬ g.Refused gid alloc → g'.Member gid cid)

section
variable {g : Groups} {m : UInt64 → Finset UInt64} {gid : UInt64} {alloc : Bool}

theorem Groups.Represents.insert_refused (h : g.Represents m) (hr : g.Refused gid alloc)
    (cid : UInt64) (junk : ℕ → UInt64) : groupsInsert g gid cid alloc junk = .ok (g, false) := by
  obtain ⟨hget, rfl⟩ := hr
  obtain ⟨chains, hw⟩ := h.wf
  rcases hw.find gid with ⟨p, n, -, hn, rfl⟩ | ⟨hf, -⟩
  · rw [hw.get_of_node hn] at hget
    simp at hget
  · simp [groupsInsert, hf]

/-- Unless a new group is needed, the call is one whose `malloc` would succeed. -/
theorem Groups.Represents.insert_alloc (h : g.Represents m) (hr : ¬ g.Refused gid alloc)
    (cid : UInt64) (junk : ℕ → UInt64) :
    groupsInsert g gid cid alloc junk = groupsInsert g gid cid true junk := by
  obtain ⟨chains, hw⟩ := h.wf
  rcases hw.find gid with ⟨p, n, hf, -, -⟩ | ⟨hf, hno⟩
  · simp [groupsInsert, hf]
  · have halloc : alloc = true := by
      by_contra hne
      exact hr ⟨hw.get_of_forall_ne hno, by simpa using hne⟩
    rw [halloc]

/-- `UINT64_MAX` ends the process, after the group for it has been made. -/
theorem Groups.Represents.insert_max (h : g.Represents m) (hr : ¬ g.Refused gid alloc)
    (junk : ℕ → UInt64) :
    groupsInsert g gid CidSet.emptyVal alloc junk =
      .error (.exit "illegal value for id (UINT64_MAX)") := by
  obtain ⟨chains, hw⟩ := h.wf
  rw [h.insert_alloc hr]
  rcases hw.find gid with ⟨p, n, hf, hn, -⟩ | ⟨hf, -⟩
  · simp [groupsInsert, hf, Groups.insertAt, hn, CidSet.cidSetInsert]
  · simp [groupsInsert, hf, Groups.insertAt, Groups.addGroup, CidSet.cidSetInsert]

theorem Groups.Represents.insert_ok (h : g.Represents m) {g' : Groups} {cid : UInt64} {b : Bool}
    {junk : ℕ → UInt64} (hins : groupsInsert g gid cid alloc junk = .ok (g', b)) :
    b = false ∧ ((g.Refused gid alloc ∧ g' = g) ∨
      ¬ g.Refused gid alloc ∧ g.Inserted g' gid (m gid ∪ {cid})) := by
  by_cases hr : g.Refused gid alloc
  · rw [h.insert_refused hr, Except.ok.injEq, Prod.mk.injEq] at hins
    exact ⟨hins.2.symm, .inl ⟨hr, hins.1.symm⟩⟩
  · have hcid : cid ≠ CidSet.emptyVal := by
      rintro rfl
      rw [h.insert_max hr] at hins
      cases hins
    obtain ⟨g₁, hrun, hg₁⟩ := h.insert gid hcid junk
    rw [h.insert_alloc hr, hrun, Except.ok.injEq, Prod.mk.injEq] at hins
    exact ⟨hins.2.symm, .inr ⟨hr, hins.1 ▸ hg₁⟩⟩

theorem Groups.Represents.member (h : g.Represents m) {cid : UInt64} (hcid : cid ∈ m gid) :
    g.Member gid cid := by
  rcases h.get gid with ⟨hempty, -⟩ | ⟨ids, -, hids, hget⟩
  · simp [hempty] at hcid
  · exact ⟨_, m gid, hget, drains_of_wf hids, hcid⟩

end

theorem Groups.Reachable.represents {size : ℕ} (hsize : 1 ≤ size) {g : Groups} (h : Reachable size g) :
    ∃ m, g.Represents m := by
  induction h with
  | empty => exact ⟨_, emptyGroups_represents hsize⟩
  | insert _ hins ih =>
    obtain ⟨m, hm⟩ := ih
    obtain ⟨-, ⟨-, rfl⟩ | ⟨-, hg'⟩⟩ := hm.insert_ok hins
    · exact ⟨m, hm⟩
    · exact ⟨_, hg'.represents hm⟩

/-- The answer is the truth only when the allocation of a group fails. The table
is in order after every call. -/
theorem groupsInsert_truthful_iff {size : ℕ} (hsize : 1 ≤ size) {g : Groups}
    (h : Groups.Reachable size g) (gid : UInt64) {cid : UInt64} (hcid : cid ≠ CidSet.emptyVal)
    (alloc : Bool) (junk : ℕ → UInt64) :
    (g.Truthful gid cid alloc junk ↔ g.Refused gid alloc) ∧
      ∃ g', groupsInsert g gid cid alloc junk = .ok (g', false) ∧ (g.Refused gid alloc → g' = g) ∧
        (¬ g.Refused gid alloc → g'.Member gid cid) := by
  obtain ⟨m, hm⟩ := h.represents hsize
  have heffect : ∃ g', groupsInsert g gid cid alloc junk = .ok (g', false) ∧
      (g.Refused gid alloc → g' = g) ∧ (¬ g.Refused gid alloc → g'.Member gid cid) := by
    by_cases hr : g.Refused gid alloc
    · exact ⟨g, hm.insert_refused hr cid junk, fun _ => rfl, fun hnr => absurd hr hnr⟩
    · obtain ⟨g', hrun, hg'⟩ := hm.insert gid hcid junk
      refine ⟨g', (hm.insert_alloc hr cid junk).trans hrun, fun hr' => absurd hr' hr, fun _ => ?_⟩
      exact (hg'.represents hm).member (by simp)
  refine ⟨⟨?_, ?_⟩, heffect⟩
  · rintro ⟨g', b, hins, hb, -, -⟩
    exact hb.mp (hm.insert_ok hins).1
  · intro hr
    obtain ⟨g', hins, hsame, hmember⟩ := heffect
    exact ⟨g', false, hins, iff_of_true rfl hr, hsame, hmember⟩

/-- After a first insert into a table of two buckets, a refused one and one into the group there is. -/
theorem groupsInsert_truthful_iff_second :
    ∃ g, Groups.Reachable 2 g ∧ g.Truthful 1 5 false (fun _ => 0) ∧ ¬ g.Truthful 4 6 false fun _ => 0 := by
  have hempty : (emptyGroups 2).Represents (inserted []) := emptyGroups_represents (by decide)
  have hcid : (5 : UInt64) ≠ CidSet.emptyVal := by decide
  obtain ⟨g, hins, hg⟩ := hempty.insert 4 hcid fun _ => 0
  have hreach : Groups.Reachable 2 g := .insert .empty hins
  have hrep := hg.represents hempty
  refine ⟨g, hreach, ?_, ?_⟩
  · refine (groupsInsert_truthful_iff (by decide) hreach 1 (by decide) false _).1.mpr ⟨?_, rfl⟩
    rcases hrep.get 1 with ⟨-, hget⟩ | ⟨-, ⟨cid, hcid⟩, -⟩
    · exact hget
    · simp [inserted] at hcid
  · intro ht
    have hr := (groupsInsert_truthful_iff (by decide) hreach 4 (by decide) false _).1.mp ht
    rcases hrep.get 4 with ⟨hempty, -⟩ | ⟨ids, -, -, hget⟩
    · simp at hempty
    · rw [Groups.Refused, hget] at hr
      simp at hr

/-- The first insert into a new table. -/
theorem groupsInsert_not_truthful : ¬ (emptyGroups 1).Truthful 0 5 true fun _ => 0 := by
  rintro ⟨g', b, hins, hb, -, -⟩
  have hfalse := ((emptyGroups_represents le_rfl).insert_ok hins).1
  exact absurd (hb.mp hfalse).2 (by decide)

end Caht
