import Caht.Groups.Model

/-! # Groups refine a map from group ids to sets of client ids

`Represents g m` says that the pointer structure `g` stands for the map `m`: the
bucket chains share out the allocated groups, no two groups have one id, and each
group's table holds the set `m` gives. The history of inserts determines `m`.
-/

namespace Caht
open Library

/-- The pointer structure, with the list of pointers in each bucket. -/
structure Groups.Wf (g : Groups) (chains : List (List ℕ)) : Prop where
  size_pos : 0 < g.size
  buckets_length : g.buckets.length = g.size
  chains_length : chains.length = g.size
  linked : ∀ i < chains.length, IsChain Grp.next g.nodes (g.buckets.getD i none) (chains.getD i [])
  places : chains.flatten.Perm (List.range g.nodes.length)
  home : ∀ i < chains.length, ∀ p ∈ chains.getD i [], ∀ n, g.nodes[p]? = some n → g.bkt n.gid = i
  unique : ∀ (p q : ℕ) (n n' : Grp), g.nodes[p]? = some n → g.nodes[q]? = some n' → n.gid = n'.gid → p = q

structure Groups.Represents (g : Groups) (m : UInt64 → Finset UInt64) : Prop where
  wf : ∃ chains, g.Wf chains
  members : ∀ (p : ℕ) n, g.nodes[p]? = some n → n.clientIds.Wf (m n.gid) ∧ (m n.gid).Nonempty
  present : ∀ gid, (m gid).Nonempty → ∃ (p : ℕ) (n : Grp), g.nodes[p]? = some n ∧ n.gid = gid

theorem Groups.bkt_lt {g : Groups} (h : 0 < g.size) (gid : UInt64) : g.bkt gid < g.size := by
  have hle : g.bkt gid ≤ g.size - 1 := Nat.and_le_right
  omega

section
variable {g : Groups} {chains : List (List ℕ)} {m : UInt64 → Finset UInt64}

theorem Groups.Wf.chain_nodup (h : g.Wf chains) {i : ℕ} (hi : i < chains.length) :
    (chains.getD i []).Nodup := by
  have hf : chains.flatten.Nodup := h.places.nodup_iff.mpr List.nodup_range
  rw [List.getD_eq_getElem _ _ hi]
  exact (List.nodup_flatten.mp hf).1 _ (List.getElem_mem hi)

theorem Groups.Wf.mem_chain (h : g.Wf chains) {p : ℕ} {n : Grp} (hn : g.nodes[p]? = some n) :
    p ∈ chains.getD (g.bkt n.gid) [] := by
  have hp : p ∈ chains.flatten :=
    h.places.mem_iff.mpr (List.mem_range.mpr (List.getElem?_eq_some_iff.mp hn).1)
  obtain ⟨c, hc, hpc⟩ := List.mem_flatten.mp hp
  obtain ⟨i, hi, rfl⟩ := List.getElem_of_mem hc
  have hd : chains.getD i [] = chains[i] := List.getD_eq_getElem _ _ hi
  rw [h.home i hi p (hd ▸ hpc) n hn, hd]
  exact hpc

theorem Groups.Wf.find (h : g.Wf chains) (gid : UInt64) :
    (∃ p n, g.find gid = .ok (some p) ∧ g.nodes[p]? = some n ∧ n.gid = gid) ∨
    (g.find gid = .ok none ∧ ∀ (p : ℕ) n, g.nodes[p]? = some n → n.gid ≠ gid) := by
  have hi : g.bkt gid < chains.length := by
    rw [h.chains_length]
    exact Groups.bkt_lt h.size_pos gid
  have hc := h.linked _ hi
  have hfind := findFrom_eq (fun n : Grp => n.gid == gid) hc _
    ((hc.length_le (h.chain_nodup hi)).trans (Nat.le_succ _))
  rw [← Groups.find] at hfind
  cases hf : (chains.getD (g.bkt gid) []).find? (testAt g.nodes fun n => n.gid == gid) with
  | some p =>
    obtain ⟨n, hn, hid⟩ := testAt_eq_true.mp (List.find?_some hf)
    exact .inl ⟨p, n, by rw [hfind, hf], hn, by simpa using hid⟩
  | none =>
    refine .inr ⟨by rw [hfind, hf], ?_⟩
    rintro p n hn rfl
    exact List.find?_eq_none.mp hf p (h.mem_chain hn) (testAt_eq_true.mpr ⟨n, hn, by simp⟩)

theorem Groups.Wf.get_of_node (h : g.Wf chains) {p : ℕ} {n : Grp} (hn : g.nodes[p]? = some n) :
    groupsGet g n.gid = .ok (some n.clientIds.cidSetIter) := by
  rcases h.find n.gid with ⟨q, n', hf, hn', he⟩ | ⟨-, hno⟩
  · obtain rfl := h.unique q p n' n hn' hn he
    obtain rfl := Option.some.inj (hn.symm.trans hn')
    simp [groupsGet, hf, hn]
  · exact absurd rfl (hno p n hn)

theorem Groups.Wf.get_of_forall_ne (h : g.Wf chains) {gid : UInt64}
    (hno : ∀ (p : ℕ) n, g.nodes[p]? = some n → n.gid ≠ gid) : groupsGet g gid = .ok none := by
  rcases h.find gid with ⟨p, n, -, hn, he⟩ | ⟨hf, -⟩
  · exact absurd he (hno p n hn)
  · simp [groupsGet, hf]

theorem Groups.Wf.addGroup (h : g.Wf chains) {gid : UInt64} (junk : ℕ → UInt64)
    (hno : ∀ (p : ℕ) n, g.nodes[p]? = some n → n.gid ≠ gid) :
    (g.addGroup gid junk).Wf (pushChain chains (g.bkt gid) g.nodes.length) := by
  have hi : g.bkt gid < chains.length := h.chains_length ▸ Groups.bkt_lt h.size_pos gid
  have hb : g.bkt gid < g.buckets.length := h.buckets_length ▸ Groups.bkt_lt h.size_pos gid
  have hlt : ∀ p ∈ chains.flatten, p < g.nodes.length := fun p hp =>
    List.mem_range.mp (h.places.mem_iff.mp hp)
  have hold : ∀ p < g.nodes.length, (g.addGroup gid junk).nodes[p]? = g.nodes[p]? := fun p hp =>
    List.getElem?_append_left hp
  have hnew : (g.addGroup gid junk).nodes[g.nodes.length]? =
      some ⟨gid, CidSet.cidSetInit junk, g.buckets.getD (g.bkt gid) none⟩ := by
    simp [Groups.addGroup]
  have hcase : ∀ (p : ℕ) n, (g.addGroup gid junk).nodes[p]? = some n →
      (p < g.nodes.length ∧ g.nodes[p]? = some n) ∨ (p = g.nodes.length ∧ n.gid = gid) := by
    intro p n hn
    have hp : p < g.nodes.length + 1 := by
      simpa [Groups.addGroup] using (List.getElem?_eq_some_iff.mp hn).1
    rcases Nat.lt_succ_iff_lt_or_eq.mp hp with hp | rfl
    · exact .inl ⟨hp, hold p hp ▸ hn⟩
    · rw [hnew] at hn
      exact .inr ⟨rfl, (Option.some.inj hn) ▸ rfl⟩
  have hlen : (pushChain chains (g.bkt gid) g.nodes.length).length = chains.length := by
    simp [pushChain]
  refine ⟨h.size_pos, ?_, hlen.trans h.chains_length, ?_, ?_, ?_, ?_⟩
  · simpa [Groups.addGroup] using h.buckets_length
  · intro i hi'
    exact isChain_push hb hi h.linked hnew rfl
      (fun q hq => by rw [hold q (hlt q hq)]) (hlen ▸ hi')
  · refine (pushChain_perm _ _ _ hi).trans ?_
    have hl : (g.addGroup gid junk).nodes.length = g.nodes.length + 1 := by simp [Groups.addGroup]
    rw [hl, List.range_succ]
    exact (h.places.cons _).trans (List.perm_append_singleton _ _).symm
  · intro i hi' p hp n hn
    rw [pushChain, getD_set_eq _ _ _ _ _ hi] at hp
    by_cases he : i = g.bkt gid
    · subst he
      rw [if_pos rfl, List.mem_cons] at hp
      rcases hcase p n hn with ⟨hlt', hn'⟩ | ⟨-, rfl⟩
      · exact h.home _ hi p (hp.resolve_left hlt'.ne) n hn'
      · rfl
    · rw [if_neg he] at hp
      have hlt' := hlt p (mem_flatten_of_getD hp)
      exact h.home i (hlen ▸ hi') p hp n (hold p hlt' ▸ hn)
  · intro p q n n' hn hn' he
    rcases hcase p n hn with ⟨-, hp⟩ | ⟨rfl, hg⟩ <;> rcases hcase q n' hn' with ⟨-, hq⟩ | ⟨rfl, hg'⟩
    · exact h.unique p q n n' hp hq he
    · exact absurd (he.trans hg') (hno p n hp)
    · exact absurd (he.symm.trans hg) (hno q n' hq)
    · rfl

theorem Groups.Wf.setClientIds (h : g.Wf chains) {p : ℕ} {n : Grp} (hn : g.nodes[p]? = some n)
    (ids : CidSet) : Groups.Wf { g with nodes := g.nodes.set p { n with clientIds := ids } } chains := by
  have hp := (List.getElem?_eq_some_iff.mp hn).1
  have hback : ∀ (q : ℕ) n', (g.nodes.set p { n with clientIds := ids })[q]? = some n' →
      ∃ n₀, g.nodes[q]? = some n₀ ∧ n₀.gid = n'.gid := by
    intro q n' hq
    by_cases he : p = q
    · subst he
      rw [List.getElem?_set_self hp, Option.some.injEq] at hq
      exact ⟨n, hn, hq ▸ rfl⟩
    · rw [List.getElem?_set_ne he] at hq
      exact ⟨n', hq, rfl⟩
  refine ⟨h.size_pos, h.buckets_length, h.chains_length, ?_, by simpa using h.places, ?_, ?_⟩
  · intro i hi
    refine (h.linked i hi).congr fun q _ => ?_
    by_cases he : p = q
    · subst he
      rw [List.getElem?_set_self hp, hn]
      rfl
    · rw [List.getElem?_set_ne he]
  · intro i hi q hq n' hn'
    obtain ⟨n₀, hn₀, he⟩ := hback q n' hn'
    exact he ▸ h.home i hi q hq n₀ hn₀
  · intro q r n₁ n₂ h₁ h₂ he
    obtain ⟨a, ha, hea⟩ := hback q n₁ h₁
    obtain ⟨b, hb, heb⟩ := hback r n₂ h₂
    exact h.unique q r a b ha hb (by rw [hea, heb, he])

/-- What an insert for `gid` does: one group of that id holds one more client,
and every other group is where and what it was. -/
structure Groups.Inserted (g g' : Groups) (gid : UInt64) (s : Finset UInt64) : Prop where
  size : g'.size = g.size
  wf : ∃ chains, g'.Wf chains
  own : ∃ (p : ℕ) (n : Grp), g'.nodes[p]? = some n ∧ n.gid = gid ∧ n.clientIds.Wf s
  others : ∀ (p : ℕ) (n : Grp), n.gid ≠ gid → (g'.nodes[p]? = some n ↔ g.nodes[p]? = some n)

theorem Groups.Wf.insertAt (h : g.Wf chains) {p : ℕ} {n : Grp} (hn : g.nodes[p]? = some n)
    {s : Finset UInt64} (hs : n.clientIds.Wf s) {cid : UInt64} (hcid : cid ≠ CidSet.emptyVal)
    (junk : ℕ → UInt64) :
    ∃ g', g.insertAt p cid junk = .ok g' ∧ g.Inserted g' n.gid (s ∪ {cid}) := by
  obtain ⟨ids, hins, hids, -⟩ := hs.cidSetInsert hcid junk
  have hp := (List.getElem?_eq_some_iff.mp hn).1
  refine ⟨{ g with nodes := g.nodes.set p { n with clientIds := ids } }, by
    simp [Groups.insertAt, hn, hins], rfl, ⟨chains, h.setClientIds hn ids⟩, ?_, ?_⟩
  · exact ⟨p, { n with clientIds := ids }, List.getElem?_set_self hp, rfl, hids⟩
  · intro q n' hne
    by_cases he : p = q
    · subst he
      rw [List.getElem?_set_self hp, hn]
      constructor
      · intro heq
        exact absurd (Option.some.inj heq ▸ rfl) hne
      · intro heq
        exact absurd (Option.some.inj heq ▸ rfl) hne
    · rw [List.getElem?_set_ne he]

/-- `groups_insert` returns whenever its `malloc` succeeds, for every id but `UINT64_MAX`. -/
theorem Groups.Represents.insert (h : g.Represents m) (gid : UInt64) {cid : UInt64}
    (hcid : cid ≠ CidSet.emptyVal) (junk : ℕ → UInt64) :
    ∃ g', groupsInsert g gid cid true junk = .ok (g', false) ∧ g.Inserted g' gid (m gid ∪ {cid}) := by
  obtain ⟨chains, hw⟩ := h.wf
  rcases hw.find gid with ⟨p, n, hf, hn, rfl⟩ | ⟨hf, hno⟩
  · obtain ⟨g', hins, hg'⟩ := hw.insertAt hn (h.members p n hn).1 hcid junk
    exact ⟨g', by simp [groupsInsert, hf, hins], hg'⟩
  · have hnew : (g.addGroup gid junk).nodes[g.nodes.length]? =
        some ⟨gid, CidSet.cidSetInit junk, g.buckets.getD (g.bkt gid) none⟩ := by
      simp [Groups.addGroup]
    have hm : m gid = ∅ := by
      by_contra hne
      obtain ⟨p, n, hn, he⟩ := h.present gid (Finset.nonempty_iff_ne_empty.mpr hne)
      exact hno p n hn he
    obtain ⟨g', hins, hg'⟩ := (hw.addGroup junk hno).insertAt hnew (CidSet.wf_init junk) hcid junk
    refine ⟨g', by simp [groupsInsert, hf, hins], hg'.size, hg'.wf, by simpa [hm] using hg'.own, ?_⟩
    intro p n hne
    rw [hg'.others p n hne]
    constructor
    · intro hn
      have hp : p < g.nodes.length + 1 := by
        simpa [Groups.addGroup] using (List.getElem?_eq_some_iff.mp hn).1
      rcases Nat.lt_succ_iff_lt_or_eq.mp hp with hp | rfl
      · rwa [Groups.addGroup, List.getElem?_append_left hp] at hn
      · rw [hnew] at hn
        exact absurd (Option.some.inj hn ▸ rfl) hne
    · intro hn
      rwa [Groups.addGroup, List.getElem?_append_left (List.getElem?_eq_some_iff.mp hn).1]

/-- The groups of other ids answer as before, also those in the same bucket. -/
theorem Groups.Inserted.get_ne {g' : Groups} {gid : UInt64} {s : Finset UInt64}
    (h : g.Inserted g' gid s) (hw : g.Wf chains) {other : UInt64} (hne : other ≠ gid) :
    groupsGet g' other = groupsGet g other := by
  obtain ⟨chains', hw'⟩ := h.wf
  rcases hw.find other with ⟨p, n, -, hn, rfl⟩ | ⟨-, hno⟩
  · rw [hw.get_of_node hn, hw'.get_of_node ((h.others p n hne).mpr hn)]
  · rw [hw.get_of_forall_ne hno, hw'.get_of_forall_ne]
    rintro p n hn rfl
    exact hno p n ((h.others p n hne).mp hn) rfl

theorem Groups.Inserted.represents {g' : Groups} {gid cid : UInt64}
    (h : g.Inserted g' gid (m gid ∪ {cid})) (hg : g.Represents m) :
    g'.Represents (Function.update m gid (m gid ∪ {cid})) := by
  obtain ⟨p, n, hn, hgid, hids⟩ := h.own
  obtain ⟨chains, hw⟩ := h.wf
  refine ⟨h.wf, ?_, ?_⟩
  · intro q n' hn'
    by_cases he : n'.gid = gid
    · obtain rfl := hw.unique q p n' n hn' hn (he.trans hgid.symm)
      obtain rfl := Option.some.inj (hn.symm.trans hn')
      rw [hgid, Function.update_self]
      exact ⟨hids, cid, by simp⟩
    · rw [Function.update_of_ne he]
      exact hg.members q n' ((h.others q n' he).mp hn')
  · intro gid' hne
    by_cases he : gid' = gid
    · exact ⟨p, n, hn, hgid.trans he.symm⟩
    · rw [Function.update_of_ne he] at hne
      obtain ⟨q, n', hn', rfl⟩ := hg.present gid' hne
      exact ⟨q, n', (h.others q n' he).mpr hn', rfl⟩

theorem Groups.Represents.get (h : g.Represents m) (gid : UInt64) :
    (m gid = ∅ ∧ groupsGet g gid = .ok none) ∨
    (∃ ids : CidSet, (m gid).Nonempty ∧ ids.Wf (m gid) ∧ groupsGet g gid = .ok (some ids.cidSetIter)) := by
  obtain ⟨chains, hw⟩ := h.wf
  rcases hw.find gid with ⟨p, n, -, hn, rfl⟩ | ⟨-, hno⟩
  · exact .inr ⟨n.clientIds, (h.members p n hn).2, (h.members p n hn).1, hw.get_of_node hn⟩
  · refine .inl ⟨?_, hw.get_of_forall_ne hno⟩
    by_contra hne
    obtain ⟨p, n, hn, he⟩ := h.present gid (Finset.nonempty_iff_ne_empty.mpr hne)
    exact hno p n hn he

end

/-! ## Sequences of inserts -/

/-- One `groups_insert` whose allocations succeed. -/
structure GroupInsert where
  gid : UInt64
  cid : UInt64
  junk : ℕ → UInt64

def GroupInsert.run (g : Groups) (c : GroupInsert) : Outcome Groups := do
  let (g, _) ← groupsInsert g c.gid c.cid true c.junk
  .ok g

/-- The groups before the first insert, with every bucket `NULL`. -/
def emptyGroups (size : ℕ) : Groups := groupsCreate size fun _ => none

/-- The distinct clients inserted for a group. -/
def inserted (calls : List GroupInsert) (gid : UInt64) : Finset UInt64 :=
  ((calls.filter fun c => c.gid = gid).map GroupInsert.cid).toFinset

theorem mem_inserted {calls : List GroupInsert} {gid cid : UInt64} :
    cid ∈ inserted calls gid ↔ ∃ c ∈ calls, c.gid = gid ∧ c.cid = cid := by
  simp [inserted, and_assoc]

theorem inserted_append (calls : List GroupInsert) (c : GroupInsert) :
    inserted (calls ++ [c]) =
      Function.update (inserted calls) c.gid (inserted calls c.gid ∪ {c.cid}) := by
  funext gid
  ext cid
  rw [mem_inserted]
  by_cases he : gid = c.gid
  · subst he
    rw [Function.update_self, Finset.mem_union, mem_inserted, Finset.mem_singleton]
    simp [or_and_right, exists_or, eq_comm]
  · rw [Function.update_of_ne he, mem_inserted]
    simp [or_and_right, exists_or, Ne.symm he]

theorem emptyGroups_represents {size : ℕ} (h : 1 ≤ size) :
    (emptyGroups size).Represents (inserted []) := by
  have hb : ∀ i < size, (emptyGroups size).buckets.getD i none = none := by
    intro i hi
    simp [emptyGroups, groupsCreate, List.getD]
  refine ⟨⟨List.replicate size [], h, by simp [emptyGroups, groupsCreate], by simp [emptyGroups,
    groupsCreate], ?_, by simp [emptyGroups, groupsCreate], ?_, ?_⟩, ?_, ?_⟩
  · intro i hi
    rw [List.length_replicate] at hi
    rw [hb i hi]
    simp [List.getD, hi]
  · intro i hi p hp
    rw [List.length_replicate] at hi
    simp [List.getD, hi] at hp
  · simp [emptyGroups, groupsCreate]
  · simp [emptyGroups, groupsCreate]
  · simp [inserted]

theorem runAll_insert {size : ℕ} (hsize : 1 ≤ size) (calls : List GroupInsert)
    (hcid : ∀ c ∈ calls, c.cid ≠ CidSet.emptyVal) :
    ∃ g, runAll GroupInsert.run (emptyGroups size) calls = .ok g ∧ g.size = size ∧
      g.Represents (inserted calls) := by
  obtain ⟨g, hrun, -, hsz, before, hrep, hcalls⟩ := runAll_total (f := GroupInsert.run)
    (I := fun rest (g : Groups) => (∀ c ∈ rest, c.cid ≠ CidSet.emptyVal) ∧ g.size = size ∧
      ∃ before, g.Represents (inserted before) ∧ before ++ rest = calls)
    (by
      rintro c rest g ⟨hc, hsz, before, h, hcalls⟩
      obtain ⟨g₁, hins, hg₁⟩ := h.insert c.gid (hc c List.mem_cons_self) c.junk
      have hrep := hg₁.represents h
      rw [← inserted_append] at hrep
      refine ⟨g₁, by rw [GroupInsert.run, hins]; rfl, fun c' hc' => hc c' (List.mem_cons_of_mem _ hc'),
        hg₁.size.trans hsz, _, hrep, ?_⟩
      rw [List.append_assoc, List.singleton_append, hcalls])
    ⟨hcid, rfl, [], emptyGroups_represents hsize, rfl⟩
  rw [List.append_nil] at hcalls
  exact ⟨g, hrun, hsz, hcalls ▸ hrep⟩

/-- Draining an iterator in batches of any sizes gives a prefix of one list of
the members without repetitions. -/
def Drains (it : CidIter) (s : Finset UInt64) : Prop :=
  ∃ l : List UInt64, l.Nodup ∧ l.toFinset = s ∧
    ∀ sizes : List ℕ, (CidSet.batches it sizes).flatten = l.take sizes.sum

theorem drains_of_wf {ids : CidSet} {s : Finset UInt64} (h : ids.Wf s) : Drains ids.cidSetIter s := by
  refine ⟨stored CidSet.emptyVal ids.ids, h.table.probed.stored_nodup, ?_, ?_⟩
  · ext cid
    rw [List.mem_toFinset, h.table.mem]
  · intro sizes
    have hb := CidSet.batches_flatten ids.ids 0 (Nat.zero_le _) sizes
    rw [List.drop_zero, h.table.length] at hb
    exact hb

theorem Groups.Represents.get_inserted {g : Groups} {calls : List GroupInsert}
    (h : g.Represents (inserted calls)) (gid : UInt64) :
    ((∃ c ∈ calls, c.gid = gid) →
      ∃ it, groupsGet g gid = .ok (some it) ∧ Drains it (inserted calls gid)) ∧
    ((¬ ∃ c ∈ calls, c.gid = gid) → groupsGet g gid = .ok none) := by
  rcases h.get gid with ⟨hempty, hget⟩ | ⟨ids, ⟨cid, hmem⟩, hids, hget⟩
  · refine ⟨?_, fun _ => hget⟩
    rintro ⟨c, hc, hgid⟩
    have hmem : c.cid ∈ inserted calls gid := mem_inserted.mpr ⟨c, hc, hgid, rfl⟩
    simp [hempty] at hmem
  · refine ⟨fun _ => ⟨_, hget, drains_of_wf hids⟩, fun hno => ?_⟩
    obtain ⟨c, hc, hgid, -⟩ := mem_inserted.mp hmem
    exact absurd ⟨c, hc, hgid⟩ hno

theorem Groups.Represents.get_same {g g' : Groups} {m : UInt64 → Finset UInt64} (h : g.Represents m)
    (h' : g'.Represents m) (gid : UInt64) : (groupsGet g' gid = .ok none ∧ groupsGet g gid = .ok none) ∨
      ∃ it' it s, groupsGet g' gid = .ok (some it') ∧ groupsGet g gid = .ok (some it) ∧
        Drains it' s ∧ Drains it s := by
  rcases h.get gid with ⟨hempty, hg⟩ | ⟨ids, hne, hids, hg⟩ <;>
    rcases h'.get gid with ⟨hempty', hg'⟩ | ⟨ids', hne', hids', hg'⟩
  · exact .inl ⟨hg', hg⟩
  · simp [hempty] at hne'
  · simp [hempty'] at hne
  · exact .inr ⟨_, _, _, hg', hg, drains_of_wf hids', drains_of_wf hids⟩

theorem mem_calls_perm {calls calls' : List GroupInsert}
    (h : (calls'.map fun c => (c.gid, c.cid)).Perm (calls.map fun c => (c.gid, c.cid)))
    (gid cid : UInt64) :
    (∃ c ∈ calls', c.gid = gid ∧ c.cid = cid) ↔ ∃ c ∈ calls, c.gid = gid ∧ c.cid = cid := by
  simpa using h.mem_iff (a := (gid, cid))

/-- After any inserts, `groups_get` finds exactly the groups inserted into and
its iterator yields their distinct clients. Inserts leave other groups alone,
each group is in its own bucket once, and the order of the inserts is immaterial. -/
theorem groups_refine (size : ℕ) (hsize : 1 ≤ size) (calls : List GroupInsert)
    (hcid : ∀ c ∈ calls, c.cid ≠ CidSet.emptyVal) :
    ∃ g, runAll GroupInsert.run (emptyGroups size) calls = .ok g ∧
      (∀ gid, (∃ c ∈ calls, c.gid = gid) →
        ∃ it, groupsGet g gid = .ok (some it) ∧ Drains it (inserted calls gid)) ∧
      (∀ gid, (¬ ∃ c ∈ calls, c.gid = gid) → groupsGet g gid = .ok none) ∧
      (∀ c : GroupInsert, c.cid ≠ CidSet.emptyVal → ∃ g', c.run g = .ok g' ∧
        ∀ gid, gid ≠ c.gid → groupsGet g' gid = groupsGet g gid) ∧
      (∃ chains : List (List ℕ), chains.length = size ∧ chains.flatten.Nodup ∧
        (∀ i < size, IsChain Grp.next g.nodes (g.buckets.getD i none) (chains.getD i [])) ∧
        (∀ i < size, ∀ p ∈ chains.getD i [], ∃ n, g.nodes[p]? = some n ∧
          n.gid.toNat &&& (size - 1) = i) ∧
        (∀ p ∈ chains.flatten, ∀ q ∈ chains.flatten,
          (g.nodes[p]?).map Grp.gid = (g.nodes[q]?).map Grp.gid → p = q)) ∧
      (∀ calls' : List GroupInsert,
        (calls'.map fun c => (c.gid, c.cid)).Perm (calls.map fun c => (c.gid, c.cid)) →
        ∃ g', runAll GroupInsert.run (emptyGroups size) calls' = .ok g' ∧
          ∀ gid, (groupsGet g' gid = .ok none ∧ groupsGet g gid = .ok none) ∨
            ∃ it' it s, groupsGet g' gid = .ok (some it') ∧ groupsGet g gid = .ok (some it) ∧
              Drains it' s ∧ Drains it s) := by
  obtain ⟨g, hrun, hsz, hrep⟩ := runAll_insert hsize calls hcid
  obtain ⟨chains, hw⟩ := hrep.wf
  refine ⟨g, hrun, fun gid => (hrep.get_inserted gid).1, fun gid => (hrep.get_inserted gid).2, ?_,
    ⟨chains, hw.chains_length.trans hsz, ?_, ?_, ?_, ?_⟩, ?_⟩
  · intro c hc
    obtain ⟨g', hins, hg'⟩ := hrep.insert c.gid hc c.junk
    refine ⟨g', by simp [GroupInsert.run, hins], fun gid hne => hg'.get_ne hw hne⟩
  · exact hw.places.nodup_iff.mpr List.nodup_range
  · intro i hi
    exact hw.linked i (by rw [hw.chains_length, hsz]; exact hi)
  · intro i hi p hp
    have hi' : i < chains.length := by rw [hw.chains_length, hsz]; exact hi
    have hlt := List.mem_range.mp (hw.places.mem_iff.mp (mem_flatten_of_getD hp))
    have hn := List.getElem?_eq_getElem hlt
    refine ⟨_, hn, ?_⟩
    rw [← hsz]
    exact hw.home i hi' p hp _ hn
  · intro p hp q hq he
    have hn := List.getElem?_eq_getElem (List.mem_range.mp (hw.places.mem_iff.mp hp))
    have hn' := List.getElem?_eq_getElem (List.mem_range.mp (hw.places.mem_iff.mp hq))
    rw [hn, hn', Option.map_some, Option.map_some, Option.some.injEq] at he
    exact hw.unique p q _ _ hn hn' he
  · intro calls' hperm
    have hmem := mem_calls_perm hperm
    have hsame : inserted calls' = inserted calls := by
      funext gid
      ext cid
      rw [mem_inserted, mem_inserted, hmem]
    have hcid' : ∀ c ∈ calls', c.cid ≠ CidSet.emptyVal := by
      intro c hc
      obtain ⟨c', hc', -, he⟩ := (hmem c.gid c.cid).mp ⟨c, hc, rfl, rfl⟩
      exact he ▸ hcid c' hc'
    obtain ⟨g', hrun', -, hrep'⟩ := runAll_insert hsize calls' hcid'
    rw [hsame] at hrep'
    exact ⟨g', hrun', hrep.get_same hrep'⟩

/-- Three buckets, of which groups 0 and 4 share one. -/
theorem groups_refine_shared_bucket :
    ∃ g it, runAll GroupInsert.run (emptyGroups 3)
        [⟨0, 5, fun _ => 1⟩, ⟨4, 7, fun _ => 2⟩, ⟨0, 5, fun _ => 3⟩, ⟨0, 9, fun _ => 4⟩] = .ok g ∧
      groupsGet g 0 = .ok (some it) ∧ Drains it {5, 9} ∧ groupsGet g 2 = .ok none := by
  obtain ⟨g, hrun, hget, hnone, -⟩ := groups_refine 3 (by decide)
    [⟨0, 5, fun _ => 1⟩, ⟨4, 7, fun _ => 2⟩, ⟨0, 5, fun _ => 3⟩, ⟨0, 9, fun _ => 4⟩]
    (by simp [CidSet.emptyVal])
  obtain ⟨it, hit, hdr⟩ := hget 0 ⟨⟨0, 5, fun _ => 1⟩, by simp, rfl⟩
  refine ⟨g, it, hrun, hit, ?_, hnone 2 (by simp)⟩
  have hs : inserted [⟨0, 5, fun _ => 1⟩, ⟨4, 7, fun _ => 2⟩, ⟨0, 5, fun _ => 3⟩,
      ⟨0, 9, fun _ => 4⟩] 0 = {5, 9} := by
    simp [inserted]
  rwa [hs] at hdr

end Caht
