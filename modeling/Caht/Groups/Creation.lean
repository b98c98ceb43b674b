import Caht.Library.Traced
import Caht.Groups.Calls

/-! # The memory a new groups table is given

`groups_create` leaves the bucket array as `malloc` returned it. What a program can
tell of that memory, from `groups_get` and the iterators it fills in.
-/

namespace Caht
open Library

/-- A call on a groups table. `alloc` says whether a `malloc` of a group succeeds. -/
inductive GroupCall where
  | insert (gid cid : UInt64) (alloc : Bool)
  | get (gid : UInt64)

/-- A call, with the contents of the id array it allocates, if any. `groups_get`
answers with an iterator and with the ids it goes over. -/
def GroupCall.run (g : Groups) : GroupCall × (ℕ → UInt64) → Traced (Option CidIter) Groups
  | (.insert gid cid alloc, mem) => do
    let (g, _) ← Traced.quiet (groupsInsert g gid cid alloc mem)
    pure g
  | (.get gid, _) => do
    let answer ← Traced.quiet (groupsGet g gid)
    Traced.note answer
    pure g

structure Groups.Agree (g g' : Groups) : Prop where
  size : g'.size = g.size
  nodes : g'.nodes = g.nodes
  length : g'.buckets.length = g.buckets.length
  heads : ∀ gid, g'.buckets.getD (g.bkt gid) none = g.buckets.getD (g.bkt gid) none

namespace CidSet

theorem cidSetGrow_junk (set : CidSet) (junk junk' : ℕ → UInt64) :
    cidSetGrow set junk = cidSetGrow set junk' := by
  have hfill : fillEmpty ((List.range (set.cap * 2)).map junk) (set.cap * 2) =
      fillEmpty ((List.range (set.cap * 2)).map junk') (set.cap * 2) := by
    rw [fillEmpty_eq _ _ (by simp), fillEmpty_eq _ _ (by simp), List.length_map, List.length_map]
  rw [cidSetGrow, cidSetGrow, hfill]

/-- The contents of a new array are overwritten before anything reads them. -/
theorem cidSetInsert_junk (set : CidSet) (id : UInt64) (junk junk' : ℕ → UInt64) :
    cidSetInsert set id junk = cidSetInsert set id junk' := by
  rw [cidSetInsert, cidSetInsert, cidSetGrow_junk set junk junk']

theorem cidSetInit_junk (junk junk' : ℕ → UInt64) : cidSetInit junk = cidSetInit junk' := by
  rw [cidSetInit, cidSetInit, fillEmpty_eq _ _ (by simp), fillEmpty_eq _ _ (by simp), List.length_map,
    List.length_map]

end CidSet

section
variable {g g' : Groups}

theorem Groups.Agree.bkt (h : g.Agree g') (gid : UInt64) : g'.bkt gid = g.bkt gid := by
  rw [Groups.bkt, Groups.bkt, h.size]

theorem Groups.Agree.find (h : g.Agree g') (gid : UInt64) : g'.find gid = g.find gid := by
  rw [Groups.find, Groups.find, h.bkt, h.nodes, h.heads]

theorem Groups.Agree.get (h : g.Agree g') (gid : UInt64) : groupsGet g' gid = groupsGet g gid := by
  rw [groupsGet, groupsGet, h.find, h.nodes]

theorem Groups.Agree.addGroup (h : g.Agree g') (gid : UInt64) (junk junk' : ℕ → UInt64) :
    (g.addGroup gid junk).Agree (g'.addGroup gid junk') := by
  refine ⟨h.size, ?_, ?_, ?_⟩
  · simp only [Groups.addGroup, h.nodes, h.bkt, h.heads, CidSet.cidSetInit_junk junk' junk]
  · simpa only [Groups.addGroup, List.length_set] using h.length
  · intro other
    have hold := h.heads other
    simp only [Groups.addGroup, Groups.bkt, h.size, h.nodes, List.getD_eq_getElem?_getD,
      List.getElem?_set, h.length] at hold ⊢
    split_ifs
    · rfl
    · rfl
    · exact hold

theorem Groups.Agree.insertAt (h : g.Agree g') (p : ℕ) (cid : UInt64) (junk junk' : ℕ → UInt64) :
    Related Groups.Agree (g.insertAt p cid junk) (g'.insertAt p cid junk') := by
  rw [Groups.insertAt, Groups.insertAt, h.nodes]
  cases hn : g.nodes[p]? with
  | none => exact .inl ⟨_, rfl, rfl⟩
  | some n =>
    simp only [CidSet.cidSetInsert_junk n.clientIds cid junk' junk]
    cases hins : n.clientIds.cidSetInsert cid junk with
    | error e => exact .inl ⟨e, rfl, rfl⟩
    | ok ids => exact related_ok ⟨h.size, rfl, h.length, h.heads⟩

theorem Groups.Agree.insert (h : g.Agree g') (gid cid : UInt64) (alloc : Bool) (junk junk' : ℕ → UInt64) :
    Related (fun r r' => r.1.Agree r'.1) (groupsInsert g gid cid alloc junk)
      (groupsInsert g' gid cid alloc junk') := by
  rw [groupsInsert, groupsInsert, h.find]
  cases hf : g.find gid with
  | error e => exact .inl ⟨e, rfl, rfl⟩
  | ok found =>
    cases found with
    | some p =>
      exact (h.insertAt p cid junk junk').bind fun _ _ hins => related_ok hins
    | none =>
      cases alloc with
      | false => exact related_ok h
      | true =>
        have hadd := (h.addGroup gid junk junk').insertAt g.nodes.length cid junk junk'
        simp only [ok_bind, if_true, h.nodes]
        exact hadd.bind fun _ _ hins => related_ok hins

theorem Groups.Agree.run (h : g.Agree g') {c c' : GroupCall × (ℕ → UInt64)} (hc : c.1 = c'.1) :
    Traced.Alike Groups.Agree (GroupCall.run g c) (GroupCall.run g' c') := by
  obtain ⟨call, mem⟩ := c
  obtain ⟨call', mem'⟩ := c'
  obtain rfl : call = call' := hc
  cases call with
  | insert gid cid alloc =>
    exact (Traced.alike_quiet (h.insert gid cid alloc mem mem')).bind fun _ _ hins => Traced.alike_pure hins
  | get gid =>
    have hget : Related Eq (groupsGet g gid) (groupsGet g' gid) := by
      rw [h.get]
      cases groupsGet g gid with
      | error e => exact .inl ⟨e, rfl, rfl⟩
      | ok answer => exact related_ok rfl
    refine (Traced.alike_quiet hget).bind fun answer answer' hanswer => ?_
    subst hanswer
    exact (Traced.alike_note answer).bind fun _ _ _ => Traced.alike_pure h

end

/-! ## New tables -/

section
variable {size : ℕ} {heads heads' : ℕ → Option ℕ} {calls calls' : List (GroupCall × (ℕ → UInt64))}

end

end Caht
