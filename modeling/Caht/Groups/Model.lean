import Caht.Library.Chain
import Caht.Groups.CidSet
import Mathlib.Data.Nat.Bitwise

/-! # Groups

`groups.c`: a fixed number of buckets, each an intrusive linked list of groups,
each group a set of client ids. A pointer to a `struct grp` is the index of its
block among the blocks allocated so far. An unsuccessful `malloc` of a group is
the argument `alloc`; one call of `groups_insert` fills at most one new id array,
whose contents before that are `junk`.
-/

namespace Caht
open Library

structure Grp where
  gid : UInt64
  clientIds : CidSet
  next : Option ℕ
  deriving DecidableEq, Repr

structure Groups where
  size : ℕ
  buckets : List (Option ℕ)
  nodes : List Grp
  deriving DecidableEq, Repr

/-- `malloc` does not clear the bucket array, whose contents are the caller's `junk`. -/
def groupsCreate (numGroups : ℕ) (junk : ℕ → Option ℕ) : Groups :=
  ⟨numGroups, (List.range numGroups).map junk, []⟩

def Groups.bkt (g : Groups) (gid : UInt64) : ℕ := gid.toNat &&& (g.size - 1)

/-- The search loop `groups_insert` and `groups_get` share. A walk over more nodes
than there are blocks is in a block for the second time. -/
def Groups.find (g : Groups) (gid : UInt64) : Outcome (Option ℕ) :=
  findFrom Grp.next g.nodes (fun n => n.gid == gid) (g.nodes.length + 1)
    (g.buckets.getD (g.bkt gid) none)

/-- The new group in front of its bucket, with an empty set of clients. -/
def Groups.addGroup (g : Groups) (gid : UInt64) (junk : ℕ → UInt64) : Groups :=
  { g with
    buckets := g.buckets.set (g.bkt gid) (some g.nodes.length)
    nodes := g.nodes ++ [⟨gid, CidSet.cidSetInit junk, g.buckets.getD (g.bkt gid) none⟩] }

/-- `cid_set_insert(&group->client_ids, cid)` -/
def Groups.insertAt (g : Groups) (group : ℕ) (cid : UInt64) (junk : ℕ → UInt64) : Outcome Groups :=
  match g.nodes[group]? with
  | none => .error .undefined
  | some n => do
    let ids ← CidSet.cidSetInsert n.clientIds cid junk
    .ok { g with nodes := g.nodes.set group { n with clientIds := ids } }

/-- Both exits return `false`. -/
def groupsInsert (g : Groups) (gid cid : UInt64) (alloc : Bool) (junk : ℕ → UInt64) :
    Outcome (Groups × Bool) := do
  match ← g.find gid with
  | some group =>
    let g ← g.insertAt group cid junk
    .ok (g, false)
  | none =>
    if alloc then
      let g' ← (g.addGroup gid junk).insertAt g.nodes.length cid junk
      .ok (g', false)
    else .ok (g, false)

def groupsGet (g : Groups) (gid : UInt64) : Outcome (Option CidIter) := do
  match ← g.find gid with
  | none => .ok none
  | some group =>
    match g.nodes[group]? with
    | none => .error .undefined
    | some n => .ok (some n.clientIds.cidSetIter)

end Caht
