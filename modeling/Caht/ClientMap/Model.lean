import Caht.Library.Chain

/-! # The client map

`client_map.c`: a hash map from client ids to `ClientInfo` nodes. Buckets are
intrusive linked lists, deleted nodes are zeroed and kept in a growing array for
reuse. A pointer to a `ClientInfo` is the index of its block among all the
blocks `malloc` has returned (`nodes`). The arrays `buckets` and `free` are the
lists of their used entries, so `free_len` is the length of `free`. A failed
allocation ends the process and has no successor state.
-/

namespace Caht
open Library

structure SockaddrIn where
  sinFamily : ℕ
  sinPort : ℕ
  sinAddr : ℕ
  sinZero : ℕ
  deriving DecidableEq, Repr

def SockaddrIn.zero : SockaddrIn := ⟨0, 0, 0, 0⟩

structure ClientInfo where
  clientId : UInt64
  clientFd : ℤ
  clientAddr : SockaddrIn
  clientAddrLen : ℕ
  username : List UInt8
  next : Option ℕ
  deriving DecidableEq, Repr

/-- The node after `memset(info, 0, sizeof(ClientInfo))`. -/
def ClientInfo.zero : ClientInfo := ⟨0, 0, .zero, 0, List.replicate 16 0, none⟩

structure ClientMap where
  bucketsCap : ℕ
  buckets : List (Option ℕ)
  freeCap : ℕ
  free : List ℕ
  nodes : List ClientInfo
  deriving DecidableEq, Repr

def freeInitLen : ℕ := 64

def ClientMap.hash (cap : ℕ) (clientId : UInt64) : ℕ := clientId.toNat &&& (cap - 1)

def clientMapInit (cap : ℕ) : Outcome ClientMap :=
  if cap = 0 ∨ cap &&& (cap - 1) ≠ 0 then .error (.exit "cap must be a power of 2") else
    .ok { bucketsCap := cap, buckets := List.replicate cap none,
          freeCap := freeInitLen, free := [], nodes := [] }

/-- The bucket `hash` selects. -/
def ClientMap.bucket (cm : ClientMap) (clientId : UInt64) : Option ℕ :=
  cm.buckets.getD (ClientMap.hash cm.bucketsCap clientId) none

/-- A node from the free array (its first slot is refilled from the last one),
or a new block with whatever `malloc` left in it. -/
def ClientMap.takeNode (cm : ClientMap) (junk : ClientInfo) : ClientMap × ℕ :=
  match cm.free with
  | [] => ({ cm with nodes := cm.nodes ++ [junk] }, cm.nodes.length)
  | node :: rest =>
    ({ cm with free := ((node :: rest).set 0 ((node :: rest).getLast (by simp))).dropLast }, node)

/-- `true` with the new node is `some`, `false` is `none`. -/
def clientMapNewEntry (cm : ClientMap) (clientId : UInt64) (junk : ClientInfo) :
    Outcome (ClientMap × Option ℕ) := do
  let found ← findFrom ClientInfo.next cm.nodes (fun n => n.clientId == clientId) cm.nodes.length
    (cm.bucket clientId)
  match found with
  | some _ => .ok (cm, none)
  | none =>
    let (cm, node) := cm.takeNode junk
    let oldHead := cm.bucket clientId
    .ok ({ cm with
      buckets := cm.buckets.set (ClientMap.hash cm.bucketsCap clientId) (some node)
      nodes := cm.nodes.modify node fun n => { n with next := oldHead, clientId := clientId } },
      some node)

def clientMapGet (cm : ClientMap) (clientId : UInt64) : Outcome (Option ℕ) :=
  findFrom ClientInfo.next cm.nodes (fun n => n.clientId == clientId) cm.nodes.length
    (cm.bucket clientId)

def clientMapAddFree (cm : ClientMap) (info : ℕ) : ClientMap :=
  { cm with
    freeCap := if cm.free.length = cm.freeCap then cm.freeCap * 2 else cm.freeCap
    free := cm.free ++ [info]
    nodes := cm.nodes.set info .zero }

/-- The head of the bucket is dereferenced before anything is compared with
`NULL`, so deleting from an empty bucket is undefined. -/
def clientMapDelete (cm : ClientMap) (clientId : UInt64) : Outcome (ClientMap × Bool) :=
  match cm.bucket clientId with
  | none => .error .undefined
  | some head =>
    match cm.nodes[head]? with
    | none => .error .undefined
    | some headInfo =>
      if headInfo.clientId == clientId then
        let cm := { cm with
          buckets := cm.buckets.set (ClientMap.hash cm.bucketsCap clientId) headInfo.next }
        .ok (clientMapAddFree cm head, true)
      else do
        let found ← findPrevFrom ClientInfo.next cm.nodes (fun n => n.clientId == clientId)
          cm.nodes.length head headInfo.next
        match found with
        | none => .ok (cm, false)
        | some (prev, cur) =>
          match cm.nodes[cur]? with
          | none => .error .undefined
          | some curInfo =>
            let cm := { cm with
              nodes := cm.nodes.modify prev fun n => { n with next := curInfo.next } }
            .ok (clientMapAddFree cm cur, true)

/-- A user of the map storing through the pointer it was given. The map keeps
`client_id` and `next` for itself. -/
def ClientMap.write (cm : ClientMap) (info : ℕ) (f : ClientInfo → ClientInfo) : ClientMap :=
  { cm with nodes := cm.nodes.modify info fun n =>
      { f n with clientId := n.clientId, next := n.next } }

end Caht
