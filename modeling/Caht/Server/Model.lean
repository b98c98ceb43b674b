import Caht.Server.Slab
import Caht.Server.OpPool
import Caht.ClientMap.Model

/-! # The server

`server.c`, one function at a time. `Server` is the record of that name together
with the rest of the process state its functions use: the static `next_client_id`,
the heap of buffers and the descriptor table. The submission queue is the list of
the prepared entries, `trace` is a log of what happened that no function reads.
Lines printed for the operator are left out.
-/

namespace Caht
open Library Protocol

def cqeBatchSize : ℕ := 32
def bufferSize64B : ℕ := 64
def bufferSize2KB : ℕ := 2048
def queueSize : ℕ := 4096

inductive ResponseCode where
  | success
  | invalidMsgType
  | invalidMsgLen
  | invalidUsername
  | failure
  deriving DecidableEq, Repr

/-- The value of the enumerator, as it travels in the `code` byte. -/
def ResponseCode.code : ResponseCode → UInt8
  | .success => 0
  | .invalidMsgType => 1
  | .invalidMsgLen => 2
  | .invalidUsername => 3
  | .failure => 4

/-- What `io_uring_prep_accept`, `_recv` and `_send` store in an entry. A region of
memory is a buffer block, an offset and a length. -/
inductive Request where
  | accept (fd : ℤ) (info : ℕ)
  | recv (fd : ℤ) (bref off len : ℕ)
  | send (fd : ℤ) (bref off len : ℕ)
  deriving DecidableEq, Repr

structure Sqe where
  userData : ℕ
  request : Request
  deriving DecidableEq, Repr

structure Ring where
  entries : ℕ
  sq : List Sqe
  deriving DecidableEq, Repr

/-- What an open descriptor refers to. -/
inductive File where
  | listener
  | conn (k : ℕ)
  deriving DecidableEq, Repr

/-- The messages the server sends. -/
inductive Response where
  | serverError (seqid : UInt64) (code : ResponseCode)
  | setUsernameResponse (seqid : UInt64)
  deriving DecidableEq, Repr

inductive Event where
  /-- `client_map_new_entry` for the next client, in `add_accept` -/
  | entered (clientId : UInt64)
  /-- a completion of an operation of the client is handled -/
  | completed (clientId : UInt64) (type : OpType) (res : ℤ) (data : List UInt8)
  /-- `handle_recv` passes a message to `handle` -/
  | handled (clientId : UInt64) (msgt : UInt8) (seqid : UInt64) (payload : List UInt8)
  /-- the C string in `info->username` after it was stored -/
  | username (clientId : UInt64) (name : List UInt8)
  /-- `add_send` queues a response -/
  | queued (clientId : UInt64) (poolId : ℕ) (response : Response)
  /-- `disconnect_and_free_op` closes the descriptor and deletes the client -/
  | closed (clientId : UInt64) (fd : ℤ)
  deriving DecidableEq, Repr

structure Server where
  ring : Ring
  clients : ClientMap
  slab64 : Slab
  slab2k : Slab
  pool : OpPool
  serverFd : ℤ
  nextClientId : UInt64
  heap : List BufRef
  fds : ℤ → Option File
  trace : List Event

/-- Memory whose contents the program does not determine: the blocks `malloc`
returns, by their index, and the bytes after the end of a buffer. -/
structure Junk where
  buf : ℕ → ℕ → UInt8
  op : ℕ → Operation
  info : ClientInfo
  past : ℕ → UInt8

namespace Server

def log (srv : Server) (e : Event) : Server := { srv with trace := srv.trace ++ [e] }

def updateOp (srv : Server) (op : ℕ) (f : Operation → Operation) : Server :=
  { srv with pool := srv.pool.update op f }

/-- `*op` -/
def getOp (srv : Server) (op : ℕ) : Outcome Operation :=
  match srv.pool.ops[op]? with
  | none => .error .undefined
  | some o => .ok o

/-- The bytes of the buffer `bref` points to. -/
def getBuf (srv : Server) (bref : Option ℕ) : Outcome (List UInt8) :=
  match bref with
  | none => .error .undefined
  | some b =>
    match srv.heap[b]? with
    | none => .error .undefined
    | some r => .ok r.buf

def setBuf (srv : Server) (bref : Option ℕ) (buf : List UInt8) : Server :=
  match bref with
  | none => srv
  | some b => { srv with heap := srv.heap.modify b fun r => { r with buf := buf } }

/-- `io_uring_get_sqe`, which fails when every entry is taken. -/
def getSqe (srv : Server) : Outcome Unit :=
  if srv.ring.sq.length < srv.ring.entries then .ok () else .error (.exit "SQ is full")

/-- The entry `get_sqe` returned, filled in. -/
def prep (srv : Server) (sqe : Sqe) : Server :=
  { srv with ring := { srv.ring with sq := srv.ring.sq ++ [sqe] } }

end Server

/-- `close` succeeds on exactly the open descriptors. -/
def mustClose (srv : Server) (fd : ℤ) : Outcome Server :=
  match srv.fds fd with
  | none => .error (.exit "handle_recv close client_fd")
  | some _ => .ok { srv with fds := Function.update srv.fds fd none }

/-- `isalnum` in the C locale. -/
def isalnum (c : UInt8) : Bool :=
  (48 ≤ c && c ≤ 57) || (65 ≤ c && c ≤ 90) || (97 ≤ c && c ≤ 122)

def usernameValid (username : List UInt8) : Bool := username.all isalnum

def acquireSmallBuf (srv : Server) (op ref : ℕ) (junk : Junk) : Server :=
  let (heap, slab, bref) := slabAcquire srv.heap srv.slab64 ref junk.buf
  { srv with heap := heap, slab64 := slab }.updateOp op fun o =>
    { o with bufRef := some bref, bufCap := slabBufCap slab }

def acquireLargeBuf (srv : Server) (op ref : ℕ) (junk : Junk) : Server :=
  let (heap, slab, bref) := slabAcquire srv.heap srv.slab2k ref junk.buf
  { srv with heap := heap, slab2k := slab }.updateOp op fun o =>
    { o with bufRef := some bref, bufCap := slabBufCap slab }

/-- The slab is chosen by the capacity recorded in the operation. -/
def releaseBuf (srv : Server) (bufCap bref : ℕ) : Outcome Server :=
  if bufCap > 64 then do
    let (heap, slab) ← slabRelease srv.heap srv.slab2k bref
    .ok { srv with heap := heap, slab2k := slab }
  else do
    let (heap, slab) ← slabRelease srv.heap srv.slab64 bref
    .ok { srv with heap := heap, slab64 := slab }

def freeOp (srv : Server) (op : ℕ) : Outcome Server := do
  let o ← srv.getOp op
  match o.bufRef with
  | none => .error .undefined
  | some bref =>
    let srv ← releaseBuf srv o.bufCap bref
    let srv := srv.updateOp op fun o => { o with clientFd := -1, bufRef := none }
    let pool ← opPoolReturn srv.pool op
    .ok { srv with pool := pool }

/-- The result of `client_map_delete` is not looked at. -/
def disconnectAndFreeOp (srv : Server) (info : Option ℕ) (op : ℕ) : Outcome Server := do
  match info with
  | none => freeOp srv op
  | some _ =>
    let o ← srv.getOp op
    let srv ← mustClose srv o.clientFd
    let (clients, _) ← clientMapDelete srv.clients o.clientId
    freeOp ({ srv with clients := clients }.log (.closed o.clientId o.clientFd)) op

/-- When `client_map_new_entry` returns `false`, `info` is never assigned. -/
def addAccept (srv : Server) (clientId : UInt64) (junk : Junk) : Outcome Server := do
  srv.getSqe
  let (pool, op) ← opPoolNewEntry srv.pool junk.op
  let srv := acquireLargeBuf { srv with pool := pool } op 1 junk
  let srv := srv.updateOp op fun o =>
    { o with bufLen := 0, clientId := clientId, processed := 0, clientFd := -1, type := .accept }
  let (clients, info) ← clientMapNewEntry srv.clients clientId junk.info
  match info with
  | none => .error .undefined
  | some info =>
    let clients := clients.write info fun n => { n with clientAddr := .zero, clientAddrLen := 16 }
    let o ← srv.getOp op
    .ok (({ srv with clients := clients }.log (.entered clientId)).prep
      ⟨o.poolId, .accept srv.serverFd info⟩)

def addRecv (srv : Server) (op : ℕ) (clientFd : ℤ) : Outcome Server := do
  srv.getSqe
  let srv := srv.updateOp op fun o => { o with clientFd := clientFd, type := .read }
  let o ← srv.getOp op
  match o.bufRef with
  | none => .error .undefined
  | some bref => .ok (srv.prep ⟨o.poolId, .recv o.clientFd bref 0 o.bufCap⟩)

def resumeRecv (srv : Server) (op bytesRead : ℕ) : Outcome Server := do
  srv.getSqe
  let o ← srv.getOp op
  match o.bufRef with
  | none => .error .undefined
  | some bref =>
    .ok (srv.prep ⟨o.poolId, .recv o.clientFd bref bytesRead (sizeSub o.bufCap bytesRead)⟩)

def addSend (srv : Server) (op : ℕ) (clientFd : ℤ) (clientId : UInt64) (response : Response) :
    Outcome Server := do
  srv.getSqe
  let srv := srv.updateOp op fun o =>
    { o with clientId := clientId, processed := 0, clientFd := clientFd, type := .write }
  let o ← srv.getOp op
  match o.bufRef with
  | none => .error .undefined
  | some bref =>
    .ok ((srv.log (.queued clientId o.poolId response)).prep
      ⟨o.poolId, .send o.clientFd bref 0 o.bufLen⟩)

def resumeSend (srv : Server) (op processed : ℕ) : Outcome Server := do
  srv.getSqe
  let srv := srv.updateOp op fun o => { o with processed := o.processed + processed }
  let o ← srv.getOp op
  match o.bufRef with
  | none => .error .undefined
  | some bref =>
    .ok (srv.prep ⟨o.poolId,
      .send o.clientFd bref o.processed (sizeSub o.bufLen o.processed)⟩)

/-- The body `send_server_error` and `send_set_username_response` share: a new
operation, a small buffer, the message serialised into it and `add_send`. -/
def sendResponse (srv : Server) (clientFd : ℤ) (clientId : UInt64) (response : Response)
    (ser : ℕ → List UInt8 → Outcome (ℕ × List UInt8)) (junk : Junk) : Outcome Server := do
  let (pool, op) ← opPoolNewEntry srv.pool junk.op
  let srv := acquireSmallBuf { srv with pool := pool } op 1 junk
  let o ← srv.getOp op
  let buf ← srv.getBuf o.bufRef
  let (len, buf) ← ser o.bufCap buf
  let srv := (srv.setBuf o.bufRef buf).updateOp op fun o => { o with bufLen := len }
  addSend srv op clientFd clientId response

def sendServerError (srv : Server) (clientFd : ℤ) (clientId seqid : UInt64) (code : ResponseCode)
    (junk : Junk) : Outcome Server :=
  sendResponse srv clientFd clientId (.serverError seqid code)
    (fun cap buf => serServerError cap buf seqid code.code) junk

def sendSetUsernameResponse (srv : Server) (clientFd : ℤ) (seqid clientId : UInt64) (junk : Junk) :
    Outcome Server :=
  sendResponse srv clientFd clientId (.setUsernameResponse seqid)
    (fun cap buf => serSetUsernameResponse cap buf seqid) junk

/-- A C string ends before its first zero byte. -/
def cString (bytes : List UInt8) : List UInt8 := bytes.takeWhile (· != 0)

/-- `memcpy(info->username, uname, uname_len); info->username[uname_len] = '\0';` -/
def storeUsername (uname : List UInt8) (n : ClientInfo) : ClientInfo :=
  { n with username := writeAt (writeAt n.username 0 uname) uname.length [0] }

/-- `req_buf` points into the buffer of `req_op`, at offset `reqOff`. The case of
`MSGT_CREATE_GROUP` is empty and falls through to the default. -/
def handle (srv : Server) (info reqOp reqOff reqLen : ℕ) (msgt : UInt8) (seqid : UInt64)
    (junk : Junk) : Outcome (Server × ℤ) := do
  let o ← srv.getOp reqOp
  let buf ← srv.getBuf o.bufRef
  let reqBuf := buf.drop reqOff
  let srv := srv.log (.handled o.clientId msgt seqid ((reqBuf.take reqLen).drop protHdrLen))
  if msgt = MessageType.setUsername.code then
    let u := deserSetUsername reqLen
    if u.len < minUnameLen ∨ maxUnameLen < u.len then
      let srv ← sendServerError srv o.clientFd o.clientId seqid .invalidMsgLen junk
      .ok (srv, 0)
    else
      let uname := (reqBuf.drop u.ptr).take u.len
      if !usernameValid uname then
        let srv ← sendServerError srv o.clientFd o.clientId seqid .invalidUsername junk
        .ok (srv, 0)
      else
        let clients := srv.clients.write info (storeUsername uname)
        let name := ((clients.nodes[info]?).map ClientInfo.username).getD []
        let srv := { srv with clients := clients }.log (.username o.clientId (cString name))
        let srv ← sendSetUsernameResponse srv o.clientFd seqid o.clientId junk
        .ok (srv, 0)
  else .ok (srv, -1)

def handleAccept (srv : Server) (clientFd : ℤ) (info op : ℕ) (junk : Junk) : Outcome Server := do
  let srv := { srv with clients := srv.clients.write info fun n => { n with clientFd := clientFd } }
  let srv ← addRecv srv op clientFd
  let srv ← addAccept srv srv.nextClientId junk
  .ok { srv with nextClientId := srv.nextClientId + 1 }

/-- `memmove(buf, buf + off, n)`, where the source region may reach past the end
of the buffer; the target region never does. -/
def compact (buf : List UInt8) (off n : ℕ) (past : ℕ → UInt8) : List UInt8 :=
  writeAt buf 0 ((buf.drop off).take n ++ (List.range (n - (buf.length - off))).map past)

/-- The loop of `handle_recv`. Each turn uses up received bytes or a queue entry,
except the last, so `handleRecv` gives it enough `fuel`. -/
def recvLoop (info op : ℕ) (junk : Junk) : ℕ → Server → ℕ → ℕ → Outcome Server
  | 0, _, _, _ => .error .diverges
  | fuel + 1, srv, off, bytesRead =>
    if bytesRead < protHdrLen then resumeRecv srv op bytesRead else do
      let o ← srv.getOp op
      let buf ← srv.getBuf o.bufRef
      let (reqLen, reqMsgt, reqSeqid) := deserHeader (buf.drop off)
      if reqLen.toNat > bufferSize2KB then disconnectAndFreeOp srv (some info) op
      else if bytesRead < reqLen.toNat then
        let srv := if off ≠ 0 then
            srv.setBuf o.bufRef (compact buf off (sizeSub o.bufCap bytesRead) junk.past)
          else srv
        resumeRecv srv op bytesRead
      else
        let (srv, ret) ← handle srv info op off reqLen.toNat reqMsgt reqSeqid junk
        if ret = -1 then disconnectAndFreeOp srv (some info) op
        else recvLoop info op junk fuel srv (off + reqLen.toNat) (bytesRead - reqLen.toNat)

def handleRecv (srv : Server) (info op bytesRead : ℕ) (junk : Junk) : Outcome Server :=
  if bytesRead = 0 then disconnectAndFreeOp srv (some info) op else
    recvLoop info op junk (bytesRead + (srv.ring.entries - srv.ring.sq.length) + 1) srv 0 bytesRead

def opIsIncomplete (o : Operation) (processed : ℕ) : Bool :=
  decide (processed < sizeSub o.bufLen o.processed)

def handleSend (srv : Server) (op bytesWritten : ℕ) : Outcome Server := do
  let o ← srv.getOp op
  if opIsIncomplete o bytesWritten then resumeSend srv op bytesWritten else freeOp srv op

/-- A completion. The server reads the user data and the result; the rest of the
entry it answers and the bytes it received are kept for the log. -/
structure Cqe where
  sqe : Sqe
  res : ℤ
  data : List UInt8
  deriving DecidableEq, Repr

/-- The branches of `handle_cqe_batch`: a failed operation, an operation of a client
that is gone, and the three handlers. -/
def dispatch (srv : Server) (info : Option ℕ) (op : ℕ) (type : OpType) (res : ℤ) (junk : Junk) :
    Outcome Server :=
  if res < 0 then disconnectAndFreeOp srv info op else
    match info with
    | none => freeOp srv op
    | some info =>
      match type with
      | .accept => handleAccept srv res info op junk
      | .read => handleRecv srv info op res.toNat junk
      | .write => handleSend srv op res.toNat

/-- The body of the loop of `handle_cqe_batch`. -/
def handleCqe (srv : Server) (cqe : Cqe) (junk : Junk) : Outcome Server := do
  let op ← opPoolGet srv.pool cqe.sqe.userData
  let o ← srv.getOp op
  let srv := srv.log (.completed o.clientId o.type cqe.res cqe.data)
  let info ← clientMapGet srv.clients o.clientId
  dispatch srv info op o.type cqe.res junk

/-- The server `main` sets up, up to the first line of `server_start`. -/
def serverInit (serverFd : ℤ) (junk : Junk) : Outcome Server := do
  let clients ← clientMapInit 1024
  let (heap, slab64) := slabInit [] bufferSize64B junk.buf
  let (heap, slab2k) := slabInit heap bufferSize2KB junk.buf
  .ok { ring := ⟨queueSize, []⟩, clients := clients, slab64 := slab64, slab2k := slab2k,
        pool := opPoolInit, serverFd := serverFd, nextClientId := 1, heap := heap,
        fds := fun fd => if fd = serverFd then some .listener else none, trace := [] }

end Caht
