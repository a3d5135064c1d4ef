import CseLabs.Run
import Mathlib.Data.Finset.Max
import Mathlib.Data.String.Basic

namespace CseLabs.LockCache

-- Client ids are the "host:port" strings of lock_client_cache::id.
abbrev Cid := String
abbrev Tid := Nat
-- One `thread` object, allocated by every call of acquire.
abbrev Node := Nat
abbrev Lockid := UInt64

inductive Status
  | ok
  | retry
  | ioerr
  deriving DecidableEq

namespace Server

inductive State
  | none
  | locked
  | revoking
  | retrying
  deriving DecidableEq

structure LockInfo where
  owner : Cid := ""
  retryingCid : Cid := ""
  waitingCids : Finset Cid := ∅
  stat : State := .none

-- What the acquire handler still does after it has dropped the mutex.
inductive Outcome
  | reply (ret : Status)
  | revokeOwner
  | revokeSelf
  deriving DecidableEq

-- The part of lock_server_cache::acquire under the mutex. `none` stands for a
-- failed VERIFY.
def acquire (info : LockInfo) (id : Cid) : Option (LockInfo × Outcome) :=
  match info.stat with
  | .none =>
      if info.owner = "" then
        some ({ info with stat := .locked, owner := id }, .reply .ok)
      else none
  | .locked =>
      if id ∉ info.waitingCids ∧ info.owner ≠ "" ∧ info.owner ≠ id then
        some ({ info with waitingCids := insert id info.waitingCids, stat := .revoking }, .revokeOwner)
      else none
  | .revoking =>
      if id ∉ info.waitingCids then
        some ({ info with waitingCids := insert id info.waitingCids }, .reply .retry)
      else none
  | .retrying =>
      if id ∈ info.waitingCids then none
      else if id = info.retryingCid then
        if info.waitingCids = ∅ then
          some ({ info with retryingCid := "", stat := .locked, owner := id }, .reply .ok)
        else
          some ({ info with retryingCid := "", stat := .revoking, owner := id }, .revokeSelf)
      else
        some ({ info with waitingCids := insert id info.waitingCids }, .reply .retry)

-- The part of lock_server_cache::release under the mutex, with the client that
-- is asked to retry. `*begin()` of the waiting set is its least element.
def release (info : LockInfo) (id : Cid) : Option (LockInfo × Cid) :=
  if info.stat = .revoking ∧ info.owner = id then
    match info.waitingCids.min with
    | ⊤ => none
    | (nextid : Cid) =>
        some ({ owner := "", retryingCid := nextid, waitingCids := info.waitingCids.erase nextid,
                stat := .retrying }, nextid)
  else none

end Server

namespace Client

inductive State
  | none
  | free
  | locked
  | acquiring
  | releasing
  deriving DecidableEq

inductive Message
  | empty
  | retry
  | revoke
  deriving DecidableEq

structure LockInfo where
  stat : State := .none
  msg : Message := .empty
  threads : List Node := []

end Client

-- The remote calls are synchronous, so a message in flight belongs to exactly
-- one pending call. The three types below say where the message of a call is.

-- cl->call(lock_protocol::release): the request, the retry call that the server
-- makes before it answers (request and reply), and the reply.
inductive ReleaseRpc
  | request
  | retrying (client : Cid)
  | retried
  | reply
  deriving DecidableEq

-- The revoke call of the server's acquire handler. In `pending` the handler has
-- dropped the mutex and not yet read info->owner. In `releasing` the handler on
-- client `client` is inside its own release call.
inductive RevokeRpc
  | pending
  | request (client : Cid)
  | releasing (client : Cid) (rpc : ReleaseRpc)
  | reply
  deriving DecidableEq

-- cl->call(lock_protocol::acquire) of wait_lock.
inductive AcquireRpc
  | request
  | revoking (ret : Status) (rpc : RevokeRpc)
  | reply (ret : Status)
  deriving DecidableEq

-- Where a thread is between its call of acquire and the end of its release. A
-- thread in pthread_cond_wait carries whether it has been signalled.
inductive Pc
  | waitFirst (signalled : Bool)
  | waitTurn (signalled : Bool)
  | acquiring (rpc : AcquireRpc)
  | waitRetry (signalled : Bool)
  | holding
  | releasing (rpc : ReleaseRpc)
  | done
  | ioerr
  deriving DecidableEq

-- pthread_cond_signal on the thread's own condition variable.
def Pc.signal : Pc → Pc
  | .waitFirst _ => .waitFirst true
  | .waitTurn _ => .waitTurn true
  | .waitRetry _ => .waitRetry true
  | pc => pc

-- One acquire(lid) with the release that follows it. Nodes that have not been
-- allocated are finished sessions of no client.
structure Session where
  cid : Cid := ""
  tid : Tid := 0
  pc : Pc := .done

-- The release call that runs on behalf of a session, and the client that makes it.
def Session.releaseCall (session : Session) : Option (Cid × ReleaseRpc) :=
  match session.pc with
  | .releasing rpc => some (session.cid, rpc)
  | .acquiring (.revoking _ (.releasing client rpc)) => some (client, rpc)
  | _ => none

def Pc.setRelease (pc : Pc) (rpc : ReleaseRpc) : Pc :=
  match pc with
  | .releasing _ => .releasing rpc
  | .acquiring (.revoking ret (.releasing client _)) => .acquiring (.revoking ret (.releasing client rpc))
  | pc => pc

-- Everything that concerns one lock id: lockmap[lid] of the server, locksmap[lid]
-- of every client, and the sessions.
structure Sys where
  server : Option Server.LockInfo := none
  client : Cid → Option Client.LockInfo := fun _ => none
  session : Node → Session := fun _ => {}
  fresh : Node := 0

namespace Sys

def setPc (sys : Sys) (node : Node) (pc : Pc) : Sys :=
  { sys with session := Function.update sys.session node { sys.session node with pc := pc } }

def setInfo (sys : Sys) (cid : Cid) (info : Client.LockInfo) : Sys :=
  { sys with client := Function.update sys.client cid (some info) }

def setServer (sys : Sys) (info : Server.LockInfo) : Sys :=
  { sys with server := some info }

-- pthread_cond_signal(&threads.front()->cv)
def signalFront (sys : Sys) (threads : List Node) : Sys :=
  match threads with
  | [] => sys
  | front :: _ => sys.setPc front (sys.session front).pc.signal

end Sys

inductive Event
  | acquire (cid : Cid) (tid : Tid)
  | wake (node : Node)
  | serveAcquire (node : Node)
  | sendRevoke (node : Node)
  | revoke (node : Node)
  | revokeDone (node : Node)
  | serveRelease (node : Node)
  | retry (node : Node)
  | retryDone (node : Node)
  | releaseDone (node : Node)
  | acquireDone (node : Node)
  | release (node : Node)

-- lock_client_cache::acquire up to its first unlock or wait.
def acquire (sys : Sys) (cid : Cid) (tid : Tid) : Sys :=
  let info := (sys.client cid).getD {}
  let threads := info.threads ++ [sys.fresh]
  let start := fun (stat : Client.State) (pc : Pc) =>
    { sys.setInfo cid { info with stat := stat, threads := threads } with
        session := Function.update sys.session sys.fresh { cid := cid, tid := tid, pc := pc }
        fresh := sys.fresh + 1 }
  if info.threads = [] then
    match info.stat with
    | .free => start .locked .holding
    | .none => start .acquiring (.acquiring .request)
    | stat => start stat (.waitFirst false)
  else start info.stat (.waitTurn false)

-- A signalled thread takes the mutex again and goes on after its wait.
def wake (sys : Sys) (node : Node) : Option Sys := do
  let session := sys.session node
  let info ← sys.client session.cid
  match session.pc with
  | .waitFirst true =>
      some ((sys.setInfo session.cid { info with stat := .acquiring }).setPc node (.acquiring .request))
  | .waitTurn true =>
      match info.stat with
      | .free => some ((sys.setInfo session.cid { info with stat := .locked }).setPc node .holding)
      | .locked => some (sys.setPc node .holding)
      | .none =>
          some ((sys.setInfo session.cid { info with stat := .acquiring }).setPc node (.acquiring .request))
      | _ => some (sys.setPc node .ioerr)
  | .waitRetry true =>
      -- the loop condition of wait_lock; assert(0) follows the loop
      if info.stat = .acquiring then
        some ((sys.setInfo session.cid { info with msg := .empty }).setPc node (.acquiring .request))
      else none
  | _ => none

def serveAcquire (sys : Sys) (node : Node) : Option Sys := do
  let session := sys.session node
  match session.pc with
  | .acquiring .request =>
      let (info, outcome) ← Server.acquire (sys.server.getD {}) session.cid
      let rpc := match outcome with
        | .reply ret => AcquireRpc.reply ret
        | .revokeOwner => .revoking .retry .pending
        | .revokeSelf => .revoking .ok (.request session.cid)
      some ((sys.setServer info).setPc node (.acquiring rpc))
  | _ => none

-- handle(info->owner): the owner is read after the mutex has been dropped.
def sendRevoke (sys : Sys) (node : Node) : Option Sys := do
  let session := sys.session node
  let info ← sys.server
  match session.pc with
  | .acquiring (.revoking ret .pending) =>
      some (sys.setPc node (.acquiring (.revoking ret (.request info.owner))))
  | _ => none

-- The first section of revoke_handler.
def revoke (sys : Sys) (node : Node) : Option Sys := do
  let session := sys.session node
  match session.pc with
  | .acquiring (.revoking ret (.request client)) =>
      let info ← sys.client client
      if info.stat = .free then
        some ((sys.setInfo client { info with stat := .releasing }).setPc node
          (.acquiring (.revoking ret (.releasing client .request))))
      else
        some ((sys.setInfo client { info with msg := .revoke }).setPc node
          (.acquiring (.revoking ret .reply)))
  | _ => none

def revokeDone (sys : Sys) (node : Node) : Option Sys := do
  let session := sys.session node
  match session.pc with
  | .acquiring (.revoking ret .reply) => some (sys.setPc node (.acquiring (.reply ret)))
  | _ => none

def serveRelease (sys : Sys) (node : Node) : Option Sys := do
  let session := sys.session node
  match session.releaseCall with
  | some (client, .request) =>
      let info ← sys.server
      let (info, nextid) ← Server.release info client
      some ((sys.setServer info).setPc node (session.pc.setRelease (.retrying nextid)))
  | _ => none

-- retry_handler. front() of an empty list is undefined.
def retry (sys : Sys) (node : Node) : Option Sys := do
  let session := sys.session node
  match session.releaseCall with
  | some (_, .retrying client) =>
      let info ← sys.client client
      if info.threads = [] then none
      else
        some (((sys.setInfo client { info with msg := .retry }).setPc node
          (session.pc.setRelease .retried)).signalFront info.threads)
  | _ => none

def retryDone (sys : Sys) (node : Node) : Option Sys := do
  let session := sys.session node
  match session.releaseCall with
  | some (_, .retried) => some (sys.setPc node (session.pc.setRelease .reply))
  | _ => none

-- What follows the release call: the end of release in the first case, the end
-- of revoke_handler in the second.
def releaseDone (sys : Sys) (node : Node) : Option Sys := do
  let session := sys.session node
  match session.pc with
  | .releasing .reply =>
      let info ← sys.client session.cid
      match info.threads with
      | [] => none
      | _ :: rest =>
          some (((sys.setInfo session.cid { stat := .none, msg := .empty, threads := rest }).setPc
            node .done).signalFront rest)
  | .acquiring (.revoking ret (.releasing client .reply)) =>
      let info ← sys.client client
      some (((sys.setInfo client { info with stat := .none }).setPc node
        (.acquiring (.revoking ret .reply))).signalFront info.threads)
  | _ => none

-- wait_lock once the reply of the server is there.
def acquireDone (sys : Sys) (node : Node) : Option Sys := do
  let session := sys.session node
  let info ← sys.client session.cid
  match session.pc with
  | .acquiring (.reply .ok) =>
      some ((sys.setInfo session.cid { info with stat := .locked }).setPc node .holding)
  | .acquiring (.reply _) =>
      if info.msg = .empty then some (sys.setPc node (.waitRetry false))
      else if info.stat = .acquiring then
        some ((sys.setInfo session.cid { info with msg := .empty }).setPc node (.acquiring .request))
      else none
  | _ => none

-- lock_client_cache::release up to its first unlock.
def release (sys : Sys) (node : Node) : Option Sys := do
  let session := sys.session node
  let info ← sys.client session.cid
  match session.pc with
  | .holding =>
      if info.msg = .revoke then
        some ((sys.setInfo session.cid { info with stat := .releasing }).setPc node (.releasing .request))
      else
        match info.threads with
        | [] => none
        | _ :: rest =>
            let stat := if rest = [] then Client.State.free else .locked
            some (((sys.setInfo session.cid { info with stat := stat, threads := rest }).setPc
              node .done).signalFront rest)
  | _ => none

def step (sys : Sys) : Event → Option Sys
  | .acquire cid tid => if cid = "" then none else some (acquire sys cid tid)
  | .wake node => wake sys node
  | .serveAcquire node => serveAcquire sys node
  | .sendRevoke node => sendRevoke sys node
  | .revoke node => revoke sys node
  | .revokeDone node => revokeDone sys node
  | .serveRelease node => serveRelease sys node
  | .retry node => retry sys node
  | .retryDone node => retryDone sys node
  | .releaseDone node => releaseDone sys node
  | .acquireDone node => acquireDone sys node
  | .release node => release sys node

def Step (sys : Sys) (event : Event) (next : Sys) : Prop := step sys event = some next

-- All locks together. A thread makes one call at a time, over all locks.
abbrev World := Lockid → Sys

def Pc.inCall : Pc → Bool
  | .holding | .done | .ioerr => false
  | _ => true

def ThreadIdle (world : World) (cid : Cid) (tid : Tid) : Prop :=
  ∀ lid node, ((world lid).session node).cid = cid → ((world lid).session node).tid = tid →
    ((world lid).session node).pc.inCall = false

def ThreadGuard (world : World) (lid : Lockid) : Event → Prop
  | .acquire cid tid => ThreadIdle world cid tid
  | .release node => ThreadIdle world ((world lid).session node).cid ((world lid).session node).tid
  | _ => True

def initial (sys : Sys) : Prop := sys = {}

def WorldReachable (world : World) : Prop :=
  Reachable (Interleaved ThreadGuard Step) (fun world => ∀ lid, initial (world lid)) world

end CseLabs.LockCache
