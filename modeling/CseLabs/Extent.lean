import Mathlib.Data.List.FinRange
import CseLabs.Directory

namespace CseLabs.Extent

open InodeManager (Bytes Stack Times Attr Fs Im T_SYMLINK INODE_NUM)
open Directory (entry)

section Messages

inductive Request
  | get (id : Nat)
  | put (id : Nat) (buf : Bytes)
  | create (type : UInt32) (parent : Nat) (name : Bytes)
  | createSymLink (parent : Nat) (name link : Bytes)
  deriving DecidableEq

inductive Reply
  | data (buf : Bytes)
  | ok
  | id (id : Nat)
  deriving DecidableEq

-- A request's handler in the loop of broadcast: the update_handler call it has made, and what
-- comes after it.
structure Job (n : Nat) where
  id : Nat
  target : Fin n
  attr : Attr
  data : Bytes
  delivered : Bool
  -- the clients the loop has not reached
  rest : List (Fin n)
  -- the update_cache calls to come
  todo : List Nat
  -- the inode entered in clients[client_id] before the handler returns
  register : Nat
  reply : Reply

-- Where the RPC of a client is. A client has one at a time.
inductive Call (n : Nat)
  | none
  | requested (req : Request)
  | updating (job : Job n)
  | replied (reply : Reply)

end Messages

section Server

-- The clients are numbered in the order of their ids. A key that is not in a map of the
-- server reads as the default.
structure Server (n : Nat) where
  im : Fs
  clients : Fin n → Nat → Bool
  dataCache : Nat → Bytes
  attrCache : Nat → Attr

variable {n : Nat}

def Server.store {α : Type} (server : Server n) (m : Im α) : Option (α × Server n) :=
  match m server.im with
  | .ok a im => some (a, { server with im := im })
  | .error _ _ => none

def Server.insert (server : Server n) (c : Fin n) (id : Nat) : Server n :=
  { server with clients := Function.update server.clients c (Function.update (server.clients c) id true) }

def mask (id : Nat) : Nat := id &&& 0x7fffffff

-- update_cache up to the call of broadcast. A file that does not exist gives no bytes.
def Server.updateCache (junk : Stack) (server : Server n) (id : Nat) : Option (Server n) := do
  let id := mask id
  let (buf, server) ← server.store (InodeManager.readFile junk id)
  let (attr, server) ← server.store (InodeManager.getattr id {})
  pure { server with
    dataCache := Function.update server.dataCache id (buf.getD [])
    attrCache := Function.update server.attrCache id attr }

-- The loop of broadcast from the clients in rest on, to its next update_handler call. When it
-- has none left, the handler goes on to its next update_cache call, or returns.
def Server.broadcast (junk : Stack) (c : Fin n) (register : Nat) (reply : Reply) (server : Server n) (id : Nat)
    (rest : List (Fin n)) (todo : List Nat) : Option (Server n × Call n) :=
  match rest.dropWhile fun d => !server.clients d id with
  | target :: rest =>
      some (server, .updating {
        id := id, target := target, attr := server.attrCache id, data := server.dataCache id
        delivered := false, rest := rest, todo := todo, register := register, reply := reply })
  | [] =>
      match todo with
      | [] => some (server.insert c register, .replied reply)
      | next :: todo => do
          let server ← server.updateCache junk next
          server.broadcast junk c register reply (mask next) (List.finRange n) todo

-- update_cache(id), then those of todo.
def Server.updateAll (junk : Stack) (c : Fin n) (register : Nat) (reply : Reply) (server : Server n) (id : Nat)
    (todo : List Nat) : Option (Server n × Call n) := do
  let server ← server.updateCache junk id
  server.broadcast junk c register reply (mask id) (List.finRange n) todo

def Server.get (server : Server n) (c : Fin n) (id : Nat) : Server n × Call n :=
  (server.insert c id, .replied (.data (server.dataCache id)))

-- write_file takes an inode number of 32 bits.
def Server.writeFile (junk : Stack) (now : Times) (server : Server n) (id : Nat) (buf : Bytes) : Option (Server n) :=
  (server.store (InodeManager.writeFile junk now (id % 2 ^ 32) buf)).map Prod.snd

def Server.put (junk : Stack) (now : Times) (server : Server n) (c : Fin n) (id : Nat) (buf : Bytes) :
    Option (Server n × Call n) := do
  let id := mask id
  let server ← server.writeFile junk now id buf
  server.updateAll junk c id .ok id []

def Server.create (junk : Stack) (now : Times) (server : Server n) (c : Fin n) (type : UInt32) (parent : Nat)
    (name : Bytes) : Option (Server n × Call n) := do
  let (id, server) ← server.store (InodeManager.allocInode type)
  if id = INODE_NUM then pure (server, .replied (.id id))
  else
    let server ← server.writeFile junk now parent (server.dataCache parent ++ entry name id)
    server.updateAll junk c id (.id id) parent [id]

def Server.createSymLink (junk : Stack) (now : Times) (server : Server n) (c : Fin n) (parent : Nat)
    (name link : Bytes) : Option (Server n × Call n) := do
  let (id, server) ← server.store (InodeManager.allocInode T_SYMLINK)
  let server ← server.writeFile junk now id link
  let server ← server.writeFile junk now parent (server.dataCache parent ++ entry name id)
  server.updateAll junk c id (.id id) parent [id]

-- A request is handled up to the first message the handler sends.
def Server.handle (junk : Stack) (now : Times) (server : Server n) (c : Fin n) : Request → Option (Server n × Call n)
  | .get id => some (server.get c id)
  | .put id buf => server.put junk now c id buf
  | .create type parent name => server.create junk now c type parent name
  | .createSymLink parent name link => server.createSymLink junk now c parent name link

end Server

section Client

-- extent_client
structure Client where
  dataCache : Nat → Option Bytes
  attrCache : Nat → Option Attr

def Client.updateHandler (client : Client) (id : Nat) (a : Attr) (data : Bytes) : Client where
  dataCache := Function.update client.dataCache id (some data)
  attrCache := Function.update client.attrCache id (some a)

end Client

end CseLabs.Extent
