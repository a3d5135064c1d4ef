import CseLabs.Extent

namespace CseLabs.ExtentService

open InodeManager (Bytes Stack Times Attr Fs T_SYMLINK INODE_NUM MAXFILE BLOCK_SIZE)
open Directory (entry find SLASH)
open Extent (Client mask)

section Managers

-- What a call meets that the program does not set: memory on the stack, and the clock.
structure Env where
  junk : Stack
  now : Times

-- The calls of an inode_manager. The size of write_file is an int. read_file gives nothing for
-- an inode that does not exist. none: the process ends.
structure Manager (σ : Type) where
  allocInode : UInt32 → σ → Option (Nat × σ)
  writeFile : Env → Nat → Bytes → Int → σ → Option σ
  readFile : Env → Nat → σ → Option (Option Bytes)
  getattr : Nat → Attr → σ → Option Attr
  removeFile : Env → Nat → σ → Option σ

-- A size_t that becomes an int
def toInt (size : Nat) : Int := (BitVec.ofNat 32 size).toInt

def result {α : Type} : EStateM.Result InodeManager.Fault Fs α → Option (α × Fs)
  | .ok a im => some (a, im)
  | .error _ _ => none

theorem result_eq_some {α : Type} {r : EStateM.Result InodeManager.Fault Fs α} {a : α} {im : Fs}
    (h : result r = some (a, im)) : r = .ok a im := by
  cases r with
  | ok => cases h; rfl
  | error => cases h

theorem toInt_of_lt {size : Nat} (h : size < 2 ^ 31) : toInt size = size := by
  have hnat : (BitVec.ofNat 32 size).toNat = size := by
    rw [BitVec.toNat_ofNat]
    exact Nat.mod_eq_of_lt (by omega)
  rw [toInt, BitVec.toInt_eq_toNat_of_lt (by omega), hnat]

-- The inode_manager of the repository.
def diskManager : Manager Fs where
  allocInode type im := result (InodeManager.allocInode type im)
  writeFile env inum buf size im :=
    if size < 0 then none
    else (result (InodeManager.writeFile env.junk env.now inum (buf.take size.toNat) im)).map Prod.snd
  readFile env inum im := (result (InodeManager.readFile env.junk inum im)).map Prod.fst
  getattr inum a im := (result (InodeManager.getattr inum a im)).map Prod.fst
  removeFile env inum im := (result (InodeManager.removeFile env.junk inum im)).map Prod.snd

end Managers

section Service

inductive Request
  | get (id : Nat)
  | getattr (id : Nat)
  | put (id : Nat) (buf : Bytes)
  | create (type : UInt32) (parent : Nat) (name : Bytes)
  | createSymLink (parent : Nat) (name link : Bytes)
  | remove (parent : Nat) (name : Bytes) (id : Nat)

inductive Reply
  | data (buf : Bytes)
  | attr (a : Attr)
  | ok
  | id (id : Nat)
  | noent
  deriving DecidableEq

-- extent_server. The clients are numbered in the order of their ids. A key that is not in a
-- map of the server reads as the default.
structure Server (σ : Type) (n : Nat) where
  im : σ
  clients : Fin n → Nat → Bool
  dataCache : Nat → Bytes
  attrCache : Nat → Attr

-- The server, and the clients its callbacks go to.
structure System (σ : Type) (n : Nat) where
  server : Server σ n
  client : Fin n → Client

def removeHandler (client : Client) (id : Nat) : Client where
  dataCache := Function.update client.dataCache id none
  attrCache := Function.update client.attrCache id none

variable {σ : Type} {n : Nat}

def Server.insert (server : Server σ n) (c : Fin n) (id : Nat) : Server σ n :=
  { server with clients := Function.update server.clients c (Function.update (server.clients c) id true) }

-- A remove_handler or update_handler call of broadcast, carried out.
def System.callback (s : System σ n) (id : Nat) (isRemove : Bool) (d : Fin n) : System σ n :=
  let client :=
    if isRemove then removeHandler (s.client d) id
    else (s.client d).updateHandler id (s.server.attrCache id) (s.server.dataCache id)
  { s with client := Function.update s.client d client }

def System.broadcast (s : System σ n) (id : Nat) (isRemove : Bool) : System σ n :=
  (List.finRange n).foldl (fun s d => if s.server.clients d id then s.callback id isRemove d else s) s

def System.setIm (s : System σ n) (im : σ) : System σ n := { s with server := { s.server with im := im } }

def System.insert (s : System σ n) (c : Fin n) (id : Nat) : System σ n := { s with server := s.server.insert c id }

variable (m : Manager σ) (env : Env)

def System.updateCache (s : System σ n) (id : Nat) : Option (System σ n) := do
  let id := mask id
  let buf ← m.readFile env id s.server.im
  let attr ← m.getattr id {} s.server.im
  let server := { s.server with
    dataCache := Function.update s.server.dataCache id (buf.getD [])
    attrCache := Function.update s.server.attrCache id attr }
  pure ({ s with server := server }.broadcast id false)

-- write_file takes an inode number of 32 bits.
def System.writeFile (s : System σ n) (id : Nat) (buf : Bytes) : Option (System σ n) := do
  let im ← m.writeFile env (id % 2 ^ 32) buf (toInt buf.length) s.server.im
  pure (s.setIm im)

def System.get (s : System σ n) (c : Fin n) (id : Nat) : Bytes × System σ n :=
  (s.server.dataCache id, s.insert c id)

def System.getattr (s : System σ n) (c : Fin n) (id : Nat) : Attr × System σ n :=
  (s.server.attrCache id, s.insert c id)

def System.put (s : System σ n) (c : Fin n) (id : Nat) (buf : Bytes) : Option (System σ n) := do
  let id := mask id
  let s ← s.writeFile m env id buf
  let s ← s.updateCache m env id
  pure (s.insert c id)

-- The parent gets an entry, and both inodes a new copy.
def System.link (s : System σ n) (c : Fin n) (parent : Nat) (name : Bytes) (id : Nat) : Option (System σ n) := do
  let s ← s.writeFile m env parent (s.server.dataCache parent ++ entry name id)
  let s ← s.updateCache m env parent
  let s ← s.updateCache m env id
  pure (s.insert c id)

def System.create (s : System σ n) (c : Fin n) (type : UInt32) (parent : Nat) (name : Bytes) :
    Option (Reply × System σ n) := do
  let (id, im) ← m.allocInode type s.server.im
  let s := s.setIm im
  if id = INODE_NUM then pure (.noent, s)
  else
    let s ← s.link m env c parent name id
    pure (.id id, s)

def System.createSymLink (s : System σ n) (c : Fin n) (parent : Nat) (name link : Bytes) :
    Option (Reply × System σ n) := do
  let (id, im) ← m.allocInode T_SYMLINK s.server.im
  let s ← (s.setIm im).writeFile m env id link
  let s ← s.link m env c parent name id
  pure (.id id, s)

-- std::string::find of a text
def findText (buf name : Bytes) : Option Nat :=
  (List.range (buf.length + 1)).find? fun i => (buf.drop i).take name.length == name

-- The text that erase leaves. A name that is not there makes it throw. Without a slash behind
-- the name the count is minus the start.
def eraseEntry (buf name : Bytes) : Option Bytes := do
  let eraseStart ← findText buf name
  match find buf SLASH eraseStart with
  | some eraseEnd => pure (buf.take eraseStart ++ buf.drop (eraseEnd + 1))
  | none => pure (if eraseStart = 0 then buf else buf.take eraseStart)

def System.erase (s : System σ n) (id : Nat) : System σ n :=
  { s with server := { s.server with
      dataCache := Function.update s.server.dataCache id []
      attrCache := Function.update s.server.attrCache id {} } }

-- The content that remove writes to the parent.
def System.removed (s : System σ n) (parent : Nat) (name : Bytes) : Option Bytes :=
  eraseEntry (s.server.dataCache parent) name

def System.remove (s : System σ n) (c : Fin n) (parent : Nat) (name : Bytes) (id : Nat) : Option (System σ n) := do
  let id := mask id
  let im ← m.removeFile env id s.server.im
  let buf ← s.removed parent name
  let s ← (s.setIm im).writeFile m env parent buf
  let s ← s.updateCache m env parent
  pure (((s.erase id).broadcast id true).insert c id)

-- A request of client c, handled to its end with every callback it makes.
def System.handle (s : System σ n) (c : Fin n) : Request → Option (Reply × System σ n)
  | .get id => some (.data (s.get c id).1, (s.get c id).2)
  | .getattr id => some (.attr (s.getattr c id).1, (s.getattr c id).2)
  | .put id buf => do
      let s ← s.put m env c id buf
      pure (.ok, s)
  | .create type parent name => s.create m env c type parent name
  | .createSymLink parent name link => s.createSymLink m env c parent name link
  | .remove parent name id => do
      let s ← s.remove m env c parent name id
      pure (.ok, s)

end Service

section Clients

variable {σ : Type} {n : Nat} (m : Manager σ) (env : Env)

def System.setClient (s : System σ n) (c : Fin n) (client : Client) : System σ n :=
  { s with client := Function.update s.client c client }

-- extent_client::get
def System.clientGet (s : System σ n) (c : Fin n) (eid : Nat) : Bytes × System σ n :=
  match (s.client c).dataCache eid with
  | some buf => (buf, s)
  | none =>
      let (buf, s) := s.get c eid
      let client := s.client c
      (buf, s.setClient c { client with dataCache := Function.update client.dataCache eid (some buf) })

def System.clientGetattr (s : System σ n) (c : Fin n) (eid : Nat) : Attr × System σ n :=
  match (s.client c).attrCache eid with
  | some attr => (attr, s)
  | none =>
      let (attr, s) := s.getattr c eid
      let client := s.client c
      (attr, s.setClient c { client with attrCache := Function.update client.attrCache eid (some attr) })

-- An operation of extent_client. All but get and getattr go to the server.
def System.operate (s : System σ n) (c : Fin n) : Request → Option (Reply × System σ n)
  | .get eid => some (.data (s.clientGet c eid).1, (s.clientGet c eid).2)
  | .getattr eid => some (.attr (s.clientGetattr c eid).1, (s.clientGetattr c eid).2)
  | req => s.handle m env c req

structure Event (n : Nat) where
  env : Env
  client : Fin n
  request : Request

-- One operation after another.
def operation (s : System σ n) (event : Event n) : Option (System σ n) :=
  (s.operate m event.env event.client event.request).map Prod.snd

-- Requests that reach the server one after another.
def service (s : System σ n) (event : Event n) : Option (System σ n) :=
  (s.handle m event.env event.client event.request).map Prod.snd

-- Nothing is cached and nobody is registered.
def Empty (s : System σ n) : Prop :=
  (∀ c id, s.server.clients c id = false ∧ (s.client c).dataCache id = none ∧ (s.client c).attrCache id = none) ∧
    ∀ id, s.server.dataCache id = [] ∧ s.server.attrCache id = {}

end Clients

end CseLabs.ExtentService
