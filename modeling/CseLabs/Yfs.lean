import CseLabs.Extent.Handlers

namespace CseLabs.Yfs

open InodeManager (Bytes Stack Times Fs T_DIR T_FILE)
open Directory (Dirent)
open Extent

section Buffers

-- std::string::resize
def resize (buf : Bytes) (size : Nat) : Bytes := buf.take size ++ List.replicate (size - buf.length) 0

-- What yfs_client::read does with the content. off is compared as a size_t, and so is off + size.
def read (buf : Bytes) (size off : Nat) : Bytes :=
  if buf.length < off then []
  else if buf.length < (off + size) % 2 ^ 64 then buf.drop off
  else (buf.drop off).take size

-- The loops of yfs_client::write, count turns from j on.
def zeroFrom (buf : Bytes) (j : Nat) : Nat → Bytes
  | 0 => buf
  | count + 1 => zeroFrom (buf.set j 0) (j + 1) count

def copyFrom (buf : Bytes) (j : Nat) : Bytes → Bytes
  | [] => buf
  | b :: data => copyFrom (buf.set j b) (j + 1) data

def write (buf : Bytes) (off : Nat) (data : Bytes) : Bytes :=
  let size := (off + data.length) % 2 ^ 64
  let grown := if buf.length < size then zeroFrom (resize buf size) buf.length (off - buf.length) else buf
  copyFrom grown off data

end Buffers

section Operations

inductive FileOp
  | read (size off : Nat)
  | write (off : Nat) (data : Bytes)
  | setattr (size : Nat)
  deriving DecidableEq

inductive Op
  | file (ino : Nat) (op : FileOp)
  | create (parent : Nat) (name : Bytes)
  | mkdir (parent : Nat) (name : Bytes)
  | symlink (parent : Nat) (name link : Bytes)
  | lookup (parent : Nat) (name : Bytes)
  | readdir (dir : Nat)
  deriving DecidableEq

inductive Result
  | data (data : Bytes)
  | written (bytesWritten : Nat)
  | ok
  | exist
  | created (inoOut : Nat)
  | found (inoOut : Option Nat)
  | list (entries : List Dirent)
  deriving DecidableEq

-- The inode whose content the operation gets.
def Op.ino : Op → Nat
  | .file ino _ => ino
  | .create parent _ => parent
  | .mkdir parent _ => parent
  | .symlink parent _ _ => parent
  | .lookup parent _ => parent
  | .readdir dir => dir

-- lookup and readdir are called by fuse without a lock.
def Op.locks : Op → Bool
  | .lookup _ _ => false
  | .readdir _ => false
  | _ => true

-- What an operation does once it has the content: it ends, or makes one more call.
inductive Next
  | done (result : Result)
  | call (req : Request) (result : Reply → Result)

def Reply.inoOut : Reply → Result
  | .id id => .created id
  | _ => .ok

def FileOp.next (ino : Nat) (buf : Bytes) : FileOp → Next
  | .read size off => .done (.data (Yfs.read buf size off))
  | .write off data => .call (.put ino (Yfs.write buf off data)) fun _ => .written data.length
  | .setattr size => .call (.put ino (resize buf size)) fun _ => .ok

-- create, mkdir and symlink look for the name in the content first.
def makeEntry (buf name : Bytes) (req : Request) : Option Next :=
  (Directory.lookup buf name).map fun found => if found.isSome then .done .exist else .call req Reply.inoOut

-- none: the loop of readdir does not end.
def Op.next (buf : Bytes) : Op → Option Next
  | .file ino op => some (op.next ino buf)
  | .create parent name => makeEntry buf name (.create T_FILE parent name)
  | .mkdir parent name => makeEntry buf name (.create T_DIR parent name)
  | .symlink parent name link => makeEntry buf name (.createSymLink parent name link)
  | .lookup _ name => (Directory.lookup buf name).map fun found => .done (.found found)
  | .readdir _ => (Directory.readdir buf).map fun entries => .done (.list entries)

-- An operation on a file of which there is one copy.
def FileOp.apply : FileOp → Bytes → Bytes × Result
  | .read size off, buf => (buf, .data (Yfs.read buf size off))
  | .write off data, buf => (Yfs.write buf off data, .written data.length)
  | .setattr size, buf => (resize buf size, .ok)

theorem next_done {ino : Nat} {buf : Bytes} {fop : FileOp} {result : Result}
    (h : (Op.file ino fop).next buf = some (.done result)) : fop.apply buf = (buf, result) := by
  cases fop with
  | read size off =>
      cases h
      rfl
  | write off data => cases h
  | setattr size => cases h

theorem next_call {ino : Nat} {buf : Bytes} {fop : FileOp} {req : Request} {result : Reply → Result}
    (h : (Op.file ino fop).next buf = some (.call req result)) :
    req = .put ino (fop.apply buf).1 ∧ ∀ reply, result reply = (fop.apply buf).2 := by
  cases fop with
  | read size off => cases h
  | write off data =>
      cases h
      exact ⟨rfl, fun _ => rfl⟩
  | setattr size =>
      cases h
      exact ⟨rfl, fun _ => rfl⟩

end Operations

section System

-- Where a client's thread is.
inductive Pc
  | idle
  | acquiring (op : Op)
  | ready (op : Op)
  | getting (op : Op)
  | calling (op : Op) (result : Reply → Result)
  | releasing (op : Op) (result : Result)

structure Sys (n : Nat) where
  server : Server n
  client : Fin n → Client
  pc : Fin n → Pc
  rpc : Fin n → Call n
  -- the holder of each inode's lock
  lock : Nat → Option (Fin n)
  -- the operations that have ended, with their results
  log : List (Fin n × Op × Result)

inductive Event (n : Nat)
  | start (c : Fin n) (op : Op)
  -- lc->acquire returns
  | acquire (c : Fin n)
  -- ec->get looks in the client's cache
  | look (c : Fin n)
  -- the server receives the request of c
  | serve (c : Fin n) (junk : Stack) (now : Times)
  -- a client receives the update_handler call that the handler of c's request has made
  | update (c : Fin n)
  -- the handler receives the reply to that call
  | ack (c : Fin n) (junk : Stack)
  -- c receives the reply to its request
  | reply (c : Fin n)
  -- lc->release, and the operation returns
  | finish (c : Fin n)

variable {n : Nat}

def Sys.setPc (s : Sys n) (c : Fin n) (pc : Pc) : Sys n := { s with pc := Function.update s.pc c pc }

def Sys.setRpc (s : Sys n) (c : Fin n) (call : Call n) : Sys n := { s with rpc := Function.update s.rpc c call }

def Sys.setClient (s : Sys n) (c : Fin n) (client : Client) : Sys n :=
  { s with client := Function.update s.client c client }

def Sys.setLock (s : Sys n) (id : Nat) (holder : Option (Fin n)) : Sys n :=
  { s with lock := Function.update s.lock id holder }

-- dataCache[eid] = buf in extent_client::get
def Sys.setData (s : Sys n) (c : Fin n) (id : Nat) (buf : Bytes) : Sys n :=
  s.setClient c { s.client c with dataCache := Function.update (s.client c).dataCache id (some buf) }

-- ec->get has returned.
def Sys.got (s : Sys n) (c : Fin n) (op : Op) (buf : Bytes) : Option (Sys n) :=
  (op.next buf).map fun
    | .done result => (s.setPc c (.releasing op result)).setRpc c .none
    | .call req result => (s.setPc c (.calling op result)).setRpc c (.requested req)

def step (s : Sys n) : Event n → Option (Sys n)
  | .start c op =>
      match s.pc c with
      | .idle => some (s.setPc c (if op.locks then .acquiring op else .ready op))
      | _ => none
  | .acquire c =>
      match s.pc c with
      | .acquiring op => if s.lock op.ino = none then some ((s.setPc c (.ready op)).setLock op.ino (some c)) else none
      | _ => none
  | .look c =>
      match s.pc c with
      | .ready op =>
          match (s.client c).dataCache op.ino with
          | some buf => s.got c op buf
          | none => some ((s.setPc c (.getting op)).setRpc c (.requested (.get op.ino)))
      | _ => none
  | .serve c junk now =>
      match s.rpc c with
      | .requested req =>
          (s.server.handle junk now c req).map fun (server, call) => { s with server := server }.setRpc c call
      | _ => none
  | .update c =>
      match s.rpc c with
      | .updating job =>
          if job.delivered then none
          else
            let client := (s.client job.target).updateHandler job.id job.attr job.data
            some ((s.setClient job.target client).setRpc c (.updating { job with delivered := true }))
      | _ => none
  | .ack c junk =>
      match s.rpc c with
      | .updating job =>
          if job.delivered then
            (s.server.broadcast junk c job.register job.reply job.id job.rest job.todo).map
              fun (server, call) => { s with server := server }.setRpc c call
          else none
      | _ => none
  | .reply c =>
      match s.rpc c, s.pc c with
      | .replied (.data buf), .getting op => (s.setData c op.ino buf).got c op buf
      | .replied reply, .calling op result => some ((s.setPc c (.releasing op (result reply))).setRpc c .none)
      | _, _ => none
  | .finish c =>
      match s.pc c with
      | .releasing op result =>
          let s := if op.locks then s.setLock op.ino none else s
          some { s.setPc c .idle with log := s.log ++ [(c, op, result)] }
      | _ => none

def Step (s : Sys n) (event : Event n) (next : Sys n) : Prop := step s event = some next

end System

section Runs

variable {n : Nat}

def Op.type : Op → UInt32
  | .file _ _ => T_FILE
  | _ => T_DIR

-- An operation on files is called for files, and one on directories for directories.
def Op.Fits (im : Fs) (op : Op) : Prop := im.Live op.ino ∧ (im.inode op.ino).type = op.type.toUInt16

instance (im : Fs) (op : Op) : Decidable (op.Fits im) :=
  inferInstanceAs (Decidable ((op.ino < InodeManager.INODE_NUM ∧ (im.inode op.ino).type ≠ 0) ∧ _))

-- Between operations: the server's copies agree with the disk, and every client's copies with
-- the server's.
structure Quiet (s : Sys n) : Prop where
  pc : ∀ c, s.pc c = .idle
  rpc : ∀ c, s.rpc c = .none
  lock : ∀ id, s.lock id = none
  log : s.log = []
  stored : ∀ id, s.server.im.Live id → s.server.dataCache id = s.server.im.content (s.server.im.inode id)
  free : ∀ id < InodeManager.INODE_NUM, ¬ s.server.im.Live id → s.server.dataCache id = []
  cached : ∀ c id buf, (s.client c).dataCache id = some buf →
    s.server.clients c id = true ∧ s.server.im.Live id ∧ buf = s.server.dataCache id

-- The handler of the operation that holds the lock of id has yet to tell client d.
def Sys.Pending (s : Sys n) (d : Fin n) (id : Nat) : Prop := ∃ c, s.lock id = some c ∧ Awaits (s.rpc c) id d

-- What arrives is not overtaken: a reply to a get without a lock, or an update_handler call for
-- an inode whose lock the operation does not hold, is received while its content is the server's,
-- or while a newer one is still to come.
def Fresh (s : Sys n) : Event n → Prop
  | .reply c =>
      ∀ op buf, s.pc c = .getting op → op.locks = false → s.rpc c = .replied (.data buf) →
        buf = s.server.dataCache op.ino ∨ s.Pending c op.ino
  | .update c =>
      ∀ job, s.rpc c = .updating job → s.lock job.id ≠ some c → Readable s.server.im job.id →
        job.data = s.server.dataCache job.id ∨ s.Pending job.target job.id
  | _ => True

def Pc.gets : Pc → Option Op
  | .getting op => some op
  | _ => none

theorem mem_gets {op : Op} (pc : Pc) : op ∈ pc.gets ↔ pc = .getting op := by cases pc <;> simp [Pc.gets]

instance (s : Sys n) (d : Fin n) (id : Nat) : Decidable (s.Pending d id) :=
  inferInstanceAs (Decidable (∃ c, s.lock id = some c ∧ Awaits (s.rpc c) id d))

theorem fresh_reply_iff (s : Sys n) (c : Fin n) : Fresh s (.reply c) ↔
    ∀ op ∈ (s.pc c).gets, op.locks = false → ∀ buf ∈ (s.rpc c).content,
      buf = s.server.dataCache op.ino ∨ s.Pending c op.ino := by
  simp only [mem_gets, mem_content]
  exact ⟨fun h op hpc hlocks buf => h op buf hpc hlocks, fun h op buf hpc hlocks => h op hpc hlocks buf⟩

theorem fresh_update_iff (s : Sys n) (c : Fin n) : Fresh s (.update c) ↔
    ∀ job ∈ (s.rpc c).job, s.lock job.id ≠ some c → Readable s.server.im job.id →
      job.data = s.server.dataCache job.id ∨ s.Pending job.target job.id := by
  simp only [mem_job]
  rfl

instance (s : Sys n) (event : Event n) : Decidable (Fresh s event) :=
  match event with
  | .reply c => decidable_of_iff _ (fresh_reply_iff s c).symm
  | .update c => decidable_of_iff _ (fresh_update_iff s c).symm
  | .start _ _ | .acquire _ | .look _ | .serve _ _ _ | .ack _ _ | .finish _ => inferInstanceAs (Decidable True)

-- The write_file calls find their blocks.
def Writable (s : Sys n) : Event n → Prop
  | .serve c junk now => ∀ req, s.rpc c = .requested req → Sound junk now s.server req
  | _ => True

theorem writable_serve_iff (s : Sys n) (c : Fin n) (junk : Stack) (now : Times) :
    Writable s (.serve c junk now) ↔ ∀ req ∈ (s.rpc c).request, Sound junk now s.server req := by
  simp only [mem_request]
  rfl

instance (s : Sys n) (event : Event n) : Decidable (Writable s event) :=
  match event with
  | .serve c junk now => decidable_of_iff _ (writable_serve_iff s c junk now).symm
  | .start _ _ | .acquire _ | .look _ | .update _ | .ack _ _ | .reply _ | .finish _ => inferInstanceAs (Decidable True)

end Runs

end CseLabs.Yfs
