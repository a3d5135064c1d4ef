import CseLabs.Yfs.Client

namespace CseLabs.Yfs

open InodeManager (Bytes T_DIR T_FILE)
open ExtentService (System)

section Attributes

structure FileInfo where
  size : Nat
  atime : Nat
  mtime : Nat
  ctime : Nat

structure DirInfo where
  atime : Nat
  mtime : Nat
  ctime : Nat

variable {σ : Type} {n : Nat} (s : System σ n) (c : Fin n) (inum : Nat)

-- extent_client::getattr returns OK for every number.
def hasType (type : UInt32) : Bool × System σ n :=
  ((s.clientGetattr c inum).1.type == type, (s.clientGetattr c inum).2)

def isfile : Bool × System σ n := hasType s c inum T_FILE

def isdir : Bool × System σ n := hasType s c inum T_DIR

def getfile : FileInfo × System σ n :=
  let (a, s) := s.clientGetattr c inum
  ({ size := a.size.toNat, atime := a.atime.toNat, mtime := a.mtime.toNat, ctime := a.ctime.toNat }, s)

def getdir : DirInfo × System σ n :=
  let (a, s) := s.clientGetattr c inum
  ({ atime := a.atime.toNat, mtime := a.mtime.toNat, ctime := a.ctime.toNat }, s)

def readlink : Bytes × System σ n := s.clientGet c inum

end Attributes

end CseLabs.Yfs

namespace CseLabs.Fuse

open InodeManager (Bytes T_DIR T_FILE)
open Directory (Dirent)
open ExtentService (System Manager Env)

section Replies

def S_IFREG : Nat := 0o100000
def S_IFDIR : Nat := 0o040000
def S_IFLNK : Nat := 0o120000

-- What the handlers take from libfuse: the bits of to_set, fuse_dirent_size, and the bytes that fuse_add_dirent stores
-- for an entry whose stbuf has nothing but the inode number. They are as many as fuse_dirent_size says.
structure Libfuse where
  FUSE_SET_ATTR_SIZE : BitVec 32
  FUSE_SET_ATTR_ATIME : BitVec 32
  FUSE_SET_ATTR_MTIME : BitVec 32
  direntSize : Nat → Nat
  addDirent : Bytes → Nat → Nat → Bytes
  length_addDirent : ∀ name ino off, (addDirent name ino off).length = direntSize name.length

-- The fields of a struct stat that getattr sets. The others are 0.
structure Stat where
  ino : Nat
  mode : Nat
  nlink : Nat
  atime : Nat
  mtime : Nat
  ctime : Nat
  size : Nat
  deriving DecidableEq

-- fuse_entry_param. The timeouts and the generation are 0.
structure EntryParam where
  ino : Nat
  attr : Stat
  deriving DecidableEq

inductive Errno
  | zero
  | ENOENT
  | EEXIST
  | ENOTDIR
  | ENOTEMPTY
  | ENOSYS
  deriving DecidableEq

inductive Reply
  | attr (st : Stat)
  | entry (e : EntryParam)
  | create (e : EntryParam)
  | buf (data : Bytes)
  | write (count : Nat)
  | opened
  | readlink (link : Bytes)
  | statfs (namemax bsize : Nat)
  | err (errno : Errno)
  deriving DecidableEq

-- What fuse calls the handlers with.
inductive Request
  | getattr (ino : Nat)
  | setattr (ino size : Nat) (toSet : BitVec 32)
  | read (ino size off : Nat)
  | write (ino : Nat) (buf : Bytes) (off : Nat)
  | create (parent : Nat) (name : Bytes)
  | mknod (parent : Nat) (name : Bytes)
  | lookup (parent : Nat) (name : Bytes)
  | readdir (ino size off : Nat)
  | openFile (ino : Nat)
  | mkdir (parent : Nat) (name : Bytes)
  | unlink (parent : Nat) (name : Bytes)
  | symlink (link : Bytes) (parent : Nat) (name : Bytes)
  | readlink (ino : Nat)
  | statfs

end Replies

section Listing

variable (lib : Libfuse)

-- c_str() as the functions of C read it
def cstr (text : Bytes) : Bytes := text.takeWhile (· != 0)

-- The entry carries the size of the buffer that it ends.
def dirbufAdd (b : Bytes) (name : Bytes) (ino : Nat) : Bytes :=
  b ++ lib.addDirent name ino (b.length + lib.direntSize name.length)

def dirbuf (entries : List Dirent) : Bytes := entries.foldl (fun b e => dirbufAdd lib b (cstr e.name) e.inum) []

def replyBufLimited (buf : Bytes) (off maxsize : Nat) : Bytes :=
  if off < buf.length then (buf.drop off).take (min (buf.length - off) maxsize) else []

end Listing

section Handlers

variable {σ : Type} {n : Nat} (lib : Libfuse) (m : Manager σ) (env : Env) (s : System σ n) (c : Fin n)

def fileStat (inum mode : Nat) (info : Yfs.FileInfo) : Stat :=
  { ino := inum, mode := mode, nlink := 1, atime := info.atime, mtime := info.mtime, ctime := info.ctime
    size := info.size }

def dirStat (inum mode : Nat) (info : Yfs.DirInfo) : Stat :=
  { ino := inum, mode := mode, nlink := 2, atime := info.atime, mtime := info.mtime, ctime := info.ctime, size := 0 }

-- What is neither a file nor a directory counts as a link.
def getattr (inum : Nat) : Stat × System σ n :=
  let (file, s) := Yfs.isfile s c inum
  if file then
    let (info, s) := Yfs.getfile s c inum
    (fileStat inum (S_IFREG ||| 0o666) info, s)
  else
    let (dir, s) := Yfs.isdir s c inum
    if dir then
      let (info, s) := Yfs.getdir s c inum
      (dirStat inum (S_IFDIR ||| 0o777) info, s)
    else
      let (info, s) := Yfs.getfile s c inum
      (fileStat inum (S_IFLNK ||| 0o777) info, s)

def fuseserverGetattr (ino : Nat) : Reply × System σ n :=
  let (st, s) := getattr s c ino
  (.attr st, s)

def touches (toSet : BitVec 32) : Prop :=
  lib.FUSE_SET_ATTR_SIZE &&& toSet ≠ 0 ∨ lib.FUSE_SET_ATTR_ATIME &&& toSet ≠ 0 ∨ lib.FUSE_SET_ATTR_MTIME &&& toSet ≠ 0

instance (toSet : BitVec 32) : Decidable (touches lib toSet) := inferInstanceAs (Decidable (_ ∨ _ ∨ _))

def fuseserverSetattr (ino size : Nat) (toSet : BitVec 32) : Option (Reply × System σ n) :=
  if touches lib toSet then
    if toSet &&& lib.FUSE_SET_ATTR_SIZE ≠ 0 then
      (Yfs.perform m env s c (.file ino (.setattr size))).map fun out => fuseserverGetattr out.2 c ino
    else some (fuseserverGetattr s c ino)
  else some (.err .ENOSYS, s)

-- read and write return OK.
def fileReply : Yfs.Result → Reply
  | .data data => .buf data
  | .written count => .write count
  | _ => .err .ENOENT

def fuseserverRead (ino size off : Nat) : Option (Reply × System σ n) :=
  (Yfs.perform m env s c (.file ino (.read size off))).map fun out => (fileReply out.1, out.2)

def fuseserverWrite (ino : Nat) (buf : Bytes) (off : Nat) : Option (Reply × System σ n) :=
  (Yfs.perform m env s c (.file ino (.write off buf))).map fun out => (fileReply out.1, out.2)

-- inum is what the variable holds that the call of the server is to assign.
def createdIno (inum : Nat) : Yfs.Result → Nat
  | .created ino => ino
  | _ => inum

-- The entry of a new inode, or EXIST.
def newEntry (inum : Nat) (out : Yfs.Result × System σ n) : Except Yfs.Status EntryParam × System σ n :=
  if out.1 = .exist then (.error .EXIST, out.2)
  else
    let (st, s) := getattr out.2 c (createdIno inum out.1)
    (.ok ⟨createdIno inum out.1, st⟩, s)

def fuseserverCreatehelper (inum parent : Nat) (name : Bytes) (type : UInt32) :
    Option (Except Yfs.Status EntryParam × System σ n) :=
  if type = T_FILE then (Yfs.perform m env s c (.create parent name)).map (newEntry c inum)
  else (Yfs.perform m env s c (.mkdir parent name)).map (newEntry c inum)

def entryReply (answer : EntryParam → Reply) : Except Yfs.Status EntryParam → Reply
  | .ok e => answer e
  | .error .EXIST => .err .EEXIST
  | .error _ => .err .ENOENT

def fuseserverCreate (inum parent : Nat) (name : Bytes) : Option (Reply × System σ n) :=
  (fuseserverCreatehelper m env s c inum parent name T_FILE).map fun out => (entryReply .create out.1, out.2)

def fuseserverMknod (inum parent : Nat) (name : Bytes) : Option (Reply × System σ n) :=
  (fuseserverCreatehelper m env s c inum parent name T_FILE).map fun out => (entryReply .entry out.1, out.2)

def fuseserverMkdir (inum parent : Nat) (name : Bytes) : Option (Reply × System σ n) :=
  (fuseserverCreatehelper m env s c inum parent name T_DIR).map fun out => (entryReply .entry out.1, out.2)

def fuseserverSymlink (inum : Nat) (link : Bytes) (parent : Nat) (name : Bytes) : Option (Reply × System σ n) :=
  (Yfs.perform m env s c (.symlink parent name link)).map fun out =>
    (entryReply .entry (newEntry c inum out).1, (newEntry c inum out).2)

def lookupReply (out : Yfs.Result × System σ n) : Reply × System σ n :=
  match out.1 with
  | .found (some ino) =>
      let (st, s) := getattr out.2 c ino
      (.entry ⟨ino, st⟩, s)
  | _ => (.err .ENOENT, out.2)

def fuseserverLookup (parent : Nat) (name : Bytes) : Option (Reply × System σ n) :=
  (Yfs.perform m env s c (.lookup parent name)).map (lookupReply c)

def readdirReply (size off : Nat) : Yfs.Result → Reply
  | .list entries => .buf (replyBufLimited (dirbuf lib entries) off size)
  | _ => .buf (replyBufLimited (dirbuf lib []) off size)

def fuseserverReaddir (ino size off : Nat) : Option (Reply × System σ n) :=
  let (dir, s) := Yfs.isdir s c ino
  if dir then (Yfs.perform m env s c (.readdir ino)).map fun out => (readdirReply lib size off out.1, out.2)
  else some (.err .ENOTDIR, s)

def unlinkReply : Yfs.Status → Reply
  | .OK => .err .zero
  | .NOENT => .err .ENOENT
  | _ => .err .ENOTEMPTY

-- none also when the server has ended.
def fuseserverUnlink (inum parent : Nat) (name : Bytes) : Option (Reply × System σ n) :=
  (Yfs.unlink m env s c parent name inum).bind fun out => out.2.map fun s => (unlinkReply out.1, s)

def fuseserverReadlink (ino : Nat) : Reply × System σ n :=
  let (buf, s) := Yfs.readlink s c ino
  (.readlink (cstr buf), s)

-- A request of client c. none: a process has ended.
def serve (inum : Nat) : Request → Option (Reply × System σ n)
  | .getattr ino => some (fuseserverGetattr s c ino)
  | .setattr ino size toSet => fuseserverSetattr lib m env s c ino size toSet
  | .read ino size off => fuseserverRead m env s c ino size off
  | .write ino buf off => fuseserverWrite m env s c ino buf off
  | .create parent name => fuseserverCreate m env s c inum parent name
  | .mknod parent name => fuseserverMknod m env s c inum parent name
  | .lookup parent name => fuseserverLookup m env s c parent name
  | .readdir ino size off => fuseserverReaddir lib m env s c ino size off
  | .openFile _ => some (.opened, s)
  | .mkdir parent name => fuseserverMkdir m env s c inum parent name
  | .unlink parent name => fuseserverUnlink m env s c inum parent name
  | .symlink link parent name => fuseserverSymlink m env s c inum link parent name
  | .readlink ino => some (fuseserverReadlink s c ino)
  | .statfs => some (.statfs 255 512, s)

end Handlers

section Runs

-- A client is started, or gets a request. inum is what the stack holds.
inductive Event (n : Nat)
  | start (env : Env) (c : Fin n)
  | request (env : Env) (c : Fin n) (inum : Nat) (req : Request)

variable {σ : Type} {n : Nat} (lib : Libfuse) (m : Manager σ)

def step (s : System σ n) : Event n → Option (Option Reply × System σ n)
  | .start env c => (Yfs.construct m env s c).map fun s => (none, s)
  | .request env c inum req => (serve lib m env s c inum req).map fun out => (some out.1, out.2)

-- One event after another, with the replies.
def run (s : System σ n) : List (Event n) → Option (List (Option Reply) × System σ n)
  | [] => some ([], s)
  | event :: rest =>
      match step lib m s event with
      | none => none
      | some (reply, s) => (run s rest).map fun out => (reply :: out.1, out.2)

end Runs

end CseLabs.Fuse
