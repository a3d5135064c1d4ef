import CseLabs.Serial

namespace CseLabs.Ydb

-- std::string
abbrev Str := List UInt8

-- ydb_protocol::transaction_id. A run that overflows the int is undefined.
abbrev Tid := Nat

def INODE_NUM : Nat := 1024
def HASHSIZE : Nat := INODE_NUM

-- The inum that hash_2pl and hash_occ give a key.
abbrev Slot := Fin HASHSIZE

-- ydb_protocol::xxstatus
inductive Status
  | OK
  | RPCERR
  | ABORT
  | TRANSIDINV
  deriving DecidableEq

-- The length of the key is taken as a uint32_t, and a char is signed.
def hash (key : Str) : Slot :=
  let size := key.length % 2 ^ 32
  let h : UInt64 := (key.take size).foldl (fun h c => c.toInt8.toInt64.toUInt64 + h * 31) 0
  Fin.ofNat 1024 h.toNat

-- A std::map from slots to values, in the ascending order in which it is walked.
def entries (log : Slot → Option Str) : List (Slot × Str) :=
  (List.finRange HASHSIZE).filterMap fun ino => (log ino).map fun value => (ino, value)

-- The calls that a client makes in a transaction.
inductive Call
  | get (key : Str)
  | set (key value : Str)
  | del (key : Str)
  | commit
  | abort
  deriving DecidableEq

-- What the client gets back.
structure Reply where
  id : Tid
  call : Call
  status : Status
  value : Str := []
  deriving DecidableEq

-- What a successful call did to the store, where del stores `deleted`.
def Reply.access (deleted : Str) (reply : Reply) : Option (Serial.Access Slot Str) :=
  if reply.status = .OK then
    match reply.call with
    | .get key => some (.read (hash key) reply.value)
    | .set key value => some (.write (hash key) value)
    | .del key => some (.write (hash key) deleted)
    | .commit | .abort => none
  else none

def accesses (deleted : Str) (replies : List Reply) (id : Tid) : List (Serial.Access Slot Str) :=
  (replies.filter (·.id = id)).filterMap (Reply.access deleted)

-- The transactions whose commit has returned OK, in that order.
def commits (replies : List Reply) : List Tid :=
  (replies.filter fun reply => reply.call = .commit ∧ reply.status = .OK).map Reply.id

theorem accesses_append (deleted : Str) (replies : List Reply) (reply : Reply) (id : Tid) :
    accesses deleted (replies ++ [reply]) id =
      accesses deleted replies id ++ if reply.id = id then (reply.access deleted).toList else [] := by
  unfold accesses
  by_cases h : reply.id = id
  · cases ha : reply.access deleted <;> simp [h, ha]
  · simp [h]

theorem commits_append (replies : List Reply) (reply : Reply) :
    commits (replies ++ [reply]) =
      commits replies ++ if reply.call = .commit ∧ reply.status = .OK then [reply.id] else [] := by
  unfold commits
  by_cases h : reply.call = .commit ∧ reply.status = .OK
  · simp [h]
  · simp only [List.filter_append, List.map_append, h, if_false]
    simp [h]

end CseLabs.Ydb
