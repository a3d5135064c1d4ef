import CseLabs.Run
import CseLabs.Ydb

namespace CseLabs.TwoPhase

open Ydb

-- REMOVESTRING is "to->Remove".
def REMOVESTRING : Str := [116, 111, 45, 62, 82, 101, 109, 111, 118, 101]

def hash2pl (key : Str) : Slot := hash key

structure Transaction where
  locks : Finset Slot := ∅
  log : Slot → Option Str := fun _ => none

-- The locks in the ascending order in which the std::set is walked.
def Transaction.lockList (trans : Transaction) : List Slot :=
  (List.finRange HASHSIZE).filter (· ∈ trans.locks)

-- The calls that lock a slot.
inductive Op
  | get (key : Str)
  | set (key value : Str)
  | del (key : Str)
  deriving DecidableEq

def Op.call : Op → Call
  | .get key => .get key
  | .set key value => .set key value
  | .del key => .del key

def Op.ino : Op → Slot
  | .get key | .set key _ | .del key => hash2pl key

-- Where the handler thread of a transaction's current call is.
inductive Pc
  | idle
  -- before lc->acquire(DEPENDENCY) of checkCycle
  | checking (op : Op)
  -- in lc->acquire(ino)
  | acquiring (op : Op)
  -- lc->acquire(ino) has returned
  | granted (op : Op)
  -- before lc->acquire(DEPENDENCY) of release_locks, in an abort or a refused call
  | aborting (call : Call)
  -- in the loop of release_locks
  | releasing (call : Call) (rest : List Slot)
  -- before lc->acquire(DEPENDENCY) of transaction_commit
  | preparing
  -- in the loop of transaction_commit
  | committing (rest : List (Slot × Str))
  deriving DecidableEq

structure State where
  transId : Tid := 0
  -- dependency[x][y]: x waits for y
  dependency : Tid → Tid → Bool := fun _ _ => false
  transactionInfos : Tid → Option Transaction := fun _ => none
  lockHandlers : Slot → Option Tid := fun _ => none
  -- the extent store
  ec : Slot → Str
  -- who holds the lock of a slot, and the lock DEPENDENCY
  lc : Slot → Option Tid := fun _ => none
  lcDependency : Option Tid := none
  pc : Tid → Pc := fun _ => .idle
  -- all answers so far
  replies : List Reply := []

namespace State

def setPc (s : State) (id : Tid) (pc : Pc) : State :=
  { s with pc := Function.update s.pc id pc }

def reply (s : State) (id : Tid) (call : Call) (status : Status) (value : Str) : State :=
  { s with pc := Function.update s.pc id .idle
           replies := s.replies ++ [{ id := id, call := call, status := status, value := value }] }

def setInfo (s : State) (id : Tid) (info : Option Transaction) : State :=
  { s with transactionInfos := Function.update s.transactionInfos id info }

-- The dependencies on a transaction and of it go away.
def clearDependency (s : State) (id : Tid) : State :=
  { s with dependency := fun x y =>
      if x = id ∧ y < s.transId ∨ y = id ∧ x < s.transId then false else s.dependency x y }

-- lock_handlers.erase(ino); lc->release(ino)
def unlock (s : State) (ino : Slot) : State :=
  { s with lockHandlers := Function.update s.lockHandlers ino none
           lc := Function.update s.lc ino none }

end State

-- The search has no visited set. It does not end on a cycle that it cannot leave,
-- and `none` says that the fuel was not enough.
def dfs (dependency : Tid → Tid → Bool) (transId : Tid) : Nat → Tid → Tid → Option Bool
  | 0, _, _ => none
  | fuel + 1, id1, id2 =>
      if id1 = id2 then some true
      else (List.range transId).anyM fun i =>
        if dependency id1 i ∧ i ≠ id1 then dfs dependency transId fuel i id2 else some false

-- checkCycle with its answer. It runs under DEPENDENCY.
def checkCycle (s : State) (id : Tid) (ino : Slot) : Option (Bool × State) :=
  match s.lockHandlers ino with
  | none => some (false, s)
  | some id2 =>
      if id2 < s.transId then do
        if ← dfs s.dependency s.transId (s.transId + 1) id2 id then
          some (true, s)
        else
          some (false, { s with
            dependency := Function.update s.dependency id (Function.update (s.dependency id) id2 true) })
      else none

inductive Event
  | begin
  | call (id : Tid) (call : Call)
  | checkCycle (id : Tid)
  | acquire (id : Tid)
  | record (id : Tid)
  | releaseStart (id : Tid)
  | releaseEntry (id : Tid)
  | releaseEnd (id : Tid)
  | commitStart (id : Tid)
  | commitEntry (id : Tid)
  | commitEnd (id : Tid)
  deriving DecidableEq

def transactionBegin (s : State) : Option State :=
  if s.transId + 1 < 2 ^ 31 then
    some { s.setInfo s.transId (some {}) with transId := s.transId + 1 }
  else none

-- get, set and del of a slot that the transaction has locked before. The slot is
-- in the log, or an assert fails.
def locked (s : State) (id : Tid) (info : Transaction) (op : Op) : Option State := do
  let old ← info.log op.ino
  match op with
  | .get _ => some (s.reply id op.call .OK old)
  | .set _ value =>
      let log := Function.update info.log op.ino (some value)
      some ((s.setInfo id (some { info with log := log })).reply id op.call .OK [])
  | .del _ =>
      let log := Function.update info.log op.ino (some REMOVESTRING)
      some ((s.setInfo id (some { info with log := log })).reply id op.call .OK [])

def access (s : State) (id : Tid) (info : Transaction) (op : Op) : Option State :=
  if op.ino ∈ info.locks then locked s id info op else some (s.setPc id (.checking op))

-- A call arrives. A transaction makes one call at a time.
def receive (s : State) (id : Tid) (call : Call) : Option State :=
  if s.pc id ≠ .idle then none
  else
    match s.transactionInfos id with
    | none => some (s.reply id call .TRANSIDINV [])
    | some info =>
        match call with
        | .get key => access s id info (.get key)
        | .set key value => access s id info (.set key value)
        | .del key => access s id info (.del key)
        | .commit => some (s.setPc id .preparing)
        | .abort => some (s.setPc id (.aborting .abort))

def runCheckCycle (s : State) (id : Tid) : Option State :=
  match s.pc id with
  | .checking op =>
      if s.lcDependency = none then do
        let (cycle, s) ← checkCycle s id op.ino
        some (s.setPc id (if cycle then .aborting op.call else .acquiring op))
      else none
  | _ => none

-- lc->acquire(ino) returns to one of those that wait in it.
def acquire (s : State) (id : Tid) : Option State :=
  match s.pc id with
  | .acquiring op =>
      if s.lc op.ino = none then
        some ({ s with lc := Function.update s.lc op.ino (some id) }.setPc id (.granted op))
      else none
  | _ => none

-- What follows lc->acquire(ino) in get, set and del.
def record (s : State) (id : Tid) : Option State :=
  match s.pc id with
  | .granted op => do
      let info ← s.transactionInfos id
      let value := match op with
        | .get _ => s.ec op.ino
        | .set _ value => value
        | .del _ => REMOVESTRING
      let out := match op with
        | .get _ => value
        | _ => []
      let info := { info with
        locks := insert op.ino info.locks
        log := Function.update info.log op.ino (some value) }
      let s := { s with lockHandlers := Function.update s.lockHandlers op.ino (some id) }
      some ((s.setInfo id (some info)).reply id op.call .OK out)
  | _ => none

-- release_locks up to its second loop, which the next function runs.
def releaseStart (s : State) (id : Tid) : Option State :=
  match s.pc id with
  | .aborting call => do
      let info ← s.transactionInfos id
      if s.lcDependency = none then
        some ({ s.clearDependency id with lcDependency := some id }.setPc id (.releasing call info.lockList))
      else none
  | _ => none

def releaseEntry (s : State) (id : Tid) : Option State :=
  match s.pc id with
  | .releasing call (ino :: rest) => some ((s.unlock ino).setPc id (.releasing call rest))
  | _ => none

def releaseEnd (s : State) (id : Tid) : Option State :=
  match s.pc id with
  | .releasing call [] =>
      let status := if call = .abort then Status.OK else .ABORT
      some (({ s with lcDependency := none }.setInfo id none).reply id call status [])
  | _ => none

def commitStart (s : State) (id : Tid) : Option State :=
  match s.pc id with
  | .preparing => do
      let info ← s.transactionInfos id
      if s.lcDependency = none then
        some ({ s with lcDependency := some id }.setPc id (.committing (entries info.log)))
      else none
  | _ => none

-- A removed slot reads as the empty string.
def commitEntry (s : State) (id : Tid) : Option State :=
  match s.pc id with
  | .committing ((ino, value) :: rest) =>
      let written := if value = REMOVESTRING then [] else value
      some (({ s with ec := Function.update s.ec ino written }.unlock ino).setPc id (.committing rest))
  | _ => none

def commitEnd (s : State) (id : Tid) : Option State :=
  match s.pc id with
  | .committing [] =>
      some (({ s.clearDependency id with lcDependency := none }.setInfo id none).reply id .commit .OK [])
  | _ => none

def step (s : State) : Event → Option State
  | .begin => transactionBegin s
  | .call id call => receive s id call
  | .checkCycle id => runCheckCycle s id
  | .acquire id => acquire s id
  | .record id => record s id
  | .releaseStart id => releaseStart s id
  | .releaseEntry id => releaseEntry s id
  | .releaseEnd id => releaseEnd s id
  | .commitStart id => commitStart s id
  | .commitEntry id => commitEntry s id
  | .commitEnd id => commitEnd s id

def Step (s : State) (event : Event) (next : State) : Prop := step s event = some next

-- The server after its constructor, over a given store.
def start (ec : Slot → Str) : State := { ec := ec }

-- Fewer than INODE_NUM transactions are begun in all.
def Bounded (s : State) (event : Event) : Prop := event = .begin → s.transId + 1 < INODE_NUM

instance (s : State) (event : Event) : Decidable (Bounded s event) :=
  inferInstanceAs (Decidable (event = .begin → s.transId + 1 < INODE_NUM))

end CseLabs.TwoPhase
