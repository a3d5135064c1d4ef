import CseLabs.Run
import CseLabs.Ydb

namespace CseLabs.Occ

open Ydb

def hashOcc (key : Str) : Slot := hash key

-- Transaction_occ
structure Transaction where
  readLog : Slot → Option Str := fun _ => none
  writeLog : Slot → Option Str := fun _ => none

-- Where the handler thread of a transaction's current call is. Only commit takes more
-- than one step.
inductive Pc
  | idle
  -- before lc->acquire(WRITESET)
  | preparing
  -- in the loop over read_log
  | validating (rest : List (Slot × Str))
  -- in the loop over write_log
  | writing (rest : List (Slot × Str))
  deriving DecidableEq

structure State where
  transId : Tid := 0
  transactionInfos : Tid → Option Transaction := fun _ => none
  -- the extent store
  ec : Slot → Str
  -- who holds the lock WRITESET
  lcWriteset : Option Tid := none
  pc : Tid → Pc := fun _ => .idle
  -- all answers so far
  replies : List Reply := []

namespace State

def setPc (s : State) (id : Tid) (pc : Pc) : State :=
  { s with pc := Function.update s.pc id pc }

def setInfo (s : State) (id : Tid) (info : Option Transaction) : State :=
  { s with transactionInfos := Function.update s.transactionInfos id info }

def reply (s : State) (id : Tid) (call : Call) (status : Status) (value : Str) : State :=
  { s with pc := Function.update s.pc id .idle
           replies := s.replies ++ [{ id := id, call := call, status := status, value := value }] }

end State

inductive Event
  | begin
  | call (id : Tid) (call : Call)
  | commitStart (id : Tid)
  | validate (id : Tid)
  | put (id : Tid)
  deriving DecidableEq

def transactionBegin (s : State) : Option State :=
  if s.transId + 1 < 2 ^ 31 then
    some { s.setInfo s.transId (some {}) with transId := s.transId + 1 }
  else none

def get (s : State) (id : Tid) (info : Transaction) (key : Str) : State :=
  let ino := hashOcc key
  match info.writeLog ino with
  | some value => s.reply id (.get key) .OK value
  | none =>
      match info.readLog ino with
      | some old =>
          if s.ec ino = old then s.reply id (.get key) .OK (s.ec ino)
          else (s.setInfo id none).reply id (.get key) .ABORT (s.ec ino)
      | none =>
          let info := { info with readLog := Function.update info.readLog ino (some (s.ec ino)) }
          (s.setInfo id (some info)).reply id (.get key) .OK (s.ec ino)

def set (s : State) (id : Tid) (info : Transaction) (key value : Str) : State :=
  let info := { info with writeLog := Function.update info.writeLog (hashOcc key) (some value) }
  (s.setInfo id (some info)).reply id (.set key value) .OK []

def del (s : State) (id : Tid) (info : Transaction) (key : Str) : State :=
  let info := { info with writeLog := Function.update info.writeLog (hashOcc key) (some []) }
  (s.setInfo id (some info)).reply id (.del key) .OK []

-- A call arrives. A transaction makes one call at a time.
def receive (s : State) (id : Tid) (call : Call) : Option State :=
  if s.pc id ≠ .idle then none
  else
    match s.transactionInfos id with
    | none => some (s.reply id call .TRANSIDINV [])
    | some info =>
        match call with
        | .get key => some (get s id info key)
        | .set key value => some (set s id info key value)
        | .del key => some (del s id info key)
        | .commit => some (s.setPc id .preparing)
        | .abort => some ((s.setInfo id none).reply id .abort .OK [])

def commitStart (s : State) (id : Tid) : Option State :=
  match s.pc id with
  | .preparing => do
      let info ← s.transactionInfos id
      if s.lcWriteset = none then
        some ({ s with lcWriteset := some id }.setPc id (.validating (entries info.readLog)))
      else none
  | _ => none

-- One turn of the loop over read_log, or its end.
def validate (s : State) (id : Tid) : Option State :=
  match s.pc id with
  | .validating ((ino, value) :: rest) =>
      if s.ec ino = value then some (s.setPc id (.validating rest))
      else some (({ s with lcWriteset := none }.setInfo id none).reply id .commit .ABORT [])
  | .validating [] => do
      let info ← s.transactionInfos id
      some (s.setPc id (.writing (entries info.writeLog)))
  | _ => none

-- One turn of the loop over write_log, or its end.
def put (s : State) (id : Tid) : Option State :=
  match s.pc id with
  | .writing ((ino, value) :: rest) =>
      some ({ s with ec := Function.update s.ec ino value }.setPc id (.writing rest))
  | .writing [] => some (({ s with lcWriteset := none }.setInfo id none).reply id .commit .OK [])
  | _ => none

def step (s : State) : Event → Option State
  | .begin => transactionBegin s
  | .call id call => receive s id call
  | .commitStart id => commitStart s id
  | .validate id => validate s id
  | .put id => put s id

def Step (s : State) (event : Event) (next : State) : Prop := step s event = some next

-- The server after its constructor, over a given store.
def start (ec : Slot → Str) : State := { ec := ec }

end CseLabs.Occ
