import CseLabs.Connections.Owners

namespace CseLabs.Rpcs

open Connections (Outcome Conn Io)
open PollMgr (MAX_POLL_FDS)

-- The pointers to connections that the server counts with incref and decref.
inductive Owner
  -- ch of process_accept
  | accepting
  -- conns_ of tcpsconn, by descriptor
  | entry (fd : Nat)
  -- conns_ of rpcs, by clt_nonce
  | latest (nonce : Nat)
  -- conn of a job, and then the c of its dispatch
  | job (id : Nat)
  deriving DecidableEq

abbrev Net := Connections.State Owner

structure Timeval where
  sec : Int
  usec : Int

-- connection::compare, on the create_time_ of the two
def compare (one another : Timeval) : Int :=
  if one.sec > another.sec then 1
  else if one.sec < another.sec then -1
  else if one.usec > another.usec then 1
  else if one.usec < another.usec then -1
  else 0

-- What dispatch looks at in a request besides its xids.
structure Header where
  proc : Nat
  cltNonce : Nat
  srvNonce : Nat

inductive Stat
  | NEW
  | INPROGRESS
  | DONE
  | FORGOTTEN

-- Where a job is. A request to an earlier instance of the server is answered, and its dispatch
-- returns without decref.
inductive Phase
  | queued
  | remembering
  | checking
  | running
  | choosing
  | answering (old : Bool)
  | leaving (old : Bool)
  | left
  deriving DecidableEq

structure Job where
  -- the header could be unmarshalled
  ok : Bool
  header : Header
  phase : Phase := .queued

structure State where
  net : Net
  -- create_time_
  created : Nat → Timeval := fun _ => ⟨0, 0⟩
  refs : Owner → Option Nat := fun _ => none
  jobs : Nat → Option Job := fun _ => none
  -- i of process_accept, which goes over the keys of conns_
  cursor : Nat := 0
  -- procs_, where rpcs() registers rpc_const::bind
  procs : Nat → Bool := fun proc => proc == 1

-- No thread has a connection yet.
def initial (pipefd : Nat) (s : State) : Prop := ∃ net, Connections.initial pipefd net ∧ s = { net := net }

-- A call on a connection. To call without a reference, or on a deleted object, is an error.
def perform (net : Net) (event : Connections.Event Owner) (f : Net → Outcome State) : Outcome State :=
  match Connections.step net event with
  | some (.goes next) => f next
  | some .aborts | none => .aborts

-- A look at a connection through a pointer.
def State.look (s : State) (k : Nat) (f : Conn Owner → Outcome State) : Outcome State :=
  match s.net.conns k with
  | some c => if c.freed = true then .aborts else f c
  | none => .aborts

def State.point (s : State) (o : Owner) (k : Option Nat) : State := { s with refs := Function.update s.refs o k }

def State.setJob (s : State) (id : Nat) (job : Option Job) : State :=
  { s with jobs := Function.update s.jobs id job }

def State.turn (s : State) (id : Nat) (job : Job) (phase : Phase) : State :=
  s.setJob id (some { job with phase := phase })

-- A job with its connection.
def State.task (s : State) (id : Nat) : Option (Job × Nat) :=
  match s.jobs id, s.refs (.job id) with
  | some job, some k => some (job, k)
  | _, _ => none

def reg1 (s : State) (proc : Nat) : Outcome State :=
  if s.procs proc = true then .aborts else .goes { s with procs := Function.update s.procs proc true }

-- process_accept to the end of connection()
def accept (s : State) (k fd : Nat) (now : Timeval) : Option (Outcome State) :=
  if (s.refs .accepting).isNone = true ∧ (s.net.conns k).isNone = true ∧ s.net.opened fd = false then
    some (perform s.net (.create .accepting k fd) fun net =>
      .goes ({ s with net := net, created := Function.update s.created k now, cursor := 0 }.point .accepting (some k)))
  else none

def State.pass (s : State) : State := { s with cursor := s.cursor + 1 }

-- One turn of the loop in process_accept. A key is a descriptor that add_callback has accepted, and those that
-- conns_ does not have are passed by.
def collect (s : State) : Option (Outcome State) :=
  if (s.refs .accepting).isSome = true ∧ s.cursor < MAX_POLL_FDS then
    match s.refs (.entry s.cursor) with
    | none => some (.goes s.pass)
    | some k => some (s.look k fun c =>
        if c.dead = true ∧ c.refno = 1 then
          perform s.net (.decref (.entry s.cursor) k) fun net =>
            .goes ({ s with net := net }.point (.entry s.cursor) none).pass
        else .goes s.pass)
  else none

-- The end of process_accept. The entry takes the place of one with the same descriptor.
def enter (s : State) : Option (Outcome State) :=
  if MAX_POLL_FDS ≤ s.cursor then
    (s.refs .accepting).map fun k => s.look k fun c =>
      perform s.net (.pass .accepting (.entry c.fd) k) fun net =>
        .goes (({ s with net := net }.point .accepting none).point (.entry c.fd) (some k))
  else none

-- rpcs::got_pdu in read_cb. The pool has room for the job, or it has not.
def gotPdu (s : State) (id : Nat) (ok : Bool) (header : Header) (room : Bool) : Option (Outcome State) :=
  match s.net.mgr.loop with
  | .calling false _ k _ _ =>
      if (s.jobs id).isNone = true then
        some (s.look k fun c =>
          if c.dead = true ∨ room = false then perform s.net (.readCb .quiet) fun net => .goes { s with net := net }
          else perform s.net (.readCb (.got (.job id))) fun net =>
            .goes (({ s with net := net }.setJob id (some { ok := ok, header := header })).point (.job id) (some k)))
      else none
  | _ => none

section Dispatch

-- nonce_
variable (nonce : Nat)

-- The end of dispatch.
def drop (s : State) (id k : Nat) : Outcome State :=
  perform s.net (.decref (.job id) k) fun net => .goes (({ s with net := net }.setJob id none).point (.job id) none)

-- dispatch to the lookup of the procedure
def begin (s : State) (id : Nat) (job : Job) (k : Nat) : Outcome State :=
  if job.ok = false then drop s id k
  else if job.header.srvNonce ≠ 0 ∧ job.header.srvNonce ≠ nonce then .goes (s.turn id job (.answering true))
  else if s.procs job.header.proc = false then .aborts
  else if job.header.cltNonce ≠ 0 then .goes (s.turn id job .remembering)
  else .goes (s.turn id job .running)

-- dispatch saves the latest good connection to the client.
def save (s : State) (id : Nat) (job : Job) (k : Nat) (net : Net) : Outcome State :=
  perform net (.incref (.job id) (.latest job.header.cltNonce) k) fun net =>
    .goes (({ s with net := net }.turn id job .checking).point (.latest job.header.cltNonce) (some k))

def remember (s : State) (id : Nat) (job : Job) (k : Nat) : Outcome State :=
  match s.refs (.latest job.header.cltNonce) with
  | none => save s id job k s.net
  | some old => s.look old fun _ =>
      if compare (s.created old) (s.created k) < 0 then
        perform s.net (.decref (.latest job.header.cltNonce) old) (save s id job k)
      else .goes (s.turn id job .checking)

-- checkduplicate_and_update has looked at the xids.
def check (s : State) (id : Nat) (job : Job) (stat : Stat) : Outcome State :=
  .goes (s.turn id job (match stat with
    | .NEW => .running
    | .INPROGRESS => .leaving false
    | .DONE | .FORGOTTEN => .answering false))

-- The handler has returned.
def ran (s : State) (id : Nat) (job : Job) (ret : Int) : Outcome State :=
  if ret < 0 then .aborts else .goes (s.turn id job .choosing)

-- dispatch gets the latest connection to the client. Where conns_ has no entry, c is null then.
def switch (s : State) (id : Nat) (job : Job) (net : Net) : Outcome State :=
  match s.refs (.latest job.header.cltNonce) with
  | none => .aborts
  | some heir => perform net (.incref (.latest job.header.cltNonce) (.job id) heir) fun net =>
      .goes (({ s with net := net }.turn id job (.answering false)).point (.job id) (some heir))

def choose (s : State) (id : Nat) (job : Job) (k : Nat) : Outcome State :=
  s.look k fun c =>
    if c.dead = true ∧ s.refs (.latest job.header.cltNonce) ≠ some k then
      perform s.net (.decref (.job id) k) (switch s id job)
    else .goes (s.turn id job (.answering false))

def answer (s : State) (id : Nat) (job : Job) (k : Nat) (old : Bool) (sz : Nat) (io : Io) : Outcome State :=
  perform s.net (.send (.job id) k sz io) fun net => .goes ({ s with net := net }.turn id job (.leaving old))

-- send has returned.
def leave (s : State) (id : Nat) (job : Job) (k : Nat) (old : Bool) : Option (Outcome State) :=
  if s.net.pc (.job id) = .out then some (if old = true then .goes (s.turn id job .left) else drop s id k)
  else none

-- What a thread that dispatches meets with.
inductive Act
  | begin
  | remember
  | check (stat : Stat)
  | ran (ret : Int)
  | choose
  | answer (sz : Nat) (io : Io)
  | leave

def dispatch (s : State) (id : Nat) (act : Act) : Option (Outcome State) :=
  (s.task id).bind fun (job, k) =>
    match job.phase, act with
    | .queued, .begin => some (begin nonce s id job k)
    | .remembering, .remember => some (remember s id job k)
    | .checking, .check stat => some (check s id job stat)
    | .running, .ran ret => some (ran s id job ret)
    | .choosing, .choose => some (choose s id job k)
    | .answering old, .answer sz io => some (answer s id job k old sz io)
    | .leaving old, .leave => leave s id job k old
    | _, _ => none

inductive Event
  | reg1 (proc : Nat)
  | accept (k fd : Nat) (now : Timeval)
  | collect
  | enter
  | gotPdu (id : Nat) (ok : Bool) (header : Header) (room : Bool)
  | dispatch (id : Nat) (act : Act)
  -- a step of the poll thread, or of a thread in send
  | inner (event : Connections.Event Owner)

def step (s : State) : Event → Option (Outcome State)
  | .reg1 proc => some (reg1 s proc)
  | .accept k fd now => accept s k fd now
  | .collect => collect s
  | .enter => enter s
  | .gotPdu id ok header room => gotPdu s id ok header room
  | .dispatch id act => dispatch nonce s id act
  | .inner event =>
      if event.inner = true then
        match Connections.step s.net event with
        | some (.goes net) => some (.goes { s with net := net })
        | some .aborts => some .aborts
        | none => none
      else none

def advance (s : State) (event : Event) : Option State := (step nonce s event).bind Outcome.next

def Step (s : State) (event : Event) (next : State) : Prop := advance nonce s event = some next

-- The waits of block_remove_fd do not end early.
def Patient (s : State) : Event → Prop
  | .inner event => Connections.Patient s.net event
  | _ => True

instance (s : State) : (event : Event) → Decidable (Patient s event)
  | .inner event => inferInstanceAs (Decidable (Connections.Patient s.net event))
  | .reg1 _ | .accept _ _ _ | .collect | .enter | .gotPdu _ _ _ _ | .dispatch _ _ => inferInstanceAs (Decidable True)

end Dispatch

end CseLabs.Rpcs
