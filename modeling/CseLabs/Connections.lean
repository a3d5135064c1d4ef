import CseLabs.PollMgr.Remove

namespace CseLabs.Connections

open PollMgr (Mgr)

-- What write gives.
inductive Io
  | wrote (n : Nat)
  -- EAGAIN
  | again
  | failed

-- A connection object. The bytes of its buffers are left out.
structure Conn (τ : Type*) where
  fd : Nat
  dead : Bool := false
  -- wpdu_, whose buf is set while a thread sends
  buf : Bool := false
  sz : Int := 0
  solong : Int := 0
  waiters : Nat := 0
  refno : Nat := 1
  sendWait : CondVar τ := {}
  sendComplete : CondVar τ := {}
  -- the owners of the references that refno_ counts
  holders : List τ
  -- the object has been deleted
  freed : Bool := false

-- Where a thread is in send or closeconn.
inductive Pc
  | out
  -- at send_wait_
  | queued (k sz : Nat)
  -- it has set dead_ and is about to call block_remove_fd, in send or in closeconn
  | killing (sends : Bool) (k : Nat)
  | removing (sends : Bool) (k : Nat)
  -- in send, before it takes m_ again
  | removed (k : Nat)
  -- at send_complete_
  | completing (k : Nat)
  deriving DecidableEq

-- The connection whose callbacks the thread waits to be removed.
def Pc.removes : Pc → Option Nat
  | .removing _ k => some k
  | .out | .queued _ _ | .killing _ _ | .removed _ | .completing _ => none

structure State (τ : Type*) where
  mgr : Mgr τ Nat
  conns : Nat → Option (Conn τ) := fun _ => none
  -- the descriptors that are open
  opened : Nat → Bool
  pc : τ → Pc := fun _ => .out

-- A VERIFY fails or a deleted object is used, or the program goes on.
inductive Outcome (σ : Type*)
  | aborts
  | goes (next : σ)

def Outcome.next {σ : Type*} : Outcome σ → Option σ
  | .aborts => none
  | .goes next => some next

def Outcome.verify {σ : Type*} : Option σ → Outcome σ
  | none => .aborts
  | some next => .goes next

def Conn.writepdu {τ : Type*} (c : Conn τ) (io : Io) : Option (Bool × Conn τ) :=
  if c.solong < 0 then none
  else if c.solong = c.sz then some (true, c)
  else match io with
    | .wrote n => some (true, { c with solong := c.solong + min (n : Int) (c.sz - c.solong) })
    | .again => some (true, c)
    | .failed => some (false, { c with solong := -1, sz := 0 })

section Model

variable {τ : Type*} [DecidableEq τ]

-- PollMgr() has run. The descriptor of its pipe is open.
def initial (pipefd : Nat) (s : State τ) : Prop :=
  ∃ opened : Nat → Bool, opened pipefd = true ∧ s = { mgr := { aio := .create pipefd }, opened := opened }

def State.put (s : State τ) (t : τ) (p : Pc) (k : Nat) (c : Conn τ) : State τ :=
  { s with conns := Function.update s.conns k (some c), pc := Function.update s.pc t p }

-- A thread comes back to a connection.
def State.use (s : State τ) (k : Nat) (f : Conn τ → Option (Outcome (State τ))) : Option (Outcome (State τ)) :=
  match s.conns k with
  | some c => if c.freed = true then some .aborts else f c
  | none => some .aborts

-- A thread begins to use a connection, to which it has a reference.
def State.enter (s : State τ) (t : τ) (k : Nat) (f : Conn τ → Option (Outcome (State τ))) :
    Option (Outcome (State τ)) :=
  match s.conns k with
  | some c => if s.pc t = .out ∧ t ∈ c.holders then s.use k f else none
  | none => none

-- connection() with a descriptor that connect or accept has given
def create (s : State τ) (t : τ) (k fd : Nat) : Option (Outcome (State τ)) :=
  if s.pc t = .out ∧ (s.conns k).isNone = true ∧ s.opened fd = false then
    some (.verify ((PollMgr.addCallback s.mgr fd .rdonly k).map fun mgr =>
      { s with mgr := mgr
               conns := Function.update s.conns k (some { fd := fd, holders := [t] })
               opened := Function.update s.opened fd true }))
  else none

-- The new reference is for a thread or for a table.
def incref (s : State τ) (t heir : τ) (k : Nat) : Option (Outcome (State τ)) :=
  s.enter t k fun c => some (.goes (s.put t .out k { c with refno := c.refno + 1, holders := heir :: c.holders }))

-- A reference changes hands, as with a job of the dispatch pool.
def pass (s : State τ) (t heir : τ) (k : Nat) : Option (Outcome (State τ)) :=
  s.enter t k fun c => some (.goes (s.put t .out k { c with holders := heir :: c.holders.erase t }))

def Conn.dropped (c : Conn τ) (t : τ) : Conn τ := { c with refno := c.refno - 1, holders := c.holders.erase t }

def decref (s : State τ) (t : τ) (k : Nat) : Option (Outcome (State τ)) :=
  s.enter t k fun c =>
    if c.refno = 0 then some .aborts
    else if c.refno - 1 = 0 ∧ c.dead = true then
      -- ~connection
      if c.buf = true then some .aborts
      else some (.goes { s.put t .out k { c.dropped t with freed := true } with
        opened := Function.update s.opened c.fd false })
    else some (.goes (s.put t .out k (c.dropped t)))

-- The end of send.
def finish (s : State τ) (t : τ) (k : Nat) (c : Conn τ) : State τ :=
  s.put t .out k { c with
    sz := 0, solong := 0, buf := false
    sendWait := if 0 < c.waiters then c.sendWait.broadcast else c.sendWait }

-- send after its first loop
def proceed (s : State τ) (t : τ) (k sz : Nat) (io : Io) (c : Conn τ) : Outcome (State τ) :=
  if c.dead = true then .goes (s.put t .out k c)
  else match { c with buf := true, sz := sz, solong := 0 }.writepdu io with
    | none => .aborts
    | some (false, c) => .goes (s.put t (.killing true k) k { c with dead := true })
    | some (true, c) =>
        if c.solong = c.sz then .goes (finish s t k c)
        else .verify ((PollMgr.addCallback s.mgr c.fd .wronly k).map fun mgr =>
          { s.put t (.completing k) k { c with sendComplete := c.sendComplete.wait t } with mgr := mgr })

def send (s : State τ) (t : τ) (k sz : Nat) (io : Io) : Option (Outcome (State τ)) :=
  s.enter t k fun c =>
    if c.dead = false ∧ c.buf = true then
      some (.goes (s.put t (.queued k sz) k { c with waiters := c.waiters + 1, sendWait := c.sendWait.wait t }))
    else some (proceed s t k sz io c)

-- The wait for send_wait_ is over.
def sendAgain (s : State τ) (t : τ) (io : Io) : Option (Outcome (State τ)) :=
  match s.pc t with
  | .queued k sz => s.use k fun c => (c.sendWait.back t).map fun w =>
      if c.dead = false ∧ c.buf = true then .goes (s.put t (.queued k sz) k { c with sendWait := w.wait t })
      else proceed s t k sz io { c with sendWait := w, waiters := c.waiters - 1 }
  | _ => none

-- The wait for send_complete_ is over.
def sendCompleted (s : State τ) (t : τ) : Option (Outcome (State τ)) :=
  match s.pc t with
  | .completing k => s.use k fun c => (c.sendComplete.back t).map fun w =>
      if c.dead = false ∧ 0 ≤ c.solong ∧ c.solong < c.sz then
        .goes (s.put t (.completing k) k { c with sendComplete := w.wait t })
      else .goes (finish s t k { c with sendComplete := w })
  | _ => none

def closeconn (s : State τ) (t : τ) (k : Nat) : Option (Outcome (State τ)) :=
  s.enter t k fun c =>
    some (.goes (if c.dead = true then s else s.put t (.killing false k) k { c with dead := true }))

-- The thread that has set dead_ calls block_remove_fd.
def remove (s : State τ) (t : τ) : Option (Outcome (State τ)) :=
  match s.pc t with
  | .killing sends k => s.use k fun c => some (.verify ((PollMgr.blockRemoveFd s.mgr t c.fd).map fun mgr =>
      { s with mgr := mgr, pc := Function.update s.pc t (.removing sends k) }))
  | _ => none

def removeReturns (s : State τ) (t : τ) (early : Bool) : Option (Outcome (State τ)) :=
  match s.pc t with
  | .removing sends k => s.use k fun c =>
      (if early = true then PollMgr.removeEarly s.mgr t c.fd else PollMgr.removeDone s.mgr t c.fd).map fun mgr =>
        .goes { s with mgr := mgr, pc := Function.update s.pc t (if sends = true then .removed k else .out) }
  | _ => none

def sendRemoved (s : State τ) (t : τ) : Option (Outcome (State τ)) :=
  match s.pc t with
  | .removed k => s.use k fun c => some (.goes (finish s t k c))
  | _ => none

-- The steps of the poll thread outside of callbacks.
inductive Move
  | top
  | snapshot
  | select (canRead canWrite : PollMgr.FdSet)
  | interrupted
  | scan

def Move.event : Move → PollMgr.Event τ Nat
  | top => .top
  | snapshot => .snapshot
  | select canRead canWrite => .select canRead canWrite
  | interrupted => .interrupted
  | scan => .scan

def poll (s : State τ) (move : Move) : Option (Outcome (State τ)) :=
  (PollMgr.step s.mgr move.event).map fun mgr => .goes { s with mgr := mgr }

-- What readpdu and got_pdu give: got_pdu may take a reference for a job.
inductive Read (τ : Type*)
  | quiet
  | got (heir : τ)
  | failed (pick : Option τ)
  -- a VERIFY of readpdu fails: EAGAIN for the length, or malloc gives no buffer of the length that has come
  | stopped

-- A callback of the connection is over.
def State.returned (s : State τ) (k : Nat) (c : Conn τ) (mgr : Mgr τ Nat) (readable writable : List Nat) : State τ :=
  { s with conns := Function.update s.conns k (some c)
           mgr := { mgr with loop := .scanning readable writable } }

def readCb (s : State τ) (read : Read τ) : Option (Outcome (State τ)) :=
  match s.mgr.loop with
  | .calling false fd k readable writable => s.use k fun c =>
      if c.fd ≠ fd then some .aborts
      else if c.dead = true then some (.goes (s.returned k c s.mgr readable writable))
      else match read with
        | .quiet => some (.goes (s.returned k c s.mgr readable writable))
        | .got heir => some (.goes (s.returned k { c with refno := c.refno + 1, holders := heir :: c.holders }
            s.mgr readable writable))
        | .failed pick => (c.sendComplete.signal pick).map fun w =>
            .verify ((PollMgr.delCallback s.mgr fd .rdwr).map fun mgr =>
              s.returned k { c with dead := true, sendComplete := w } mgr readable writable)
        | .stopped => some .aborts
  | _ => none

def writeCb (s : State τ) (io : Io) (pick : Option τ) : Option (Outcome (State τ)) :=
  match s.mgr.loop with
  | .calling true fd k readable writable => s.use k fun c =>
      if c.dead = true ∨ c.fd ≠ fd then some .aborts
      else if c.sz = 0 then
        some (.verify ((PollMgr.delCallback s.mgr fd .wronly).map fun mgr => s.returned k c mgr readable writable))
      else match c.writepdu io with
        | none => some .aborts
        | some (false, c) => (c.sendComplete.signal pick).map fun w =>
            .verify ((PollMgr.delCallback s.mgr fd .rdwr).map fun mgr =>
              s.returned k { c with dead := true, sendComplete := w } mgr readable writable)
        | some (true, c) =>
            if c.solong < 0 then some .aborts
            else if c.solong < c.sz then some (.goes (s.returned k c s.mgr readable writable))
            else (c.sendComplete.signal pick).map fun w =>
              .goes (s.returned k { c with sendComplete := w } s.mgr readable writable)
  | _ => none

inductive Event (τ : Type*)
  | create (t : τ) (k fd : Nat)
  | incref (t heir : τ) (k : Nat)
  | pass (t heir : τ) (k : Nat)
  | decref (t : τ) (k : Nat)
  | send (t : τ) (k sz : Nat) (io : Io)
  | sendAgain (t : τ) (io : Io)
  | sendCompleted (t : τ)
  | closeconn (t : τ) (k : Nat)
  | remove (t : τ)
  | removeReturns (t : τ) (early : Bool)
  | sendRemoved (t : τ)
  | poll (move : Move)
  | readCb (read : Read τ)
  | writeCb (io : Io) (pick : Option τ)

def step (s : State τ) : Event τ → Option (Outcome (State τ))
  | .create t k fd => create s t k fd
  | .incref t heir k => incref s t heir k
  | .pass t heir k => pass s t heir k
  | .decref t k => decref s t k
  | .send t k sz io => send s t k sz io
  | .sendAgain t io => sendAgain s t io
  | .sendCompleted t => sendCompleted s t
  | .closeconn t k => closeconn s t k
  | .remove t => remove s t
  | .removeReturns t early => removeReturns s t early
  | .sendRemoved t => sendRemoved s t
  | .poll move => poll s move
  | .readCb read => readCb s read
  | .writeCb io pick => writeCb s io pick

def advance (s : State τ) (event : Event τ) : Option (State τ) := (step s event).bind Outcome.next

def Step (s : State τ) (event : Event τ) (next : State τ) : Prop := advance s event = some next

def aborts (s : State τ) (event : Event τ) : Bool :=
  match step s event with
  | some .aborts => true
  | _ => false

-- The wait in block_remove_fd ends without a broadcast only while the poll thread has nothing to do with
-- the descriptor.
def Patient (s : State τ) : Event τ → Prop
  | .removeReturns t true => ∀ c ∈ (s.pc t).removes.bind s.conns, ¬ s.mgr.loop.Involves c.fd
  | _ => True

instance (s : State τ) : (event : Event τ) → Decidable (Patient s event)
  | .removeReturns t true =>
      inferInstanceAs (Decidable (∀ c ∈ (s.pc t).removes.bind s.conns, ¬ s.mgr.loop.Involves c.fd))
  | .removeReturns _ false | .create _ _ _ | .incref _ _ _ | .pass _ _ _ | .decref _ _ | .send _ _ _ _
  | .sendAgain _ _ | .sendCompleted _ | .closeconn _ _ | .remove _ | .sendRemoved _ | .poll _ | .readCb _
  | .writeCb _ _ => inferInstanceAs (Decidable True)

theorem step_of_aborts {s : State τ} {event : Event τ} (h : aborts s event = true) : step s event = some .aborts := by
  unfold aborts at h
  split at h
  · assumption
  · cases h

theorem step_of_Step {s next : State τ} {event : Event τ} (h : Step s event next) :
    step s event = some (.goes next) := by
  obtain ⟨r, hr, hnext⟩ := Option.bind_eq_some_iff.mp h
  cases r with
  | aborts => cases hnext
  | goes after =>
      cases hnext
      exact hr

theorem Step_of_step {s next : State τ} {event : Event τ} (h : step s event = some (.goes next)) :
    Step s event next := by
  rw [Step, advance, h]
  rfl

end Model

end CseLabs.Connections
