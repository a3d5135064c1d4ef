import CseLabs.CondVar
import CseLabs.Run

namespace CseLabs.PollMgr

def MAX_POLL_FDS : Nat := 128

-- poll_flag
inductive Flag
  | none
  | rdonly
  | wronly
  | rdwr
  deriving DecidableEq

namespace Flag

def bits : Flag → BitVec 32
  | none => 0x0#32
  | rdonly => 0x1#32
  | wronly => 0x10#32
  | rdwr => 0x11#32

end Flag

def CB_MASK : BitVec 32 := ~~~0x11#32

def FD_SETSIZE : Nat := 1024

-- fd_set: FD_SET, FD_CLR and FD_ISSET of a descriptor of FD_SETSIZE or more go outside of it.
abbrev FdSet := Nat → Bool

-- Only the reading end of the pipe is watched. A byte in it ends a select.
structure SelectAio where
  rfds : FdSet
  wfds : FdSet
  highfds : Nat
  pipefd : Nat
  pipe : Nat

namespace SelectAio

-- SelectAIO()
def create (pipefd : Nat) : SelectAio :=
  { rfds := Function.update (fun _ => false) pipefd true, wfds := fun _ => false, highfds := pipefd,
    pipefd := pipefd, pipe := 0 }

-- watch_fd of a descriptor that the sets can hold
def watch (s : SelectAio) (fd : Nat) (flag : Flag) : SelectAio :=
  { s with highfds := if s.highfds ≤ fd then fd else s.highfds
           rfds := if flag = .wronly then s.rfds else Function.update s.rfds fd true
           wfds := if flag = .rdonly then s.wfds else Function.update s.wfds fd true
           pipe := s.pipe + 1 }

def watchFd (s : SelectAio) (fd : Nat) (flag : Flag) : Option SelectAio :=
  if fd < FD_SETSIZE then some (s.watch fd flag) else none

def isWatched (s : SelectAio) (fd : Nat) (flag : Flag) : Option Bool :=
  if fd < FD_SETSIZE then
    match flag with
    | .rdonly => some (s.rfds fd)
    | .wronly => some (s.wfds fd)
    | .none | .rdwr => some (s.rfds fd && s.wfds fd)
  else none

-- The loop of unwatch_fd that looks for the new highest descriptor.
def newHigh (rfds wfds : FdSet) (pipefd high : Nat) : Nat :=
  (List.range (high + 1)).foldl (fun newh i => if rfds i then i else if wfds i then i else newh) pipefd

-- The descriptor is not watched any more.
def dropped (s : SelectAio) (fd : Nat) : Bool := !s.rfds fd && !s.wfds fd

def lower (s : SelectAio) (fd : Nat) : SelectAio :=
  if s.dropped fd = true ∧ fd = s.highfds then
    { s with highfds := newHigh s.rfds s.wfds s.pipefd s.highfds }
  else s

-- unwatch_fd of a descriptor that the sets can hold
def unwatch (s : SelectAio) (fd : Nat) : Flag → Option (Bool × SelectAio)
  | .rdonly =>
      let next := { s with rfds := Function.update s.rfds fd false }.lower fd
      some (next.dropped fd, next)
  | .wronly =>
      let next := { s with wfds := Function.update s.wfds fd false }.lower fd
      some (next.dropped fd, next)
  | .rdwr =>
      let next := { s with rfds := Function.update s.rfds fd false
                           wfds := Function.update s.wfds fd false }.lower fd
      some (next.dropped fd, { next with pipe := next.pipe + 1 })
  -- VERIFY(0)
  | .none => none

def unwatchFd (s : SelectAio) (fd : Nat) (flag : Flag) : Option (Bool × SelectAio) :=
  if fd < FD_SETSIZE then s.unwatch fd flag else none

end SelectAio

-- What wait_ready copies under its mutex.
structure Snapshot where
  rfds : FdSet
  wfds : FdSet
  high : Nat

def SelectAio.snapshot (s : SelectAio) : Snapshot := ⟨s.rfds, s.wfds, s.highfds⟩

namespace Snapshot

-- What select leaves in the sets when these descriptors are ready.
def select (t : Snapshot) (canRead canWrite : FdSet) : Snapshot :=
  { t with rfds := fun fd => t.rfds fd && canRead fd, wfds := fun fd => t.wfds fd && canWrite fd }

-- select returns when something is ready.
def some? (t : Snapshot) : Bool := (List.range (t.high + 1)).any fun fd => t.rfds fd || t.wfds fd

def readable (t : Snapshot) (pipefd : Nat) : List Nat :=
  (List.range (t.high + 1)).filter fun fd => t.rfds fd && fd != pipefd

def writable (t : Snapshot) (pipefd : Nat) : List Nat :=
  (List.range (t.high + 1)).filter fun fd => t.wfds fd && !(fd == pipefd && t.rfds fd)

end Snapshot

-- select with these descriptors ready, the pipe being so when it holds a byte.
def SelectAio.ready (s : SelectAio) (t : Snapshot) (canRead canWrite : FdSet) : Snapshot :=
  t.select (Function.update canRead s.pipefd (decide (0 < s.pipe))) canWrite

-- wait_ready after its copy: the lists it fills, and the pipe with one byte less if it was readable.
def SelectAio.collect (s : SelectAio) (t : Snapshot) : List Nat × List Nat × SelectAio :=
  (t.readable s.pipefd, t.writable s.pipefd,
    if s.pipefd ≤ t.high ∧ t.rfds s.pipefd = true then { s with pipe := s.pipe - 1 } else s)

-- The descriptors that epoll_wait watches, with EPOLLIN and EPOLLOUT.
structure EPollAio where
  fdstatus : Nat → BitVec 32
  interest : Nat → Option (Bool × Bool)

namespace EPollAio

-- EPollAIO()
def create : EPollAio := { fdstatus := fun _ => 0, interest := fun _ => none }

inductive Ctl
  | add
  | mod
  | del
  deriving DecidableEq

-- epoll_ctl, which fails for a descriptor that is not open (EBADF) or cannot be polled (EPERM), and for one that is
-- there already (EEXIST) or is not there (ENOENT).
def epollCtl (pollable : Nat → Bool) (interest : Nat → Option (Bool × Bool)) (op : Ctl) (fd : Nat)
    (events : Bool × Bool) : Option (Nat → Option (Bool × Bool)) :=
  if pollable fd = true then
    match op, interest fd with
    | .add, none => some (Function.update interest fd (some events))
    | .mod, some _ => some (Function.update interest fd (some events))
    | .del, some _ => some (Function.update interest fd none)
    | .add, some _ | .mod, none | .del, none => none
  else none

def events (status : BitVec 32) : Bool × Bool :=
  (status &&& Flag.rdonly.bits != 0, status &&& Flag.wronly.bits != 0)

def watchFd (pollable : Nat → Bool) (e : EPollAio) (fd : Nat) (flag : Flag) : Option EPollAio :=
  let op := if e.fdstatus fd ≠ 0 then Ctl.mod else Ctl.add
  let status := e.fdstatus fd ||| flag.bits
  if fd < MAX_POLL_FDS ∧ (flag = .rdwr → events status = (true, true)) then
    (epollCtl pollable e.interest op fd (events status)).map fun interest =>
      { fdstatus := Function.update e.fdstatus fd status, interest := interest }
  else none

def unwatchFd (pollable : Nat → Bool) (e : EPollAio) (fd : Nat) (flag : Flag) : Option (Bool × EPollAio) :=
  let status := e.fdstatus fd &&& ~~~flag.bits
  let op := if status ≠ 0 then Ctl.mod else Ctl.del
  if fd < MAX_POLL_FDS ∧ (flag = .rdwr → op = .del) then
    (epollCtl pollable e.interest op fd (events status)).map fun interest =>
      (op == .del, { fdstatus := Function.update e.fdstatus fd status, interest := interest })
  else none

def isWatched (e : EPollAio) (fd : Nat) (flag : Flag) : Option Bool :=
  if fd < MAX_POLL_FDS then some (e.fdstatus fd &&& CB_MASK == flag.bits) else none

end EPollAio

-- Where wait_loop is.
inductive Loop (κ : Type*)
  | top
  -- before wait_ready
  | polling
  | selecting (t : Snapshot)
  | scanning (readable writable : List Nat)
  -- in read_cb or write_cb of the callback for this descriptor
  | calling (write : Bool) (fd : Nat) (ch : κ) (readable writable : List Nat)

-- PollMgr with the threads that are in block_remove_fd.
structure Mgr (τ κ : Type*) where
  callbacks : Nat → Option κ := fun _ => none
  aio : SelectAio
  pendingChange : Bool := false
  changedoneC : CondVar (τ × Nat) := {}
  loop : Loop κ := .top
  -- block_remove_fd has returned and no callback has been added since
  removed : Nat → Bool := fun _ => false

section Model

variable {τ κ : Type*}

-- PollMgr()
def initial (pipefd : Nat) (m : Mgr τ κ) : Prop := m = { aio := .create pipefd }

def addCallback [DecidableEq κ] (m : Mgr τ κ) (fd : Nat) (flag : Flag) (ch : κ) : Option (Mgr τ κ) :=
  if fd < MAX_POLL_FDS ∧ (m.callbacks fd = none ∨ m.callbacks fd = some ch) then
    (m.aio.watchFd fd flag).map fun aio =>
      { m with aio := aio
               callbacks := Function.update m.callbacks fd (some ch)
               removed := Function.update m.removed fd false }
  else none

-- callbacks_ has no place for a descriptor of MAX_POLL_FDS or more, which del_callback and block_remove_fd do not test.
def delCallback (m : Mgr τ κ) (fd : Nat) (flag : Flag) : Option (Mgr τ κ) :=
  if fd < MAX_POLL_FDS then
    (m.aio.unwatchFd fd flag).map fun r =>
      { m with aio := r.2
               callbacks := if r.1 = true then Function.update m.callbacks fd none else m.callbacks }
  else none

-- block_remove_fd up to its wait
def blockRemoveFd (m : Mgr τ κ) (thread : τ) (fd : Nat) : Option (Mgr τ κ) :=
  if fd < MAX_POLL_FDS then
    (m.aio.unwatchFd fd .rdwr).map fun r =>
      { m with aio := r.2, pendingChange := true, changedoneC := m.changedoneC.wait (thread, fd) }
  else none

-- block_remove_fd after its wait
def Mgr.forget (m : Mgr τ κ) (fd : Nat) (c : CondVar (τ × Nat)) : Mgr τ κ :=
  { m with changedoneC := c
           callbacks := Function.update m.callbacks fd none
           removed := Function.update m.removed fd true }

def removeDone [DecidableEq τ] (m : Mgr τ κ) (thread : τ) (fd : Nat) : Option (Mgr τ κ) :=
  (m.changedoneC.resume (thread, fd)).map (m.forget fd)

-- The wait ends without a broadcast.
def removeEarly [DecidableEq τ] (m : Mgr τ κ) (thread : τ) (fd : Nat) : Option (Mgr τ κ) :=
  (m.changedoneC.leave (thread, fd)).map (m.forget fd)

-- The first lines of the loop of wait_loop.
def top (m : Mgr τ κ) : Option (Mgr τ κ) :=
  match m.loop with
  | .top =>
      some (if m.pendingChange = true then
        { m with loop := .polling, pendingChange := false, changedoneC := m.changedoneC.broadcast }
      else { m with loop := .polling })
  | _ => none

def snapshot (m : Mgr τ κ) : Option (Mgr τ κ) :=
  match m.loop with
  | .polling => some { m with loop := .selecting m.aio.snapshot }
  | _ => none

-- The call of select returns, and wait_ready with it.
def Mgr.collected (m : Mgr τ κ) (t : Snapshot) : Mgr τ κ :=
  { m with aio := (m.aio.collect t).2.2, loop := .scanning (m.aio.collect t).1 (m.aio.collect t).2.1 }

def select (m : Mgr τ κ) (canRead canWrite : FdSet) : Option (Mgr τ κ) :=
  match m.loop with
  | .selecting t =>
      if (m.aio.ready t canRead canWrite).some? = true then
        some (m.collected (m.aio.ready t canRead canWrite))
      else none
  | _ => none

-- EINTR
def interrupted (m : Mgr τ κ) : Option (Mgr τ κ) :=
  match m.loop with
  | .selecting _ => some { m with loop := .scanning [] [] }
  | _ => none

-- The callback of a descriptor is called if there is one.
def Mgr.visit (m : Mgr τ κ) (write : Bool) (fd : Nat) (readable writable : List Nat) : Mgr τ κ :=
  { m with loop := (m.callbacks fd).elim (.scanning readable writable) fun ch =>
      .calling write fd ch readable writable }

-- The next descriptor of the two lists.
def scan (m : Mgr τ κ) : Option (Mgr τ κ) :=
  match m.loop with
  | .scanning (fd :: readable) writable => some (m.visit false fd readable writable)
  | .scanning [] (fd :: writable) => some (m.visit true fd [] writable)
  | .scanning [] [] => some { m with loop := .top }
  | _ => none

def callReturns (m : Mgr τ κ) : Option (Mgr τ κ) :=
  match m.loop with
  | .calling _ _ _ readable writable => some { m with loop := .scanning readable writable }
  | _ => none

inductive Event (τ κ : Type*)
  | addCallback (fd : Nat) (flag : Flag) (ch : κ)
  | delCallback (fd : Nat) (flag : Flag)
  | blockRemoveFd (thread : τ) (fd : Nat)
  | removeDone (thread : τ) (fd : Nat)
  | removeEarly (thread : τ) (fd : Nat)
  | top
  | snapshot
  | select (canRead canWrite : FdSet)
  | interrupted
  | scan
  | callReturns

def step [DecidableEq τ] [DecidableEq κ] (m : Mgr τ κ) : Event τ κ → Option (Mgr τ κ)
  | .addCallback fd flag ch => addCallback m fd flag ch
  | .delCallback fd flag => delCallback m fd flag
  | .blockRemoveFd thread fd => blockRemoveFd m thread fd
  | .removeDone thread fd => removeDone m thread fd
  | .removeEarly thread fd => removeEarly m thread fd
  | .top => top m
  | .snapshot => snapshot m
  | .select canRead canWrite => select m canRead canWrite
  | .interrupted => interrupted m
  | .scan => scan m
  | .callReturns => callReturns m

def Step [DecidableEq τ] [DecidableEq κ] (m : Mgr τ κ) (event : Event τ κ) (next : Mgr τ κ) : Prop :=
  step m event = some next

end Model

end CseLabs.PollMgr
