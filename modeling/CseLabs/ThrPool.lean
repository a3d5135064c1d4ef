import CseLabs.Fifo
import Mathlib.Data.List.ReduceOption

namespace CseLabs.ThrPool

-- The threads that use the queue of jobs.
inductive Thread
  | worker (index : Nat)
  | caller (id : Nat)
  -- the thread in ~ThrPool
  | owner
  deriving DecidableEq

-- Where do_worker is.
inductive Worker (ψ : Type*)
  -- before takeJob
  | ready
  -- in takeJob
  | waiting
  -- in j.f(j.a)
  | running (job : ψ)
  | exited
  deriving DecidableEq

-- Where ~ThrPool is, with the index of its loop.
inductive Owner
  | live
  | adding (index : Nat)
  | waiting (index : Nat)
  | joining (index : Nat)
  deriving DecidableEq

-- Where ~ThrPool goes on after so many pills.
def Owner.after (sz pills : Nat) : Owner := if pills < sz then .adding pills else .joining 0

-- Where it goes on after an enq: the pill is in, or the thread waits.
def Owner.pushed (sz index : Nat) : Option Bool → Owner
  | none => .waiting index
  | some _ => .after sz (index + 1)

-- A job without a function is the poison pill.
structure Pool (ψ : Type*) where
  nthreads : Nat
  blockadd : Bool
  jobq : Fifo Thread (Option ψ)
  worker : Nat → Worker ψ := fun _ => .ready
  owner : Owner := .live
  -- the jobs that have returned
  finished : List ψ := []

section Model

variable {ψ : Type*}

-- ThrPool(sz, blocking)
def initial (sz : Nat) (blocking : Bool) (p : Pool ψ) : Prop :=
  p = { nthreads := sz, blockadd := blocking, jobq := { max := 100 * sz } }

-- What takeJob gave to do_worker: nothing yet, the pill or a job.
def Worker.given : Option (Option ψ) → Worker ψ
  | none => .waiting
  | some none => .exited
  | some (some job) => .running job

def Pool.took (p : Pool ψ) (index : Nat) (answer : Option (Option ψ)) (jobq : Fifo Thread (Option ψ)) : Pool ψ :=
  { p with jobq := jobq, worker := Function.update p.worker index (.given answer) }

def finish (p : Pool ψ) (index : Nat) : Option (Pool ψ) :=
  match p.worker index with
  | .running job =>
      if index < p.nthreads then
        some { p with worker := Function.update p.worker index .ready, finished := p.finished ++ [job] }
      else none
  | _ => none

-- ~ThrPool is called when no other thread is in addJob.
def destroy (p : Pool ψ) : Option (Pool ψ) :=
  if p.owner = .live ∧ p.jobq.hasSpaceC.threads = [] then
    some { p with owner := .after p.nthreads 0 }
  else none

def Pool.pushed (p : Pool ψ) (index : Nat) (answer : Option Bool) (jobq : Fifo Thread (Option ψ)) : Pool ψ :=
  { p with jobq := jobq, owner := .pushed p.nthreads index answer }

-- pthread_join(th_[i], NULL)
def join [DecidableEq ψ] (p : Pool ψ) : Option (Pool ψ) :=
  match p.owner with
  | .joining index =>
      if index < p.nthreads ∧ p.worker index = .exited then some { p with owner := .joining (index + 1) } else none
  | _ => none

variable [DecidableEq ψ]

-- addJob, with what it returns
def addJob (p : Pool ψ) (caller : Nat) (job : ψ) (pick : Option Thread) : Option (Option Bool × Pool ψ) :=
  if p.owner = .live then
    (p.jobq.enq (.caller caller) (some job) p.blockadd pick).map (Prod.map id fun jobq => { p with jobq := jobq })
  else none

def addAgain (p : Pool ψ) (caller : Nat) (job : ψ) (pick : Option Thread) : Option (Option Bool × Pool ψ) :=
  (p.jobq.enqAgain (.caller caller) (some job) pick).map (Prod.map id fun jobq => { p with jobq := jobq })

def takeJob (p : Pool ψ) (index : Nat) (pick : Option (Thread × Option ψ)) : Option (Pool ψ) :=
  if index < p.nthreads ∧ p.worker index = .ready then
    (p.jobq.deq (.worker index) pick).map fun r => p.took index r.1 r.2
  else none

def takeAgain (p : Pool ψ) (index : Nat) (pick : Option (Thread × Option ψ)) : Option (Pool ψ) :=
  (p.jobq.deqAgain (.worker index) pick).map fun r => p.took index r.1 r.2

-- jobq_.enq(j) of a pill
def pill (p : Pool ψ) (pick : Option Thread) : Option (Pool ψ) :=
  match p.owner with
  | .adding index => (p.jobq.enq .owner none true pick).map fun r => p.pushed index r.1 r.2
  | _ => none

def pillAgain (p : Pool ψ) (pick : Option Thread) : Option (Pool ψ) :=
  match p.owner with
  | .waiting index => (p.jobq.enqAgain .owner none pick).map fun r => p.pushed index r.1 r.2
  | _ => none

inductive Event (ψ : Type*)
  | addJob (caller : Nat) (job : ψ) (pick : Option Thread)
  | addAgain (caller : Nat) (job : ψ) (pick : Option Thread)
  | takeJob (index : Nat) (pick : Option (Thread × Option ψ))
  | takeAgain (index : Nat) (pick : Option (Thread × Option ψ))
  | finish (index : Nat)
  | destroy
  | pill (pick : Option Thread)
  | pillAgain (pick : Option Thread)
  | join
  -- a wait is over without a signal
  | enqReturns (thread : Thread) (item : Option ψ)
  | deqReturns (thread : Thread)

def step (p : Pool ψ) : Event ψ → Option (Pool ψ)
  | .addJob caller job pick => (addJob p caller job pick).map Prod.snd
  | .addAgain caller job pick => (addAgain p caller job pick).map Prod.snd
  | .takeJob index pick => takeJob p index pick
  | .takeAgain index pick => takeAgain p index pick
  | .finish index => finish p index
  | .destroy => destroy p
  | .pill pick => pill p pick
  | .pillAgain pick => pillAgain p pick
  | .join => join p
  | .enqReturns thread item => (p.jobq.step (.enqReturns thread item)).map fun jobq => { p with jobq := jobq }
  | .deqReturns thread => (p.jobq.step (.deqReturns thread)).map fun jobq => { p with jobq := jobq }

def Step (p : Pool ψ) (event : Event ψ) (next : Pool ψ) : Prop := step p event = some next

end Model

end CseLabs.ThrPool
