import Mathlib.Algebra.Group.Nat.Defs
import CseLabs.Run

namespace CseLabs.Rpc

abbrev Bytes := List UInt8

-- rpc_const
def BIND : Nat := 1
def TIMEOUT_FAILURE : Int := -1
def ATMOSTONCE_FAILURE : Int := -4
def OLDSRV_FAILURE : Int := -5
def CANCEL_FAILURE : Int := -7

-- A request PDU: req_header and the marshalled arguments.
structure Request where
  xid : Nat
  proc : Nat
  cltNonce : Nat
  srvNonce : Nat
  xidRep : Nat
  args : Bytes
  deriving DecidableEq

-- What a call gives back: the return code and the marshalled results.
structure Result where
  ret : Int
  out : Bytes := []
  deriving DecidableEq

-- A reply PDU.
structure Reply where
  xid : Nat
  result : Result
  deriving DecidableEq

-- marshall << unsigned int
def packUint (n : Nat) : Bytes :=
  [UInt8.ofNat (n / 2 ^ 24), UInt8.ofNat (n / 2 ^ 16), UInt8.ofNat (n / 2 ^ 8), UInt8.ofNat n]

-- unmarshall >> unsigned int with nothing after it, as okdone() asks
def unpackUint : Bytes → Option Nat
  | [a, b, c, d] => some (((a.toNat * 256 + b.toNat) * 256 + c.toNat) * 256 + d.toNat)
  | _ => none

-- The list loops of both endpoints insert before the first later element.
def insertBefore {α : Type*} (later : α → Prop) [DecidablePred later] (x : α) : List α → List α
  | [] => [x]
  | y :: rest => if later y then x :: y :: rest else y :: insertBefore later x rest

section Client

structure Caller where
  proc : Nat
  -- done, with intret and what un took in
  done : Option Result := none

structure Rpcc where
  cltNonce : Nat
  srvNonce : Nat := 0
  bindDone : Bool := false
  xid : Nat := 1
  calls : Nat → Option Caller := fun _ => none
  xidRepWindow : List Nat := [0]
  destroyWait : Bool := false
  -- the nonces that finished bind calls have read and not yet stored
  binding : List Nat := []

-- The loop at label compress: the iterator stands between seen and the rest. No popped
-- element is the one the iterator stands at.
def compress (seen : List Nat) : List Nat → List Nat
  | [] => seen
  | x :: rest => compress (seen.dropWhile (fun front => (front + 1) % 2 ^ 32 = x) ++ [x]) rest

def updateXidRep (window : List Nat) (xid : Nat) : List Nat :=
  match window with
  | [] => []
  | front :: _ =>
      if xid ≤ front then window
      else
        match insertBefore (xid < ·) xid window with
        | [] => []
        | first :: rest => compress [first] rest

-- call1 up to its first transmission. The same bytes are sent again and again, and
-- lossytest sends those of an earlier call once more: both are the network's duplicates.
def call1 (clt : Rpcc) (proc : Nat) (args : Bytes) : Option (Rpcc × Request) :=
  -- bind_failure
  if (proc ≠ BIND ∧ ¬ clt.bindDone) ∨ (proc = BIND ∧ clt.bindDone) then none
  -- cancel_failure
  else if clt.destroyWait then none
  else do
    let xidRep ← clt.xidRepWindow.head?
    some
      ({ clt with xid := (clt.xid + 1) % 2 ^ 32
                  calls := Function.update clt.calls clt.xid (some { proc := proc }) },
        { xid := clt.xid, proc := proc, cltNonce := clt.cltNonce, srvNonce := clt.srvNonce
          xidRep := xidRep, args := args })

def gotPdu (clt : Rpcc) (reply : Reply) : Rpcc :=
  let clt := { clt with xidRepWindow := updateXidRep clt.xidRepWindow reply.xid }
  match clt.calls reply.xid with
  | none => clt
  | some ca =>
      match ca.done with
      | some _ => clt
      | none =>
          let ca := { ca with done := some reply.result }
          { clt with calls := Function.update clt.calls reply.xid (some ca) }

-- call1 from the end of its waiting loop on: a reply has come or the deadline has passed.
def finish (clt : Rpcc) (xid : Nat) : Option (Rpcc × Result) := do
  let ca ← clt.calls xid
  let result := ca.done.getD { ret := TIMEOUT_FAILURE }
  let bound := if ca.proc = BIND ∧ result.ret = 0 then (unpackUint result.out).toList else []
  some
    ({ clt with calls := Function.update clt.calls xid none
                xidRepWindow := updateXidRep clt.xidRepWindow xid
                binding := bound ++ clt.binding },
      result)

-- The last lines of rpcc::bind
def bind (clt : Rpcc) (r : Nat) : Option Rpcc :=
  if r ∈ clt.binding then
    some { clt with bindDone := true, srvNonce := r, binding := clt.binding.erase r }
  else none

-- cancel, when it finds calls to wait for. xids below xid_ are the only ones in calls_.
def cancel (clt : Rpcc) : Rpcc :=
  { clt with calls := fun xid => (clt.calls xid).map fun ca =>
               { ca with done := some { ret := CANCEL_FAILURE } }
             destroyWait := clt.destroyWait || (List.range clt.xid).any fun xid => (clt.calls xid).isSome }

end Client

section Server

-- reply_t; the buffer is there when cb_present is set
structure ReplyT where
  xid : Nat
  buf : Option Result := none
  deriving DecidableEq

-- A dispatch thread that found its request NEW. Its handler runs until result is there.
structure Job where
  req : Request
  result : Option Result := none
  -- add_reply has been called
  saved : Bool := false
  deriving DecidableEq

structure Rpcs where
  nonce : Nat
  procs : Nat → Bool
  replyWindow : Nat → List ReplyT := fun _ => []
  -- all executions of handlers, in the order they began
  jobs : List Job := []

inductive RpcState
  | NEW
  | INPROGRESS
  | DONE (buf : Result)
  | FORGOTTEN
  deriving DecidableEq

def checkduplicateAndUpdate (window : List ReplyT) (xid xidRep : Nat) : RpcState × List ReplyT :=
  match window.find? (·.xid = xid) with
  | some { xid := _, buf := some buf } => (.DONE buf, window)
  | some { xid := _, buf := none } => (.INPROGRESS, window)
  | none =>
      if window.head?.any (xid < ·.xid) then (.FORGOTTEN, window)
      else
        let window := insertBefore (xid < ·.xid) { xid := xid } window
        (.NEW, window.dropWhile (·.xid < xidRep))

def addReply (window : List ReplyT) (xid : Nat) (buf : Result) : List ReplyT :=
  match window with
  | [] => []
  | reply :: rest =>
      if reply.xid = xid then { reply with buf := some buf } :: rest
      else reply :: addReply rest xid buf

-- What dispatch has done when it knows the state of the request: the reply it sends, if
-- any. An unknown procedure stops the server.
def dispatch (srv : Rpcs) (req : Request) : Option (Rpcs × Option Reply) :=
  if req.srvNonce ≠ 0 ∧ req.srvNonce ≠ srv.nonce then
    some (srv, some { xid := req.xid, result := { ret := OLDSRV_FAILURE } })
  else if ¬ srv.procs req.proc then none
  else if req.cltNonce ≠ 0 then
    let (stat, window) := checkduplicateAndUpdate (srv.replyWindow req.cltNonce) req.xid req.xidRep
    let srv := { srv with replyWindow := Function.update srv.replyWindow req.cltNonce window }
    match stat with
    | .NEW => some ({ srv with jobs := srv.jobs ++ [{ req := req }] }, none)
    | .INPROGRESS => some (srv, none)
    | .DONE buf => some (srv, some { xid := req.xid, result := buf })
    | .FORGOTTEN => some (srv, some { xid := req.xid, result := { ret := ATMOSTONCE_FAILURE } })
  else some ({ srv with jobs := srv.jobs ++ [{ req := req }] }, none)

-- f->fn returns. The handler of bind is rpcbind; about the others only what the VERIFY
-- after the call checks is known.
def fnReturn (srv : Rpcs) (index : Nat) (result : Result) : Option Rpcs := do
  let job ← srv.jobs[index]?
  if job.result = none ∧ 0 ≤ result.ret ∧
      (job.req.proc = BIND → result = { ret := 0, out := packUint srv.nonce }) then
    some { srv with jobs := srv.jobs.set index { job with result := some result } }
  else none

def save (srv : Rpcs) (index : Nat) : Option Rpcs := do
  let job ← srv.jobs[index]?
  let result ← job.result
  let window := srv.replyWindow job.req.cltNonce
  let window := if 0 < job.req.cltNonce then addReply window job.req.xid result else window
  some { srv with replyWindow := Function.update srv.replyWindow job.req.cltNonce window
                  jobs := srv.jobs.set index { job with saved := true } }

def send (srv : Rpcs) (index : Nat) : Option Reply := do
  let job ← srv.jobs[index]?
  let result ← job.result
  if job.saved then some { xid := job.req.xid, result := result } else none

end Server

-- One client, one server and the network between them. The network keeps every PDU ever
-- sent and may deliver each of them at any time, any number of times or never.
structure Sys where
  clt : Rpcc
  srv : Rpcs
  requests : List Request := []
  replies : List Reply := []
  -- what the calls that have returned gave to their callers
  returned : List (Nat × Result) := []

inductive Event
  | call (proc : Nat) (args : Bytes)
  | dispatch (req : Request)
  | fnReturn (index : Nat) (result : Result)
  | save (index : Nat)
  | send (index : Nat)
  | gotPdu (reply : Reply)
  | finish (xid : Nat)
  | bind (r : Nat)
  | cancel
  deriving DecidableEq

def step (s : Sys) : Event → Option Sys
  | .call proc args => do
      let (clt, req) ← call1 s.clt proc args
      some { s with clt := clt, requests := req :: s.requests }
  | .dispatch req => do
      if req ∈ s.requests then
        let (srv, reply) ← dispatch s.srv req
        some { s with srv := srv, replies := reply.toList ++ s.replies }
      else none
  | .fnReturn index result => do
      let srv ← fnReturn s.srv index result
      some { s with srv := srv }
  | .save index => do
      let srv ← save s.srv index
      some { s with srv := srv }
  | .send index => do
      let reply ← send s.srv index
      some { s with replies := reply :: s.replies }
  | .gotPdu reply => if reply ∈ s.replies then some { s with clt := gotPdu s.clt reply } else none
  | .finish xid => do
      let (clt, result) ← finish s.clt xid
      some { s with clt := clt, returned := (xid, result) :: s.returned }
  | .bind r => do
      let clt ← bind s.clt r
      some { s with clt := clt }
  | .cancel => some { s with clt := cancel s.clt }

def Step (s : Sys) (event : Event) (next : Sys) : Prop := step s event = some next

-- A fresh client and a fresh server.
def start (cltNonce nonce : Nat) (procs : Nat → Bool) : Sys :=
  { clt := { cltNonce := cltNonce }, srv := { nonce := nonce, procs := procs } }

def Event.isCall : Event → Bool
  | .call _ _ => true
  | _ => false

-- Fewer than 2^31 calls: the xid of the next call is one more than the number of calls.
def Bounded (s : Sys) (event : Event) : Prop := event.isCall → s.clt.xid < 2 ^ 31

instance (s : Sys) (event : Event) : Decidable (Bounded s event) :=
  inferInstanceAs (Decidable (event.isCall → s.clt.xid < 2 ^ 31))

end CseLabs.Rpc
