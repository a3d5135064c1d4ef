import CseLabs.TwoPhase.Leftovers

namespace CseLabs.TwoPhase

open Ydb

-- One ydb_client for each number.
abbrev Cid := Nat

-- The call ends the transaction for the client, which then sets current_transaction to
-- INVALID_TRANSID.
def closing (call : Call) (status : Status) : Bool :=
  call = .commit ∨ call = .abort ∨ status ≠ .OK

-- What a ydb_client is doing. A client without a transaction only ever gets TRANSIDINV,
-- from itself or from the server, and such calls are left out.
inductive Session
  | closed
  -- transaction_begin has been sent, then handled
  | beginning
  | begun (id : Tid)
  -- between two calls
  | opened (id : Tid)
  -- a call has been sent, then answered
  | calling (id : Tid) (call : Call)
  | replied (id : Tid) (call : Call) (status : Status)
  deriving DecidableEq

-- The transaction that the client has open, from its begin to the answer that ends it.
def Session.transaction : Session → Option Tid
  | .closed | .beginning => none
  | .begun id | .opened id | .calling id _ => some id
  | .replied id call status => if closing call status then none else some id

structure World where
  server : State
  session : Cid → Session := fun _ => .closed

def World.setSession (w : World) (cid : Cid) (session : Session) : World :=
  { w with session := Function.update w.session cid session }

-- The events of the server that belong to one call.
def Event.serves (id : Tid) (call : Call) : Event → Bool
  | .begin => false
  | .call id' call' => id' = id ∧ call' = call
  | .checkCycle id' | .acquire id' | .record id' | .releaseStart id' | .releaseEntry id'
  | .releaseEnd id' | .commitStart id' | .commitEntry id' | .commitEnd id' => id' = id

def State.lastStatus (s : State) : Status := (s.replies.getLast?.map Reply.status).getD .RPCERR

inductive Action
  | begin (cid : Cid)
  | serveBegin (cid : Cid)
  | beginDone (cid : Cid)
  | call (cid : Cid) (call : Call)
  | serve (cid : Cid) (event : Event)
  | done (cid : Cid)
  deriving DecidableEq

-- The handler of a call has answered when its thread is idle again.
def World.step (w : World) : Action → Option World
  | .begin cid =>
      match w.session cid with
      | .closed => some (w.setSession cid .beginning)
      | _ => none
  | .serveBegin cid =>
      match w.session cid with
      | .beginning => do
          let server ← transactionBegin w.server
          some { w.setSession cid (.begun w.server.transId) with server := server }
      | _ => none
  | .beginDone cid =>
      match w.session cid with
      | .begun id => some (w.setSession cid (.opened id))
      | _ => none
  | .call cid call =>
      match w.session cid with
      | .opened id => some (w.setSession cid (.calling id call))
      | _ => none
  | .serve cid event =>
      match w.session cid with
      | .calling id call =>
          if event.serves id call then do
            let server ← TwoPhase.step w.server event
            if server.pc id = .idle then
              some { w.setSession cid (.replied id call server.lastStatus) with server := server }
            else some { w with server := server }
          else none
      | _ => none
  | .done cid =>
      match w.session cid with
      | .replied id call status =>
          some (w.setSession cid (if closing call status then .closed else .opened id))
      | _ => none

def WorldStep (w : World) (action : Action) (next : World) : Prop := w.step action = some next

-- Fewer than INODE_NUM transactions are begun in all.
def WorldBounded (w : World) (action : Action) : Prop :=
  ∀ cid, action = .serveBegin cid → w.server.transId + 1 < INODE_NUM

def WorldReachable (ec : Slot → Str) (w : World) : Prop :=
  Reachable (Guarded WorldBounded WorldStep) (· = { server := start ec }) w

-- The call that a handler thread serves.
def Pc.call : Pc → Option Call
  | .idle => none
  | .checking op | .acquiring op | .granted op => some op.call
  | .aborting call | .releasing call _ => some call
  | .preparing | .committing _ => some .commit

section Serving

variable {s next : State} {id : Tid} {call : Call}

-- What a step of the handler of a call does.
structure Served (id : Tid) (call : Call) (s next : State) : Prop where
  pc : ∀ other, other ≠ id → next.pc other = s.pc other
  infos : ∀ other, other ≠ id → next.transactionInfos other = s.transactionInfos other
  transId : next.transId = s.transId
  goes : next.pc id ≠ .idle → (next.pc id).call = some call
  ended : next.pc id = .idle → closing call next.lastStatus = true → next.transactionInfos id = none

theorem Served.setPc {pc : Pc} (hinfos : next.transactionInfos = s.transactionInfos)
    (hpc : next.pc = Function.update s.pc id pc) (htid : next.transId = s.transId) (hidle : pc ≠ .idle)
    (hcall : pc.call = some call) : Served id call s next where
  pc other hne := by rw [hpc, Function.update_of_ne hne]
  infos other _ := by rw [hinfos]
  transId := htid
  goes _ := by rwa [hpc, Function.update_self]
  ended he _ := by
    rw [hpc, Function.update_self] at he
    exact absurd he hidle

theorem Served.reply {mid : State} (hinfos : ∀ other, other ≠ id →
    mid.transactionInfos other = s.transactionInfos other) (hpc : mid.pc = s.pc)
    (htid : mid.transId = s.transId) (call' : Call) (status : Status) (value : Str)
    (hended : closing call status = true → mid.transactionInfos id = none) :
    Served id call s (mid.reply id call' status value) where
  pc other hne := by rw [reply_pc_of_ne _ _ _ _ _ _ hne, hpc]
  infos other hne := hinfos other hne
  transId := htid
  goes hne := absurd (reply_pc_self _ _ _ _ _) hne
  ended _ hclosing := hended (by simpa [State.reply, State.lastStatus] using hclosing)

theorem Served.finish {mid : State} (hinfos : mid.transactionInfos = s.transactionInfos)
    (hpc : mid.pc = s.pc) (htid : mid.transId = s.transId) (call' : Call) (status : Status) (value : Str) :
    Served id call s ((mid.setInfo id none).reply id call' status value) := by
  have hother : ∀ other, other ≠ id →
      (mid.setInfo id none).transactionInfos other = s.transactionInfos other := by
    intro other hne
    rw [setInfo_infos_of_ne _ _ _ _ hne, hinfos]
  exact .reply hother hpc htid _ _ _ (fun _ => setInfo_infos_self mid id none)

-- get, set and del go on with the transaction.
theorem not_closing (op : Op) : closing op.call .OK = false := by
  cases op <;> rfl

theorem Served.access {info : Transaction} {op : Op} (hinfo : s.transactionInfos id = some info)
    (hs : access s id info op = some next) : Served id op.call s next := by
  rcases access_cases hinfo hs with ⟨-, rfl⟩ | ⟨-, old, -, rfl⟩
  · exact .setPc rfl rfl rfl (by simp) rfl
  · refine .reply (fun other hne => setInfo_infos_of_ne s id other _ hne) rfl rfl _ _ _ ?_
    intro hclosing
    rw [not_closing] at hclosing
    cases hclosing

theorem Served.receive (hs : receive s id call = some next) : Served id call s next := by
  obtain ⟨-, ⟨hnone, rfl⟩ | ⟨info, hinfo, ⟨op, rfl, haccess⟩ | ⟨rfl, rfl⟩ | ⟨rfl, rfl⟩⟩⟩ := receive_cases hs
  · exact .reply (fun _ _ => rfl) rfl rfl _ _ _ (fun _ => hnone)
  · exact Served.access hinfo haccess
  · exact .setPc rfl rfl rfl (by simp) rfl
  · exact .setPc rfl rfl rfl (by simp) rfl

theorem Served.runCheckCycle (hcall : s.pc id ≠ .idle → (s.pc id).call = some call)
    (hs : runCheckCycle s id = some next) : Served id call s next := by
  obtain ⟨op, cycle, mid, hpc, -, hcheck, rfl⟩ := runCheckCycle_cases hs
  obtain ⟨dependency, rfl⟩ := checkCycle_eq_setDependency hcheck
  have hop : some op.call = some call := by simpa [hpc, Pc.call] using hcall
  cases cycle with
  | true => exact .setPc rfl rfl rfl (by simp) hop
  | false => exact .setPc rfl rfl rfl (by simp) hop

theorem Served.acquire (hcall : s.pc id ≠ .idle → (s.pc id).call = some call)
    (hs : acquire s id = some next) : Served id call s next := by
  obtain ⟨op, hpc, -, rfl⟩ := acquire_cases hs
  have hop : some op.call = some call := by simpa [hpc, Pc.call] using hcall
  exact .setPc rfl rfl rfl (by simp) hop

theorem Served.record (hcall : s.pc id ≠ .idle → (s.pc id).call = some call)
    (hs : record s id = some next) : Served id call s next := by
  obtain ⟨op, info, hpc, -, rfl⟩ := record_cases hs
  have hop : some op.call = some call := by simpa [hpc, Pc.call] using hcall
  cases hop
  refine .reply ?_ ?_ ?_ _ _ _ ?_
  · intro other hne
    exact setInfo_infos_of_ne _ id other _ hne
  · rfl
  · rfl
  · intro hclosing
    rw [not_closing] at hclosing
    cases hclosing

theorem Served.releaseStart (hcall : s.pc id ≠ .idle → (s.pc id).call = some call)
    (hs : releaseStart s id = some next) : Served id call s next := by
  obtain ⟨call', info, hpc, -, -, rfl⟩ := releaseStart_cases hs
  have hcall' : some call' = some call := by simpa [hpc, Pc.call] using hcall
  exact .setPc rfl rfl rfl (by simp) hcall'

theorem Served.releaseEntry (hcall : s.pc id ≠ .idle → (s.pc id).call = some call)
    (hs : releaseEntry s id = some next) : Served id call s next := by
  obtain ⟨call', ino, rest, hpc, rfl⟩ := releaseEntry_cases hs
  have hcall' : some call' = some call := by simpa [hpc, Pc.call] using hcall
  exact .setPc rfl rfl rfl (by simp) hcall'

theorem Served.releaseEnd (hs : releaseEnd s id = some next) : Served id call s next := by
  obtain ⟨_, -, rfl⟩ := releaseEnd_cases hs
  apply Served.finish <;> rfl

theorem Served.commitStart (hcall : s.pc id ≠ .idle → (s.pc id).call = some call)
    (hs : commitStart s id = some next) : Served id call s next := by
  obtain ⟨info, hpc, -, -, rfl⟩ := commitStart_cases hs
  have hcommit : some Call.commit = some call := by simpa [hpc, Pc.call] using hcall
  exact .setPc rfl rfl rfl (by simp) hcommit

theorem Served.commitEntry (hcall : s.pc id ≠ .idle → (s.pc id).call = some call)
    (hs : commitEntry s id = some next) : Served id call s next := by
  obtain ⟨ino, value, rest, hpc, rfl⟩ := commitEntry_cases hs
  have hcommit : some Call.commit = some call := by simpa [hpc, Pc.call] using hcall
  exact .setPc rfl rfl rfl (by simp) hcommit

theorem Served.commitEnd (hs : commitEnd s id = some next) : Served id call s next := by
  obtain ⟨-, rfl⟩ := commitEnd_cases hs
  apply Served.finish <;> rfl

theorem Served.step {event : Event} (hserves : event.serves id call = true)
    (hcall : s.pc id ≠ .idle → (s.pc id).call = some call) (hs : TwoPhase.step s event = some next) :
    Served id call s next := by
  cases event <;> simp only [Event.serves, decide_eq_true_eq, Bool.false_eq_true] at hserves
  case call id' call' =>
    obtain ⟨rfl, rfl⟩ := hserves
    exact .receive hs
  all_goals subst hserves
  case checkCycle => exact .runCheckCycle hcall hs
  case acquire => exact .acquire hcall hs
  case record => exact .record hcall hs
  case releaseStart => exact .releaseStart hcall hs
  case releaseEntry => exact .releaseEntry hcall hs
  case releaseEnd => exact .releaseEnd hs
  case commitStart => exact .commitStart hcall hs
  case commitEntry => exact .commitEntry hcall hs
  case commitEnd => exact .commitEnd hs

end Serving

-- The transaction number that a session knows, ended or not.
def Session.id : Session → Option Tid
  | .closed | .beginning => none
  | .begun id | .opened id | .calling id _ | .replied id _ _ => some id

-- Every transaction of the server belongs to one client.
structure Sessions (w : World) : Prop where
  books : Books w.server
  born : ∀ cid id, (w.session cid).id = some id → id < w.server.transId
  unique : ∀ cid cid' id, (w.session cid).id = some id → (w.session cid').id = some id → cid = cid'
  busy : ∀ id, w.server.pc id ≠ .idle →
    ∃ cid call, w.session cid = .calling id call ∧ (w.server.pc id).call = some call
  live : ∀ id, w.server.transactionInfos id ≠ none → ∃ cid, (w.session cid).transaction = some id

variable {w next : World} {cid : Cid}

theorem setSession_self (w : World) (cid : Cid) (session : Session) :
    (w.setSession cid session).session cid = session :=
  Function.update_self ..

theorem setSession_of_ne (w : World) (session : Session) {other : Cid} (h : other ≠ cid) :
    (w.setSession cid session).session other = w.session other :=
  Function.update_of_ne h ..

-- A client goes on with the transaction that it has, and the server does nothing.
theorem Sessions.setSession (h : Sessions w) {session : Session}
    (hid : session.id = none ∨ session.id = (w.session cid).id)
    (htrans : session.transaction = (w.session cid).transaction)
    (hcalling : ∀ id call, w.session cid ≠ .calling id call) :
    Sessions (w.setSession cid session) where
  books := h.books
  born other id hother := by
    by_cases he : other = cid
    · subst he
      rw [setSession_self] at hother
      rcases hid with hnone | hsame
      · rw [hnone] at hother
        cases hother
      · exact h.born other id (hsame ▸ hother)
    · rw [setSession_of_ne _ _ he] at hother
      exact h.born other id hother
  unique left right id hleft hright := by
    have hold : ∀ x, ((w.setSession cid session).session x).id = some id → (w.session x).id = some id := by
      intro x hx
      by_cases he : x = cid
      · subst he
        rw [setSession_self] at hx
        rcases hid with hnone | hsame
        · rw [hnone] at hx
          cases hx
        · rw [← hsame, hx]
      · rwa [setSession_of_ne _ _ he] at hx
    exact h.unique left right id (hold left hleft) (hold right hright)
  busy id hpc := by
    obtain ⟨caller, call, hcaller, hcall⟩ := h.busy id hpc
    have hne : caller ≠ cid := by
      rintro rfl
      exact hcalling id call hcaller
    exact ⟨caller, call, by rwa [setSession_of_ne _ _ hne], hcall⟩
  live id hlive := by
    obtain ⟨owner, howner⟩ := h.live id hlive
    refine ⟨owner, ?_⟩
    by_cases he : owner = cid
    · subst he
      rw [setSession_self, htrans, howner]
    · rwa [setSession_of_ne _ _ he]

theorem Sessions.serveBegin (h : Sessions w) {server : State} (hsession : w.session cid = .beginning)
    (hs : transactionBegin w.server = some server) :
    Sessions { w.setSession cid (.begun w.server.transId) with server := server } := by
  have hbooks : Books server := h.books.step (show Step w.server .begin server from hs)
  obtain rfl := begin_cases hs
  have hold : ∀ x id, x ≠ cid → ((w.setSession cid (.begun w.server.transId)).session x).id = some id →
      (w.session x).id = some id := by
    intro x id hx hsome
    rwa [setSession_of_ne _ _ hx] at hsome
  have hnew : ∀ id, ((w.setSession cid (.begun w.server.transId)).session cid).id = some id →
      id = w.server.transId := by
    intro id hsome
    rw [setSession_self] at hsome
    exact (Option.some.inj hsome).symm
  refine ⟨hbooks, ?_, ?_, ?_, ?_⟩
  · intro x id hx
    by_cases he : x = cid
    · subst he
      rw [hnew id hx]
      exact Nat.lt_succ_self _
    · exact (h.born x id (hold x id he hx)).trans (Nat.lt_succ_self _)
  · intro left right id hleft hright
    by_cases hl : left = cid
    · subst hl
      by_cases hr : right = left
      · exact hr.symm
      · have hlt := h.born right id (hold right id hr hright)
        rw [hnew id hleft] at hlt
        exact absurd hlt (lt_irrefl _)
    · by_cases hr : right = cid
      · subst hr
        have hlt := h.born left id (hold left id hl hleft)
        rw [hnew id hright] at hlt
        exact absurd hlt (lt_irrefl _)
      · exact h.unique left right id (hold left id hl hleft) (hold right id hr hright)
  · intro id hpc
    obtain ⟨caller, call, hcaller, hcall⟩ := h.busy id hpc
    have hne : caller ≠ cid := by
      rintro rfl
      rw [hsession] at hcaller
      cases hcaller
    exact ⟨caller, call, by rwa [setSession_of_ne _ _ hne], hcall⟩
  · intro id hlive
    by_cases hi : id = w.server.transId
    · refine ⟨cid, ?_⟩
      rw [setSession_self, hi]
      rfl
    · have hlive' : w.server.transactionInfos id ≠ none := by
        rwa [← setInfo_infos_of_ne w.server w.server.transId id (some {}) hi]
      obtain ⟨owner, howner⟩ := h.live id hlive'
      have hne : owner ≠ cid := by
        rintro rfl
        rw [hsession] at howner
        cases howner
      exact ⟨owner, by rwa [setSession_of_ne _ _ hne]⟩

-- The server moves on with the call of one client, whose session becomes `session`.
theorem Sessions.serve (h : Sessions w) {id : Tid} {call : Call} {server : State} {session : Session}
    (hcalling : w.session cid = .calling id call) (hbooks : Books server)
    (hserved : Served id call w.server server) (hid : session.id = some id)
    (hgoes : server.pc id ≠ .idle → session = .calling id call)
    (hlive : server.transactionInfos id ≠ none → session.transaction = some id) :
    Sessions { w.setSession cid session with server := server } := by
  have hold : ∀ x y, ((w.setSession cid session).session x).id = some y → (w.session x).id = some y := by
    intro x y hx
    by_cases he : x = cid
    · subst he
      rw [setSession_self, hid] at hx
      rw [hcalling]
      exact hx
    · rwa [setSession_of_ne _ _ he] at hx
  refine ⟨hbooks, ?_, ?_, ?_, ?_⟩
  · intro x y hx
    rw [hserved.transId]
    exact h.born x y (hold x y hx)
  · intro left right y hleft hright
    exact h.unique left right y (hold left y hleft) (hold right y hright)
  · intro y hpc
    by_cases hy : y = id
    · subst hy
      refine ⟨cid, call, ?_, hserved.goes hpc⟩
      rw [setSession_self]
      exact hgoes hpc
    · have hpc' : w.server.pc y ≠ .idle := by rwa [← hserved.pc y hy]
      obtain ⟨caller, call', hcaller, hcall⟩ := h.busy y hpc'
      have hne : caller ≠ cid := by
        rintro rfl
        rw [hcalling] at hcaller
        exact hy (Session.calling.inj hcaller).1.symm
      refine ⟨caller, call', by rwa [setSession_of_ne _ _ hne], ?_⟩
      rw [hserved.pc y hy]
      exact hcall
  · intro y hy
    by_cases he : y = id
    · subst he
      refine ⟨cid, ?_⟩
      rw [setSession_self]
      exact hlive hy
    · have hy' : w.server.transactionInfos y ≠ none := by rwa [← hserved.infos y he]
      obtain ⟨owner, howner⟩ := h.live y hy'
      have hne : owner ≠ cid := by
        rintro rfl
        rw [hcalling] at howner
        exact he (Option.some.inj howner).symm
      exact ⟨owner, by rwa [setSession_of_ne _ _ hne]⟩

theorem Sessions.step (h : Sessions w) {action : Action} (hs : WorldStep w action next) :
    Sessions next := by
  unfold WorldStep World.step at hs
  cases action with
  | begin cid =>
      simp only at hs
      split at hs
      · rename_i hsession
        cases hs
        exact h.setSession (.inl rfl) (by rw [hsession]; rfl) (by simp [hsession])
      · cases hs
  | serveBegin cid =>
      simp only at hs
      split at hs
      · rename_i hsession
        simp only [Option.bind_eq_bind, Option.bind_eq_some_iff] at hs
        obtain ⟨server, hserver, hs⟩ := hs
        cases hs
        exact h.serveBegin hsession hserver
      · cases hs
  | beginDone cid =>
      simp only at hs
      split at hs
      · rename_i id hsession
        cases hs
        exact h.setSession (.inr (by rw [hsession]; rfl)) (by rw [hsession]; rfl) (by simp [hsession])
      · cases hs
  | call cid call =>
      simp only at hs
      split at hs
      · rename_i id hsession
        cases hs
        exact h.setSession (.inr (by rw [hsession]; rfl)) (by rw [hsession]; rfl) (by simp [hsession])
      · cases hs
  | serve cid event =>
      simp only at hs
      split at hs
      · rename_i id call hsession
        split at hs
        · rename_i hserves
          simp only [Option.bind_eq_bind, Option.bind_eq_some_iff] at hs
          obtain ⟨server, hserver, hs⟩ := hs
          have hcall : w.server.pc id ≠ .idle → (w.server.pc id).call = some call := by
            intro hpc
            obtain ⟨caller, call', hcaller, hcall⟩ := h.busy id hpc
            obtain rfl := h.unique caller cid id (by rw [hcaller]; rfl) (by rw [hsession]; rfl)
            rw [hsession] at hcaller
            cases hcaller
            exact hcall
          have hserved : Served id call w.server server := .step hserves hcall hserver
          have hbooks : Books server := h.books.step hserver
          split at hs
          · rename_i hidle
            cases hs
            refine h.serve hsession hbooks hserved rfl (absurd hidle) ?_
            intro hlive
            have hopen : ¬ closing call server.lastStatus = true :=
              fun hclosing => hlive (hserved.ended hidle hclosing)
            simp only [Session.transaction, if_neg hopen]
          · cases hs
            have hsame : w.setSession cid (.calling id call) = w := by
              simp [World.setSession, ← hsession]
            have hserve := h.serve hsession hbooks hserved rfl (fun _ => rfl) (fun _ => rfl)
            rwa [hsame] at hserve
        · cases hs
      · cases hs
  | done cid =>
      simp only at hs
      split at hs
      · rename_i id call status hsession
        cases hs
        refine h.setSession ?_ ?_ (by simp [hsession])
        · split
          · exact .inl rfl
          · exact .inr (by rw [hsession]; rfl)
        · rw [hsession]
          by_cases hclosing : closing call status = true
          · simp only [if_pos hclosing, Session.transaction]
          · simp only [if_neg hclosing, Session.transaction]
      · cases hs

theorem reachable_sessions {ec : Slot → Str} (hr : WorldReachable ec w) : Sessions w := by
  refine hr.invariant Sessions ?_ ?_
  · rintro start rfl
    exact ⟨.start ec, by simp [Session.id], by simp [Session.id], by simp [start], by simp [start]⟩
  · rintro before action next h ⟨-, hs⟩
    exact h.step hs

-- No transaction is in a loop, or between lc->acquire(ino) and its entry in the books.
def State.Settled (s : State) : Prop :=
  ∀ id, (s.pc id).inLoop = false ∧ ∀ op, s.pc id ≠ .granted op

theorem recorded_of_settled {s : State} (h : s.Settled) (id : Tid) (locks : Finset Slot) :
    (s.pc id).owned locks = locks ∧ (s.pc id).recorded locks = locks := by
  obtain ⟨hloop, hgranted⟩ := h id
  cases hpc : s.pc id with
  | granted op => exact absurd hpc (hgranted op)
  | releasing call rest =>
      rw [hpc] at hloop
      cases hloop
  | committing rest =>
      rw [hpc] at hloop
      cases hloop
  | _ => exact ⟨rfl, rfl⟩

theorem mem_locks {s : State} {id : Tid} {ino : Slot} :
    ino ∈ s.locks id ↔ ∃ info, s.transactionInfos id = some info ∧ ino ∈ info.locks := by
  cases hinfo : s.transactionInfos id with
  | none => simp [locks_of_none s id hinfo]
  | some info => simp [locks_of_some s id hinfo]

theorem nothing_left_behind (ec : Slot → Str) (w : World) (hr : WorldReachable ec w) :
    (w.server.Settled →
      (∀ ino, w.server.lc ino ≠ none ↔
        ∃! id, ∃ info, w.server.transactionInfos id = some info ∧ ino ∈ info.locks) ∧
      (∀ ino id, w.server.lockHandlers ino = some id ↔
        ∃ info, w.server.transactionInfos id = some info ∧ ino ∈ info.locks) ∧
      ∀ id info, w.server.transactionInfos id = some info →
        ∀ ino, ino ∈ info.locks ↔ info.log ino ≠ none) ∧
    ((∀ cid, (w.session cid).transaction = none) →
      (∀ id, w.server.transactionInfos id = none) ∧ (∀ ino, w.server.lockHandlers ino = none) ∧
        (∀ ino, w.server.lc ino = none) ∧ ∀ x y, w.server.dependency x y = false) := by
  have h := reachable_sessions hr
  have hlocks := h.books.locks
  refine ⟨fun hsettled => ⟨?_, ?_, ?_⟩, fun hclosed => ?_⟩
  · intro ino
    have hheld : ∀ id, w.server.lc ino = some id ↔
        ∃ info, w.server.transactionInfos id = some info ∧ ino ∈ info.locks := by
      intro id
      rw [(hlocks id).held, (recorded_of_settled hsettled id _).1, mem_locks]
    constructor
    · intro hne
      obtain ⟨id, hid⟩ := Option.ne_none_iff_exists'.mp hne
      refine ⟨id, (hheld id).mp hid, ?_⟩
      intro other hother
      have hsame := (hheld other).mpr hother
      rw [hid] at hsame
      exact (Option.some.inj hsame).symm
    · rintro ⟨id, hid, -⟩
      rw [(hheld id).mpr hid]
      simp
  · intro ino id
    rw [(hlocks id).handled, (recorded_of_settled hsettled id _).2, mem_locks]
  · intro id info hinfo ino
    exact (hlocks id).logged info ino hinfo
  · have hnone : ∀ id, w.server.transactionInfos id = none := by
      intro id
      by_contra hlive
      obtain ⟨cid, hcid⟩ := h.live id hlive
      rw [hclosed cid] at hcid
      cases hcid
    have hbare := h.books.bare hnone
    exact ⟨hnone, hbare.lockHandlers, hbare.lc, hbare.dependency⟩

-- One client has set the empty key and keeps its transaction open.
theorem nothing_left_behind_set : ∃ w, WorldReachable (fun _ => []) w ∧
    ∃! id, ∃ info, w.server.transactionInfos id = some info ∧ hash [] ∈ info.locks := by
  have hstart : Reachable (Guarded WorldBounded WorldStep) (· = { server := start fun _ => [] })
      { server := start fun _ => [] } := .start rfl
  have hbegun := ((hstart.guarded (.begin 0) (by simp [WorldBounded]) rfl).guarded (.serveBegin 0)
    (fun _ _ => by decide) rfl).guarded (.beginDone 0) (by simp [WorldBounded]) rfl
  have hasked := (hbegun.guarded (.call 0 (.set [] [1])) (by simp [WorldBounded]) rfl).guarded
    (.serve 0 (.call 0 (.set [] [1]))) (by simp [WorldBounded]) rfl
  have hgranted := (hasked.guarded (.serve 0 (.checkCycle 0)) (by simp [WorldBounded]) rfl).guarded
    (.serve 0 (.acquire 0)) (by simp [WorldBounded]) rfl
  have hset := (hgranted.guarded (.serve 0 (.record 0)) (by simp [WorldBounded]) rfl).guarded
    (.done 0) (by simp [WorldBounded]) rfl
  refine ⟨_, hset, (((nothing_left_behind _ _ hset).1 ?_).1 (hash [])).mp ?_⟩
  · intro id
    simp [World.setSession, State.reply, State.setInfo, State.setPc, start, Pc.inLoop]
  · decide +kernel

end CseLabs.TwoPhase
