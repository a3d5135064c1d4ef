import CseLabs.LockCache.Client

namespace CseLabs.LockCache

variable {sys next : Sys} {tokens : Tokens} {node : Node}

theorem initial_inv : Inv {} {} where
  threads := by constructor <;> simp [Sys.info, Sys.pc]
  carried := by constructor <;> simp [Sys.pc, Pc.revokes, Pc.retries, Pc.handles]
  server := by constructor <;> simp [Sys.srv]
  config := by
    intro cid hcid
    have hrole : role (Sys.srv {}) {} cid = .out := by simp [role, Sys.srv, hcid.symm]
    rw [hrole]
    exact .idle

theorem step_inv {event : Event} (h : Inv sys tokens) (hs : Step sys event next) :
    ∃ tokens', Inv next tokens' := by
  unfold Step step at hs
  cases event with
  | acquire cid tid =>
      simp only at hs
      split at hs
      · cases hs
      · rename_i hcid
        cases hs
        exact ⟨tokens, h.acquire hcid tid⟩
  | wake node => exact ⟨tokens, h.wake hs⟩
  | serveAcquire node => exact h.serveAcquire hs
  | sendRevoke node => exact ⟨tokens, h.sendRevoke hs⟩
  | revoke node => exact h.revoke hs
  | revokeDone node => exact ⟨tokens, h.revokeDone hs⟩
  | serveRelease node => exact h.serveRelease hs
  | retry node => exact h.retry hs
  | retryDone node => exact h.retryDone hs
  | releaseDone node => exact h.releaseDone hs
  | acquireDone node => exact ⟨tokens, h.acquireDone hs⟩
  | release node => exact ⟨tokens, h.release hs⟩

theorem reachable_inv (hr : Reachable Step initial sys) : ∃ tokens, Inv sys tokens := by
  refine hr.invariant (fun sys => ∃ tokens, Inv sys tokens) ?_ ?_
  · rintro start rfl
    exact ⟨{}, initial_inv⟩
  · rintro before event next ⟨tokens, h⟩ hs
    exact step_inv h hs

-- acquire has returned and release has not been called.
def Pc.returned : Pc → Bool
  | .holding | .ioerr => true
  | _ => false

-- The thread is inside acquire, in pthread_cond_wait.
def Pc.blocked : Pc → Bool
  | .waitFirst _ | .waitTurn _ | .waitRetry _ => true
  | _ => false

-- A request, a reply or a handler of the thread's call is under way.
def Pc.inFlight : Pc → Bool
  | .acquiring _ | .releasing _ => true
  | _ => false

def Pc.signalled : Pc → Bool
  | .waitFirst signalled | .waitTurn signalled | .waitRetry signalled => signalled
  | _ => false

section Exclusion

theorem Config.of_returned {role : Role} {handler : Option ReleaseRpc} {stat : Client.State}
    {msg : Client.Message} {pc : Pc} (h : Config role handler stat msg (some pc))
    (hpc : pc.returned = true) : role = .owner ∨ ∃ sent, role = .revoked sent := by
  cases h <;> simp_all [Pc.returned, Pc.answer] <;> aesop

theorem Config.of_cached {role : Role} {handler : Option ReleaseRpc} {stat : Client.State}
    {msg : Client.Message} {head : Option Pc} (h : Config role handler stat msg head)
    (hstat : stat = .free ∨ stat = .locked) : role = .owner ∨ ∃ sent, role = .revoked sent := by
  cases h <;> simp_all <;> aesop

theorem owner_of_role {srv : Server.LockInfo} {cid : Cid}
    (h : role srv tokens cid = .owner ∨ ∃ sent, role srv tokens cid = .revoked sent) :
    srv.owner = cid := by
  by_contra hne
  unfold role at h
  rw [if_neg hne] at h
  split_ifs at h <;> simp at h

theorem Inv.returned_owner (h : Inv sys tokens) (hpc : (sys.pc node).returned = true) :
    sys.srv.owner = (sys.session node).cid ∧
      ∃ rest, (sys.info (sys.session node).cid).threads = node :: rest := by
  have hdone : sys.pc node ≠ .done := by
    intro he
    simp [he, Pc.returned] at hpc
  have hwait : sys.pc node ≠ .waitTurn false := by
    intro he
    simp [he, Pc.returned] at hpc
  have hc := h.config _ (h.threads.named _ (h.threads.known node hdone))
  rw [h.threads.headPc hdone hwait] at hc
  exact ⟨owner_of_role (hc.of_returned hpc), h.threads.front hdone hwait⟩

theorem Inv.returned_unique (h : Inv sys tokens) {other : Node}
    (hnode : (sys.pc node).returned = true) (hother : (sys.pc other).returned = true) :
    node = other := by
  obtain ⟨howner, rest, hlist⟩ := h.returned_owner hnode
  obtain ⟨howner', rest', hlist'⟩ := h.returned_owner hother
  rw [← howner', howner, hlist] at hlist'
  exact (List.cons.inj hlist').1

theorem Inv.cached_owner (h : Inv sys tokens) {cid : Cid} {info : Client.LockInfo}
    (hinfo : sys.client cid = some info) (hstat : info.stat = .free ∨ info.stat = .locked) :
    ∃ srv, sys.server = some srv ∧ srv.owner = cid := by
  have hcid := h.threads.named cid (by simp [hinfo])
  have hc := h.config cid hcid
  rw [info_eq hinfo] at hc
  have howner := owner_of_role (hc.of_cached hstat)
  cases hsrv : sys.server with
  | none =>
      rw [Sys.srv, hsrv] at howner
      exact absurd howner.symm hcid
  | some srv =>
      rw [Sys.srv, hsrv] at howner
      exact ⟨srv, rfl, howner⟩

theorem mutual_exclusion (world : World) (hr : WorldReachable world) (lid : Lockid) :
    (∀ node other, ((world lid).session node).pc.returned = true →
      ((world lid).session other).pc.returned = true → node = other) ∧
    ∀ cid info, (world lid).client cid = some info → info.stat = .free ∨ info.stat = .locked →
      ∃ srv, (world lid).server = some srv ∧ srv.owner = cid := by
  obtain ⟨tokens, h⟩ := reachable_inv (hr.component lid)
  exact ⟨fun _ _ => h.returned_unique, fun _ _ => h.cached_owner⟩

-- Runs that use lock 1 only.
def oneLock (sys : Sys) : World := Function.update (fun _ => {}) 1 sys

theorem oneLock_step {sys next : Sys} (event : Event) (hr : WorldReachable (oneLock sys))
    (hguard : ThreadGuard (oneLock sys) 1 event) (hs : Step sys event next) :
    WorldReachable (oneLock next) := by
  have hmove : Interleaved ThreadGuard Step (oneLock sys) (1, event) (oneLock next) :=
    ⟨hguard, next, by simpa [oneLock] using hs, by simp [oneLock]⟩
  exact hr.extend hmove

-- Client "a" has been given the lock.
def heldSys : Sys where
  server := some { owner := "a", stat := .locked }
  client := Function.update (fun _ => none) "a" (some { stat := .locked, threads := [0] })
  session := Function.update (fun _ => {}) 0 { cid := "a", tid := 0, pc := .holding }
  fresh := 1

theorem heldSys_reachable : WorldReachable (oneLock heldSys) := by
  have hstart : WorldReachable (oneLock {}) :=
    .start fun lid => by simp [oneLock, initial, Function.update_apply]
  refine oneLock_step (.acquireDone 0) (oneLock_step (.serveAcquire 0) (oneLock_step (.acquire "a" 0)
    hstart ?_ rfl) trivial rfl) trivial ?_
  · intro lid node hcid
    by_cases hl : lid = 1 <;> simp [oneLock, hl] at hcid
  · simp [Step, step, acquireDone, acquire, heldSys, Sys.setInfo, Sys.setPc, Sys.setServer]

theorem mutual_exclusion_held :
    (heldSys.session 0).pc.returned = true ∧ ∃ srv, heldSys.server = some srv ∧ srv.owner = "a" :=
  ⟨rfl, (mutual_exclusion (oneLock heldSys) heldSys_reachable 1).2 "a"
    { stat := .locked, threads := [0] } rfl (.inr rfl)⟩

end Exclusion

section Progress

-- Something is still to happen: a holder, a call under way or a signalled thread.
def Pc.pending (pc : Pc) : Bool := pc.returned || pc.inFlight || pc.signalled

theorem pending_of_answer {pc : Pc} {ret : Status} (h : pc.answer = some ret) : pc.pending = true := by
  cases pc <;> simp_all [Pc.answer, Pc.pending, Pc.inFlight]

theorem Carried.pending_revoker (h : Carried sys tokens) (hr : tokens.revoker = some node) :
    (sys.pc node).pending = true := by
  have hpc := (h.revoker node).mpr hr
  cases hn : sys.pc node <;> simp_all [Pc.revokes, Pc.pending, Pc.inFlight]

theorem Carried.pending_retrier (h : Carried sys tokens) (hr : tokens.retrier = some node) :
    (sys.pc node).pending = true := by
  have hpc := (h.retrier node).mpr hr
  cases hn : sys.pc node <;> simp_all [Pc.retries, Pc.pending, Pc.inFlight]

theorem Carried.pending_handler (h : Carried sys tokens) {cid : Cid} {rpc : ReleaseRpc}
    (hr : tokens.handler cid = some (node, rpc)) : (sys.pc node).pending = true := by
  have hpc := (h.handler node cid rpc).mpr hr
  cases hn : sys.pc node <;> simp_all [Pc.handles, Pc.pending, Pc.inFlight]

-- What the front thread of a client waits for.
inductive Awaits : Role → Option ReleaseRpc → Option Pc → Prop
  | handler {role rpc head} : Awaits role (some rpc) head
  | front {role handler pc} (hpc : pc.pending = true) : Awaits role handler (some pc)
  | server {role handler head} (hrole : role = .waiting ∨ role = .retrying true) :
      Awaits role handler head

theorem Config.awaits {role : Role} {handler : Option ReleaseRpc} {stat : Client.State}
    {msg : Client.Message} {pc : Pc} (h : Config role handler stat msg (some pc)) :
    Awaits role handler (some pc) := by
  cases h with
  | woken hpc => rcases hpc with rfl | rfl <;> exact .front rfl
  | locked _ hpc => rcases hpc with rfl | rfl <;> exact .front rfl
  | lockedRevoked hpc => rcases hpc with rfl | rfl <;> exact .front rfl
  | asking => exact .front rfl
  | granted _ hpc => exact .front (pending_of_answer hpc)
  | grantedRevoked hpc => exact .front (pending_of_answer hpc)
  | refused hrole => exact .server hrole
  | called hpc =>
      rcases hpc with hpc | rfl
      · exact .front (pending_of_answer hpc)
      · exact .front rfl
  | giving => exact .front rfl
  | gave => exact .front rfl
  | handlerGiving => exact .handler
  | handlerGave => exact .handler

-- A client that the server has told to give the lock up, or to take it.
theorem Config.called_awaits {role : Role} {handler : Option ReleaseRpc} {stat : Client.State}
    {msg : Client.Message} {head : Option Pc} (h : Config role handler stat msg head)
    (hrole : role = .revoked false ∨ role = .retrying false) :
    (∃ rpc, handler = some rpc) ∨ ∃ pc, head = some pc ∧ pc.pending = true := by
  have hcase : (∃ rpc, handler = some rpc) ∨ ∃ pc, head = some pc := by
    rcases hrole with rfl | rfl <;> cases h <;> simp_all
  rcases hcase with hhan | ⟨pc, rfl⟩
  · exact .inl hhan
  · cases h.awaits with
    | handler => exact .inl ⟨_, rfl⟩
    | front hpc => exact .inr ⟨pc, rfl, hpc⟩
    | server hwait => rcases hrole with rfl | rfl <;> simp at hwait

theorem headPc_mem {cid : Cid} {pc : Pc} (h : sys.headPc cid = some pc) : ∃ node, sys.pc node = pc := by
  unfold Sys.headPc at h
  obtain ⟨front, -, hpc⟩ := Option.map_eq_some_iff.mp h
  exact ⟨front, hpc⟩

theorem Inv.called_pending (h : Inv sys tokens) {cid : Cid} (hcid : cid ≠ "")
    (hrole : role sys.srv tokens cid = .revoked false ∨ role sys.srv tokens cid = .retrying false) :
    ∃ node, (sys.pc node).pending = true := by
  rcases (h.config cid hcid).called_awaits hrole with ⟨rpc, hhan⟩ | ⟨pc, hhead, hpc⟩
  · obtain ⟨⟨carrier, call⟩, hh, -⟩ := Option.map_eq_some_iff.mp hhan
    exact ⟨carrier, h.carried.pending_handler hh⟩
  · obtain ⟨front, rfl⟩ := headPc_mem hhead
    exact ⟨front, hpc⟩

-- A lock that some client waits for is being taken from its owner or handed over.
theorem Inv.server_pending (h : Inv sys tokens)
    (hstat : sys.srv.stat = .revoking ∨ sys.srv.stat = .retrying) :
    ∃ node, (sys.pc node).pending = true := by
  rcases hstat with hstat | hstat
  · obtain ⟨howner, -, -⟩ := h.server.revoking hstat
    cases hr : tokens.revoker with
    | some carrier => exact ⟨carrier, h.carried.pending_revoker hr⟩
    | none => exact h.called_pending howner (.inl (by simp [role, hstat, hr]))
  · obtain ⟨howner, hretrying⟩ := h.server.retrying hstat
    cases hr : tokens.retrier with
    | some carrier => exact ⟨carrier, h.carried.pending_retrier hr⟩
    | none => exact h.called_pending hretrying (.inr (by simp [role, howner, Ne.symm hretrying, hr]))

theorem Inv.stat_of_waiting (h : Inv sys tokens) {cid : Cid}
    (hrole : role sys.srv tokens cid = .waiting ∨ role sys.srv tokens cid = .retrying true) :
    sys.srv.stat = .revoking ∨ sys.srv.stat = .retrying := by
  rcases hrole with hrole | hrole
  · have hmem : cid ∈ sys.srv.waitingCids := by
      unfold role at hrole
      split_ifs at hrole with h1 h2 h3 h4
      exact h4
    cases hs : sys.srv.stat with
    | none => simp [(h.server.none hs).2.2] at hmem
    | locked => simp [(h.server.locked hs).2.2] at hmem
    | revoking => exact .inl rfl
    | retrying => exact .inr rfl
  · have hsome : tokens.retrier.isSome = true := by
      unfold role at hrole
      split_ifs at hrole with h1 h2 h3 h4
      exact Role.retrying.inj hrole
    obtain ⟨carrier, hr⟩ := Option.isSome_iff_exists.mp hsome
    have hcarrier := (h.carried.retrier carrier).mpr hr
    obtain ⟨client, hc⟩ := Option.ne_none_iff_exists'.mp hcarrier
    exact .inr (h.carried.retryTo carrier client hc).1

theorem Inv.blocked_pending (h : Inv sys tokens) (hpc : (sys.pc node).blocked = true) :
    ∃ other, (sys.pc other).pending = true := by
  have hdone : sys.pc node ≠ .done := by
    intro he
    simp [he, Pc.blocked] at hpc
  have hmem := (h.threads.queued _ node).mpr ⟨rfl, hdone⟩
  obtain ⟨front, hfront⟩ : ∃ front, (sys.info (sys.session node).cid).threads.head? = some front := by
    cases hl : (sys.info (sys.session node).cid).threads with
    | nil => simp [hl] at hmem
    | cons front rest => exact ⟨front, rfl⟩
  have hhead : sys.headPc (sys.session node).cid = some (sys.pc front) := by
    simp [Sys.headPc, hfront]
  have hc := h.config _ (h.threads.named _ (h.threads.known node hdone))
  rw [hhead] at hc
  generalize hhan : (tokens.handler (sys.session node).cid).map Prod.snd = handler at hc
  cases hc.awaits with
  | handler =>
      obtain ⟨⟨carrier, call⟩, hh, -⟩ := Option.map_eq_some_iff.mp hhan
      exact ⟨carrier, h.carried.pending_handler hh⟩
  | front hp => exact ⟨front, hp⟩
  | server hrole => exact h.server_pending (h.stat_of_waiting hrole)

-- A thread that waits inside acquire always has something to wait for.
theorem no_stuck_lock (world : World) (hr : WorldReachable world) (lid : Lockid) :
    ¬ ((∃ node, ((world lid).session node).pc.blocked = true) ∧
      ∀ node, ((world lid).session node).pc.returned = false ∧
        ((world lid).session node).pc.inFlight = false ∧
        ((world lid).session node).pc.signalled = false) := by
  rintro ⟨⟨node, hblocked⟩, hquiet⟩
  obtain ⟨tokens, h⟩ := reachable_inv (hr.component lid)
  obtain ⟨other, hpending⟩ := h.blocked_pending hblocked
  obtain ⟨hret, hflight, hsignal⟩ := hquiet other
  rw [session_pc] at hret hflight hsignal
  simp [Pc.pending, hret, hflight, hsignal] at hpending

theorem no_stuck_lock_queued :
    ((acquire heldSys "a" 1).session 1).pc.blocked = true ∧
      ∃ node, ((acquire heldSys "a" 1).session node).pc.pending = true := by
  have hidle : ThreadIdle (oneLock heldSys) "a" 1 := by
    intro lid node hcid htid
    by_cases hl : lid = 1
    · subst hl
      by_cases hn : node = 0
      · subst hn
        rfl
      · simp [oneLock, heldSys, hn] at hcid
    · simp [oneLock, hl] at hcid
  have hr : WorldReachable (oneLock (acquire heldSys "a" 1)) :=
    oneLock_step (.acquire "a" 1) heldSys_reachable hidle rfl
  have hblocked : ((acquire heldSys "a" 1).session 1).pc.blocked = true := rfl
  refine ⟨hblocked, ?_⟩
  by_contra hc
  push Not at hc
  refine no_stuck_lock _ hr 1 ⟨⟨1, hblocked⟩, fun node => ?_⟩
  simpa [oneLock, Pc.pending, and_assoc] using hc node

end Progress

end CseLabs.LockCache
