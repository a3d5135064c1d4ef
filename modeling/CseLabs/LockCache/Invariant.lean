import CseLabs.LockCache
import Mathlib.Tactic

namespace CseLabs.LockCache

namespace Sys

def srv (sys : Sys) : Server.LockInfo := sys.server.getD {}

def info (sys : Sys) (cid : Cid) : Client.LockInfo := (sys.client cid).getD {}

def pc (sys : Sys) (node : Node) : Pc := (sys.session node).pc

def headPc (sys : Sys) (cid : Cid) : Option Pc := (sys.info cid).threads.head?.map sys.pc

end Sys

section Projections

variable (sys : Sys) (node other : Node) (pc : Pc) (cid client : Cid) (info : Client.LockInfo)
  (srv : Server.LockInfo) (threads : List Node)

@[simp] theorem session_pc : (sys.session node).pc = sys.pc node := rfl

@[simp] theorem setPc_pc : (sys.setPc node pc).pc other = if other = node then pc else sys.pc other := by
  unfold Sys.setPc Sys.pc
  by_cases h : other = node <;> simp [h]

@[simp] theorem setPc_cid : ((sys.setPc node pc).session other).cid = (sys.session other).cid := by
  unfold Sys.setPc
  by_cases h : other = node <;> simp [h]

@[simp] theorem setPc_info : (sys.setPc node pc).info cid = sys.info cid := rfl
@[simp] theorem setPc_client : (sys.setPc node pc).client = sys.client := rfl
@[simp] theorem setPc_server : (sys.setPc node pc).server = sys.server := rfl
@[simp] theorem setPc_srv : (sys.setPc node pc).srv = sys.srv := rfl
@[simp] theorem setPc_fresh : (sys.setPc node pc).fresh = sys.fresh := rfl

@[simp] theorem setInfo_pc : (sys.setInfo cid info).pc node = sys.pc node := rfl
@[simp] theorem setInfo_session : (sys.setInfo cid info).session = sys.session := rfl
@[simp] theorem setInfo_server : (sys.setInfo cid info).server = sys.server := rfl
@[simp] theorem setInfo_srv : (sys.setInfo cid info).srv = sys.srv := rfl
@[simp] theorem setInfo_fresh : (sys.setInfo cid info).fresh = sys.fresh := rfl

@[simp] theorem setInfo_info :
    (sys.setInfo cid info).info client = if client = cid then info else sys.info client := by
  unfold Sys.setInfo Sys.info
  by_cases h : client = cid <;> simp [h]

@[simp] theorem setInfo_setPc :
    (sys.setInfo cid info).setPc node pc = (sys.setPc node pc).setInfo cid info := rfl

@[simp] theorem setInfo_client :
    (sys.setInfo cid info).client client = if client = cid then some info else sys.client client := by
  unfold Sys.setInfo
  by_cases h : client = cid <;> simp [h]

@[simp] theorem setServer_pc : (sys.setServer srv).pc node = sys.pc node := rfl
@[simp] theorem setServer_session : (sys.setServer srv).session = sys.session := rfl
@[simp] theorem setServer_info : (sys.setServer srv).info cid = sys.info cid := rfl
@[simp] theorem setServer_client : (sys.setServer srv).client = sys.client := rfl
@[simp] theorem setServer_srv : (sys.setServer srv).srv = srv := rfl
@[simp] theorem setServer_fresh : (sys.setServer srv).fresh = sys.fresh := rfl
@[simp] theorem setServer_headPc : (sys.setServer srv).headPc cid = sys.headPc cid := rfl
@[simp] theorem setServer_setPc :
    (sys.setServer srv).setPc node pc = (sys.setPc node pc).setServer srv := rfl

@[simp] theorem signalFront_pc :
    (sys.signalFront threads).pc node =
      if threads.head? = some node then (sys.pc node).signal else sys.pc node := by
  cases threads with
  | nil => simp [Sys.signalFront]
  | cons front rest =>
      simp only [Sys.signalFront, setPc_pc, List.head?_cons, Option.some.injEq, eq_comm (a := node)]
      by_cases h : front = node
      · simp [h]
      · simp [h]

@[simp] theorem signalFront_cid :
    ((sys.signalFront threads).session node).cid = (sys.session node).cid := by
  cases threads <;> simp [Sys.signalFront]

@[simp] theorem signalFront_info : (sys.signalFront threads).info cid = sys.info cid := by
  cases threads <;> rfl
@[simp] theorem signalFront_client : (sys.signalFront threads).client = sys.client := by
  cases threads <;> rfl
@[simp] theorem signalFront_srv : (sys.signalFront threads).srv = sys.srv := by
  cases threads <;> rfl
@[simp] theorem signalFront_fresh : (sys.signalFront threads).fresh = sys.fresh := by
  cases threads <;> rfl

end Projections

-- A revoke is on its way: not yet sent, or sent and not yet delivered.
def Pc.revokes : Pc → Bool
  | .acquiring (.revoking _ .pending) => true
  | .acquiring (.revoking _ (.request _)) => true
  | _ => false

-- The client a retry is on its way to.
def Pc.retries : Pc → Option Cid
  | .releasing (.retrying client) => some client
  | .acquiring (.revoking _ (.releasing _ (.retrying client))) => some client
  | _ => none

-- The client whose revoke_handler is inside its release call.
def Pc.handles : Pc → Option (Cid × ReleaseRpc)
  | .acquiring (.revoking _ (.releasing client rpc)) => some (client, rpc)
  | _ => none

-- What the server has decided about the thread's request.
def Pc.answer : Pc → Option Status
  | .acquiring (.revoking ret _) => some ret
  | .acquiring (.reply ret) => some ret
  | _ => none

-- Which session carries the revoke, the retry and, for each client, the release
-- call of its revoke_handler. The invariant makes these unique.
structure Tokens where
  revoker : Option Node := none
  retrier : Option Node := none
  handler : Cid → Option (Node × ReleaseRpc) := fun _ => none

-- What the server knows about a client, and whether the revoke or the retry for
-- it has been delivered.
inductive Role
  | out
  | owner
  | revoked (sent : Bool)
  | waiting
  | retrying (sent : Bool)
  deriving DecidableEq

def role (srv : Server.LockInfo) (tokens : Tokens) (cid : Cid) : Role :=
  if srv.owner = cid then
    if srv.stat = .revoking then .revoked tokens.revoker.isSome else .owner
  else if srv.retryingCid = cid then .retrying tokens.retrier.isSome
  else if cid ∈ srv.waitingCids then .waiting
  else .out

-- The combinations of server role, running revoke_handler, stat, msg and front
-- thread that a client can be in.
inductive Config : Role → Option ReleaseRpc → Client.State → Client.Message → Option Pc → Prop
  | idle : Config .out none .none .empty none
  | woken {pc} (hpc : pc = .waitFirst true ∨ pc = .waitTurn true) :
      Config .out none .none .empty (some pc)
  | free {role} (hrole : role = .owner ∨ role = .revoked true) :
      Config role none .free .empty none
  | locked {role pc} (hrole : role = .owner ∨ role = .revoked true)
      (hpc : pc = .holding ∨ pc = .waitTurn true) :
      Config role none .locked .empty (some pc)
  | lockedRevoked {pc} (hpc : pc = .holding ∨ pc = .waitTurn true) :
      Config (.revoked false) none .locked .revoke (some pc)
  | asking {role} (hrole : role = .out ∨ role = .retrying false) :
      Config role none .acquiring .empty (some (.acquiring .request))
  | granted {role pc} (hrole : role = .owner ∨ role = .revoked true) (hpc : pc.answer = some .ok) :
      Config role none .acquiring .empty (some pc)
  | grantedRevoked {pc} (hpc : pc.answer = some .ok) :
      Config (.revoked false) none .acquiring .revoke (some pc)
  | refused {role pc} (hrole : role = .waiting ∨ role = .retrying true)
      (hpc : pc.answer = some .retry ∨ pc = .waitRetry false) :
      Config role none .acquiring .empty (some pc)
  | called {pc} (hpc : pc.answer = some .retry ∨ pc = .waitRetry true) :
      Config (.retrying false) none .acquiring .retry (some pc)
  | giving : Config (.revoked false) none .releasing .revoke (some (.releasing .request))
  | gave {rpc} (hrpc : rpc ≠ .request) :
      Config .out none .releasing .revoke (some (.releasing rpc))
  | handlerGiving {head} (hhead : head = none ∨ head = some (.waitFirst false)) :
      Config (.revoked false) (some .request) .releasing .empty head
  | handlerGave {rpc head} (hrpc : rpc ≠ .request)
      (hhead : head = none ∨ head = some (.waitFirst false)) :
      Config .out (some rpc) .releasing .empty head

section Inversion

variable {role : Role} {handler : Option ReleaseRpc} {stat : Client.State} {msg : Client.Message}
  {head : Option Pc} {pc : Pc} {rpc : ReleaseRpc}

theorem Config.of_request (h : Config role handler stat msg (some (.acquiring .request))) :
    handler = none ∧ stat = .acquiring ∧ msg = .empty ∧ (role = .out ∨ role = .retrying false) := by
  cases h <;> simp_all [Pc.answer]

theorem Config.of_granted (h : Config role handler stat msg (some pc)) (hpc : pc.answer = some .ok) :
    handler = none ∧ stat = .acquiring ∧
      (msg = .empty ∧ (role = .owner ∨ role = .revoked true) ∨ msg = .revoke ∧ role = .revoked false) := by
  cases h <;> simp_all [Pc.answer] <;> aesop

theorem Config.of_refused (h : Config role handler stat msg (some pc)) (hpc : pc.answer = some .retry) :
    handler = none ∧ stat = .acquiring ∧
      (msg = .empty ∧ (role = .waiting ∨ role = .retrying true) ∨
        msg = .retry ∧ role = .retrying false) := by
  cases h <;> simp_all [Pc.answer] <;> aesop

-- The server never answers with an error.
theorem Config.of_answer {ret : Status} (h : Config role handler stat msg (some pc))
    (hpc : pc.answer = some ret) : ret = .ok ∨ ret = .retry := by
  cases h <;> simp_all [Pc.answer] <;> aesop

theorem Config.of_waitFirst (h : Config role handler stat msg (some (.waitFirst true))) :
    handler = none ∧ stat = .none ∧ msg = .empty ∧ role = .out := by
  cases h <;> simp_all [Pc.answer]

theorem Config.of_waitTurn (h : Config role handler stat msg (some (.waitTurn true))) :
    handler = none ∧
      (stat = .none ∧ msg = .empty ∧ role = .out ∨
        stat = .locked ∧ (msg = .empty ∧ (role = .owner ∨ role = .revoked true) ∨
          msg = .revoke ∧ role = .revoked false)) := by
  cases h <;> simp_all [Pc.answer]

theorem Config.of_waitRetry (h : Config role handler stat msg (some (.waitRetry true))) :
    handler = none ∧ stat = .acquiring ∧ msg = .retry ∧ role = .retrying false := by
  cases h <;> simp_all [Pc.answer]

theorem Config.of_holding (h : Config role handler stat msg (some .holding)) :
    handler = none ∧ stat = .locked ∧
      (msg = .empty ∧ (role = .owner ∨ role = .revoked true) ∨ msg = .revoke ∧ role = .revoked false) := by
  cases h <;> simp_all [Pc.answer]

theorem Config.of_releasing (h : Config role handler stat msg (some (.releasing rpc))) :
    handler = none ∧ stat = .releasing ∧ msg = .revoke ∧
      role = if rpc = .request then .revoked false else .out := by
  cases h <;> simp_all [Pc.answer]

theorem Config.of_handler (h : Config role (some rpc) stat msg head) :
    stat = .releasing ∧ msg = .empty ∧ (head = none ∨ head = some (.waitFirst false)) ∧
      role = if rpc = .request then .revoked false else .out := by
  cases h <;> simp_all

theorem Config.of_empty (h : Config role handler stat msg none) :
    handler = none ∧ stat = .none ∧ msg = .empty ∧ role = .out ∨
      handler = none ∧ stat = .free ∧ msg = .empty ∧ (role = .owner ∨ role = .revoked true) ∨
      stat = .releasing ∧ ∃ rpc, handler = some rpc := by
  cases h <;> simp_all

theorem Config.of_refusable (h : Config role handler stat msg head)
    (hrole : role = .waiting ∨ role = .retrying true) :
    handler = none ∧ stat = .acquiring ∧ msg = .empty ∧
      ∃ pc, head = some pc ∧ (pc.answer = some .retry ∨ pc = .waitRetry false) := by
  rcases hrole with rfl | rfl <;> cases h <;> simp_all

-- The owner of a revoked lock whose revoke has not been delivered.
theorem Config.of_revoked (h : Config (.revoked true) handler stat msg head) :
    handler = none ∧ msg = .empty ∧
      (stat = .free ∧ head = none ∨
        (∃ pc, stat = .locked ∧ head = some pc ∧ (pc = .holding ∨ pc = .waitTurn true)) ∨
        ∃ pc, stat = .acquiring ∧ head = some pc ∧ pc.answer = some .ok) := by
  cases h <;> simp_all

theorem Config.revoke (h : Config .owner handler stat msg head) :
    Config (.revoked true) handler stat msg head := by
  cases h with
  | free => exact .free (.inr rfl)
  | locked _ hpc => exact .locked (.inr rfl) hpc
  | asking hr => simp at hr
  | granted _ hpc => exact .granted (.inr rfl) hpc
  | refused hr => simp at hr

theorem Config.deliver (h : Config (.revoked true) handler stat msg head) (hstat : stat ≠ .free) :
    Config (.revoked false) handler stat .revoke head := by
  cases h with
  | free => exact absurd rfl hstat
  | locked _ hpc => exact .lockedRevoked hpc
  | asking hr => simp at hr
  | granted _ hpc => exact .grantedRevoked hpc
  | refused hr => simp at hr

theorem Config.call (h : Config .waiting handler stat msg head) :
    Config (.retrying true) handler stat msg head := by
  cases h with
  | free hr => simp at hr
  | locked hr => simp at hr
  | asking hr => simp at hr
  | granted hr => simp at hr
  | refused _ hpc => exact .refused (.inr rfl) hpc

-- Only the answer matters while the request of the front thread is served.
theorem Config.answer {pc' : Pc} {ret : Status}
    (h : Config role handler stat msg (some pc)) (hpc : pc.answer = some ret)
    (hpc' : pc'.answer = some ret) : Config role handler stat msg (some pc') := by
  cases h with
  | woken hp => rcases hp with rfl | rfl <;> cases hpc
  | locked hr hp => rcases hp with rfl | rfl <;> cases hpc
  | lockedRevoked hp => rcases hp with rfl | rfl <;> cases hpc
  | asking hr => cases hpc
  | granted hr hp => exact .granted hr (by rw [hpc', ← hpc, hp])
  | grantedRevoked hp => exact .grantedRevoked (by rw [hpc', ← hpc, hp])
  | refused hr hp =>
      rcases hp with hp | rfl
      · exact .refused hr (.inl (by rw [hpc', ← hpc, hp]))
      · cases hpc
  | called hp =>
      rcases hp with hp | rfl
      · exact .called (.inl (by rw [hpc', ← hpc, hp]))
      · cases hpc
  | giving => cases hpc
  | gave hr => cases hpc
  | handlerGiving hh => rcases hh with hh | hh <;> cases hh; cases hpc
  | handlerGave hr hh => rcases hh with hh | hh <;> cases hh; cases hpc

end Inversion

-- The thread lists: who is queued, and that only the front thread ever moves.
structure Threads (sys : Sys) : Prop where
  nodup : ∀ cid, (sys.info cid).threads.Nodup
  queued : ∀ cid node, node ∈ (sys.info cid).threads ↔
    (sys.session node).cid = cid ∧ sys.pc node ≠ .done
  behind : ∀ cid node, node ∈ (sys.info cid).threads.tail → sys.pc node = .waitTurn false
  unborn : ∀ node, sys.fresh ≤ node → sys.pc node = .done
  named : ∀ cid, sys.client cid ≠ none → cid ≠ ""
  known : ∀ node, sys.pc node ≠ .done → sys.client (sys.session node).cid ≠ none

-- Where the messages of the server are.
structure Carried (sys : Sys) (tokens : Tokens) : Prop where
  revoker : ∀ node, (sys.pc node).revokes = true ↔ tokens.revoker = some node
  retrier : ∀ node, (sys.pc node).retries ≠ none ↔ tokens.retrier = some node
  handler : ∀ node cid rpc, (sys.pc node).handles = some (cid, rpc) ↔
    tokens.handler cid = some (node, rpc)
  handlerNamed : ∀ cid, tokens.handler cid ≠ none → cid ≠ ""
  revokeTo : ∀ node ret cid, sys.pc node = .acquiring (.revoking ret (.request cid)) →
    sys.srv.owner = cid
  revokeSelf : ∀ node rpc, sys.pc node = .acquiring (.revoking .ok rpc) →
    rpc = .request (sys.session node).cid ∨ rpc = .reply
  revoking : tokens.revoker ≠ none → sys.srv.stat = .revoking
  retryTo : ∀ node cid, (sys.pc node).retries = some cid →
    sys.srv.stat = .retrying ∧ sys.srv.retryingCid = cid

-- What the comments of the server's State enumeration say.
structure Consistent (srv : Server.LockInfo) : Prop where
  none : srv.stat = .none → srv.owner = "" ∧ srv.retryingCid = "" ∧ srv.waitingCids = ∅
  locked : srv.stat = .locked → srv.owner ≠ "" ∧ srv.retryingCid = "" ∧ srv.waitingCids = ∅
  revoking : srv.stat = .revoking → srv.owner ≠ "" ∧ srv.retryingCid = "" ∧ srv.waitingCids ≠ ∅
  retrying : srv.stat = .retrying → srv.owner = "" ∧ srv.retryingCid ≠ ""
  ownerOut : srv.owner ∉ srv.waitingCids
  retryingOut : srv.retryingCid ∉ srv.waitingCids
  nonempty : "" ∉ srv.waitingCids

structure Inv (sys : Sys) (tokens : Tokens) : Prop where
  threads : Threads sys
  carried : Carried sys tokens
  server : Consistent sys.srv
  config : ∀ cid, cid ≠ "" → Config (role sys.srv tokens cid) ((tokens.handler cid).map Prod.snd)
    (sys.info cid).stat (sys.info cid).msg (sys.headPc cid)

section Signal

variable (pc : Pc)

@[simp] theorem signal_revokes : pc.signal.revokes = pc.revokes := by cases pc <;> rfl
@[simp] theorem signal_retries : pc.signal.retries = pc.retries := by cases pc <;> rfl
@[simp] theorem signal_handles : pc.signal.handles = pc.handles := by cases pc <;> rfl
@[simp] theorem signal_answer : pc.signal.answer = pc.answer := by cases pc <;> rfl
@[simp] theorem signal_eq_done : pc.signal = .done ↔ pc = .done := by cases pc <;> simp [Pc.signal]
@[simp] theorem signal_eq_acquiring (rpc : AcquireRpc) :
    pc.signal = .acquiring rpc ↔ pc = .acquiring rpc := by cases pc <;> simp [Pc.signal]

end Signal

section Threads

variable {sys next : Sys}

theorem Threads.front (h : Threads sys) {node : Node} (hdone : sys.pc node ≠ .done)
    (hwait : sys.pc node ≠ .waitTurn false) :
    ∃ rest, (sys.info (sys.session node).cid).threads = node :: rest := by
  have hmem := (h.queued _ node).mpr ⟨rfl, hdone⟩
  have hbehind := h.behind (sys.session node).cid node
  cases hlist : (sys.info (sys.session node).cid).threads with
  | nil => simp [hlist] at hmem
  | cons front rest =>
      rw [hlist] at hmem hbehind
      rcases List.mem_cons.mp hmem with rfl | hrest
      · exact ⟨rest, rfl⟩
      · exact absurd (hbehind hrest) hwait

theorem headPc_of_threads {cid : Cid} {node : Node} {rest : List Node}
    (h : (sys.info cid).threads = node :: rest) : sys.headPc cid = some (sys.pc node) := by
  simp [Sys.headPc, h]

theorem Threads.headPc (h : Threads sys) {node : Node} (hdone : sys.pc node ≠ .done)
    (hwait : sys.pc node ≠ .waitTurn false) :
    sys.headPc (sys.session node).cid = some (sys.pc node) := by
  obtain ⟨rest, hlist⟩ := h.front hdone hwait
  exact headPc_of_threads hlist

theorem Threads.client_of_head (h : Threads sys) {cid : Cid} {node : Node}
    (hhead : (sys.info cid).threads.head? = some node) : (sys.session node).cid = cid :=
  ((h.queued cid node).mp (List.mem_of_mem_head? hhead)).1

-- The lists stay as they are and no thread behind the front moves.
theorem Threads.move (h : Threads sys)
    (hcid : ∀ node, (next.session node).cid = (sys.session node).cid)
    (hlist : ∀ cid, (next.info cid).threads = (sys.info cid).threads)
    (hfresh : next.fresh = sys.fresh)
    (hclient : ∀ cid, next.client cid ≠ none ↔ sys.client cid ≠ none)
    (hdone : ∀ node, next.pc node = .done ↔ sys.pc node = .done)
    (hbehind : ∀ cid node, node ∈ (sys.info cid).threads.tail → next.pc node = sys.pc node) :
    Threads next where
  nodup cid := by rw [hlist]; exact h.nodup cid
  queued cid node := by rw [hlist, h.queued, hcid, Ne, Ne, hdone]
  behind cid node hnode := by
    rw [hlist] at hnode
    rw [hbehind cid node hnode]
    exact h.behind cid node hnode
  unborn node hnode := (hdone node).mpr (h.unborn node (hfresh ▸ hnode))
  named cid hc := h.named cid ((hclient cid).mp hc)
  known node hnode := by
    rw [hcid, hclient]
    exact h.known node (fun he => hnode ((hdone node).mpr he))

theorem info_eq {cid : Cid} {info : Client.LockInfo} (h : sys.client cid = some info) :
    sys.info cid = info := by
  simp [Sys.info, h]

-- stat and msg of one client change.
theorem Threads.setInfo (h : Threads sys) {cid : Cid} {info : Client.LockInfo}
    (hinfo : sys.client cid = some info) (info' : Client.LockInfo)
    (hlist : info'.threads = info.threads) : Threads (sys.setInfo cid info') := by
  refine h.move (by simp) ?_ (by simp) ?_ (by simp) (by simp)
  · intro other
    by_cases he : other = cid
    · subst he
      simp [hlist, info_eq hinfo]
    · simp [he]
  · intro other
    by_cases he : other = cid
    · subst he
      simp [hinfo]
    · simp [he]

theorem headPc_setInfo {cid : Cid} {info : Client.LockInfo} (hinfo : sys.client cid = some info)
    (info' : Client.LockInfo) (hlist : info'.threads = info.threads) (other : Cid) :
    (sys.setInfo cid info').headPc other = sys.headPc other := by
  unfold Sys.headPc
  by_cases he : other = cid
  · subst he
    rw [setInfo_info, if_pos rfl, hlist, info_eq hinfo]
    rfl
  · rw [setInfo_info, if_neg he]
    rfl

-- The front thread of one client is signalled.
theorem Threads.signalFront (h : Threads sys) {cid : Cid} {threads : List Node}
    (hlist : (sys.info cid).threads = threads) : Threads (sys.signalFront threads) := by
  subst hlist
  refine h.move (by simp) (by simp) (by simp) (by simp) ?_ ?_
  · intro node
    by_cases hh : (sys.info cid).threads.head? = some node <;> simp [hh]
  · intro other node hnode
    have hne : (sys.info cid).threads.head? ≠ some node := by
      intro hh
      have hother := ((h.queued other node).mp (List.mem_of_mem_tail hnode)).1
      rw [← hother, h.client_of_head hh] at hnode
      have hnd := h.nodup cid
      cases hl : (sys.info cid).threads with
      | nil => simp [hl] at hh
      | cons front rest =>
          simp only [hl, List.head?_cons, Option.some.injEq, List.tail_cons] at hh hnode
          subst hh
          exact (List.nodup_cons.mp (hl ▸ hnd)).1 hnode
    simp [hne]

theorem Threads.headPc_signalFront (h : Threads sys) {cid : Cid} {threads : List Node}
    (hlist : (sys.info cid).threads = threads) (other : Cid) :
    (sys.signalFront threads).headPc other =
      if other = cid then (sys.headPc cid).map Pc.signal else sys.headPc other := by
  subst hlist
  unfold Sys.headPc
  by_cases he : other = cid
  · subst he
    cases hl : (sys.info other).threads <;> simp [hl]
  · simp only [signalFront_info, he, if_false]
    cases hh : (sys.info other).threads.head? with
    | none => simp
    | some node =>
        have hne : (sys.info cid).threads.head? ≠ some node := by
          intro hc
          exact he ((h.client_of_head hh).symm.trans (h.client_of_head hc))
        simp [hne]

theorem Threads.setServer (h : Threads sys) (srv : Server.LockInfo) : Threads (sys.setServer srv) :=
  ⟨h.nodup, h.queued, h.behind, h.unborn, h.named, h.known⟩

end Threads

end CseLabs.LockCache
