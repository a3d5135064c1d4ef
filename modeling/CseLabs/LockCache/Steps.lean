import CseLabs.LockCache.Invariant

namespace CseLabs.LockCache

variable {sys next : Sys} {tokens : Tokens} {node : Node}

-- A step that keeps the server, the revoke and the retry as they are, and moves
-- nothing but the call of one session.
theorem Carried.moveCall (h : Carried sys tokens) (node : Node)
    {handler : Cid → Option (Node × ReleaseRpc)}
    (hcid : ∀ other, sys.pc other ≠ .done → (next.session other).cid = (sys.session other).cid)
    (hsrv : next.srv = sys.srv)
    (hpc : ∀ other, other ≠ node → next.pc other = sys.pc other ∨ next.pc other = (sys.pc other).signal)
    (hrev : (next.pc node).revokes = (sys.pc node).revokes)
    (hret : (next.pc node).retries = (sys.pc node).retries)
    (hto : ∀ ret cid, next.pc node = .acquiring (.revoking ret (.request cid)) → sys.srv.owner = cid)
    (hself : ∀ rpc, next.pc node = .acquiring (.revoking .ok rpc) →
      rpc = .request (next.session node).cid ∨ rpc = .reply)
    (hhan : ∀ other cid rpc, (next.pc other).handles = some (cid, rpc) ↔ handler cid = some (other, rpc))
    (hnamed : ∀ cid, handler cid ≠ none → cid ≠ "") :
    Carried next { tokens with handler := handler } := by
  have hrev' : ∀ other, (next.pc other).revokes = (sys.pc other).revokes := by
    intro other
    by_cases he : other = node
    · rw [he, hrev]
    · rcases hpc other he with hp | hp <;> simp [hp]
  have hret' : ∀ other, (next.pc other).retries = (sys.pc other).retries := by
    intro other
    by_cases he : other = node
    · rw [he, hret]
    · rcases hpc other he with hp | hp <;> simp [hp]
  have hacq : ∀ other rpc, other ≠ node → next.pc other = .acquiring rpc → sys.pc other = .acquiring rpc := by
    intro other rpc he hn
    rcases hpc other he with hp | hp
    · rw [← hp, hn]
    · exact (signal_eq_acquiring _ _).mp (hp ▸ hn)
  exact {
    revoker := fun other => by rw [hrev', h.revoker]
    retrier := fun other => by rw [hret', h.retrier]
    handler := hhan
    handlerNamed := hnamed
    revokeTo := by
      intro other ret cid hn
      rw [hsrv]
      by_cases he : other = node
      · exact hto ret cid (he ▸ hn)
      · exact h.revokeTo other ret cid (hacq other _ he hn)
    revokeSelf := by
      intro other rpc hn
      by_cases he : other = node
      · rw [he]
        exact hself rpc (he ▸ hn)
      · have hold := hacq other _ he hn
        rw [hcid other (by simp [hold])]
        exact h.revokeSelf other rpc hold
    revoking := fun hr => by rw [hsrv]; exact h.revoking hr
    retryTo := fun other cid hn => by rw [hsrv]; exact h.retryTo other cid (hret' other ▸ hn) }

theorem Carried.move (h : Carried sys tokens) (node : Node)
    (hcid : ∀ other, sys.pc other ≠ .done → (next.session other).cid = (sys.session other).cid)
    (hsrv : next.srv = sys.srv)
    (hpc : ∀ other, other ≠ node → next.pc other = sys.pc other ∨ next.pc other = (sys.pc other).signal)
    (hrev : (next.pc node).revokes = (sys.pc node).revokes)
    (hret : (next.pc node).retries = (sys.pc node).retries)
    (hhan : (next.pc node).handles = (sys.pc node).handles)
    (hto : ∀ ret cid, next.pc node = .acquiring (.revoking ret (.request cid)) → sys.srv.owner = cid)
    (hself : ∀ rpc, next.pc node = .acquiring (.revoking .ok rpc) →
      rpc = .request (next.session node).cid ∨ rpc = .reply) :
    Carried next tokens := by
  refine h.moveCall node hcid hsrv hpc hrev hret hto hself ?_ h.handlerNamed
  intro other cid rpc
  rw [← h.handler]
  by_cases he : other = node
  · rw [he, hhan]
  · rcases hpc other he with hp | hp <;> simp [hp]

-- The front thread of a client moves on, every other client is as before.
theorem headPc_setPc (h : Threads sys) (hdone : sys.pc node ≠ .done)
    (hwait : sys.pc node ≠ .waitTurn false) (pc : Pc) (cid : Cid) :
    (sys.setPc node pc).headPc cid =
      if cid = (sys.session node).cid then some pc else sys.headPc cid := by
  obtain ⟨rest, hlist⟩ := h.front hdone hwait
  by_cases he : cid = (sys.session node).cid
  · subst he
    simp [Sys.headPc, hlist]
  · simp only [he, if_false]
    unfold Sys.headPc
    rw [setPc_info]
    cases hh : (sys.info cid).threads.head? with
    | none => simp
    | some front =>
        have hfront := h.client_of_head hh
        have hne : front ≠ node := by
          rintro rfl
          exact he hfront.symm
        simp [hne]

theorem Threads.setPc (h : Threads sys) (hdone : sys.pc node ≠ .done)
    (hwait : sys.pc node ≠ .waitTurn false) {pc : Pc} (hpc : pc ≠ .done) :
    Threads (sys.setPc node pc) := by
  refine h.move (by simp) (by simp) (by simp) (by simp) ?_ ?_
  · intro other
    by_cases he : other = node
    · subst he
      simp [hpc, hdone]
    · simp [he]
  · intro cid other hother
    have hne : other ≠ node := by
      rintro rfl
      exact hwait (h.behind cid _ hother)
    simp [hne]

-- The server works on the request of a session that it has answered.
theorem Inv.serving (h : Inv sys tokens) {pc : Pc} {ret : Status}
    (hpc : (sys.pc node).answer = some ret) (hpc' : pc.answer = some ret)
    (hrev : pc.revokes = (sys.pc node).revokes) (hret : pc.retries = (sys.pc node).retries)
    (hhan : pc.handles = (sys.pc node).handles)
    (hto : ∀ ret cid, pc = .acquiring (.revoking ret (.request cid)) → sys.srv.owner = cid)
    (hself : ∀ rpc, pc = .acquiring (.revoking .ok rpc) →
      rpc = .request (sys.session node).cid ∨ rpc = .reply) :
    Inv (sys.setPc node pc) tokens := by
  have hdone : sys.pc node ≠ .done := by intro he; simp [he, Pc.answer] at hpc
  have hwait : sys.pc node ≠ .waitTurn false := by intro he; simp [he, Pc.answer] at hpc
  have hpcdone : pc ≠ .done := by rintro rfl; cases hpc'
  exact {
    threads := h.threads.setPc hdone hwait hpcdone
    carried := by
      refine h.carried.move node (by simp) (by simp) ?_ (by simpa using hrev) (by simpa using hret)
        (by simpa using hhan) (by simpa using hto) (by simpa using hself)
      intro other he
      simp [he]
    server := by simpa using h.server
    config := by
      intro cid hcid
      rw [headPc_setPc h.threads hdone hwait]
      have hc := h.config cid hcid
      by_cases he : cid = (sys.session node).cid
      · subst he
        rw [h.threads.headPc hdone hwait] at hc
        simpa using hc.answer hpc hpc'
      · simpa [he] using hc }

theorem Inv.sendRevoke (h : Inv sys tokens) (hs : sendRevoke sys node = some next) :
    Inv next tokens := by
  unfold LockCache.sendRevoke at hs
  simp only [Option.bind_eq_bind, Option.bind_eq_some_iff] at hs
  obtain ⟨info, hinfo, hs⟩ := hs
  split at hs
  · rename_i ret hpc
    cases hs
    have hpc : sys.pc node = .acquiring (.revoking ret .pending) := hpc
    have howner : sys.srv.owner = info.owner := by simp [Sys.srv, hinfo]
    refine h.serving (by rw [hpc]; rfl) (by rfl) (by rw [hpc]; rfl) (by rw [hpc]; rfl)
      (by rw [hpc]; rfl) ?_ ?_
    · intro _ cid he
      cases he
      exact howner
    · intro rpc he
      cases he
      simpa using h.carried.revokeSelf node _ hpc
  · cases hs

theorem Inv.revokeDone (h : Inv sys tokens) (hs : revokeDone sys node = some next) :
    Inv next tokens := by
  simp only [LockCache.revokeDone] at hs
  split at hs
  · rename_i ret hpc
    cases hs
    have hpc : sys.pc node = .acquiring (.revoking ret .reply) := hpc
    refine h.serving (by rw [hpc]; rfl) (by rfl) (by rw [hpc]; rfl) (by rw [hpc]; rfl)
      (by rw [hpc]; rfl) ?_ ?_
    · intro _ cid he
      cases he
    · intro rpc he
      cases he
  · cases hs

-- The release call that a session carries has moved on.
def Tokens.moveHandler (tokens : Tokens) (node : Node) (rpc : ReleaseRpc) : Tokens :=
  { tokens with handler := fun cid =>
      (tokens.handler cid).map fun entry => if entry.1 = node then (node, rpc) else entry }

theorem moveHandler_eq_some {rpc : ReleaseRpc} {cid : Cid} {entry : Node × ReleaseRpc} :
    (tokens.moveHandler node rpc).handler cid = some entry ↔
      entry.1 ≠ node ∧ tokens.handler cid = some entry ∨
        entry = (node, rpc) ∧ ∃ old, tokens.handler cid = some (node, old) := by
  rcases entry with ⟨owner, call⟩
  simp only [Tokens.moveHandler, Option.map_eq_some_iff, Prod.exists]
  constructor
  · rintro ⟨holder, old, hold, hnew⟩
    by_cases ho : holder = node
    · subst ho
      simp only [if_true] at hnew
      exact .inr ⟨hnew.symm, old, hold⟩
    · simp only [ho, if_false, Prod.mk.injEq] at hnew
      obtain ⟨rfl, rfl⟩ := hnew
      exact .inl ⟨ho, hold⟩
  · rintro (⟨hne, hold⟩ | ⟨he, old, hold⟩)
    · exact ⟨owner, call, hold, by simp [show owner ≠ node from hne]⟩
    · exact ⟨node, old, hold, by simp [he]⟩

theorem releaseCall_cases {cid : Cid} {rpc : ReleaseRpc}
    (h : (sys.session node).releaseCall = some (cid, rpc)) :
    (sys.pc node = .releasing rpc ∧ (sys.session node).cid = cid) ∨
      ∃ ret, sys.pc node = .acquiring (.revoking ret (.releasing cid rpc)) := by
  unfold Session.releaseCall at h
  split at h
  · rename_i rpc' hpc
    cases h
    exact .inl ⟨hpc, rfl⟩
  · rename_i ret client rpc' hpc
    cases h
    exact .inr ⟨ret, hpc⟩
  · cases h

-- The client of a release call is giving the lock up, and has given it up once
-- the server has seen the request.
theorem Inv.release_role (h : Inv sys tokens) {cid : Cid} {rpc : ReleaseRpc}
    (hcall : (sys.session node).releaseCall = some (cid, rpc)) :
    cid ≠ "" ∧ role sys.srv tokens cid = if rpc = .request then .revoked false else .out := by
  rcases releaseCall_cases hcall with ⟨hpc, rfl⟩ | ⟨ret, hpc⟩
  · have hdone : sys.pc node ≠ .done := by simp [hpc]
    have hne := h.threads.named _ (h.threads.known node hdone)
    have hc := h.config _ hne
    rw [h.threads.headPc hdone (by simp [hpc]), hpc] at hc
    exact ⟨hne, hc.of_releasing.2.2.2⟩
  · have hhan := (h.carried.handler node cid rpc).mp (by rw [hpc]; rfl)
    have hne := h.carried.handlerNamed cid (by simp [hhan])
    have hc := h.config cid hne
    rw [hhan] at hc
    exact ⟨hne, hc.of_handler.2.2.2⟩

theorem setPc_pc_self (sys : Sys) (node : Node) (pc : Pc) : (sys.setPc node pc).pc node = pc := by
  simp

section Release

variable {cid : Cid} {rpc rpc' : ReleaseRpc}

theorem setRelease_ne_done (rpc : ReleaseRpc) {pc : Pc} (hpc : pc ≠ .done) :
    pc.setRelease rpc ≠ .done := by
  cases pc with
  | done => exact absurd rfl hpc
  | acquiring call =>
      simp only [Pc.setRelease]
      split <;> simp_all
  | _ => simp [Pc.setRelease]

theorem releaseCall_front (hcall : (sys.session node).releaseCall = some (cid, rpc)) :
    sys.pc node ≠ .done ∧ sys.pc node ≠ .waitTurn false := by
  rcases releaseCall_cases hcall with ⟨hpc, -⟩ | ⟨ret, hpc⟩ <;> simp [hpc]

-- The client whose lock is given up, once the server has seen the request.
theorem Inv.release_moved (h : Inv sys tokens)
    (hcall : (sys.session node).releaseCall = some (cid, rpc)) (hrpc : rpc' ≠ .request) :
    Config .out (((tokens.moveHandler node rpc').handler cid).map Prod.snd) (sys.info cid).stat
      (sys.info cid).msg ((sys.setPc node ((sys.pc node).setRelease rpc')).headPc cid) := by
  obtain ⟨hne, -⟩ := h.release_role hcall
  obtain ⟨hdone, hwait⟩ := releaseCall_front hcall
  have hc := h.config cid hne
  rw [headPc_setPc h.threads hdone hwait]
  rcases releaseCall_cases hcall with ⟨hpc, rfl⟩ | ⟨ret, hpc⟩
  · rw [h.threads.headPc hdone hwait, hpc] at hc
    obtain ⟨hhan, hstat, hmsg, -⟩ := hc.of_releasing
    have hhan : tokens.handler (sys.session node).cid = none := by simpa using hhan
    rw [hstat, hmsg, hpc]
    simpa [Tokens.moveHandler, hhan, Pc.setRelease] using Config.gave hrpc
  · have hhan := (h.carried.handler node cid rpc).mp (by rw [hpc]; rfl)
    rw [hhan] at hc
    obtain ⟨hstat, hmsg, hhead, -⟩ := hc.of_handler
    have hother : cid ≠ (sys.session node).cid := by
      rintro rfl
      rw [h.threads.headPc hdone hwait, hpc] at hhead
      simp at hhead
    rw [hstat, hmsg]
    simpa [Tokens.moveHandler, hhan, hother] using Config.handlerGave hrpc hhead

-- The other clients see nothing of it.
theorem Inv.release_other (h : Inv sys tokens)
    (hcall : (sys.session node).releaseCall = some (cid, rpc)) (rpc' : ReleaseRpc)
    {client : Cid} (hclient : client ≠ "") (hother : client ≠ cid) :
    Config (role sys.srv tokens client) (((tokens.moveHandler node rpc').handler client).map Prod.snd)
      (sys.info client).stat (sys.info client).msg
      ((sys.setPc node ((sys.pc node).setRelease rpc')).headPc client) := by
  obtain ⟨hdone, hwait⟩ := releaseCall_front hcall
  have hc := h.config client hclient
  have hhandler : ((tokens.moveHandler node rpc').handler client).map Prod.snd =
      (tokens.handler client).map Prod.snd := by
    simp only [Tokens.moveHandler]
    cases hh : tokens.handler client with
    | none => rfl
    | some entry =>
        rcases entry with ⟨owner, call⟩
        by_cases he : owner = node
        · subst he
          have hhan := (h.carried.handler owner client call).mpr hh
          rcases releaseCall_cases hcall with ⟨hpc, -⟩ | ⟨ret, hpc⟩
          · simp [hpc, Pc.handles] at hhan
          · simp only [hpc, Pc.handles, Option.some.injEq, Prod.mk.injEq] at hhan
            exact absurd hhan.1.symm hother
        · simp [he]
  rw [hhandler, headPc_setPc h.threads hdone hwait]
  by_cases he : client = (sys.session node).cid
  · subst he
    rcases releaseCall_cases hcall with ⟨-, hcid⟩ | ⟨ret, hpc⟩
    · exact absurd hcid hother
    · rw [h.threads.headPc hdone hwait] at hc
      simpa [hpc, Pc.setRelease] using hc.answer (by rw [hpc]; rfl) rfl
  · simpa [he] using hc

theorem Carried.moveRelease (h : Carried sys tokens)
    (hcall : (sys.session node).releaseCall = some (cid, rpc)) {retrier : Option Node}
    (hcid : ∀ other, (next.session other).cid = (sys.session other).cid)
    (hnode : next.pc node = (sys.pc node).setRelease rpc')
    (hpc : ∀ other, other ≠ node → next.pc other = sys.pc other ∨ next.pc other = (sys.pc other).signal)
    (hretrier : ∀ other, (next.pc other).retries ≠ none ↔ retrier = some other)
    (hretryTo : ∀ other client, (next.pc other).retries = some client →
      next.srv.stat = .retrying ∧ next.srv.retryingCid = client)
    (hrevoking : tokens.revoker ≠ none → next.srv.stat = .revoking ∧ next.srv.owner = sys.srv.owner) :
    Carried next { tokens.moveHandler node rpc' with retrier := retrier } := by
  have hrev : ∀ other, (next.pc other).revokes = (sys.pc other).revokes := by
    intro other
    by_cases he : other = node
    · subst he
      rw [hnode]
      rcases releaseCall_cases hcall with ⟨hpc, -⟩ | ⟨ret, hpc⟩ <;> rw [hpc] <;> rfl
    · rcases hpc other he with hp | hp <;> simp [hp]
  have hacq : ∀ other call, other ≠ node → next.pc other = .acquiring call →
      sys.pc other = .acquiring call := by
    intro other call he hn
    rcases hpc other he with hp | hp
    · rw [← hp, hn]
    · exact (signal_eq_acquiring _ _).mp (hp ▸ hn)
  exact {
    revoker := fun other => by rw [hrev, h.revoker]; rfl
    retrier := hretrier
    handler := by
      intro other client call
      rw [show ({ tokens.moveHandler node rpc' with retrier := retrier } : Tokens).handler =
        (tokens.moveHandler node rpc').handler from rfl, moveHandler_eq_some]
      by_cases he : other = node
      · subst he
        rw [hnode]
        simp only [← h.handler, ne_eq, not_true_eq_false, false_and, false_or, Prod.mk.injEq, true_and]
        rcases releaseCall_cases hcall with ⟨hp, -⟩ | ⟨ret, hp⟩
        · simp [hp, Pc.setRelease, Pc.handles]
        · simp only [hp, Pc.setRelease, Pc.handles, Option.some.injEq, Prod.mk.injEq, exists_and_left,
            exists_eq', and_true]
          exact ⟨fun hc => ⟨hc.2.symm, hc.1⟩, fun hc => ⟨hc.2, hc.1.symm⟩⟩
      · have hhan : (next.pc other).handles = (sys.pc other).handles := by
          rcases hpc other he with hp | hp <;> simp [hp]
        rw [hhan, h.handler]
        simp [he]
    handlerNamed := by
      intro client hc
      apply h.handlerNamed
      intro he
      simp [Tokens.moveHandler, he] at hc
    revokeTo := by
      intro other ret client hn
      have hr : tokens.revoker = some other := by
        rw [← h.revoker, ← hrev, hn]
        rfl
      rw [(hrevoking (by simp [hr])).2]
      have he : other ≠ node := by
        rintro rfl
        rw [hnode] at hn
        rcases releaseCall_cases hcall with ⟨hp, -⟩ | ⟨_, hp⟩ <;> simp [hp, Pc.setRelease] at hn
      exact h.revokeTo other ret client (hacq other _ he hn)
    revokeSelf := by
      intro other call hn
      rw [hcid]
      by_cases he : other = node
      · subst he
        rw [hnode] at hn
        rcases releaseCall_cases hcall with ⟨hp, -⟩ | ⟨ret, hp⟩
        · simp [hp, Pc.setRelease] at hn
        · simp only [hp, Pc.setRelease, Pc.acquiring.injEq, AcquireRpc.revoking.injEq] at hn
          have := h.revokeSelf other _ (hn.1 ▸ hp)
          simp at this
      · exact h.revokeSelf other call (hacq other _ he hn)
    revoking := fun hr => (hrevoking hr).1
    retryTo := hretryTo }

theorem setRelease_retries (hcall : (sys.session node).releaseCall = some (cid, rpc)) :
    ((sys.pc node).setRelease rpc').retries =
      match rpc' with
      | .retrying client => some client
      | _ => none := by
  rcases releaseCall_cases hcall with ⟨hpc, -⟩ | ⟨ret, hpc⟩ <;> rw [hpc] <;> cases rpc' <;> rfl

theorem releaseCall_retries (hcall : (sys.session node).releaseCall = some (cid, rpc)) :
    (sys.pc node).retries =
      match rpc with
      | .retrying client => some client
      | _ => none := by
  rcases releaseCall_cases hcall with ⟨hpc, -⟩ | ⟨ret, hpc⟩ <;> rw [hpc] <;> cases rpc <;> rfl

theorem Inv.retryDone (h : Inv sys tokens) (hs : retryDone sys node = some next) :
    ∃ tokens', Inv next tokens' := by
  simp only [LockCache.retryDone] at hs
  split at hs
  · rename_i client hcall
    cases hs
    obtain ⟨hdone, hwait⟩ := releaseCall_front hcall
    have hret : ∀ other, ((sys.setPc node ((sys.pc node).setRelease .reply)).pc other).retries =
        (sys.pc other).retries := by
      intro other
      by_cases he : other = node
      · subst he
        simp [setRelease_retries hcall, releaseCall_retries hcall]
      · simp [he]
    refine ⟨tokens.moveHandler node .reply, ?_, ?_, by simpa using h.server, ?_⟩
    · exact h.threads.setPc hdone hwait (setRelease_ne_done _ hdone)
    · refine h.carried.moveRelease hcall (by simp) (setPc_pc_self _ _ _) ?_ ?_ ?_ ?_
      · intro other he
        simp [he]
      · intro other
        exact hret other ▸ h.carried.retrier other
      · intro other client hc
        exact h.carried.retryTo other client (hret other ▸ hc)
      · intro hr
        exact ⟨h.carried.revoking hr, rfl⟩
    · intro cid hcid
      by_cases he : cid = client
      · subst he
        have hrole := (h.release_role hcall).2
        simp only [reduceCtorEq, if_false] at hrole
        have hc := h.release_moved hcall (show ReleaseRpc.reply ≠ .request by simp)
        rw [← hrole] at hc
        exact hc
      · exact h.release_other hcall .reply hcid he
  · cases hs

theorem server_release {info info' : Server.LockInfo} {nextid : Cid}
    (h : Server.release info cid = some (info', nextid)) :
    info.stat = .revoking ∧ info.owner = cid ∧ nextid ∈ info.waitingCids ∧
      info' = { owner := "", retryingCid := nextid, waitingCids := info.waitingCids.erase nextid,
                stat := .retrying } := by
  unfold Server.release at h
  split at h
  · rename_i hcond
    split at h
    · cases h
    · rename_i least hmin
      cases h
      exact ⟨hcond.1, hcond.2, Finset.mem_of_min hmin, rfl⟩
  · cases h

theorem Inv.serveRelease (h : Inv sys tokens) (hs : serveRelease sys node = some next) :
    ∃ tokens', Inv next tokens' := by
  simp only [LockCache.serveRelease] at hs
  split at hs
  · rename_i client hcall
    simp only [Option.bind_eq_bind, Option.bind_eq_some_iff] at hs
    obtain ⟨info, hinfo, ⟨info', nextid⟩, hrel, hs⟩ := hs
    cases hs
    have hsrv : sys.srv = info := by simp [Sys.srv, hinfo]
    obtain ⟨hstat, howner, hmem, rfl⟩ := server_release hrel
    rw [← hsrv] at hstat howner hmem ⊢
    obtain ⟨hdone, hwait⟩ := releaseCall_front hcall
    obtain ⟨hclient, hrole⟩ := h.release_role hcall
    have hne : nextid ≠ client := by
      rintro rfl
      exact h.server.ownerOut (howner ▸ hmem)
    have hrevoker : tokens.revoker = none := by
      simp only [role, howner, hstat, if_true] at hrole
      simpa using hrole
    have hretrier : ∀ other, (sys.pc other).retries = none := by
      intro other
      by_contra hr
      obtain ⟨target, ht⟩ := Option.ne_none_iff_exists'.mp hr
      have := (h.carried.retryTo other target ht).1
      simp [hstat] at this
    refine ⟨{ tokens.moveHandler node (.retrying nextid) with retrier := some node }, ?_, ?_, ?_, ?_⟩
    · exact (h.threads.setPc hdone hwait (setRelease_ne_done _ hdone)).setServer _
    · refine h.carried.moveRelease hcall (by simp) (setPc_pc_self _ _ _) ?_ ?_ ?_ ?_
      · intro other he
        simp [he]
      · intro other
        by_cases he : other = node
        · subst he
          simp [setRelease_retries hcall]
        · simp [he, Ne.symm he, hretrier]
      · intro other target ht
        by_cases he : other = node
        · subst he
          simpa [setRelease_retries hcall] using ht
        · simp [he, hretrier] at ht
      · intro hr
        exact absurd hrevoker hr
    · have hnonempty := h.server.nonempty
      have hnext : nextid ≠ "" := by
        rintro rfl
        exact hnonempty hmem
      constructor <;> simp [hnext, hnonempty]
    · intro cid hcid
      have hretrying := (h.server.revoking hstat).2.1
      by_cases he : cid = client
      · subst he
        have hout : cid ∉ sys.srv.waitingCids := howner ▸ h.server.ownerOut
        have hc := h.release_moved hcall (show ReleaseRpc.retrying nextid ≠ .request by simp)
        simpa [role, hcid.symm, hne, hout] using hc
      · have hc := h.release_other hcall (.retrying nextid) hcid he
        have howner' : sys.srv.owner ≠ cid := howner ▸ Ne.symm he
        by_cases hn : cid = nextid
        · subst hn
          have hold : role sys.srv tokens cid = .waiting := by
            simp [role, howner', hretrying, hcid.symm, hmem]
          rw [hold] at hc
          simpa [role, hcid.symm] using hc.call
        · simpa [role, hcid.symm, howner', hretrying, hn, Ne.symm hn] using hc
  · cases hs

theorem setRelease_signal (hcall : (sys.session node).releaseCall = some (cid, rpc)) :
    ((sys.pc node).setRelease rpc').signal = (sys.pc node).setRelease rpc' := by
  rcases releaseCall_cases hcall with ⟨hpc, -⟩ | ⟨ret, hpc⟩ <;> rw [hpc] <;> rfl

theorem Inv.retry (h : Inv sys tokens) (hs : retry sys node = some next) :
    ∃ tokens', Inv next tokens' := by
  simp only [LockCache.retry] at hs
  split at hs
  · rename_i client target hcall
    simp only [Option.bind_eq_bind, Option.bind_eq_some_iff] at hs
    obtain ⟨info, hinfo, hs⟩ := hs
    split at hs
    · cases hs
    · cases hs
      rw [setInfo_setPc]
      have hretries := releaseCall_retries hcall
      obtain ⟨hstat, htarget⟩ := h.carried.retryTo node target hretries
      obtain ⟨howner, hretrying⟩ := h.server.retrying hstat
      rw [htarget] at hretrying
      have hretrier := (h.carried.retrier node).mp (by simp [hretries])
      have hrevoker : tokens.revoker = none := by
        by_contra hr
        simpa [hstat] using h.carried.revoking hr
      obtain ⟨hdone, hwait⟩ := releaseCall_front hcall
      obtain ⟨hclient, hrole⟩ := h.release_role hcall
      simp only [reduceCtorEq, if_false] at hrole
      have hroleTarget : role sys.srv tokens target = .retrying true := by
        simp [role, howner, Ne.symm hretrying, htarget, hretrier]
      have hne : target ≠ client := by
        rintro rfl
        simp [hroleTarget] at hrole
      have hmoved := h.threads.setPc hdone hwait (setRelease_ne_done .retried hdone)
      have hinfo' : (sys.setPc node ((sys.pc node).setRelease .retried)).client target = some info := hinfo
      have hset := hmoved.setInfo hinfo' { info with msg := .retry } rfl
      have hlist : (((sys.setPc node ((sys.pc node).setRelease .retried)).setInfo target
          { info with msg := .retry }).info target).threads = info.threads := by simp
      have hnone : ∀ other, ((((sys.setPc node ((sys.pc node).setRelease .retried)).setInfo target
          { info with msg := .retry }).signalFront info.threads).pc other).retries = none := by
        intro other
        have hsignal : ∀ (front : Prop) [Decidable front] (pc : Pc),
            (if front then pc.signal else pc).retries = pc.retries := by
          intro front _ pc
          split <;> simp
        rw [signalFront_pc, hsignal, setInfo_pc, setPc_pc]
        by_cases he : other = node
        · simp [he, setRelease_retries hcall]
        · by_contra hr
          rw [if_neg he, ← ne_eq, h.carried.retrier, hretrier] at hr
          exact he (Option.some.inj hr).symm
      refine ⟨{ tokens.moveHandler node .retried with retrier := none }, ?_, ?_, ?_, ?_⟩
      · exact hset.signalFront hlist
      · refine h.carried.moveRelease hcall (by simp) ?_ ?_ ?_ ?_ ?_
        · simp [setRelease_signal hcall]
        · intro other he
          by_cases hh : info.threads.head? = some other <;> simp [he, hh]
        · intro other
          simpa using hnone other
        · intro other cid hc
          rw [session_pc, hnone other] at hc
          cases hc
        · intro hr
          exact absurd hrevoker hr
      · simpa using h.server
      · intro cid hcid
        have hkeep := headPc_setInfo hinfo' { info with msg := .retry } rfl
        rw [session_pc, hset.headPc_signalFront hlist, hkeep, hkeep]
        by_cases he : cid = target
        · subst he
          have hc := h.release_other hcall .retried hcid hne
          rw [hroleTarget] at hc
          obtain ⟨hhan, hacq, hmsg, pc, hhead, hpc⟩ := hc.of_refusable (.inr rfl)
          rw [info_eq hinfo] at hacq
          have hcalled : Config (.retrying false) none .acquiring .retry (some pc.signal) := by
            apply Config.called
            rcases hpc with hpc | rfl
            · exact .inl (by simpa using hpc)
            · exact .inr rfl
          simpa [role, howner, Ne.symm hretrying, htarget, hhead, hacq, hhan] using hcalled
        · have hrole' : role sys.srv { tokens.moveHandler node .retried with retrier := none } cid =
              role sys.srv tokens cid := by
            simp [role, howner, hcid.symm, htarget, Ne.symm he]
          by_cases hx : cid = client
          · subst hx
            have hc := h.release_moved hcall (show ReleaseRpc.retried ≠ .request by simp)
            simpa [hrole', hrole, he] using hc
          · have hc := h.release_other hcall .retried hcid hx
            simpa [hrole', he] using hc
  · cases hs

end Release

end CseLabs.LockCache
