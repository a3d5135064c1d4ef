import CseLabs.LockCache.Steps

namespace CseLabs.LockCache

variable {sys next : Sys} {tokens : Tokens} {node : Node}

-- What the server can do with a request.
inductive Served (info : Server.LockInfo) (id : Cid) : Server.LockInfo → Server.Outcome → Prop
  | first (hstat : info.stat = .none) (howner : info.owner = "") :
      Served info id { info with stat := .locked, owner := id } (.reply .ok)
  | contend (hstat : info.stat = .locked) (hout : id ∉ info.waitingCids) (howner : info.owner ≠ "")
      (hne : info.owner ≠ id) :
      Served info id { info with waitingCids := insert id info.waitingCids, stat := .revoking }
        .revokeOwner
  | queue (hstat : info.stat = .revoking ∨ info.stat = .retrying ∧ id ≠ info.retryingCid)
      (hout : id ∉ info.waitingCids) :
      Served info id { info with waitingCids := insert id info.waitingCids } (.reply .retry)
  | retried (hstat : info.stat = .retrying) (hout : id ∉ info.waitingCids)
      (hid : id = info.retryingCid) (hempty : info.waitingCids = ∅) :
      Served info id { info with retryingCid := "", stat := .locked, owner := id } (.reply .ok)
  | retriedRevoke (hstat : info.stat = .retrying) (hout : id ∉ info.waitingCids)
      (hid : id = info.retryingCid) (hempty : info.waitingCids ≠ ∅) :
      Served info id { info with retryingCid := "", stat := .revoking, owner := id } .revokeSelf

theorem server_acquire {info info' : Server.LockInfo} {id : Cid} {outcome : Server.Outcome}
    (h : Server.acquire info id = some (info', outcome)) : Served info id info' outcome := by
  unfold Server.acquire at h
  split at h
  · rename_i hstat
    split at h
    · rename_i howner
      cases h
      exact .first hstat howner
    · cases h
  · rename_i hstat
    split at h
    · rename_i hcond
      cases h
      exact .contend hstat hcond.1 hcond.2.1 hcond.2.2
    · cases h
  · rename_i hstat
    split at h
    · rename_i hout
      cases h
      exact .queue (.inl hstat) hout
    · cases h
  · rename_i hstat
    split at h
    · cases h
    · rename_i hout
      split at h
      · rename_i hid
        split at h
        · rename_i hempty
          cases h
          exact .retried hstat hout hid hempty
        · rename_i hempty
          cases h
          exact .retriedRevoke hstat hout hid hempty
      · rename_i hid
        cases h
        exact .queue (.inr ⟨hstat, hid⟩) hout

-- The request of a session is answered, possibly with a revoke to send first.
theorem Carried.serve (h : Carried sys tokens) (hpc : sys.pc node = .acquiring .request)
    {rpc : AcquireRpc} {srv : Server.LockInfo} {revoker : Option Node}
    (hret : (Pc.acquiring rpc).retries = none) (hhan : (Pc.acquiring rpc).handles = none)
    (hrev : revoker = if (Pc.acquiring rpc).revokes then some node else tokens.revoker)
    (hold : tokens.revoker ≠ none → (Pc.acquiring rpc).revokes = false ∧ srv.stat = .revoking ∧
      srv.owner = sys.srv.owner)
    (hnew : (Pc.acquiring rpc).revokes = true → srv.stat = .revoking)
    (hto : ∀ ret cid, rpc = .revoking ret (.request cid) → srv.owner = cid)
    (hself : ∀ call, rpc = .revoking .ok call → call = .request (sys.session node).cid ∨ call = .reply)
    (hretry : tokens.retrier ≠ none → srv.stat = .retrying ∧ srv.retryingCid = sys.srv.retryingCid) :
    Carried ((sys.setPc node (.acquiring rpc)).setServer srv) { tokens with revoker := revoker } := by
  have hnode : tokens.revoker ≠ some node := by
    rw [ne_eq, ← h.revoker, hpc]
    simp [Pc.revokes]
  exact {
    revoker := by
      intro other
      by_cases he : other = node
      · subst he
        cases hr : (Pc.acquiring rpc).revokes <;> simp [hrev, hr, hnode]
      · have hold' := h.revoker other
        cases hr : (Pc.acquiring rpc).revokes with
        | false => simpa [hrev, hr, he] using hold'
        | true =>
            have hnone : tokens.revoker = none := by
              by_contra hc
              simpa [hr] using (hold hc).1
            simpa [hrev, hr, he, hnone, Ne.symm he] using hold'
    retrier := by
      intro other
      by_cases he : other = node
      · subst he
        have hold' := h.retrier other
        simp only [hpc, Pc.retries, ne_eq, not_true_eq_false, false_iff] at hold'
        simp [hret, hold']
      · simpa [he] using h.retrier other
    handler := by
      intro other cid call
      by_cases he : other = node
      · subst he
        have hold' := h.handler other cid call
        simp only [hpc, Pc.handles, reduceCtorEq, false_iff] at hold'
        simp [hhan, hold']
      · simpa [he] using h.handler other cid call
    handlerNamed := h.handlerNamed
    revokeTo := by
      intro other ret cid hn
      by_cases he : other = node
      · subst he
        simp only [setServer_pc, setPc_pc, if_true, Pc.acquiring.injEq] at hn
        exact hto ret cid hn
      · simp only [setServer_pc, setPc_pc, he, if_false] at hn
        have hr : tokens.revoker = some other := by
          rw [← h.revoker, hn]
          rfl
        have ho := (hold (by simp [hr])).2.2
        rw [setServer_srv, ho]
        exact h.revokeTo other ret cid hn
    revokeSelf := by
      intro other call hn
      by_cases he : other = node
      · subst he
        simp only [setServer_pc, setPc_pc, if_true, Pc.acquiring.injEq] at hn
        simpa using hself call hn
      · simp only [setServer_pc, setPc_pc, he, if_false] at hn
        simpa using h.revokeSelf other call hn
    revoking := by
      intro hr
      cases hv : (Pc.acquiring rpc).revokes with
      | true => exact hnew hv
      | false =>
          simp only [hrev, hv, Bool.false_eq_true, if_false] at hr
          exact (hold hr).2.1
    retryTo := by
      intro other cid hn
      by_cases he : other = node
      · subst he
        simp [hret] at hn
      · simp only [setServer_pc, setPc_pc, he, if_false] at hn
        have hr := (h.retrier other).mp (by simp [hn])
        obtain ⟨hstat, hcid⟩ := hretry (by simp [hr])
        exact ⟨hstat, hcid.trans (h.retryTo other cid hn).2⟩ }

-- The client whose request is served, and everyone else.
theorem Inv.serve (h : Inv sys tokens) (hpc : sys.pc node = .acquiring .request)
    {rpc : AcquireRpc} {srv : Server.LockInfo} {tokens' : Tokens}
    (hcarried : Carried ((sys.setPc node (.acquiring rpc)).setServer srv) tokens')
    (hserver : Consistent srv) (hhandler : tokens'.handler = tokens.handler)
    (hself : Config (role srv tokens' (sys.session node).cid) none .acquiring .empty
      (some (.acquiring rpc)))
    (hother : ∀ cid, cid ≠ "" → cid ≠ (sys.session node).cid →
      role srv tokens' cid = role sys.srv tokens cid ∨
        role sys.srv tokens cid = .owner ∧ role srv tokens' cid = .revoked true) :
    Inv ((sys.setPc node (.acquiring rpc)).setServer srv) tokens' := by
  have hdone : sys.pc node ≠ .done := by simp [hpc]
  have hwait : sys.pc node ≠ .waitTurn false := by simp [hpc]
  refine ⟨(h.threads.setPc hdone hwait (by simp)).setServer srv, hcarried, hserver, ?_⟩
  intro cid hcid
  have hc := h.config cid hcid
  rw [setServer_srv, setServer_headPc, headPc_setPc h.threads hdone hwait, hhandler]
  by_cases he : cid = (sys.session node).cid
  · subst he
    rw [h.threads.headPc hdone hwait, hpc] at hc
    obtain ⟨hhan, hstat, hmsg, -⟩ := hc.of_request
    rw [hhan]
    simpa [hstat, hmsg] using hself
  · simp only [he, if_false]
    rcases hother cid hcid he with hr | ⟨hold, hnew⟩
    · rw [hr]
      exact hc
    · rw [hold] at hc
      rw [hnew]
      exact hc.revoke

theorem Inv.revoker_none (h : Inv sys tokens) (hstat : sys.srv.stat ≠ .revoking) :
    tokens.revoker = none := by
  by_contra hr
  exact hstat (h.carried.revoking hr)

theorem Inv.retrier_none (h : Inv sys tokens) (hstat : sys.srv.stat ≠ .retrying) :
    tokens.retrier = none := by
  by_contra hr
  obtain ⟨other, ho⟩ := Option.ne_none_iff_exists'.mp hr
  obtain ⟨cid, hcid⟩ := Option.ne_none_iff_exists'.mp ((h.carried.retrier other).mpr ho)
  exact hstat (h.carried.retryTo other cid hcid).1

theorem Inv.request_role (h : Inv sys tokens) (hpc : sys.pc node = .acquiring .request) :
    (sys.session node).cid ≠ "" ∧
      (role sys.srv tokens (sys.session node).cid = .out ∨
        role sys.srv tokens (sys.session node).cid = .retrying false) := by
  have hdone : sys.pc node ≠ .done := by simp [hpc]
  have hne := h.threads.named _ (h.threads.known node hdone)
  have hc := h.config _ hne
  rw [h.threads.headPc hdone (by simp [hpc]), hpc] at hc
  exact ⟨hne, hc.of_request.2.2.2⟩

theorem Inv.serveAcquire (h : Inv sys tokens) (hs : serveAcquire sys node = some next) :
    ∃ tokens', Inv next tokens' := by
  simp only [LockCache.serveAcquire] at hs
  split at hs
  · rename_i hpc
    simp only [Option.bind_eq_bind, Option.bind_eq_some_iff] at hs
    obtain ⟨⟨info, outcome⟩, hacq, hs⟩ := hs
    cases hs
    have hpc : sys.pc node = .acquiring .request := hpc
    have hserved : Served sys.srv (sys.session node).cid info outcome := server_acquire hacq
    obtain ⟨hne, hrole⟩ := h.request_role hpc
    have howner : sys.srv.owner ≠ (sys.session node).cid := by
      intro he
      simp only [role, he, if_true] at hrole
      split at hrole <;> simp at hrole
    rw [setServer_setPc]
    generalize hcid : (sys.session node).cid = cid at *
    cases hserved with
    | first hstat hempty =>
        obtain ⟨-, hretrying, hwaiting⟩ := h.server.none hstat
        have hr := h.revoker_none (by simp [hstat])
        have ht := h.retrier_none (by simp [hstat])
        refine ⟨{ tokens with revoker := tokens.revoker }, h.serve hpc ?_ ?_ rfl ?_ ?_⟩
        · exact h.carried.serve hpc rfl rfl rfl (absurd hr) (by simp [Pc.revokes]) (by simp) (by simp)
            (absurd ht)
        · constructor <;> simp [hretrying, hwaiting, hne]
        · rw [hcid]
          exact .granted (.inl (by simp [role])) rfl
        · intro other hother hdiff
          rw [hcid] at hdiff
          left
          simp [role, hretrying, hwaiting, hempty, hother.symm, Ne.symm hdiff]
    | contend hstat hout hempty hdiff =>
        obtain ⟨-, hretrying, hwaiting⟩ := h.server.locked hstat
        have hr := h.revoker_none (by simp [hstat])
        have ht := h.retrier_none (by simp [hstat])
        refine ⟨{ tokens with revoker := some node }, h.serve hpc ?_ ?_ rfl ?_ ?_⟩
        · exact h.carried.serve hpc rfl rfl rfl (absurd hr) (by simp) (by simp) (by simp) (absurd ht)
        · constructor <;> simp [hretrying, hwaiting, hempty, hdiff, hne.symm]
        · rw [hcid]
          exact .refused (.inl (by simp [role, hdiff, hretrying, hne.symm])) (.inl rfl)
        · intro other hother hsame
          rw [hcid] at hsame
          by_cases ho : sys.srv.owner = other
          · right
            simp [role, ho, hstat]
          · left
            simp [role, ho, hretrying, hother.symm, hwaiting, hsame]
    | queue hstat hout =>
        have hretrying : sys.srv.retryingCid ≠ cid := by
          rcases hstat with hstat | ⟨-, hid⟩
          · rw [(h.server.revoking hstat).2.1]
            exact hne.symm
          · exact hid.symm
        refine ⟨{ tokens with revoker := tokens.revoker }, h.serve hpc ?_ ?_ rfl ?_ ?_⟩
        · refine h.carried.serve hpc rfl rfl rfl ?_ (by simp [Pc.revokes]) (by simp) (by simp) ?_
          · intro hr
            exact ⟨rfl, h.carried.revoking hr, rfl⟩
          · intro ht
            refine ⟨?_, rfl⟩
            by_contra hc
            exact ht (h.retrier_none hc)
        · constructor
          · intro hn
            rcases hstat with hstat | ⟨hstat, -⟩ <;> simp [hstat] at hn
          · intro hn
            rcases hstat with hstat | ⟨hstat, -⟩ <;> simp [hstat] at hn
          · intro hn
            obtain ⟨ho, hempty, -⟩ := h.server.revoking hn
            exact ⟨ho, hempty, by simp⟩
          · exact h.server.retrying
          · simp [howner, h.server.ownerOut]
          · simp [hretrying, h.server.retryingOut]
          · simp [hne.symm, h.server.nonempty]
        · rw [hcid]
          exact .refused (.inl (by simp [role, howner, hretrying])) (.inl rfl)
        · intro other hother hsame
          rw [hcid] at hsame
          left
          simp [role, hsame]
    | retried hstat hout hid hempty =>
        obtain ⟨hnone, -⟩ := h.server.retrying hstat
        have hr := h.revoker_none (by simp [hstat])
        have ht : tokens.retrier = none := by simpa [role, howner, ← hid] using hrole
        refine ⟨{ tokens with revoker := tokens.revoker }, h.serve hpc ?_ ?_ rfl ?_ ?_⟩
        · exact h.carried.serve hpc rfl rfl rfl (absurd hr) (by simp [Pc.revokes]) (by simp) (by simp)
            (absurd ht)
        · constructor <;> simp [hempty, hne]
        · rw [hcid]
          exact .granted (.inl (by simp [role])) rfl
        · intro other hother hsame
          rw [hcid] at hsame
          left
          simp [role, hnone, ← hid, hempty, hother.symm, Ne.symm hsame]
    | retriedRevoke hstat hout hid hempty =>
        obtain ⟨hnone, -⟩ := h.server.retrying hstat
        have hr := h.revoker_none (by simp [hstat])
        have ht : tokens.retrier = none := by simpa [role, howner, ← hid] using hrole
        refine ⟨{ tokens with revoker := some node }, h.serve hpc ?_ ?_ rfl ?_ ?_⟩
        · refine h.carried.serve hpc rfl rfl rfl (absurd hr) (by simp) ?_ ?_ (absurd ht)
          · intro ret client he
            cases he
            rfl
          · intro call he
            cases he
            exact .inl (by rw [hcid])
        · constructor <;> simp [hempty, hne, hout, h.server.nonempty]
        · rw [hcid]
          exact .granted (.inr (by simp [role])) rfl
        · intro other hother hsame
          rw [hcid] at hsame
          left
          simp [role, hnone, ← hid, hother.symm, Ne.symm hsame]
  · cases hs

-- The revoke reaches its client: the call goes on without it.
theorem Carried.deliver (h : Carried sys tokens) {ret : Status} {client : Cid} {rpc : RevokeRpc}
    {handler : Cid → Option (Node × ReleaseRpc)} {info : Client.LockInfo}
    (hpc : sys.pc node = .acquiring (.revoking ret (.request client)))
    (hrev : (Pc.acquiring (.revoking ret rpc)).revokes = false)
    (hret : (Pc.acquiring (.revoking ret rpc)).retries = none)
    (hself : ret = .ok → rpc = .reply)
    (hnamed : ∀ cid, handler cid ≠ none → cid ≠ "")
    (hnode : ∀ cid call, (Pc.acquiring (.revoking ret rpc)).handles = some (cid, call) ↔
      handler cid = some (node, call))
    (hother : ∀ other cid call, other ≠ node →
      (tokens.handler cid = some (other, call) ↔ handler cid = some (other, call))) :
    Carried ((sys.setPc node (.acquiring (.revoking ret rpc))).setInfo client info)
      { tokens with revoker := none, handler := handler } := by
  have hrevoker := (h.revoker node).mp (by rw [hpc]; rfl)
  have hnone : ∀ other, other ≠ node → (sys.pc other).revokes = false := by
    intro other he
    by_contra hr
    have := (h.revoker other).mp (by simpa using hr)
    exact he (Option.some.inj (this.symm.trans hrevoker))
  exact {
    revoker := by
      intro other
      by_cases he : other = node
      · subst he
        simp [hrev]
      · simp [he, hnone other he]
    retrier := by
      intro other
      by_cases he : other = node
      · subst he
        have hold := h.retrier other
        simp only [hpc, Pc.retries, ne_eq, not_true_eq_false, false_iff] at hold
        simp [hret, hold]
      · simpa [he] using h.retrier other
    handler := by
      intro other cid call
      by_cases he : other = node
      · subst he
        simpa using hnode cid call
      · rw [← hother other cid call he, ← h.handler]
        simp [he]
    handlerNamed := hnamed
    revokeTo := by
      intro other ret' cid hn
      by_cases he : other = node
      · subst he
        simp only [setInfo_pc, setPc_pc, if_true, Pc.acquiring.injEq, AcquireRpc.revoking.injEq] at hn
        rw [hn.2] at hrev
        simp [Pc.revokes] at hrev
      · have hr := hnone other he
        simp only [setInfo_pc, setPc_pc, he, if_false] at hn
        simp [hn, Pc.revokes] at hr
    revokeSelf := by
      intro other call hn
      by_cases he : other = node
      · subst he
        simp only [setInfo_pc, setPc_pc, if_true, Pc.acquiring.injEq, AcquireRpc.revoking.injEq] at hn
        exact .inr (hn.2.symm.trans (hself hn.1))
      · simp only [setInfo_pc, setPc_pc, he, if_false] at hn
        simpa using h.revokeSelf other call hn
    revoking := fun hr => absurd rfl hr
    retryTo := by
      intro other cid hn
      by_cases he : other = node
      · subst he
        simp [hret] at hn
      · simp only [setInfo_pc, setPc_pc, he, if_false] at hn
        exact h.retryTo other cid hn }

theorem Threads.setPc_setInfo (h : Threads sys) (hdone : sys.pc node ≠ .done)
    (hwait : sys.pc node ≠ .waitTurn false) {pc : Pc} (hpc : pc ≠ .done) {cid : Cid}
    {info : Client.LockInfo} (hinfo : sys.client cid = some info) (info' : Client.LockInfo)
    (hlist : info'.threads = info.threads) :
    Threads ((sys.setPc node pc).setInfo cid info') := by
  exact (h.setPc hdone hwait hpc).setInfo hinfo info' hlist

theorem headPc_setPc_setInfo (h : Threads sys) (hdone : sys.pc node ≠ .done)
    (hwait : sys.pc node ≠ .waitTurn false) (pc : Pc) {cid : Cid} {info : Client.LockInfo}
    (hinfo : sys.client cid = some info) (info' : Client.LockInfo)
    (hlist : info'.threads = info.threads) (other : Cid) :
    ((sys.setPc node pc).setInfo cid info').headPc other =
      if other = (sys.session node).cid then some pc else sys.headPc other := by
  have hinfo' : (sys.setPc node pc).client cid = some info := hinfo
  rw [← headPc_setPc h hdone hwait]
  exact headPc_setInfo hinfo' info' hlist other

theorem Inv.revoke (h : Inv sys tokens) (hs : revoke sys node = some next) :
    ∃ tokens', Inv next tokens' := by
  simp only [LockCache.revoke] at hs
  split at hs
  · rename_i ret client hpc
    simp only [Option.bind_eq_bind, Option.bind_eq_some_iff] at hs
    obtain ⟨info, hinfo, hs⟩ := hs
    have hpc : sys.pc node = .acquiring (.revoking ret (.request client)) := hpc
    have hdone : sys.pc node ≠ .done := by simp [hpc]
    have hwait : sys.pc node ≠ .waitTurn false := by simp [hpc]
    have hrevoker := (h.carried.revoker node).mp (by rw [hpc]; rfl)
    have hstat := h.carried.revoking (by simp [hrevoker])
    have howner := h.carried.revokeTo node ret client hpc
    have hne : client ≠ "" := howner ▸ (h.server.revoking hstat).1
    have hc := h.config client hne
    rw [info_eq hinfo, show role sys.srv tokens client = .revoked true by
      simp [role, howner, hstat, hrevoker]] at hc
    obtain ⟨hhan, hmsg, hcases⟩ := hc.of_revoked
    have hhan : tokens.handler client = none := by simpa using hhan
    -- the clients other than the owner keep their role, with or without the message
    have hrole : ∀ handler other, other ≠ client →
        role sys.srv { tokens with revoker := none, handler := handler } other =
          role sys.srv tokens other := by
      intro handler other ho
      simp [role, howner, Ne.symm ho]
    have hroleClient : ∀ handler,
        role sys.srv { tokens with revoker := none, handler := handler } client = .revoked false := by
      intro handler
      simp [role, howner, hstat]
    split at hs
    · rename_i hfree
      cases hs
      obtain hhead : sys.headPc client = none := by
        rcases hcases with ⟨-, hhead⟩ | ⟨_, hl, -⟩ | ⟨_, hl, -⟩
        · exact hhead
        · simp [hfree] at hl
        · simp [hfree] at hl
      have hcid : (sys.session node).cid ≠ client := by
        rintro rfl
        rw [h.threads.headPc hdone hwait] at hhead
        cases hhead
      rw [setInfo_setPc]
      refine ⟨{ tokens with
        revoker := none
        handler := Function.update tokens.handler client (some (node, .request)) }, ?_, ?_, ?_, ?_⟩
      · exact h.threads.setPc_setInfo hdone hwait (by simp) hinfo _ rfl
      · refine h.carried.deliver hpc rfl rfl ?_ ?_ ?_ ?_
        · rintro rfl
          rcases h.carried.revokeSelf node _ hpc with he | he
          · exact absurd (RevokeRpc.request.inj he).symm hcid
          · cases he
        · intro cid hn
          by_cases he : cid = client
          · exact he ▸ hne
          · exact h.carried.handlerNamed cid (by simpa [he] using hn)
        · intro cid call
          by_cases he : cid = client
          · subst he
            simp [Pc.handles]
          · have hold := h.carried.handler node cid call
            simp only [hpc, Pc.handles, reduceCtorEq, false_iff] at hold
            simp [Pc.handles, he, hold, Ne.symm he]
        · intro other cid call ho
          by_cases he : cid = client
          · subst he
            simp [hhan, Ne.symm ho]
          · simp [he]
      · simpa using h.server
      · intro cid hcid'
        rw [headPc_setPc_setInfo h.threads hdone hwait _ hinfo { info with stat := .releasing } rfl,
          setInfo_srv, setPc_srv]
        by_cases he : cid = client
        · subst he
          rw [hroleClient]
          simpa [Ne.symm hcid, hhead, hmsg] using Config.handlerGiving (.inl rfl)
        · rw [hrole _ cid he]
          have hold := h.config cid hcid'
          by_cases hn : cid = (sys.session node).cid
          · subst hn
            rw [h.threads.headPc hdone hwait] at hold
            have hans : (Pc.acquiring (.revoking ret (.releasing client .request))).answer = some ret := rfl
            simpa [he] using hold.answer (by rw [hpc]; rfl) hans
          · simpa [he, hn] using hold
    · rename_i hfree
      cases hs
      rw [setInfo_setPc]
      refine ⟨{ tokens with revoker := none, handler := tokens.handler }, ?_, ?_, ?_, ?_⟩
      · exact h.threads.setPc_setInfo hdone hwait (by simp) hinfo _ rfl
      · refine h.carried.deliver hpc rfl rfl (fun _ => rfl) h.carried.handlerNamed ?_ (by simp)
        intro cid call
        have hold := h.carried.handler node cid call
        simp only [hpc, Pc.handles, reduceCtorEq, false_iff] at hold
        simp [Pc.handles, hold]
      · simpa using h.server
      · intro cid hcid
        rw [headPc_setPc_setInfo h.threads hdone hwait _ hinfo { info with msg := .revoke } rfl,
          setInfo_srv, setPc_srv]
        have hold : Config (role sys.srv tokens cid) ((tokens.handler cid).map Prod.snd)
            (sys.info cid).stat (sys.info cid).msg
            (if cid = (sys.session node).cid then some (.acquiring (.revoking ret .reply))
              else sys.headPc cid) := by
          have hold := h.config cid hcid
          split
          · rename_i hn
            rw [hn, h.threads.headPc hdone hwait, ← hn] at hold
            exact hold.answer (by rw [hpc]; rfl) rfl
          · exact hold
        by_cases he : cid = client
        · subst he
          rw [show role sys.srv tokens cid = .revoked true by
            simp [role, howner, hstat, hrevoker], info_eq hinfo] at hold
          rw [hroleClient]
          simpa using hold.deliver hfree
        · rw [hrole _ cid he]
          simpa [he] using hold
  · cases hs

end CseLabs.LockCache
