import CseLabs.LockCache.Grant

namespace CseLabs.LockCache

variable {sys next : Sys} {tokens : Tokens} {node : Node}

-- A call that carries none of the messages the server waits for.
def Pc.quiet : Pc → Bool
  | .acquiring (.revoking _ _) => false
  | .releasing (.retrying _) => false
  | _ => true

theorem quiet_silent {pc : Pc} (h : pc.quiet = true) :
    pc.revokes = false ∧ pc.retries = none ∧ pc.handles = none ∧
      ∀ ret rpc, pc ≠ .acquiring (.revoking ret rpc) := by
  cases pc with
  | acquiring rpc => cases rpc <;> simp_all [Pc.quiet, Pc.revokes, Pc.retries, Pc.handles]
  | releasing rpc => cases rpc <;> simp_all [Pc.quiet, Pc.revokes, Pc.retries, Pc.handles]
  | _ => simp [Pc.revokes, Pc.retries, Pc.handles]

theorem Carried.quiet (h : Carried sys tokens) (node : Node)
    (hcid : ∀ other, sys.pc other ≠ .done → (next.session other).cid = (sys.session other).cid)
    (hsrv : next.srv = sys.srv)
    (hpc : ∀ other, other ≠ node → next.pc other = sys.pc other ∨ next.pc other = (sys.pc other).signal)
    (hold : (sys.pc node).quiet = true) (hnew : (next.pc node).quiet = true) :
    Carried next tokens := by
  obtain ⟨hrev, hret, hhan, -⟩ := quiet_silent hold
  obtain ⟨hrev', hret', hhan', hacq'⟩ := quiet_silent hnew
  exact h.move node hcid hsrv hpc (hrev'.trans hrev.symm) (hret'.trans hret.symm)
    (hhan'.trans hhan.symm) (fun _ _ he => absurd he (hacq' _ _)) (fun _ he => absurd he (hacq' _ _))

-- The front thread of a client goes on and changes stat or msg.
theorem Inv.advance (h : Inv sys tokens) {pc : Pc} {info info' : Client.LockInfo}
    (hinfo : sys.client (sys.session node).cid = some info) (hlist : info'.threads = info.threads)
    (hdone : sys.pc node ≠ .done) (hwait : sys.pc node ≠ .waitTurn false) (hpc : pc ≠ .done)
    (hold : (sys.pc node).quiet = true) (hnew : pc.quiet = true)
    (hconfig : Config (role sys.srv tokens (sys.session node).cid)
        ((tokens.handler (sys.session node).cid).map Prod.snd) info.stat info.msg (some (sys.pc node)) →
      Config (role sys.srv tokens (sys.session node).cid)
        ((tokens.handler (sys.session node).cid).map Prod.snd) info'.stat info'.msg (some pc)) :
    Inv ((sys.setPc node pc).setInfo (sys.session node).cid info') tokens where
  threads := h.threads.setPc_setInfo hdone hwait hpc hinfo info' hlist
  carried := by
    refine h.carried.quiet node (by simp) (by simp) ?_ hold (by simpa using hnew)
    intro other he
    simp [he]
  server := by simpa using h.server
  config := by
    intro cid hcid
    rw [headPc_setPc_setInfo h.threads hdone hwait pc hinfo info' hlist]
    have hc := h.config cid hcid
    by_cases he : cid = (sys.session node).cid
    · subst he
      rw [h.threads.headPc hdone hwait, info_eq hinfo] at hc
      simpa using hconfig hc
    · simpa [he] using hc

theorem setPc_setInfo_self {pc : Pc} {cid : Cid} {info : Client.LockInfo}
    (h : sys.client cid = some info) : (sys.setPc node pc).setInfo cid info = sys.setPc node pc := by
  simp [Sys.setInfo, Sys.setPc, ← h]

theorem Inv.wake (h : Inv sys tokens) (hs : wake sys node = some next) : Inv next tokens := by
  simp only [LockCache.wake, Option.bind_eq_bind, Option.bind_eq_some_iff] at hs
  obtain ⟨info, hinfo, hs⟩ := hs
  split at hs
  · rename_i hpc
    cases hs
    have hpc : sys.pc node = .waitFirst true := hpc
    refine h.advance hinfo rfl (by simp [hpc]) (by simp [hpc]) (by simp) (by rw [hpc]; rfl) rfl ?_
    rw [hpc]
    intro hc
    obtain ⟨hhan, -, hmsg, hrole⟩ := hc.of_waitFirst
    simpa [hhan, hmsg, hrole] using Config.asking (.inl rfl)
  · rename_i hpc
    have hpc : sys.pc node = .waitTurn true := hpc
    have hdone : sys.pc node ≠ .done := by simp [hpc]
    have hwait : sys.pc node ≠ .waitTurn false := by simp [hpc]
    have hc := h.config _ (h.threads.named _ (h.threads.known node hdone))
    rw [h.threads.headPc hdone hwait, hpc, info_eq hinfo] at hc
    obtain ⟨hhan, ⟨hstat, hmsg, hrole⟩ | ⟨hstat, hcases⟩⟩ := hc.of_waitTurn
    · simp only [hstat, Option.some.injEq] at hs
      subst hs
      refine h.advance hinfo rfl hdone hwait (by simp) (by rw [hpc]; rfl) rfl ?_
      intro _
      simpa [hhan, hmsg, hrole] using Config.asking (.inl rfl)
    · simp only [hstat, Option.some.injEq] at hs
      subst hs
      rw [← setPc_setInfo_self hinfo]
      refine h.advance hinfo rfl hdone hwait (by simp) (by rw [hpc]; rfl) rfl ?_
      intro _
      rcases hcases with ⟨hmsg, hrole⟩ | ⟨hmsg, hrole⟩
      · simpa [hhan, hstat, hmsg] using Config.locked hrole (.inl rfl)
      · simpa [hhan, hstat, hmsg, hrole] using Config.lockedRevoked (.inl rfl)
  · rename_i hpc
    have hpc : sys.pc node = .waitRetry true := hpc
    split at hs
    · cases hs
      refine h.advance hinfo rfl (by simp [hpc]) (by simp [hpc]) (by simp) (by rw [hpc]; rfl) rfl ?_
      rw [hpc]
      intro hc
      obtain ⟨hhan, hstat, -, hrole⟩ := hc.of_waitRetry
      simpa [hhan, hstat, hrole] using Config.asking (.inr rfl)
    · cases hs
  · cases hs

theorem Inv.acquireDone (h : Inv sys tokens) (hs : acquireDone sys node = some next) :
    Inv next tokens := by
  simp only [LockCache.acquireDone, Option.bind_eq_bind, Option.bind_eq_some_iff] at hs
  obtain ⟨info, hinfo, hs⟩ := hs
  split at hs
  · rename_i hpc
    cases hs
    have hpc : sys.pc node = .acquiring (.reply .ok) := hpc
    refine h.advance hinfo rfl (by simp [hpc]) (by simp [hpc]) (by simp) (by rw [hpc]; rfl) rfl ?_
    intro hc
    obtain ⟨hhan, -, hcases⟩ := hc.of_granted (by rw [hpc]; rfl)
    rcases hcases with ⟨hmsg, hrole⟩ | ⟨hmsg, hrole⟩
    · simpa [hhan, hmsg] using Config.locked hrole (.inl rfl)
    · simpa [hhan, hmsg, hrole] using Config.lockedRevoked (.inl rfl)
  · rename_i ret hok hpc
    have hpc : sys.pc node = .acquiring (.reply ret) := hpc
    have hdone : sys.pc node ≠ .done := by simp [hpc]
    have hwait : sys.pc node ≠ .waitTurn false := by simp [hpc]
    have hc := h.config _ (h.threads.named _ (h.threads.known node hdone))
    rw [h.threads.headPc hdone hwait, info_eq hinfo] at hc
    obtain rfl : ret = .retry :=
      (hc.of_answer (by rw [hpc]; rfl)).resolve_left hok
    obtain ⟨hhan, hstat, hcases⟩ := hc.of_refused (by rw [hpc]; rfl)
    rcases hcases with ⟨hmsg, hrole⟩ | ⟨hmsg, hrole⟩
    · simp only [hmsg, if_true, Option.some.injEq] at hs
      subst hs
      rw [← setPc_setInfo_self hinfo]
      refine h.advance hinfo rfl hdone hwait (by simp) (by rw [hpc]; rfl) rfl ?_
      intro _
      simpa [hhan, hstat, hmsg] using Config.refused hrole (.inr rfl)
    · simp only [hmsg, hstat, reduceCtorEq, if_false, if_true, Option.some.injEq] at hs
      subst hs
      refine h.advance hinfo rfl hdone hwait (by simp) (by rw [hpc]; rfl) rfl ?_
      intro _
      simpa [hhan, hrole] using Config.asking (.inr rfl)
  · cases hs

-- The front thread leaves the list.
theorem Threads.pop (h : Threads sys) {info : Client.LockInfo} {rest : List Node}
    (hinfo : sys.client (sys.session node).cid = some info) (hthreads : info.threads = node :: rest)
    (info' : Client.LockInfo) (hrest : info'.threads = rest) :
    Threads ((sys.setPc node .done).setInfo (sys.session node).cid info') := by
  have hlist : (sys.info (sys.session node).cid).threads = node :: rest := by
    rw [info_eq hinfo, hthreads]
  have hnd := h.nodup (sys.session node).cid
  rw [hlist] at hnd
  obtain ⟨hnot, hnd⟩ := List.nodup_cons.mp hnd
  constructor
  · intro cid
    by_cases he : cid = (sys.session node).cid
    · simpa [he, hrest] using hnd
    · simpa [he] using h.nodup cid
  · intro cid other
    have hold := h.queued cid other
    by_cases he : cid = (sys.session node).cid
    · subst he
      rw [hlist, List.mem_cons] at hold
      by_cases hn : other = node
      · simp [hn, hrest, hnot]
      · simpa [hn, hrest] using hold
    · by_cases hn : other = node
      · subst hn
        simpa [he, Ne.symm he] using hold
      · simpa [he, hn] using hold
  · intro cid other hm
    have hbehind := h.behind cid other
    by_cases he : cid = (sys.session node).cid
    · subst he
      have hr : other ∈ rest := List.mem_of_mem_tail (by simpa [hrest] using hm)
      rw [hlist] at hbehind
      have hn : other ≠ node := fun hn => hnot (hn ▸ hr)
      simpa [hn] using hbehind hr
    · have hr : other ∈ (sys.info cid).threads.tail := by simpa [he] using hm
      have hn : other ≠ node := by
        rintro rfl
        exact he ((h.queued cid other).mp (List.mem_of_mem_tail hr)).1.symm
      simpa [hn] using hbehind hr
  · intro other hm
    have hold := h.unborn other hm
    by_cases hn : other = node <;> simp [hn, hold]
  · intro cid hc
    by_cases he : cid = (sys.session node).cid
    · exact h.named cid (by simp [he, hinfo])
    · exact h.named cid (by simpa [he] using hc)
  · intro other hd
    by_cases hn : other = node
    · simp [hn] at hd
    · have hold := h.known other (by simpa [hn] using hd)
      by_cases he : (sys.session other).cid = (sys.session node).cid <;> simp_all

theorem Threads.headPc_pop (h : Threads sys) {info : Client.LockInfo} {rest : List Node}
    (hinfo : sys.client (sys.session node).cid = some info) (hthreads : info.threads = node :: rest)
    (info' : Client.LockInfo) (hrest : info'.threads = rest) (cid : Cid) :
    ((sys.setPc node .done).setInfo (sys.session node).cid info').headPc cid =
      if cid = (sys.session node).cid then rest.head?.map (fun _ => .waitTurn false)
      else sys.headPc cid := by
  have hpopped := h.pop hinfo hthreads info' hrest
  have hlist : (sys.info (sys.session node).cid).threads = node :: rest := by
    rw [info_eq hinfo, hthreads]
  have hnd := h.nodup (sys.session node).cid
  rw [hlist] at hnd
  obtain ⟨hnot, -⟩ := List.nodup_cons.mp hnd
  unfold Sys.headPc
  by_cases he : cid = (sys.session node).cid
  · subst he
    cases rest with
    | nil => simp [hrest]
    | cons front rest =>
        have hbehind := h.behind (sys.session node).cid front (by simp [hlist])
        have hn : front ≠ node := by
          rintro rfl
          simp at hnot
        simp [hrest, hn, hbehind]
  · simp only [setInfo_info, he, if_false, setPc_info]
    cases hh : (sys.info cid).threads.head? with
    | none => rfl
    | some front =>
        have hn : front ≠ node := by
          rintro rfl
          exact he (h.client_of_head hh).symm
        simp [hn]

-- Both ends of release: the front thread leaves and the next one is signalled.
theorem Inv.pop (h : Inv sys tokens) {info info' : Client.LockInfo} {rest : List Node}
    (hinfo : sys.client (sys.session node).cid = some info) (hthreads : info.threads = node :: rest)
    (hrest : info'.threads = rest) (hold : (sys.pc node).quiet = true)
    (hconfig : Config (role sys.srv tokens (sys.session node).cid)
        ((tokens.handler (sys.session node).cid).map Prod.snd) info.stat info.msg (some (sys.pc node)) →
      Config (role sys.srv tokens (sys.session node).cid)
        ((tokens.handler (sys.session node).cid).map Prod.snd) info'.stat info'.msg
        (rest.head?.map fun _ => .waitTurn true)) :
    Inv (((sys.setPc node .done).setInfo (sys.session node).cid info').signalFront rest) tokens := by
  have hpopped := h.threads.pop hinfo hthreads info' hrest
  have hlist : (((sys.setPc node .done).setInfo (sys.session node).cid info').info
      (sys.session node).cid).threads = rest := by simpa using hrest
  have hnot : rest.head? ≠ some node := by
    intro hh
    have hnd := h.threads.nodup (sys.session node).cid
    rw [info_eq hinfo, hthreads] at hnd
    exact (List.nodup_cons.mp hnd).1 (List.mem_of_mem_head? hh)
  exact {
    threads := hpopped.signalFront hlist
    carried := by
      refine h.carried.quiet node (by simp) (by simp) ?_ hold (by simp [hnot, Pc.quiet])
      intro other he
      by_cases hh : rest.head? = some other <;> simp [he, hh]
    server := by simpa using h.server
    config := by
      intro cid hcid
      have hpop := h.threads.headPc_pop hinfo hthreads info' hrest
      rw [hpopped.headPc_signalFront hlist, hpop, hpop]
      have hc := h.config cid hcid
      by_cases he : cid = (sys.session node).cid
      · subst he
        rw [info_eq hinfo, headPc_of_threads (by rw [info_eq hinfo, hthreads])] at hc
        have hsignal : (rest.head?.map fun _ => Pc.waitTurn false).map Pc.signal =
            rest.head?.map fun _ => Pc.waitTurn true := by
          cases rest.head? <;> rfl
        simpa [hsignal] using hconfig hc
      · simpa [he] using hc }

theorem Inv.release (h : Inv sys tokens) (hs : release sys node = some next) : Inv next tokens := by
  simp only [LockCache.release, Option.bind_eq_bind, Option.bind_eq_some_iff] at hs
  obtain ⟨info, hinfo, hs⟩ := hs
  split at hs
  · rename_i hpc
    have hpc : sys.pc node = .holding := hpc
    have hdone : sys.pc node ≠ .done := by simp [hpc]
    have hwait : sys.pc node ≠ .waitTurn false := by simp [hpc]
    obtain ⟨rest, hlist⟩ := h.threads.front hdone hwait
    rw [info_eq hinfo] at hlist
    split at hs
    · rename_i hmsg
      cases hs
      refine h.advance hinfo rfl hdone hwait (by simp) (by rw [hpc]; rfl) rfl ?_
      rw [hpc]
      intro hc
      obtain ⟨hhan, -, ⟨he, -⟩ | ⟨-, hrole⟩⟩ := hc.of_holding
      · simp [he] at hmsg
      · simpa [hhan, hmsg, hrole] using Config.giving
    · rename_i hmsg
      simp only [hlist, Option.some.injEq] at hs
      subst hs
      rw [setInfo_setPc]
      refine h.pop hinfo hlist rfl (by rw [hpc]; rfl) ?_
      rw [hpc]
      intro hc
      obtain ⟨hhan, -, ⟨he, hrole⟩ | ⟨he, -⟩⟩ := hc.of_holding
      · cases rest with
        | nil => simpa [hhan, he] using Config.free hrole
        | cons front rest => simpa [hhan, he] using Config.locked hrole (.inr rfl)
      · exact absurd he hmsg
  · cases hs

-- The revoke_handler of `client` returns to the server.
theorem Carried.handled (h : Carried sys tokens) {ret : Status} {client : Cid}
    {info : Client.LockInfo} {threads : List Node}
    (hpc : sys.pc node = .acquiring (.revoking ret (.releasing client .reply)))
    (hnot : threads.head? ≠ some node) :
    Carried (((sys.setPc node (.acquiring (.revoking ret .reply))).setInfo client info).signalFront
        threads) { tokens with handler := Function.update tokens.handler client none } := by
  have hclient := (h.handler node client .reply).mp (by rw [hpc]; rfl)
  have hnode : ∀ cid rpc, tokens.handler cid = some (node, rpc) → cid = client := by
    intro cid rpc hh
    have hhandles := (h.handler node cid rpc).mpr hh
    simp only [hpc, Pc.handles, Option.some.injEq, Prod.mk.injEq] at hhandles
    exact hhandles.1.symm
  refine h.moveCall node (by simp) (by simp) ?_ ?_ ?_ ?_ ?_ ?_ ?_
  · intro other he
    by_cases hh : threads.head? = some other <;> simp [he, hh]
  · simp [hnot, hpc, Pc.revokes]
  · simp [hnot, hpc, Pc.retries]
  · intro ret' cid hn
    simp [hnot] at hn
  · intro rpc hn
    simp only [signalFront_pc, hnot, if_false, setInfo_pc, setPc_pc_self] at hn
    cases hn
    exact .inr rfl
  · intro other cid rpc
    by_cases he : other = node
    · subst he
      by_cases hc : cid = client
      · simp [hc, hnot, Pc.handles]
      · have hn : tokens.handler cid ≠ some (other, rpc) := fun hh => hc (hnode cid rpc hh)
        simp [hc, hnot, Pc.handles, hn]
    · have hold := h.handler other cid rpc
      by_cases hc : cid = client
      · subst hc
        have hn : (sys.pc other).handles ≠ some (cid, rpc) := by
          intro hh
          rw [hold, hclient] at hh
          cases hh
          exact he rfl
        by_cases hh : threads.head? = some other <;> simp [he, hh, hn]
      · by_cases hh : threads.head? = some other <;> simpa [he, hh, hc] using hold
  · intro cid hn
    by_cases hc : cid = client
    · simp [hc] at hn
    · exact h.handlerNamed cid (by simpa [hc] using hn)

theorem role_handler (srv : Server.LockInfo) (tokens : Tokens)
    (handler : Cid → Option (Node × ReleaseRpc)) (cid : Cid) :
    role srv { tokens with handler := handler } cid = role srv tokens cid := rfl

theorem Inv.releaseDone (h : Inv sys tokens) (hs : releaseDone sys node = some next) :
    ∃ tokens', Inv next tokens' := by
  simp only [LockCache.releaseDone] at hs
  split at hs
  · rename_i hpc
    have hpc : sys.pc node = .releasing .reply := hpc
    have hdone : sys.pc node ≠ .done := by simp [hpc]
    have hwait : sys.pc node ≠ .waitTurn false := by simp [hpc]
    obtain ⟨rest, hlist⟩ := h.threads.front hdone hwait
    simp only [Option.bind_eq_bind, Option.bind_eq_some_iff] at hs
    obtain ⟨info, hinfo, hs⟩ := hs
    rw [info_eq hinfo] at hlist
    simp only [hlist, Option.some.injEq] at hs
    subst hs
    refine ⟨tokens, ?_⟩
    rw [setInfo_setPc]
    refine h.pop hinfo hlist rfl (by rw [hpc]; rfl) ?_
    rw [hpc]
    intro hc
    obtain ⟨hhan, -, -, hrole⟩ := hc.of_releasing
    cases rest with
    | nil => simpa [hhan, hrole] using Config.idle
    | cons front rest => simpa [hhan, hrole] using Config.woken (.inr rfl)
  · rename_i ret client hpc
    have hpc : sys.pc node = .acquiring (.revoking ret (.releasing client .reply)) := hpc
    have hdone : sys.pc node ≠ .done := by simp [hpc]
    have hwait : sys.pc node ≠ .waitTurn false := by simp [hpc]
    simp only [Option.bind_eq_bind, Option.bind_eq_some_iff] at hs
    obtain ⟨info, hinfo, hs⟩ := hs
    cases hs
    have hhan := (h.carried.handler node client .reply).mp (by rw [hpc]; rfl)
    have hne := h.carried.handlerNamed client (by simp [hhan])
    have hc := h.config client hne
    rw [hhan, info_eq hinfo] at hc
    obtain ⟨hstat, hmsg, hhead, hrole⟩ := hc.of_handler
    have hother : client ≠ (sys.session node).cid := by
      rintro rfl
      rw [h.threads.headPc hdone hwait, hpc] at hhead
      simp at hhead
    have hnot : info.threads.head? ≠ some node := by
      intro hh
      rw [← info_eq hinfo] at hh
      exact hother (h.threads.client_of_head hh).symm
    rw [setInfo_setPc]
    have hset := h.threads.setPc_setInfo hdone hwait
      (show Pc.acquiring (.revoking ret .reply) ≠ .done by simp) hinfo { info with stat := .none } rfl
    have hkeep := headPc_setPc_setInfo h.threads hdone hwait (.acquiring (.revoking ret .reply)) hinfo
      { info with stat := .none } rfl
    have hlist : (((sys.setPc node (.acquiring (.revoking ret .reply))).setInfo client
        { info with stat := .none }).info client).threads = info.threads := by simp
    refine ⟨_, hset.signalFront hlist, h.carried.handled hpc hnot, by simpa using h.server, ?_⟩
    intro cid hcid
    rw [hset.headPc_signalFront hlist, hkeep, hkeep]
    by_cases he : cid = client
    · subst he
      simp only [reduceCtorEq, if_false] at hrole
      rcases hhead with hhead | hhead
      · simpa [hother, hhead, hmsg, role_handler, hrole] using Config.idle
      · simpa [hother, hhead, hmsg, role_handler, hrole, Pc.signal] using Config.woken (.inl rfl)
    · have hold := h.config cid hcid
      by_cases hn : cid = (sys.session node).cid
      · subst hn
        rw [h.threads.headPc hdone hwait] at hold
        have hans : (Pc.acquiring (.revoking ret .reply)).answer = some ret := rfl
        simpa [he, role_handler] using hold.answer (by rw [hpc]; rfl) hans
      · simpa [he, hn, role_handler] using hold
  · cases hs

-- A new thread at the end of its client's list.
def Sys.push (sys : Sys) (cid : Cid) (tid : Tid) (stat : Client.State) (pc : Pc) : Sys :=
  { sys.setInfo cid { sys.info cid with stat := stat, threads := (sys.info cid).threads ++ [sys.fresh] } with
      session := Function.update sys.session sys.fresh { cid := cid, tid := tid, pc := pc }
      fresh := sys.fresh + 1 }

section Push

variable (sys : Sys) (cid client : Cid) (tid : Tid) (stat : Client.State) (pc : Pc) (node : Node)

@[simp] theorem push_pc :
    (sys.push cid tid stat pc).pc node = if node = sys.fresh then pc else sys.pc node := by
  unfold Sys.push Sys.pc
  by_cases h : node = sys.fresh <;> simp [h]

@[simp] theorem push_cid :
    ((sys.push cid tid stat pc).session node).cid =
      if node = sys.fresh then cid else (sys.session node).cid := by
  unfold Sys.push
  by_cases h : node = sys.fresh <;> simp [h]

@[simp] theorem push_info :
    (sys.push cid tid stat pc).info client =
      if client = cid then
        { sys.info cid with stat := stat, threads := (sys.info cid).threads ++ [sys.fresh] }
      else sys.info client :=
  setInfo_info sys cid client _

@[simp] theorem push_client :
    (sys.push cid tid stat pc).client client = none ↔ client ≠ cid ∧ sys.client client = none := by
  unfold Sys.push
  by_cases h : client = cid <;> simp [h]

@[simp] theorem push_srv : (sys.push cid tid stat pc).srv = sys.srv := rfl
@[simp] theorem push_fresh : (sys.push cid tid stat pc).fresh = sys.fresh + 1 := rfl

end Push

theorem acquire_eq_push (cid : Cid) (tid : Tid) :
    LockCache.acquire sys cid tid =
      if (sys.info cid).threads = [] then
        match (sys.info cid).stat with
        | .free => sys.push cid tid .locked .holding
        | .none => sys.push cid tid .acquiring (.acquiring .request)
        | stat => sys.push cid tid stat (.waitFirst false)
      else sys.push cid tid (sys.info cid).stat (.waitTurn false) := rfl

theorem Threads.push (h : Threads sys) {cid : Cid} (hcid : cid ≠ "") (tid : Tid) (stat : Client.State)
    {pc : Pc} (hpc : pc ≠ .done) (hempty : (sys.info cid).threads ≠ [] → pc = .waitTurn false) :
    Threads (sys.push cid tid stat pc) := by
  have hnew := h.unborn sys.fresh le_rfl
  have hnot : ∀ client, sys.fresh ∉ (sys.info client).threads := by
    intro client hm
    exact ((h.queued client sys.fresh).mp hm).2 hnew
  constructor
  · intro client
    by_cases he : client = cid
    · subst he
      have := h.nodup client
      simp only [push_info, if_true]
      exact List.nodup_append.mpr ⟨this, by simp, by
        intro other hm new hn
        simp only [List.mem_singleton] at hn
        rintro rfl
        exact hnot client (hn ▸ hm)⟩
    · simpa [he] using h.nodup client
  · intro client other
    have hold := h.queued client other
    by_cases hn : other = sys.fresh
    · subst hn
      by_cases he : client = cid
      · simp [he, hpc]
      · simp [he, hpc, hnot, Ne.symm he]
    · by_cases he : client = cid
      · subst he
        simpa [hn] using hold
      · simpa [hn, he] using hold
  · intro client other hm
    by_cases he : client = cid
    · subst he
      cases hl : (sys.info client).threads with
      | nil => simp [hl] at hm
      | cons front rest =>
          simp only [push_info, if_true, hl, List.cons_append, List.tail_cons, List.mem_append,
            List.mem_singleton] at hm
          rcases hm with hm | rfl
          · have hn : other ≠ sys.fresh := by
              rintro rfl
              exact hnot client (by simp [hl, hm])
            simpa [hn] using h.behind client other (by simpa [hl] using hm)
          · simpa using hempty (by simp [hl])
    · have hm : other ∈ (sys.info client).threads.tail := by simpa [he] using hm
      have hn : other ≠ sys.fresh := by
        intro hn
        exact hnot client (List.mem_of_mem_tail (hn ▸ hm))
      simpa [hn] using h.behind client other hm
  · intro other hm
    have hm : sys.fresh < other := hm
    simpa [hm.ne'] using h.unborn other hm.le
  · intro client hc
    by_cases he : client = cid
    · exact he ▸ hcid
    · exact h.named client (by simpa [he] using hc)
  · intro other hd
    by_cases hn : other = sys.fresh
    · simp [hn]
    · have hold := h.known other (by simpa [hn] using hd)
      simp [hn, hold]

theorem Threads.headPc_push (h : Threads sys) (cid : Cid) (tid : Tid) (stat : Client.State) (pc : Pc)
    (client : Cid) :
    (sys.push cid tid stat pc).headPc client =
      if client = cid ∧ (sys.info cid).threads = [] then some pc else sys.headPc client := by
  have hnew := h.unborn sys.fresh le_rfl
  have hnot : ∀ front, (sys.info client).threads.head? = some front → front ≠ sys.fresh := by
    rintro front hh rfl
    exact ((h.queued client sys.fresh).mp (List.mem_of_mem_head? hh)).2 hnew
  unfold Sys.headPc
  by_cases he : client = cid
  · subst he
    cases hl : (sys.info client).threads with
    | nil => simp [hl]
    | cons front rest => simp [hl, hnot front (by simp [hl])]
  · cases hl : (sys.info client).threads with
    | nil => simp [he, hl]
    | cons front rest => simp [he, hl, hnot front (by simp [hl])]

theorem Inv.push (h : Inv sys tokens) {cid : Cid} (hcid : cid ≠ "") (tid : Tid) (stat : Client.State)
    {pc : Pc} (hpc : pc ≠ .done) (hquiet : pc.quiet = true)
    (hempty : (sys.info cid).threads ≠ [] → pc = .waitTurn false ∧ stat = (sys.info cid).stat)
    (hconfig : (sys.info cid).threads = [] →
      Config (role sys.srv tokens cid) ((tokens.handler cid).map Prod.snd) stat (sys.info cid).msg
        (some pc)) :
    Inv (sys.push cid tid stat pc) tokens where
  threads := h.threads.push hcid tid stat hpc (fun hl => (hempty hl).1)
  carried := by
    have hnew := h.threads.unborn sys.fresh le_rfl
    refine h.carried.quiet sys.fresh ?_ rfl ?_ (by rw [hnew]; rfl) (by simpa using hquiet)
    · intro other hd
      have hn : other ≠ sys.fresh := by
        rintro rfl
        exact hd hnew
      simp [hn]
    · intro other hn
      simp [hn]
  server := h.server
  config := by
    intro client hclient
    rw [h.threads.headPc_push]
    have hc := h.config client hclient
    by_cases he : client = cid
    · subst he
      by_cases hl : (sys.info client).threads = []
      · simpa [hl] using hconfig hl
      · simpa [hl, (hempty hl).2] using hc
    · simpa [he] using hc

theorem Inv.acquire (h : Inv sys tokens) {cid : Cid} (hcid : cid ≠ "") (tid : Tid) :
    Inv (LockCache.acquire sys cid tid) tokens := by
  rw [acquire_eq_push]
  by_cases hl : (sys.info cid).threads = []
  · have hc := h.config cid hcid
    rw [show sys.headPc cid = none by simp [Sys.headPc, hl]] at hc
    simp only [hl, if_true]
    rcases hc.of_empty with ⟨hhan, hstat, hmsg, hrole⟩ | ⟨hhan, hstat, hmsg, hrole⟩ | ⟨hstat, rpc, hhan⟩
    · simp only [hstat]
      refine h.push hcid tid _ (by simp) rfl (absurd hl) ?_
      intro _
      simpa [hhan, hmsg, hrole] using Config.asking (.inl rfl)
    · simp only [hstat]
      refine h.push hcid tid _ (by simp) rfl (absurd hl) ?_
      intro _
      simpa [hhan, hmsg] using Config.locked hrole (.inl rfl)
    · simp only [hstat]
      refine h.push hcid tid _ (by simp) rfl (absurd hl) ?_
      intro _
      rw [hhan] at hc ⊢
      obtain ⟨-, hmsg, -, hrole⟩ := hc.of_handler
      rw [hmsg, hrole]
      split
      · rename_i hr
        rw [hr]
        exact .handlerGiving (.inr rfl)
      · rename_i hr
        exact .handlerGave hr (.inr rfl)
  · simp only [hl, if_false]
    exact h.push hcid tid _ (by simp) rfl (fun _ => ⟨rfl, rfl⟩) (fun he => absurd he hl)

end CseLabs.LockCache
