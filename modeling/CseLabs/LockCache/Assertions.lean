import CseLabs.LockCache.Theorems

namespace CseLabs.LockCache

variable {sys : Sys} {tokens : Tokens} {node : Node}

-- A client that sends a request is not known to the server, or is the one the
-- server has called back. This is what every VERIFY of acquire asks for.
theorem Inv.verify_acquire (h : Inv sys tokens) (hpc : sys.pc node = .acquiring .request) :
    (Server.acquire sys.srv (sys.session node).cid).isSome = true := by
  obtain ⟨-, hrole⟩ := h.request_role hpc
  generalize (sys.session node).cid = cid at hrole
  have howner : sys.srv.owner ≠ cid := by
    intro he
    simp only [role, he, if_true] at hrole
    split at hrole <;> simp at hrole
  have hout : cid ∉ sys.srv.waitingCids := by
    intro hmem
    have hretrying : sys.srv.retryingCid ≠ cid := by
      intro he
      exact h.server.retryingOut (he ▸ hmem)
    simp [role, howner, hretrying, hmem] at hrole
  unfold Server.acquire
  cases hstat : sys.srv.stat with
  | none =>
      simp only
      rw [if_pos (h.server.none hstat).1]
      rfl
  | locked =>
      simp only
      rw [if_pos ⟨hout, (h.server.locked hstat).1, howner⟩]
      rfl
  | revoking =>
      simp only
      rw [if_pos hout]
      rfl
  | retrying =>
      simp only
      rw [if_neg hout]
      split_ifs <;> rfl

-- A release request comes from the owner of a lock that is being revoked.
theorem Inv.verify_release (h : Inv sys tokens) {client : Cid}
    (hcall : (sys.session node).releaseCall = some (client, .request)) :
    ∃ info, sys.server = some info ∧ info.waitingCids ≠ ∅ ∧
      (Server.release info client).isSome = true := by
  obtain ⟨hclient, hrole⟩ := h.release_role hcall
  rw [if_pos rfl] at hrole
  have howner : sys.srv.owner = client := owner_of_role (.inr ⟨false, hrole⟩)
  have hstat : sys.srv.stat = .revoking := by
    by_contra hs
    simp [role, howner, hs] at hrole
  obtain ⟨-, -, hwaiting⟩ := h.server.revoking hstat
  cases hserver : sys.server with
  | none =>
      rw [Sys.srv, hserver] at howner
      exact absurd howner.symm hclient
  | some info =>
      have hsrv : sys.srv = info := by rw [Sys.srv, hserver, Option.getD_some]
      rw [hsrv] at howner hstat hwaiting
      refine ⟨info, rfl, hwaiting, ?_⟩
      obtain ⟨least, hmin⟩ := Finset.min_of_nonempty (Finset.nonempty_iff_ne_empty.mpr hwaiting)
      unfold Server.release
      rw [if_pos ⟨hstat, howner⟩, hmin]
      rfl

-- A thread inside wait_lock finds the state it has set itself.
theorem Config.of_waiting {role : Role} {handler : Option ReleaseRpc} {stat : Client.State}
    {msg : Client.Message} {pc : Pc} (h : Config role handler stat msg (some pc))
    (hpc : pc = .waitRetry true ∨ ∃ ret, pc = .acquiring (.reply ret)) : stat = .acquiring := by
  rcases hpc with rfl | ⟨ret, rfl⟩
  · exact h.of_waitRetry.2.1
  · rcases h.of_answer rfl with rfl | rfl
    · exact (h.of_granted rfl).2.1
    · exact (h.of_refused rfl).2.1

theorem Inv.waiting (h : Inv sys tokens)
    (hpc : sys.pc node = .waitRetry true ∨ ∃ ret, sys.pc node = .acquiring (.reply ret)) :
    ∃ info, sys.client (sys.session node).cid = some info ∧ info.stat = .acquiring := by
  have hdone : sys.pc node ≠ .done := by rcases hpc with hpc | ⟨ret, hpc⟩ <;> simp [hpc]
  have hturn : sys.pc node ≠ .waitTurn false := by rcases hpc with hpc | ⟨ret, hpc⟩ <;> simp [hpc]
  have hknown := h.threads.known node hdone
  have hc := h.config _ (h.threads.named _ hknown)
  rw [h.threads.headPc hdone hturn] at hc
  obtain ⟨info, hinfo⟩ := Option.ne_none_iff_exists'.mp hknown
  rw [info_eq hinfo] at hc
  exact ⟨info, hinfo, hc.of_waiting hpc⟩

theorem Inv.wake_isSome (h : Inv sys tokens) (hpc : sys.pc node = .waitRetry true) :
    (LockCache.wake sys node).isSome = true := by
  obtain ⟨info, hinfo, hstat⟩ := h.waiting (.inl hpc)
  simp [LockCache.wake, hinfo, hpc, hstat]

theorem Inv.acquireDone_isSome (h : Inv sys tokens) {ret : Status}
    (hpc : sys.pc node = .acquiring (.reply ret)) :
    (LockCache.acquireDone sys node).isSome = true := by
  obtain ⟨info, hinfo, hstat⟩ := h.waiting (.inr ⟨ret, hpc⟩)
  cases ret with
  | ok => simp [LockCache.acquireDone, hinfo, hpc]
  | retry =>
      simp only [LockCache.acquireDone, Option.bind_eq_bind, hinfo, session_pc, hpc,
        Option.bind_some, hstat, if_true]
      split <;> rfl
  | ioerr =>
      simp only [LockCache.acquireDone, Option.bind_eq_bind, hinfo, session_pc, hpc,
        Option.bind_some, hstat, if_true]
      split <;> rfl

theorem Config.ne_ioerr {role : Role} {handler : Option ReleaseRpc} {stat : Client.State}
    {msg : Client.Message} {pc : Pc} (h : Config role handler stat msg (some pc)) : pc ≠ .ioerr := by
  rintro rfl
  cases h <;> simp_all [Pc.answer]

theorem Inv.ne_ioerr (h : Inv sys tokens) (node : Node) : sys.pc node ≠ .ioerr := by
  intro hpc
  have hdone : sys.pc node ≠ .done := by simp [hpc]
  have hc := h.config _ (h.threads.named _ (h.threads.known node hdone))
  rw [h.threads.headPc hdone (by simp [hpc])] at hc
  exact hc.ne_ioerr hpc

-- Server.acquire and Server.release are undefined where a VERIFY fails or the
-- first element of an empty set is taken; wake and acquireDone are undefined
-- where wait_lock would leave its loop and run into assert(0).
theorem assertions_hold (world : World) (hr : WorldReachable world) (lid : Lockid) :
    (∀ info, (world lid).server = some info →
      (info.stat = .none → info.owner = "" ∧ info.retryingCid = "" ∧ info.waitingCids = ∅) ∧
      (info.stat = .locked → info.owner ≠ "" ∧ info.waitingCids = ∅) ∧
      (info.stat = .revoking →
        info.owner ≠ "" ∧ info.waitingCids ≠ ∅ ∧ info.owner ∉ info.waitingCids) ∧
      (info.stat = .retrying →
        info.owner = "" ∧ info.retryingCid ≠ "" ∧ info.retryingCid ∉ info.waitingCids)) ∧
    (∀ node, ((world lid).session node).pc = .acquiring .request →
      (Server.acquire ((world lid).server.getD {}) ((world lid).session node).cid).isSome = true) ∧
    (∀ node client, ((world lid).session node).releaseCall = some (client, .request) →
      ∃ info, (world lid).server = some info ∧ info.waitingCids ≠ ∅ ∧
        (Server.release info client).isSome = true) ∧
    (∀ node, ((world lid).session node).pc ≠ .ioerr) ∧
    (∀ node, ((world lid).session node).pc = .waitRetry true →
      (wake (world lid) node).isSome = true) ∧
    ∀ node ret, ((world lid).session node).pc = .acquiring (.reply ret) →
      (acquireDone (world lid) node).isSome = true := by
  obtain ⟨tokens, h⟩ := reachable_inv (hr.component lid)
  refine ⟨?_, fun _ => h.verify_acquire, fun _ _ => h.verify_release, h.ne_ioerr,
    fun _ => h.wake_isSome, fun _ _ => h.acquireDone_isSome⟩
  intro info hinfo
  have hs := h.server
  rw [Sys.srv, hinfo, Option.getD_some] at hs
  refine ⟨hs.none, fun hstat => ?_, fun hstat => ?_, fun hstat => ?_⟩
  · obtain ⟨howner, -, hwaiting⟩ := hs.locked hstat
    exact ⟨howner, hwaiting⟩
  · obtain ⟨howner, -, hwaiting⟩ := hs.revoking hstat
    exact ⟨howner, hwaiting, hs.ownerOut⟩
  · obtain ⟨howner, hretrying⟩ := hs.retrying hstat
    exact ⟨howner, hretrying, hs.retryingOut⟩

-- A second client asks for the lock that "a" holds.
theorem assertions_hold_held :
    ((oneLock (acquire heldSys "b" 1)) 1).session 1 = { cid := "b", tid := 1, pc := .acquiring .request } ∧
      (Server.acquire { owner := "a", stat := .locked } "b").isSome = true := by
  have hidle : ThreadIdle (oneLock heldSys) "b" 1 := by
    intro lid node hcid htid
    by_cases hl : lid = 1
    · subst hl
      by_cases hn : node = 0 <;> simp [oneLock, heldSys, hn] at hcid
    · simp [oneLock, hl] at hcid
  have hr : WorldReachable (oneLock (acquire heldSys "b" 1)) :=
    oneLock_step (.acquire "b" 1) heldSys_reachable hidle rfl
  exact ⟨rfl, (assertions_hold _ hr 1).2.1 1 rfl⟩

end CseLabs.LockCache
