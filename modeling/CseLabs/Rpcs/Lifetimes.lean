import CseLabs.Rpcs.Effects

namespace CseLabs.Rpcs

open Connections (Outcome Conn Io Owned)
open PollMgr (MAX_POLL_FDS)

-- rpcs() has run.
def booted : State := { net := { mgr := { aio := .create 3 }, opened := fun fd => fd == 3 } }

-- The poll thread comes to a readable descriptor.
def polled (fd : Nat) : List Event :=
  [.inner (.poll .top), .inner (.poll .snapshot), .inner (.poll (.select (fun other => other == fd) fun _ => false)),
    .inner (.poll .scan)]

def served (s : State) (events : List Event) : Option State :=
  execute (fun s event => if Patient s event then advance 5 s event else none) s events

theorem booted_initial : initial 3 booted := ⟨_, ⟨_, rfl, rfl⟩, rfl⟩

section Lifetimes

variable {nonce pipefd : Nat} {s next after : State} {id k fd : Nat} {job : Job} {c : Conn Owner}

theorem reachable_net (hr : Reachable (Guarded Patient (Step nonce)) (initial pipefd) s) :
    Reachable (Guarded Connections.Patient Connections.Step) (Connections.initial pipefd) s.net := by
  refine hr.invariant (fun s => Reachable _ (Connections.initial pipefd) s.net) ?_ ?_
  · rintro start ⟨net, hnet, rfl⟩
    exact .start hnet
  · intro before event next hbefore hstep
    obtain ⟨events, run⟩ := (step_effect hstep.1 hstep.2).moves
    exact hbefore.follow run

-- The handler has returned and the answer has nowhere to go.
theorem choose_aborts_iff (h : Inv s) (htask : s.task id = some (job, k)) (hphase : job.phase = .choosing) :
    step nonce s (.dispatch id .choose) = some .aborts ↔
      job.header.cltNonce = 0 ∧ ∃ c, s.net.conns k = some c ∧ c.dead = true := by
  obtain ⟨hjob, hk⟩ := task_some htask
  have hstep : step nonce s (.dispatch id .choose) = some (choose s id job k) := by
    simp [step, dispatch, htask, hphase]
  rw [hstep, Option.some_inj]
  constructor
  · intro haborts
    rcases choose_meets h hjob hk hphase with hmeets | ⟨-, hrefused⟩
    · rw [haborts] at hmeets
      exact hmeets.elim
    · exact hrefused
  · rintro ⟨hzero, c, hc, hdead⟩
    obtain ⟨d, hd, hlook⟩ := h.look hk _
    obtain rfl : c = d := Option.some.inj (hc.symm.trans hd)
    have hnobody : s.refs (.latest job.header.cltNonce) = none := by rw [hzero, h.tables.nobody]
    obtain ⟨net, hnet, -⟩ := h.owned.decref hk (h.idle.out hjob (by simp [hphase]))
    rw [choose, hlook, if_pos ⟨hdead, by simp [hnobody]⟩, perform_eq hnet, switch, hnobody]

-- The server uses no connection that has been deleted, its pointers are what refno_ counts, and it ends for the
-- reasons listed only.
theorem references_exact (hr : Reachable (Guarded Patient (Step nonce)) (initial pipefd) s) :
    Reachable (Guarded Connections.Patient Connections.Step) (Connections.initial pipefd) s.net ∧
      (∀ event, Patient s event → step nonce s event = some .aborts → Refused s event) ∧
      (∀ o k, s.refs o = some k → ∃ c, s.net.conns k = some c ∧ c.freed = false) ∧
      (∀ k c, s.net.conns k = some c → c.refno = Set.ncard {o | s.refs o = some k}) ∧
      (∀ k c, s.refs .accepting = some k → s.net.conns k = some c → s.refs (.entry c.fd) = none) ∧
      ∀ id job k, s.task id = some (job, k) → job.phase = .choosing →
        (step nonce s (.dispatch id .choose) = some .aborts ↔
          job.header.cltNonce = 0 ∧ ∃ c, s.net.conns k = some c ∧ c.dead = true) := by
  have h := reachable_inv hr
  refine ⟨reachable_net hr, fun event hpatient haborts => ?_, fun o k ho => ?_, fun k c hk => h.owned.counted hk,
    fun k c ho hk => h.unentered ho hk, fun id job k htask hphase => choose_aborts_iff h htask hphase⟩
  · rcases h.step hpatient haborts with hmeets | ⟨-, hrefused⟩
    · exact absurd hmeets id
    · exact hrefused
  · obtain ⟨c, hk, hkept, -⟩ := h.owned.found ho
    exact ⟨c, hk, hkept⟩

-- A client without at-most-once semantics goes away before its request has been answered.
def lost : List Event :=
  .accept 0 7 ⟨1, 0⟩ :: polled 7 ++ [.gotPdu 0 true ⟨1, 0, 0⟩ true, .dispatch 0 .begin, .dispatch 0 (.ran 0),
    .inner (.poll .scan)] ++ polled 7 ++ [.inner (.readCb (.failed none))]

theorem references_exact_lost : ∃ s : State, step 5 s (.dispatch 0 .choose) = some .aborts := by
  have hexec : (served booted lost).map (fun s => decide ((s.task 0).map (fun entry =>
      (entry.1.phase, entry.1.header.cltNonce, entry.2)) = some (.choosing, 0, 0) ∧
      (s.net.conns 0).map Conn.dead = some true)) = some true := by decide
  obtain ⟨s, hs, hfacts⟩ := Option.map_eq_some_iff.mp hexec
  obtain ⟨htask, hdead⟩ := of_decide_eq_true hfacts
  obtain ⟨⟨job, k⟩, htask, heq⟩ := Option.map_eq_some_iff.mp htask
  obtain ⟨c, hc, hdead⟩ := Option.map_eq_some_iff.mp hdead
  simp only [Prod.mk.injEq] at heq
  obtain ⟨hphase, hzero, rfl⟩ := heq
  have hstart : Reachable (Guarded Patient (Step 5)) (initial 3) booted := .start booted_initial
  have hexact := (references_exact (hstart.executed hs)).2.2.2.2.2
  exact ⟨s, (hexact 0 job 0 htask hphase).mpr ⟨hzero, c, hc, hdead⟩⟩

theorem reachable_after (hr : Reachable (Guarded Patient (Step nonce)) (initial pipefd) s)
    (hafter : Reachable (Guarded Patient (Step nonce)) (fun start => start = s) after) :
    Reachable (Guarded Patient (Step nonce)) (initial pipefd) after := by
  obtain ⟨events, run⟩ := hafter
  exact hr.follow run

theorem task_eq (hjob : s.jobs id = some job) (hk : s.refs (.job id) = some k) : s.task id = some (job, k) := by
  simp [State.task, hjob, hk]

-- A reference that dispatch has not given back stays.
theorem left_stays (htask : s.task id = some (job, k)) (hleft : job.phase = .left)
    (hafter : Reachable (Guarded Patient (Step nonce)) (fun start => start = s) after) :
    after.task id = some (job, k) := by
  refine hafter.invariant (fun later => later.task id = some (job, k)) ?_ ?_
  · rintro start rfl
    exact htask
  · intro before event next hbefore hstep
    obtain ⟨hjob, hk⟩ := task_some hbefore
    obtain ⟨hjob', hk'⟩ := (step_effect hstep.1 hstep.2).left id job hjob hleft
    exact task_eq hjob' (hk'.trans hk)

theorem pipefd_same (hr : Reachable (Guarded Patient (Step nonce)) (initial pipefd) s) :
    s.net.mgr.aio.pipefd = pipefd := by
  refine hr.invariant (fun s => s.net.mgr.aio.pipefd = pipefd) ?_ ?_
  · rintro start ⟨net, ⟨opened, -, rfl⟩, rfl⟩
    rfl
  · intro before event next hbefore hstep
    exact (step_effect hstep.1 hstep.2).moves.lasts.pipefd.trans hbefore

-- accept gives a descriptor that is not in use, and connection() adds it to the poll manager.
theorem accept_fd {now : Timeval} (h : Step nonce s (.accept k fd now) next) :
    s.net.opened fd = false ∧ fd < MAX_POLL_FDS := by
  have hstep := step_of_Step h
  simp only [step, accept] at hstep
  split at hstep
  · rename_i hguard
    refine ⟨hguard.2.2, ?_⟩
    obtain ⟨net, hnet, -⟩ := perform_goes (Option.some.inj hstep)
    simp only [Connections.step, Connections.create] at hnet
    split at hnet
    · obtain ⟨mgr, hadd, -⟩ := Option.map_eq_some_iff.mp (Connections.verify_goes (Option.some.inj hnet))
      exact (PollMgr.addCallback_some hadd).1
    · cases hnet
  · cases hstep

-- The connections over which requests for an earlier instance of the server have come are never deleted, and when
-- they have taken all the descriptors the server can accept no other.
theorem old_requests_leak (hpipe : pipefd < MAX_POLL_FDS)
    (hr : Reachable (Guarded Patient (Step nonce)) (initial pipefd) s) (leaked : Finset Nat)
    (hleaked : ∀ k ∈ leaked, ∃ id job, s.task id = some (job, k) ∧ job.phase = .left)
    (hafter : Reachable (Guarded Patient (Step nonce)) (fun start => start = s) after) :
    (∀ k ∈ leaked, ∃ c, after.net.conns k = some c ∧ c.freed = false ∧ after.net.opened c.fd = true) ∧
      leaked.card < MAX_POLL_FDS ∧
      (leaked.card + 1 = MAX_POLL_FDS → ∀ k fd now next, ¬ Step nonce after (.accept k fd now) next) := by
  have hr' := reachable_after hr hafter
  have h := reachable_inv hr'
  have hheld : ∀ k ∈ leaked, ∃ o, after.refs o = some k := by
    intro k hk
    obtain ⟨id, job, htask, hleft⟩ := hleaked k hk
    exact ⟨.job id, (task_some (left_stays htask hleft hafter)).2⟩
  have hpipe' := pipefd_same hr'
  refine ⟨fun k hk => ?_, ?_, fun hfull k fd now next hstep => ?_⟩
  · obtain ⟨o, ho⟩ := hheld k hk
    obtain ⟨c, hc, hkept, -⟩ := h.owned.found ho
    exact ⟨c, hc, hkept, h.owned.inv.wired.inUse k c.port (congrArg (Option.map Conn.port) hc) hkept⟩
  · have hroom := h.owned.bounded leaked {pipefd} hheld (by simpa using ⟨hpipe, .inl hpipe'.symm⟩)
    rw [Finset.card_singleton] at hroom
    omega
  · obtain ⟨hclosed, hmax⟩ := accept_fd hstep
    have hne : pipefd ≠ fd := by
      rintro rfl
      have hopen := h.owned.inv.wired.pipe
      rw [hpipe', hclosed] at hopen
      cases hopen
    have hroom := h.owned.bounded leaked {pipefd, fd} hheld (by
      intro other hother
      rcases Finset.mem_insert.mp hother with rfl | hfd
      · exact ⟨hpipe, .inl hpipe'.symm⟩
      · obtain rfl := Finset.mem_singleton.mp hfd
        exact ⟨hmax, .inr hclosed⟩)
    rw [Finset.card_pair hne] at hroom
    omega

-- A request for an earlier instance of the server, from a client that then goes away.
def outdated : List Event :=
  .accept 0 7 ⟨1, 0⟩ :: polled 7 ++ [.gotPdu 0 true ⟨1, 2, 4⟩ true, .dispatch 0 .begin,
    .dispatch 0 (.answer 6 (.wrote 6)), .dispatch 0 .leave, .inner (.poll .scan)]

theorem old_requests_leak_outdated : ∃ s after : State,
    (served booted outdated = some s ∧ served s (polled 7 ++ [.inner (.readCb (.failed none))]) = some after) ∧
      ∃ c, after.net.conns 0 = some c ∧ c.freed = false ∧ after.net.opened c.fd = true := by
  have hexec : (served booted outdated).map (fun s => decide ((s.task 0).map (fun entry =>
      (entry.1.phase, entry.2)) = some (.left, 0) ∧
      (served s (polled 7 ++ [.inner (.readCb (.failed none))])).isSome = true)) = some true := by decide
  obtain ⟨s, hs, hfacts⟩ := Option.map_eq_some_iff.mp hexec
  obtain ⟨htask, hafter⟩ := of_decide_eq_true hfacts
  obtain ⟨after, hafter⟩ := Option.isSome_iff_exists.mp hafter
  obtain ⟨⟨job, k⟩, htask, heq⟩ := Option.map_eq_some_iff.mp htask
  simp only [Prod.mk.injEq] at heq
  obtain ⟨hleft, rfl⟩ := heq
  have hstart : Reachable (Guarded Patient (Step 5)) (initial 3) booted := .start booted_initial
  have hnow : Reachable (Guarded Patient (Step 5)) (fun start => start = s) s := .start rfl
  have hleak := (old_requests_leak (by decide) (hstart.executed hs) {0}
    (by simpa using ⟨0, job, htask, hleft⟩) (hnow.executed hafter)).1
  exact ⟨s, after, ⟨hs, hafter⟩, hleak 0 (Finset.mem_singleton_self 0)⟩

-- A dead connection to which only conns_ of tcpsconn points.
structure Garbage (s : State) (k fd : Nat) : Prop where
  entry : s.refs (.entry fd) = some k
  only : ∀ o, s.refs o = some k → o = .entry fd
  dead : ∃ c, s.net.conns k = some c ∧ c.dead = true

-- process_accept has not come to it yet.
structure Coming (s : State) (k fd : Nat) : Prop extends Garbage s k fd where
  accepting : s.refs .accepting ≠ none
  cursor : s.cursor ≤ fd

def Deleted (s : State) (k : Nat) : Prop := ∃ c, s.net.conns k = some c ∧ c.freed = true

theorem Garbage.fd_lt (hg : Garbage s k fd) (h : Inv s) : fd < MAX_POLL_FDS := by
  obtain ⟨c, hc, -, -⟩ := h.owned.found hg.entry
  have hfd : some c.fd = some fd := (fds_some hc).symm.trans (h.entered.entries fd k hg.entry)
  rw [← Option.some.inj hfd]
  exact (h.owned.inv.wired.bounds k c.port (congrArg (Option.map Conn.port) hc)).2

theorem Coming.before (hg : Coming s k fd) (h : Inv s) : s.cursor < MAX_POLL_FDS :=
  Nat.lt_of_le_of_lt hg.cursor (hg.toGarbage.fd_lt h)

-- The loop of process_accept is over then.
theorem enter_over (h : enter s = some (.goes next)) : MAX_POLL_FDS ≤ s.cursor := by
  unfold enter at h
  split at h
  · assumption
  · cases h

theorem Effect.deleted (h : Effect s next) (hdel : Deleted s k) : Deleted next k := by
  obtain ⟨c, hc, hfreed⟩ := hdel
  obtain ⟨d, hd, hlasts⟩ := h.moves.lasts.conns k c hc
  exact ⟨d, hd, hlasts.freed hfreed⟩

-- No new pointer to it comes up.
theorem Effect.garbage (h : Effect s next) (hg : Garbage s k fd) (hentry : next.refs (.entry fd) = some k) :
    Garbage next k fd := by
  obtain ⟨c, hc, hdead⟩ := hg.dead
  refine ⟨hentry, fun o ho => ?_, ?_⟩
  · rcases h.pointers o k ho with hold | ⟨o', ho', hne⟩ | hlive
    · exact hg.only o hold
    · exact absurd (hg.only o' ho') (hne fd)
    · rw [hlive c hc] at hdead
      cases hdead
  · obtain ⟨d, hd, hlasts⟩ := h.moves.lasts.conns k c hc
    exact ⟨d, hd, hlasts.dead hdead⟩

theorem Garbage.refno (hg : Garbage s k fd) (h : Inv s) (hc : s.net.conns k = some c) : c.refno = 1 := by
  rw [h.owned.counted hc, Set.ncard_eq_one]
  refine ⟨.entry fd, Set.eq_singleton_iff_unique_mem.mpr ⟨hg.entry, hg.only⟩⟩

theorem Garbage.of_refno (h : Inv s) (hentry : s.refs (.entry fd) = some k) (hc : s.net.conns k = some c)
    (hdead : c.dead = true) (hrefno : c.refno = 1) : Garbage s k fd := by
  rw [h.owned.counted hc, Set.ncard_eq_one] at hrefno
  obtain ⟨owner, howner⟩ := hrefno
  have honly : ∀ o, s.refs o = some k → o = owner := fun o ho => Set.mem_singleton_iff.mp (howner ▸ ho)
  exact ⟨hentry, fun o ho => (honly o ho).trans (honly _ hentry).symm, c, hc, hdead⟩

theorem collect_deletes (h : Inv s) (hg : Coming s k fd) (hstep : collect s = some (.goes next)) :
    Deleted next k ∨ Coming next k fd := by
  have heffect := collect_effect hstep
  have hpassed : next.refs (.entry fd) = s.refs (.entry fd) → next.refs .accepting = s.refs .accepting →
      next.cursor = s.cursor + 1 → s.cursor ≠ fd → Coming next k fd := by
    intro hentry haccepting hcursor hne
    have hle := hg.cursor
    exact ⟨heffect.garbage hg.toGarbage (hentry.trans hg.entry), haccepting ▸ hg.accepting, by omega⟩
  unfold collect at hstep
  split at hstep
  · split at hstep
    · rename_i hnone
      cases hstep
      refine .inr (hpassed rfl rfl rfl fun heq => ?_)
      rw [heq, hg.entry] at hnone
      cases hnone
    · rename_i j hj
      obtain ⟨c, hc, hgo⟩ := look_goes (Option.some.inj hstep)
      by_cases heq : s.cursor = fd
      · -- It is the entry itself.
        left
        rw [heq, hg.entry] at hj
        cases hj
        obtain ⟨d, hd, hdead⟩ := hg.dead
        obtain rfl : c = d := Option.some.inj (hc.symm.trans hd)
        have hrefno := hg.toGarbage.refno h hc
        rw [if_pos ⟨hdead, hrefno⟩] at hgo
        obtain ⟨net, hnet, hgoes⟩ := perform_goes hgo
        cases hgoes
        exact Connections.decref_deletes hc hrefno hdead hnet
      · right
        split at hgo
        · obtain ⟨net, hnet, hgoes⟩ := perform_goes hgo
          cases hgoes
          refine hpassed ?_ ?_ rfl heq
          · exact Function.update_of_ne (fun hsame => heq (Owner.entry.inj hsame).symm) none s.refs
          · simp [State.pass, State.point]
        · cases hgo
          exact hpassed rfl rfl rfl heq
  · cases hstep

theorem step_coming {event : Event} (h : Inv s) (hpatient : Patient s event) (hstep : Step nonce s event next)
    (hg : Coming s k fd) : Deleted next k ∨ Coming next k fd := by
  cases hother : event.listens with
  | false =>
      have hserves := step_serves hpatient hother hstep
      refine .inr ⟨hserves.garbage hg.toGarbage ((hserves.entry fd).trans hg.entry), ?_, ?_⟩
      · rw [hserves.accepting]
        exact hg.accepting
      · rw [hserves.cursor]
        exact hg.cursor
  | true =>
      have hstep' := step_of_Step hstep
      cases event with
      | accept j fd' now =>
          simp only [step, accept] at hstep'
          split at hstep'
          · rename_i hguard
            exact absurd (Option.isNone_iff_eq_none.mp hguard.1) hg.accepting
          · cases hstep'
      | collect => exact collect_deletes h hg hstep'
      | enter =>
          exact absurd (enter_over hstep') (Nat.not_le.mpr (hg.before h))
      | _ => cases hother

-- Whatever the other threads do, process_accept deletes all dead connections to which nothing else points.
theorem garbage_collected (hr : Reachable (Guarded Patient (Step nonce)) (initial pipefd) s) (hg : Coming s k fd)
    (hafter : Reachable (Guarded Patient (Step nonce)) (fun start => start = s) after)
    (hend : Step nonce after .enter next) :
    ∃ c, next.net.conns k = some c ∧ c.freed = true ∧ ∀ o, next.refs o ≠ some k := by
  have hkeeps : Deleted after k ∨ Coming after k fd := by
    have hboth := hafter.invariant (fun later => Inv later ∧ (Deleted later k ∨ Coming later k fd)) ?_ ?_
    · exact hboth.2
    · rintro start rfl
      exact ⟨reachable_inv hr, .inr hg⟩
    · rintro before event mid ⟨hinv, hbefore⟩ hstep
      refine ⟨hinv.goes hstep.1 hstep.2, ?_⟩
      rcases hbefore with hdel | hcoming
      · exact .inl ((step_effect hstep.1 hstep.2).deleted hdel)
      · exact step_coming hinv hstep.1 hstep.2 hcoming
  have hinv := reachable_inv (reachable_after hr hafter)
  have hpatient : Patient after .enter := trivial
  have hinv' := hinv.goes hpatient hend
  have hdel : Deleted next k := by
    rcases hkeeps with hdel | hcoming
    · exact (step_effect hpatient hend).deleted hdel
    · exact absurd (enter_over (step_of_Step hend)) (Nat.not_le.mpr (hcoming.before hinv))
  obtain ⟨c, hc, hfreed⟩ := hdel
  refine ⟨c, hc, hfreed, fun o ho => ?_⟩
  obtain ⟨d, hd, hkept, -⟩ := hinv'.owned.found ho
  obtain rfl : c = d := Option.some.inj (hc.symm.trans hd)
  rw [hfreed] at hkept
  cases hkept

end Lifetimes

-- A client connects and goes away, and another one connects.
def gone : List Event :=
  .accept 0 7 ⟨1, 0⟩ :: List.replicate MAX_POLL_FDS .collect ++ .enter :: polled 7 ++
    [.inner (.readCb (.failed none)), .accept 1 8 ⟨2, 0⟩]

theorem garbage_collected_gone : ∃ s next : State,
    (s.net.conns 0).map Conn.freed = some false ∧ (next.net.conns 0).map Conn.freed = some true := by
  have hexec : (served booted gone).map (fun s => decide (s.refs (.entry 7) = some 0 ∧ s.cursor = 0 ∧
      s.refs .accepting ≠ none ∧ (s.net.conns 0).map (fun c => (c.dead, c.refno, c.freed)) = some (true, 1, false) ∧
      ((served s (List.replicate MAX_POLL_FDS .collect)).bind fun s => advance 5 s .enter).isSome = true)) =
      some true := by decide +kernel
  obtain ⟨s, hs, hfacts⟩ := Option.map_eq_some_iff.mp hexec
  obtain ⟨hentry, hcursor, haccepting, hconn, hrest⟩ := of_decide_eq_true hfacts
  obtain ⟨c, hc, heq⟩ := Option.map_eq_some_iff.mp hconn
  simp only [Prod.mk.injEq] at heq
  obtain ⟨hdead, hrefno, hkept⟩ := heq
  obtain ⟨next, hnext⟩ := Option.isSome_iff_exists.mp hrest
  obtain ⟨after, hafter, hend⟩ := Option.bind_eq_some_iff.mp hnext
  have hstart : Reachable (Guarded Patient (Step 5)) (initial 3) booted := .start booted_initial
  have hr := hstart.executed hs
  have hnow : Reachable (Guarded Patient (Step 5)) (fun start => start = s) s := .start rfl
  have hgarbage : Garbage s 0 7 := .of_refno (reachable_inv hr) hentry hc hdead hrefno
  obtain ⟨d, hd, hfreed, -⟩ := garbage_collected hr ⟨hgarbage, haccepting, hcursor.trans_le (Nat.zero_le 7)⟩
    (hnow.executed hafter) hend
  exact ⟨s, next, by rw [hc, Option.map_some, hkept], by rw [hd, Option.map_some, hfreed]⟩

end CseLabs.Rpcs
