import CseLabs.Rpcs

namespace CseLabs.Rpcs

open Connections (Outcome Conn Io Owned Pc)
open PollMgr (MAX_POLL_FDS)

-- After remember.
def Phase.past : Phase → Bool
  | .checking | .running | .choosing => true
  | .queued | .remembering | .answering _ | .leaving _ | .left => false

-- Only a thread that answers is in a call on a connection.
def Idle (pc : Owner → Pc) (jobs : Nat → Option Job) : Prop :=
  ∀ o, pc o ≠ .out → ∃ id job old, o = .job id ∧ jobs id = some job ∧ job.phase = .leaving old

structure Tables (refs : Owner → Option Nat) (jobs : Nat → Option Job) : Prop where
  tasks : ∀ id, (jobs id).isSome = (refs (.job id)).isSome
  remembers : ∀ id job, jobs id = some job → job.phase = .remembering → job.header.cltNonce ≠ 0
  saved : ∀ id job, jobs id = some job → job.phase.past = true → job.header.cltNonce ≠ 0 →
    (refs (.latest job.header.cltNonce)).isSome = true
  nobody : refs (.latest 0) = none

-- conns_ of tcpsconn has the connections under their descriptors, but for the one being accepted.
structure Entered (refs : Owner → Option Nat) (fds : Nat → Option Nat) : Prop where
  entries : ∀ fd k, refs (.entry fd) = some k → fds k = some fd
  fresh : ∀ fd k, refs .accepting = some k → refs (.entry fd) ≠ some k

structure Inv (s : State) : Prop where
  owned : Owned s.refs s.net
  idle : Idle s.net.pc s.jobs
  tables : Tables s.refs s.jobs
  entered : Entered s.refs s.net.fds

section Parts

variable {pc pc' : Owner → Pc} {refs refs' : Owner → Option Nat} {jobs : Nat → Option Job} {fds : Nat → Option Nat}
  {id : Nat} {job : Job}

theorem Idle.other (h : Idle pc jobs) {o : Owner} (ho : ∀ id, o ≠ .job id) : pc o = .out := by
  by_contra hne
  obtain ⟨id, job, old, heq, -⟩ := h o hne
  exact ho id heq

theorem Idle.out (h : Idle pc jobs) (hjob : jobs id = some job) (hphase : ∀ old, job.phase ≠ .leaving old) :
    pc (.job id) = .out := by
  by_contra hne
  obtain ⟨i, other, old, heq, hother, hleaving⟩ := h _ hne
  cases heq
  obtain rfl : job = other := Option.some.inj (hjob.symm.trans hother)
  exact hphase old hleaving

theorem Idle.unborn (h : Idle pc jobs) (hjob : jobs id = none) : pc (.job id) = .out := by
  by_contra hne
  obtain ⟨i, other, old, heq, hother, -⟩ := h _ hne
  cases heq
  rw [hjob] at hother
  cases hother

theorem Idle.turn {job' : Option Job} (h : Idle pc jobs) (hout : pc (.job id) = .out) :
    Idle pc (Function.update jobs id job') := by
  intro o ho
  obtain ⟨i, other, old, rfl, hother, hleaving⟩ := h o ho
  have hne : i ≠ id := by
    rintro rfl
    exact ho hout
  exact ⟨i, other, old, rfl, by rw [Function.update_of_ne hne, hother], hleaving⟩

-- The thread calls send.
theorem Idle.answer {old : Bool} (h : Idle pc jobs) (hpc : ∀ o, o ≠ .job id → pc' o = pc o) :
    Idle pc' (Function.update jobs id (some { job with phase := .leaving old })) := by
  intro o ho
  by_cases heq : o = .job id
  · exact ⟨id, _, old, heq, Function.update_self .., rfl⟩
  · rw [hpc o heq] at ho
    obtain ⟨i, other, old', rfl, hother, hleaving⟩ := h o ho
    exact ⟨i, other, old', rfl, by rw [Function.update_of_ne (by simpa using heq), hother], hleaving⟩

theorem Tables.point {o : Owner} {k' : Option Nat} (h : Tables refs jobs) (hjob : ∀ id, .job id ≠ o)
    (hlatest : ∀ n, .latest n ≠ o) : Tables (Function.update refs o k') jobs := by
  refine ⟨fun i => ?_, h.remembers, fun i other hi hpast hnonce => ?_, ?_⟩
  · rw [Function.update_of_ne (hjob i), h.tasks]
  · rw [Function.update_of_ne (hlatest _)]
    exact h.saved i other hi hpast hnonce
  · rw [Function.update_of_ne (hlatest 0), h.nobody]

theorem Tables.turn {phase : Phase} (h : Tables refs jobs) (hjob : jobs id = some job)
    (hremembers : phase = .remembering → job.header.cltNonce ≠ 0)
    (hsaved : phase.past = true → job.header.cltNonce ≠ 0 → (refs (.latest job.header.cltNonce)).isSome = true) :
    Tables refs (Function.update jobs id (some { job with phase := phase })) := by
  refine ⟨fun i => ?_, fun i other hi hphase => ?_, fun i other hi hpast hnonce => ?_, h.nobody⟩
  · by_cases heq : i = id
    · subst heq
      rw [Function.update_self, ← h.tasks, hjob]
      rfl
    · rw [Function.update_of_ne heq, h.tasks]
  · rcases Connections.update_some hi with ⟨-, rfl⟩ | ⟨-, hold⟩
    · exact hremembers hphase
    · exact h.remembers i other hold hphase
  · rcases Connections.update_some hi with ⟨-, rfl⟩ | ⟨-, hold⟩
    · exact hsaved hpast hnonce
    · exact h.saved i other hold hpast hnonce

theorem Tables.save {n k : Nat} (h : Tables refs jobs) (hn : n ≠ 0) :
    Tables (Function.update refs (.latest n) (some k)) jobs := by
  refine ⟨fun i => ?_, h.remembers, fun i other hi hpast hnonce => ?_, ?_⟩
  · rw [Function.update_of_ne (by simp), h.tasks]
  · by_cases heq : other.header.cltNonce = n
    · rw [heq, Function.update_self]
      rfl
    · rw [Function.update_of_ne (by simpa using heq)]
      exact h.saved i other hi hpast hnonce
  · rw [Function.update_of_ne (by simpa using hn.symm), h.nobody]

-- A job is new or gone, or gets another connection.
theorem Tables.assign {job' : Option Job} {k' : Option Nat} (h : Tables refs jobs) (hsome : job'.isSome = k'.isSome)
    (hphase : ∀ other, job' = some other → other.phase ≠ .remembering ∧ other.phase.past = false) :
    Tables (Function.update refs (.job id) k') (Function.update jobs id job') := by
  have hold : ∀ i other, Function.update jobs id job' i = some other →
      job' = some other ∨ jobs i = some other := by
    intro i other hi
    by_cases heq : i = id
    · subst heq
      rw [Function.update_self] at hi
      exact .inl hi
    · rw [Function.update_of_ne heq] at hi
      exact .inr hi
  refine ⟨fun i => ?_, fun i other hi hremembering => ?_, fun i other hi hpast hnonce => ?_, ?_⟩
  · by_cases heq : i = id
    · subst heq
      rw [Function.update_self, Function.update_self, hsome]
    · rw [Function.update_of_ne heq, Function.update_of_ne (by simpa using heq), h.tasks]
  · rcases hold i other hi with hnew | hsame
    · exact absurd hremembering (hphase other hnew).1
    · exact h.remembers i other hsame hremembering
  · rw [Function.update_of_ne (by simp)]
    rcases hold i other hi with hnew | hsame
    · rw [(hphase other hnew).2] at hpast
      cases hpast
    · exact h.saved i other hsame hpast hnonce
  · rw [Function.update_of_ne (by simp), h.nobody]

theorem Entered.point {o : Owner} {k' : Option Nat} (h : Entered refs fds) (haccepting : .accepting ≠ o)
    (hentry : ∀ fd, .entry fd ≠ o) : Entered (Function.update refs o k') fds := by
  refine ⟨fun fd k hk => ?_, fun fd k hk => ?_⟩
  · rw [Function.update_of_ne (hentry fd)] at hk
    exact h.entries fd k hk
  · rw [Function.update_of_ne (hentry fd)]
    rw [Function.update_of_ne haccepting] at hk
    exact h.fresh fd k hk

theorem Entered.accept {k fd : Nat} (h : Entered refs fds) (hfresh : fds k = none) :
    Entered (Function.update refs .accepting (some k)) (Function.update fds k (some fd)) := by
  have hnone : ∀ other, refs (.entry other) ≠ some k := by
    intro other hentry
    rw [h.entries other k hentry] at hfresh
    cases hfresh
  refine ⟨fun other j hj => ?_, fun other j hj => ?_⟩
  · rw [Function.update_of_ne (by simp)] at hj
    have hne : j ≠ k := by
      rintro rfl
      exact hnone other hj
    rw [Function.update_of_ne hne, h.entries other j hj]
  · rw [Function.update_self] at hj
    rw [Function.update_of_ne (by simp), ← hj]
    exact hnone other

theorem Entered.drop {fd : Nat} (h : Entered refs fds) : Entered (Function.update refs (.entry fd) none) fds := by
  have hold : ∀ other j, Function.update refs (.entry fd) none (.entry other) = some j → refs (.entry other) = some j := by
    intro other j hj
    by_cases heq : other = fd
    · rw [heq, Function.update_self] at hj
      cases hj
    · rwa [Function.update_of_ne (by simpa using heq)] at hj
  refine ⟨fun other j hj => h.entries other j (hold other j hj), fun other j hj hentry => ?_⟩
  rw [Function.update_of_ne (by simp)] at hj
  exact h.fresh other j hj (hold other j hentry)

theorem Entered.enter {k fd : Nat} (h : Entered refs fds) (hfd : fds k = some fd) :
    Entered (Function.update (Function.update refs .accepting none) (.entry fd) (some k)) fds := by
  refine ⟨fun other j hj => ?_, fun other j hj => ?_⟩
  · by_cases heq : other = fd
    · rw [heq, Function.update_self] at hj
      rw [heq, ← Option.some.inj hj, hfd]
    · rw [Function.update_of_ne (by simpa using heq), Function.update_of_ne (by simp)] at hj
      exact h.entries other j hj
  · rw [Function.update_of_ne (by simp), Function.update_self] at hj
    cases hj

end Parts

-- Why dispatch may end the server: the procedure is not registered, the handler has failed, or a request that does
-- not ask for at-most-once semantics has run and its connection is dead.
def Act.Refused (s : State) (job : Job) (k : Nat) : Act → Prop
  | .begin => s.procs job.header.proc = false
  | .ran ret => ret < 0
  | .choose => job.header.cltNonce = 0 ∧ ∃ c, s.net.conns k = some c ∧ c.dead = true
  | .remember | .check _ | .answer _ _ | .leave => False

-- Why the server may end. A VERIFY of readpdu fails before got_pdu is called, in a step of the connections.
def Refused (s : State) : Event → Prop
  | .reg1 proc => s.procs proc = true
  | .accept _ fd _ => MAX_POLL_FDS ≤ fd
  | .dispatch id act => ∃ job k, s.task id = some (job, k) ∧ act.Refused s job k
  | .inner event => Connections.Refused s.net event
  | .collect | .enter | .gotPdu _ _ _ _ => False

section Steps

variable {nonce : Nat} {s : State} {id k : Nat} {job : Job} {r : Outcome State}

theorem perform_eq {net next : Net} {event : Connections.Event Owner} {f : Net → Outcome State}
    (h : Connections.step net event = some (.goes next)) : perform net event f = f next := by
  rw [perform, h]

-- A pointer leads to an object.
theorem Inv.look {o : Owner} (h : Inv s) (ho : s.refs o = some k) (f : Conn Owner → Outcome State) :
    ∃ c, s.net.conns k = some c ∧ s.look k f = f c := by
  obtain ⟨c, hk, hkept, -⟩ := h.owned.found ho
  exact ⟨c, hk, by simp [State.look, hk, hkept]⟩

theorem fds_some {net : Net} {c : Conn Owner} (hk : net.conns k = some c) : net.fds k = some c.fd :=
  congrArg (Option.map Conn.fd) hk

theorem accept_meets {fd : Nat} {now : Timeval} (h : Inv s) (hstep : accept s k fd now = some r) :
    r.Meets Inv ∨ r = .aborts ∧ MAX_POLL_FDS ≤ fd := by
  unfold accept at hstep
  split at hstep
  · rename_i hguard
    obtain ⟨hnone, hconn, hfd⟩ := hguard
    cases hstep
    have hnone : s.refs .accepting = none := Option.isNone_iff_eq_none.mp hnone
    have hout : s.net.pc .accepting = .out := h.idle.other (by simp)
    have hcreate : Connections.step s.net (.create .accepting k fd) = some _ := if_pos ⟨hout, hconn, hfd⟩
    rcases h.owned.create hnone hcreate with ⟨habort, hmax⟩ | ⟨next, hgoes, howned, hpc, hfree, hfds⟩
    · exact .inr ⟨by rw [perform, hcreate, habort], hmax⟩
    · left
      rw [perform_eq (hcreate.trans (congrArg some hgoes))]
      refine ⟨howned, hpc ▸ h.idle, h.tables.point (by simp) (by simp), ?_⟩
      exact hfds ▸ h.entered.accept (by simp [Connections.State.fds, hfree])
  · cases hstep

theorem collect_meets (h : Inv s) (hstep : collect s = some r) : r.Meets Inv := by
  have hpass : Inv s.pass := ⟨h.owned, h.idle, h.tables, h.entered⟩
  unfold collect at hstep
  split at hstep
  · split at hstep
    · cases hstep
      exact hpass
    · rename_i k hentry
      cases hstep
      obtain ⟨c, hk, hlook⟩ := h.look hentry _
      rw [hlook]
      split
      · obtain ⟨next, hgoes, howned, hpc, hfds⟩ := h.owned.decref hentry (h.idle.other (by simp))
        rw [perform_eq hgoes]
        exact ⟨howned, hpc ▸ h.idle, h.tables.point (by simp) (by simp), hfds ▸ h.entered.drop⟩
      · exact hpass
  · cases hstep

-- The descriptor of a connection that is being accepted is not in conns_: the connection that is there has it open.
theorem Inv.unentered {c : Conn Owner} (h : Inv s) (ho : s.refs .accepting = some k) (hk : s.net.conns k = some c) :
    s.refs (.entry c.fd) = none := by
  by_contra hsome
  obtain ⟨j, hj⟩ := Option.ne_none_iff_exists'.mp hsome
  obtain ⟨d, hd, hkept, -⟩ := h.owned.found hj
  obtain ⟨c', hk', hopen, -⟩ := h.owned.found ho
  obtain rfl : c = c' := Option.some.inj (hk.symm.trans hk')
  have hfd : some d.fd = some c.fd := (fds_some hd).symm.trans (h.entered.entries c.fd j hj)
  have hsame : j = k := h.owned.inv.wired.distinct j k d.port c.port (congrArg (Option.map Conn.port) hd)
    (congrArg (Option.map Conn.port) hk) hkept hopen (Option.some.inj hfd)
  exact h.entered.fresh c.fd k ho (hsame ▸ hj)

theorem enter_meets (h : Inv s) (hstep : enter s = some r) : r.Meets Inv := by
  unfold enter at hstep
  split at hstep
  · obtain ⟨k, hk, rfl⟩ := Option.map_eq_some_iff.mp hstep
    obtain ⟨c, hc, hlook⟩ := h.look hk _
    rw [hlook]
    obtain ⟨next, hgoes, howned, hpc, hfds⟩ :=
      h.owned.pass hk (h.idle.other (by simp)) (h.unentered hk hc)
    rw [perform_eq hgoes]
    refine ⟨howned, hpc ▸ h.idle, (h.tables.point (by simp) (by simp)).point (by simp) (by simp), ?_⟩
    exact hfds ▸ h.entered.enter (fds_some hc)
  · cases hstep

theorem gotPdu_meets {ok room : Bool} {header : Header} (h : Inv s) (hstep : gotPdu s id ok header room = some r) :
    r.Meets Inv := by
  unfold gotPdu at hstep
  split at hstep
  · rename_i fd k readable writable hloop
    split at hstep
    · rename_i hnew
      cases hstep
      obtain ⟨c, hk, hkept, hfd⟩ := h.owned.inv.calling hloop
      have hlook : ∀ f, s.look k f = f c := fun f => by simp [State.look, hk, hkept]
      rw [hlook]
      split
      · have hquiet : Connections.step s.net (.readCb .quiet) =
            some (.goes (s.net.returned k c s.net.mgr readable writable)) := by
          simp [Connections.step, Connections.readCb, hloop, Connections.use_eq hk hkept, hfd]
        have hpatient : Connections.Patient s.net (.readCb .quiet) := trivial
        obtain ⟨howned, -, hfds⟩ := h.owned.inner rfl hpatient (Connections.Step_of_step hquiet)
        rw [perform_eq hquiet]
        exact ⟨howned, h.idle, h.tables, hfds ▸ h.entered⟩
      · rename_i hgot
        have hnew : s.jobs id = none := Option.isNone_iff_eq_none.mp hnew
        have hnone : s.refs (.job id) = none := by
          have htask := h.tables.tasks id
          rw [hnew] at htask
          simpa using htask.symm
        have hlive : c.dead = false := by simpa using (not_or.mp hgot).1
        obtain ⟨next, hgoes, howned, hpc, hfds⟩ := h.owned.got hnone hloop hk hlive
        rw [perform_eq hgoes]
        refine ⟨howned, hpc ▸ h.idle.turn (h.idle.unborn hnew), h.tables.assign rfl ?_,
          hfds ▸ h.entered.point (by simp) (by simp)⟩
        rintro other ⟨⟩
        exact ⟨by simp, rfl⟩
    · cases hstep
  · cases hstep

theorem task_some (h : s.task id = some (job, k)) : s.jobs id = some job ∧ s.refs (.job id) = some k := by
  unfold State.task at h
  split at h
  · rename_i hjob href
    cases h
    exact ⟨hjob, href⟩
  · cases h

section Jobs

variable (h : Inv s) (hjob : s.jobs id = some job) (hk : s.refs (.job id) = some k)

include h hjob

-- A step of dispatch that makes no call on a connection.
theorem Inv.turn {phase : Phase} (hphase : ∀ old, job.phase ≠ .leaving old)
    (hremembers : phase = .remembering → job.header.cltNonce ≠ 0)
    (hsaved : phase.past = true → job.header.cltNonce ≠ 0 → (s.refs (.latest job.header.cltNonce)).isSome = true) :
    Inv (s.turn id job phase) :=
  ⟨h.owned, h.idle.turn (h.idle.out hjob hphase), h.tables.turn hjob hremembers hsaved, h.entered⟩

include hk

omit hjob in
theorem drop_meets (hout : s.net.pc (.job id) = .out) : (drop s id k).Meets Inv := by
  obtain ⟨next, hgoes, howned, hpc, hfds⟩ := h.owned.decref hk hout
  rw [drop, perform_eq hgoes]
  refine ⟨howned, hpc ▸ h.idle.turn hout, h.tables.assign rfl (by simp), ?_⟩
  exact hfds ▸ h.entered.point (by simp) (by simp)

theorem begin_meets (hphase : job.phase = .queued) :
    (begin nonce s id job k).Meets Inv ∨
      begin nonce s id job k = .aborts ∧ s.procs job.header.proc = false := by
  have hidle : ∀ old, job.phase ≠ .leaving old := by simp [hphase]
  unfold begin
  split
  · exact .inl (drop_meets h hk (h.idle.out hjob hidle))
  · split
    · exact .inl (h.turn hjob hidle (by simp) (by simp [Phase.past]))
    · split
      · rename_i hproc
        exact .inr ⟨rfl, hproc⟩
      · split
        · rename_i hnonce
          exact .inl (h.turn hjob hidle (fun _ => hnonce) (by simp [Phase.past]))
        · rename_i hnonce
          exact .inl (h.turn hjob hidle (by simp) fun _ hne => absurd hne hnonce)

-- The connection of the job becomes the latest of its client.
theorem save_meets {net : Net} {refs : Owner → Option Nat} (hphase : job.phase = .remembering)
    (howned : Owned refs net) (hpc : net.pc = s.net.pc) (hfds : net.fds = s.net.fds)
    (hsame : Function.update refs (.latest job.header.cltNonce) (some k) =
      Function.update s.refs (.latest job.header.cltNonce) (some k))
    (hnone : refs (.latest job.header.cltNonce) = none) : (save s id job k net).Meets Inv := by
  have hout := h.idle.out hjob (by simp [hphase])
  have hk' : refs (.job id) = some k := by
    have heq := congrFun hsame (.job id)
    rwa [Function.update_of_ne (by simp), Function.update_of_ne (by simp), hk] at heq
  obtain ⟨next, hgoes, howned', hpc', hfds'⟩ := howned.incref hk' (hpc ▸ hout) hnone
  rw [save, perform_eq hgoes]
  have hsaved := h.tables.save (k := k) (h.tables.remembers id job hjob hphase)
  rw [hsame] at howned'
  refine ⟨howned', ?_, hsaved.turn hjob (by simp) (fun _ _ => ?_), ?_⟩
  · exact hpc'.trans hpc ▸ h.idle.turn hout
  · rw [Function.update_self]
    rfl
  · exact hfds'.trans hfds ▸ h.entered.point (by simp) (by simp)

theorem remember_meets (hphase : job.phase = .remembering) : (remember s id job k).Meets Inv := by
  unfold remember
  split
  · rename_i hnone
    exact save_meets h hjob hk hphase h.owned rfl rfl rfl hnone
  · rename_i old hold
    obtain ⟨c, -, hlook⟩ := h.look hold _
    rw [hlook]
    split
    · obtain ⟨next, hgoes, howned, hpc, hfds⟩ := h.owned.decref hold (h.idle.other (by simp))
      rw [perform_eq hgoes]
      refine save_meets h hjob hk hphase howned hpc hfds ?_ (Function.update_self ..)
      rw [Function.update_idem]
    · refine h.turn hjob (by simp [hphase]) (by simp) fun _ _ => ?_
      rw [hold]
      rfl

omit hk in
theorem check_meets {stat : Stat} (hphase : job.phase = .checking) : (check s id job stat).Meets Inv := by
  have hidle : ∀ old, job.phase ≠ .leaving old := by simp [hphase]
  have hsaved := h.tables.saved id job hjob (by rw [hphase]; rfl)
  cases stat with
  | NEW => exact h.turn hjob hidle (by simp) fun _ => hsaved
  | INPROGRESS => exact h.turn hjob hidle (by simp) fun _ => hsaved
  | DONE => exact h.turn hjob hidle (by simp) fun _ => hsaved
  | FORGOTTEN => exact h.turn hjob hidle (by simp) fun _ => hsaved

omit hk in
theorem ran_meets {ret : Int} (hphase : job.phase = .running) :
    (ran s id job ret).Meets Inv ∨ ran s id job ret = .aborts ∧ ret < 0 := by
  unfold ran
  split
  · rename_i hneg
    exact .inr ⟨rfl, hneg⟩
  · exact .inl (h.turn hjob (by simp [hphase]) (by simp) fun _ => h.tables.saved id job hjob (by rw [hphase]; rfl))

theorem choose_meets (hphase : job.phase = .choosing) :
    (choose s id job k).Meets Inv ∨ choose s id job k = .aborts ∧ job.header.cltNonce = 0 ∧
      ∃ c, s.net.conns k = some c ∧ c.dead = true := by
  obtain ⟨c, hc, hlook⟩ := h.look hk _
  have hidle : ∀ old, job.phase ≠ .leaving old := by simp [hphase]
  have hout := h.idle.out hjob hidle
  unfold choose
  rw [hlook]
  split
  · rename_i hgone
    obtain ⟨next, hgoes, howned, hpc, hfds⟩ := h.owned.decref hk hout
    rw [perform_eq hgoes]
    unfold switch
    split
    · rename_i hnone
      refine .inr ⟨rfl, ?_, c, hc, hgone.1⟩
      -- a client with a nonce has an entry in conns_
      by_contra hnonce
      have hsaved := h.tables.saved id job hjob (by rw [hphase]; rfl) hnonce
      rw [hnone] at hsaved
      cases hsaved
    · rename_i heir hheir
      left
      have hlatest : Function.update s.refs (.job id) none (.latest job.header.cltNonce) = some heir := by
        rw [Function.update_of_ne (by simp), hheir]
      obtain ⟨after, hgoes', howned', hpc', hfds'⟩ :=
        howned.incref hlatest (hpc ▸ h.idle.other (by simp)) (Function.update_self ..)
      rw [perform_eq hgoes']
      rw [Function.update_idem] at howned'
      refine ⟨howned', hpc'.trans hpc ▸ h.idle.turn hout, h.tables.assign rfl ?_, ?_⟩
      · rintro other ⟨⟩
        exact ⟨by simp, rfl⟩
      · exact hfds'.trans hfds ▸ h.entered.point (by simp) (by simp)
  · exact .inl (h.turn hjob hidle (by simp) (by simp [Phase.past]))

theorem answer_meets {old : Bool} {sz : Nat} {io : Io} (hphase : job.phase = .answering old) :
    (answer s id job k old sz io).Meets Inv := by
  have hout := h.idle.out hjob (by simp [hphase])
  obtain ⟨next, hgoes, howned, hpc, hfds⟩ := h.owned.send hk hout sz io
  rw [answer, perform_eq hgoes]
  exact ⟨howned, h.idle.answer hpc, h.tables.turn hjob (by simp) (by simp [Phase.past]), hfds ▸ h.entered⟩

theorem leave_meets {old : Bool} (hstep : leave s id job k old = some r) : r.Meets Inv := by
  unfold leave at hstep
  split at hstep
  · rename_i hout
    cases hstep
    split
    · exact ⟨h.owned, h.idle.turn hout, h.tables.turn hjob (by simp) (by simp [Phase.past]), h.entered⟩
    · exact drop_meets h hk hout
  · cases hstep

end Jobs

theorem dispatch_meets {act : Act} (h : Inv s) (hstep : dispatch nonce s id act = some r) :
    r.Meets Inv ∨ r = .aborts ∧ ∃ job k, s.task id = some (job, k) ∧ act.Refused s job k := by
  obtain ⟨⟨job, k⟩, htask, hr⟩ := Option.bind_eq_some_iff.mp hstep
  obtain ⟨hjob, hk⟩ := task_some htask
  simp only at hr
  split at hr
  · rename_i hphase
    cases hr
    exact (begin_meets h hjob hk hphase).imp_right fun hrefused => ⟨hrefused.1, job, k, htask, hrefused.2⟩
  · rename_i hphase
    cases hr
    exact .inl (remember_meets h hjob hk hphase)
  · rename_i stat hphase
    cases hr
    exact .inl (check_meets h hjob hphase)
  · rename_i ret hphase
    cases hr
    exact (ran_meets h hjob hphase).imp_right fun hrefused => ⟨hrefused.1, job, k, htask, hrefused.2⟩
  · rename_i hphase
    cases hr
    exact (choose_meets h hjob hk hphase).imp_right fun hrefused => ⟨hrefused.1, job, k, htask, hrefused.2⟩
  · rename_i old sz io hphase
    cases hr
    exact .inl (answer_meets h hjob hk hphase)
  · exact .inl (leave_meets h hjob hk hr)
  · cases hr

theorem inner_meets {event : Connections.Event Owner} (h : Inv s) (hpatient : Connections.Patient s.net event)
    (hstep : step nonce s (.inner event) = some r) :
    r.Meets Inv ∨ r = .aborts ∧ Connections.Refused s.net event := by
  simp only [step] at hstep
  split at hstep
  · rename_i hinner
    split at hstep
    · rename_i net hnet
      cases hstep
      obtain ⟨howned, hpc, hfds⟩ := h.owned.inner hinner hpatient (Connections.Step_of_step hnet)
      left
      refine ⟨howned, fun o ho => h.idle o fun hout => ho (hpc o hout), h.tables, hfds ▸ h.entered⟩
    · rename_i hnet
      cases hstep
      rcases h.owned.inv.step hpatient hnet with hmeets | hrefused
      · exact absurd hmeets id
      · exact .inr ⟨rfl, hrefused.2⟩
    · cases hstep
  · cases hstep

theorem Inv.step {event : Event} (h : Inv s) (hpatient : Patient s event) (hstep : step nonce s event = some r) :
    r.Meets Inv ∨ r = .aborts ∧ Refused s event := by
  cases event with
  | reg1 proc =>
      cases hstep
      unfold reg1
      split
      · rename_i hproc
        exact .inr ⟨rfl, hproc⟩
      · exact .inl ⟨h.owned, h.idle, h.tables, h.entered⟩
  | accept k fd now => exact accept_meets h hstep
  | collect => exact .inl (collect_meets h hstep)
  | enter => exact .inl (enter_meets h hstep)
  | gotPdu id ok header room => exact .inl (gotPdu_meets h hstep)
  | dispatch id act => exact dispatch_meets h hstep
  | inner event => exact inner_meets h hpatient hstep

theorem step_of_Step {next : State} {event : Event} (h : Step nonce s event next) :
    step nonce s event = some (.goes next) := by
  obtain ⟨r, hr, hnext⟩ := Option.bind_eq_some_iff.mp h
  cases r with
  | aborts => cases hnext
  | goes after =>
      cases hnext
      exact hr

theorem Inv.goes {event : Event} {next : State} (h : Inv s) (hpatient : Patient s event)
    (hstep : Step nonce s event next) : Inv next := by
  rcases h.step hpatient (step_of_Step hstep) with hnext | ⟨haborts, -⟩
  · exact hnext
  · cases haborts

variable {pipefd : Nat}

theorem initial_inv (h : initial pipefd s) : Inv s := by
  obtain ⟨net, hnet, rfl⟩ := h
  have hinv := Connections.initial_inv hnet
  obtain ⟨opened, -, rfl⟩ := hnet
  refine ⟨⟨hinv, ?_, ?_, ?_⟩, ?_, ⟨?_, ?_, ?_, ?_⟩, ⟨?_, ?_⟩⟩
  all_goals simp [Idle]

theorem reachable_inv (hr : Reachable (Guarded Patient (Step nonce)) (initial pipefd) s) : Inv s :=
  hr.invariant Inv (fun _ => initial_inv) fun _ _ _ h hstep => h.goes hstep.1 hstep.2

end Steps

end CseLabs.Rpcs
