import CseLabs.Connections.Lifetime

namespace CseLabs.Connections

open PollMgr (Mgr MAX_POLL_FDS)

variable {τ : Type*}

def Event.polls : Event τ → Bool
  | .poll _ | .readCb _ | .writeCb _ _ => true
  | .create _ _ _ | .incref _ _ _ | .pass _ _ _ | .decref _ _ | .send _ _ _ _ | .sendAgain _ _ | .sendCompleted _
  | .closeconn _ _ | .remove _ | .removeReturns _ _ | .sendRemoved _ => false

-- The steps of the poll thread that write nothing to the pipe.
def Event.silent : Event τ → Bool
  | .poll _ | .readCb .quiet | .writeCb (.wrote _) _ | .writeCb .again _ => true
  | _ => false

theorem Event.polls_of_silent {event : Event τ} (h : event.silent = true) : event.polls = true := by
  cases event with
  | poll move => rfl
  | readCb read => rfl
  | writeCb io pick => rfl
  | _ => cases h

-- Only the poll thread steps.
def Polls (_ : State τ) (event : Event τ) : Prop := event.polls = true

-- And it writes nothing to the pipe.
def Silent (_ : State τ) (event : Event τ) : Prop := event.silent = true

-- The descriptor is among those whose write_cb the poll thread is still to call in this round.
def Ahead (fd : Nat) : PollMgr.Loop Nat → Prop
  | .top | .polling => False
  | .selecting t => t.wfds fd = true ∧ fd ≤ t.high
  | .scanning _ writable | .calling _ _ _ _ writable => fd ∈ writable

-- A thread has killed the connection while it is watched for writing, or while the poll thread has its
-- write_cb to call.
def Doomed (s : State τ) (k : Nat) : Prop :=
  ∃ c, s.conns k = some c ∧ c.dead = true ∧
    ((∃ readable writable, s.mgr.loop = .calling true c.fd k readable writable) ∨
      s.mgr.callbacks c.fd = some k ∧ ((s.mgr.aio.interest c.fd).2 = true ∨ Ahead c.fd s.mgr.loop))

theorem silent_polls [DecidableEq τ] (s : State τ) (event : Event τ) (next : State τ)
    (h : Guarded Silent Step s event next) : Guarded Polls Step s event next :=
  ⟨Event.polls_of_silent h.1, h.2⟩

section Before

variable {s next : State τ} {mgr after : Mgr τ Nat} {event : Event τ} {k fd : Nat}

theorem visit_ahead {write : Bool} {now : Nat} {readable writable : List Nat}
    (h : Ahead fd (mgr.visit write now readable writable).loop) : fd ∈ writable := by
  unfold PollMgr.Mgr.visit at h
  cases hch : mgr.callbacks now with
  | none =>
      simp only [hch, Option.elim_none] at h
      exact h
  | some ch =>
      simp only [hch, Option.elim_some] at h
      exact h

theorem visit_writes {write : Bool} {now : Nat} {readable writable readable' writable' : List Nat}
    (h : (mgr.visit write now readable writable).loop = .calling true fd k readable' writable') :
    write = true ∧ now = fd ∧ mgr.callbacks fd = some k := by
  unfold PollMgr.Mgr.visit at h
  cases hch : mgr.callbacks now with
  | none =>
      simp only [hch, Option.elim_none] at h
      cases h
  | some ch =>
      simp only [hch, Option.elim_some] at h
      cases h
      exact ⟨rfl, rfl, hch⟩

-- What a callback leaves: nothing is watched or registered that was not, and if it has found its connection
-- lost the poll manager does not know the connection any more.
structure Turn (s next : State τ) : Prop where
  callbacks : ∀ fd k, next.mgr.callbacks fd = some k → s.mgr.callbacks fd = some k
  interest : ∀ fd, (next.mgr.aio.interest fd).2 = true → (s.mgr.aio.interest fd).2 = true
  ahead : ∀ fd, Ahead fd next.mgr.loop → Ahead fd s.mgr.loop
  done : ∀ write fd k readable writable, next.mgr.loop ≠ .calling write fd k readable writable
  conns : ∀ k c', next.conns k = some c' → ∃ c, s.conns k = some c ∧ c.fd = c'.fd ∧
    (c'.dead = true → c.dead = true ∨ next.mgr.callbacks c'.fd ≠ some k)

theorem Turn.returned {c c' : Conn τ} {write : Bool} {readable writable : List Nat}
    (hloop : s.mgr.loop = .calling write fd k readable writable) (hk : s.conns k = some c) (hfd : c'.fd = c.fd)
    (hcallbacks : ∀ fd k, after.callbacks fd = some k → s.mgr.callbacks fd = some k)
    (hinterest : ∀ fd, (after.aio.interest fd).2 = true → (s.mgr.aio.interest fd).2 = true)
    (hdead : c'.dead = true → c.dead = true ∨ after.callbacks c.fd ≠ some k) :
    Turn s (s.returned k c' after readable writable) := by
  refine ⟨hcallbacks, hinterest, fun other hother => ?_, by simp [State.returned], fun j d hd => ?_⟩
  · rw [hloop]
    exact hother
  · rcases update_some hd with ⟨rfl, rfl⟩ | ⟨-, hd⟩
    · exact ⟨c, hk, hfd.symm, hfd ▸ hdead⟩
    · exact ⟨d, hd, rfl, .inl⟩

theorem unwatch_writes {a : PollMgr.Interest} {flag : PollMgr.Flag} {other : Nat}
    (h : (a.unwatch fd flag other).2 = true) : (a other).2 = true := by
  rw [PollMgr.Interest.unwatch] at h
  by_cases heq : other = fd
  · subst heq
    rw [Function.update_self, Bool.and_eq_true] at h
    exact h.1
  · rwa [Function.update_of_ne heq] at h

-- del_callback takes away only.
theorem del_less {flag : PollMgr.Flag} (hsound : mgr.aio.Sound) (hfd : fd ≠ mgr.aio.pipefd)
    (hdel : PollMgr.delCallback mgr fd flag = some after) :
    (∀ other k, after.callbacks other = some k → mgr.callbacks other = some k) ∧
      (∀ other, (after.aio.interest other).2 = true → (mgr.aio.interest other).2 = true) ∧
      (flag = .rdwr → after.callbacks fd = none) := by
  obtain ⟨dropped, aio, hun, rfl⟩ := PollMgr.delCallback_some hdel
  obtain ⟨-, -, hinterest⟩ := PollMgr.unwatch_spec hsound hfd hun
  refine ⟨fun other k hk => ?_, fun other hother => ?_, ?_⟩
  · simp only at hk
    split at hk
    · by_cases heq : other = fd
      · subst heq
        simp at hk
      · rwa [Function.update_of_ne heq] at hk
    · exact hk
  · rw [hinterest] at hother
    exact unwatch_writes hother
  · rintro rfl
    obtain ⟨hsize, hflag⟩ := PollMgr.unwatchFd_some hun
    obtain ⟨aio', hun', -, -, hinterest'⟩ := hsound.unwatchFd hsize hfd hflag
    rw [hun'] at hun
    cases hun
    simp [hinterest', PollMgr.unwatch_rdwr]

theorem Inv.fd_ne_pipe (h : Inv s) {c : Conn τ} (hk : s.conns k = some c) : c.fd ≠ s.mgr.aio.pipefd :=
  (h.wired.bounds k c.port (congrArg (Option.map Conn.port) hk)).1

theorem verify_goes {σ : Type*} {o : Option σ} {after : σ} (h : Outcome.verify o = .goes after) : o = some after := by
  cases o with
  | none => cases h
  | some value =>
      cases h
      rfl

variable [DecidableEq τ]

-- Outside of callbacks the poll thread turns only to what is watched or ahead of it.
theorem move_ahead {move : Move} (hstep : PollMgr.step mgr move.event = some after) :
    (Ahead fd after.loop → Ahead fd mgr.loop ∨ (mgr.aio.interest fd).2 = true) ∧
      ∀ readable writable, after.loop = .calling true fd k readable writable →
        mgr.callbacks fd = some k ∧ Ahead fd mgr.loop := by
  cases move with
  | top =>
      simp only [Move.event, PollMgr.step, PollMgr.top] at hstep
      split at hstep
      · cases hstep
        split <;> exact ⟨fun h => absurd h id, by simp⟩
      · cases hstep
  | snapshot =>
      simp only [Move.event, PollMgr.step, PollMgr.snapshot] at hstep
      split at hstep
      · cases hstep
        exact ⟨fun h => .inr h.1, by simp⟩
      · cases hstep
  | select canRead canWrite =>
      obtain ⟨t, bytes, readable, writable, hloop, rfl, -, hwritable, -⟩ := PollMgr.select_some hstep
      rw [hloop]
      exact ⟨fun h => .inl ⟨(hwritable fd h).2, (hwritable fd h).1⟩, by simp⟩
  | interrupted =>
      simp only [Move.event, PollMgr.step, PollMgr.interrupted] at hstep
      split at hstep
      · cases hstep
        exact ⟨fun h => absurd h List.not_mem_nil, by simp⟩
      · cases hstep
  | scan =>
      simp only [Move.event, PollMgr.step, PollMgr.scan] at hstep
      split at hstep
      · rename_i hloop
        cases hstep
        rw [hloop]
        refine ⟨fun h => .inl (visit_ahead h), fun r w h => ?_⟩
        cases (visit_writes h).1
      · rename_i hloop
        cases hstep
        rw [hloop]
        refine ⟨fun h => .inl (List.mem_cons_of_mem _ (visit_ahead h)), fun r w h => ?_⟩
        obtain ⟨-, rfl, hcallback⟩ := visit_writes h
        exact ⟨hcallback, List.mem_cons_self⟩
      · cases hstep
        exact ⟨fun h => absurd h id, by simp⟩
      · cases hstep

theorem readCb_turn {read : Read τ} (h : Inv s) (hstep : readCb s read = some (.goes next)) : Turn s next := by
  unfold readCb at hstep
  split at hstep
  · rename_i fd k readable writable hloop
    obtain ⟨c, hk, -, rfl, hr⟩ := h.called hloop hstep
    rw [if_neg (by simp)] at hr
    split at hr
    · cases hr
      exact .returned hloop hk rfl (fun _ _ => id) (fun _ => id) .inl
    · cases read with
      | quiet =>
          cases hr
          exact .returned hloop hk rfl (fun _ _ => id) (fun _ => id) .inl
      | got heir =>
          cases hr
          exact .returned hloop hk rfl (fun _ _ => id) (fun _ => id) .inl
      | failed pick =>
          obtain ⟨w, -, hverify⟩ := Option.map_eq_some_iff.mp hr
          obtain ⟨after, hdel, rfl⟩ := Option.map_eq_some_iff.mp (verify_goes hverify)
          obtain ⟨hcallbacks, hinterest, hnone⟩ := del_less h.wired.inv.sound (h.fd_ne_pipe hk) hdel
          exact .returned hloop hk rfl hcallbacks hinterest fun _ => .inr (by simp [hnone rfl])
      | stopped => cases hr
  · cases hstep

theorem writeCb_turn {io : Io} {pick : Option τ} (h : Inv s) (hstep : writeCb s io pick = some (.goes next)) :
    Turn s next := by
  unfold writeCb at hstep
  split at hstep
  · rename_i fd k readable writable hloop
    obtain ⟨c, hk, -, rfl, hr⟩ := h.called hloop hstep
    split at hr
    · cases hr
    · split at hr
      · obtain ⟨after, hdel, rfl⟩ := Option.map_eq_some_iff.mp (verify_goes (Option.some.inj hr))
        obtain ⟨hcallbacks, hinterest, -⟩ := del_less h.wired.inv.sound (h.fd_ne_pipe hk) hdel
        exact .returned hloop hk rfl hcallbacks hinterest .inl
      · split at hr
        · cases hr
        · rename_i c' hwrite
          obtain ⟨size, done, rfl, -⟩ := writepdu_some hwrite
          obtain ⟨w, -, hverify⟩ := Option.map_eq_some_iff.mp hr
          obtain ⟨after, hdel, rfl⟩ := Option.map_eq_some_iff.mp (verify_goes hverify)
          obtain ⟨hcallbacks, hinterest, hnone⟩ := del_less h.wired.inv.sound (h.fd_ne_pipe hk) hdel
          exact .returned hloop hk rfl hcallbacks hinterest fun _ => .inr (by simp [hnone rfl])
        · rename_i c' hwrite
          obtain ⟨size, done, rfl, -⟩ := writepdu_some hwrite
          split at hr
          · cases hr
          · split at hr
            · cases hr
              exact .returned hloop hk rfl (fun _ _ => id) (fun _ => id) .inl
            · obtain ⟨w, -, hgoes⟩ := Option.map_eq_some_iff.mp hr
              cases hgoes
              exact .returned hloop hk rfl (fun _ _ => id) (fun _ => id) .inl
  · cases hstep

-- The poll thread dooms no connection.
theorem doomed_before (h : Inv s) (hpolls : event.polls = true) (hstep : Step s event next) (hd : Doomed next k) :
    Doomed s k := by
  have hturn : Turn s next → Doomed s k := by
    intro hturn
    obtain ⟨c', hk', hdead, hnow | ⟨hcallback, hwrites⟩⟩ := hd
    · obtain ⟨readable, writable, hloop⟩ := hnow
      exact (hturn.done _ _ _ _ _ hloop).elim
    · obtain ⟨c, hk, hfd, hkilled⟩ := hturn.conns k c' hk'
      refine ⟨c, hk, (hkilled hdead).resolve_right (not_not_intro hcallback), .inr ⟨?_, ?_⟩⟩
      · rw [hfd]
        exact hturn.callbacks _ _ hcallback
      · rw [hfd]
        exact hwrites.imp (hturn.interest _) (hturn.ahead _)
  have hgoes := step_of_Step hstep
  cases event with
  | poll move =>
      obtain ⟨mgr, hmgr, hnext⟩ := Option.map_eq_some_iff.mp hgoes
      cases hnext
      have hround := move_round hmgr
      obtain ⟨c, hk, hdead, hnow | ⟨hcallback, hwrites⟩⟩ := hd
      · obtain ⟨readable, writable, hloop⟩ := hnow
        obtain ⟨hcallback, hahead⟩ := (move_ahead hmgr).2 readable writable hloop
        exact ⟨c, hk, hdead, .inr ⟨hcallback, .inr hahead⟩⟩
      · refine ⟨c, hk, hdead, .inr ⟨hround.callbacks ▸ hcallback, ?_⟩⟩
        rcases hwrites with hwatched | hahead
        · exact .inl (hround.interest ▸ hwatched)
        · exact ((move_ahead (k := k) hmgr).1 hahead).symm
  | readCb read => exact hturn (readCb_turn h hgoes)
  | writeCb io pick => exact hturn (writeCb_turn h hgoes)
  | _ => cases hpolls

end Before

section After

variable [DecidableEq τ] {s next : State τ} {event : Event τ} {k : Nat} {c : Conn τ}

-- The poll thread is in write_cb, and its VERIFY(!dead_) fails.
def Fails (s : State τ) : Prop := ∃ io pick, step s (.writeCb io pick) = some .aborts

-- A connection that the poll manager knows.
structure Marked (s : State τ) (k : Nat) (c : Conn τ) : Prop where
  conn : s.conns k = some c
  callback : s.mgr.callbacks c.fd = some k

-- The poll thread is in write_cb of the connection, if nothing has failed.
def Met (k : Nat) (c : Conn τ) (s : State τ) : Prop :=
  Fails s ∨ Inv s ∧ Marked s k c ∧ ∃ readable writable, s.mgr.loop = .calling true c.fd k readable writable

-- The poll thread can come there by steps that write nothing to the pipe.
def Visits (k : Nat) (c : Conn τ) (s : State τ) : Prop := Comes (Guarded Silent Step) (Met k c) s

theorem silently {goal : State τ → Prop} (hsilent : event.silent = true) (hstep : Step s event next)
    (h : Comes (Guarded Silent Step) goal next) : Comes (Guarded Silent Step) goal s := by
  have hguarded : Guarded Silent Step s event next := ⟨hsilent, hstep⟩
  exact .later hguarded h

theorem poll_step {move : Move} {mgr : Mgr τ Nat} (h : PollMgr.step s.mgr move.event = some mgr) :
    Step s (.poll move) { s with mgr := mgr } := by
  simp only [Step, advance, step, poll, h, Option.map_some, Option.bind_some, Outcome.next]

theorem Marked.poll {move : Move} {mgr : Mgr τ Nat} (hm : Marked s k c)
    (hmgr : PollMgr.step s.mgr move.event = some mgr) : Marked { s with mgr := mgr } k c :=
  ⟨hm.conn, (congrFun (move_round hmgr).callbacks _).trans hm.callback⟩

theorem Inv.polls (h : Inv s) (hpolls : event.polls = true) (hstep : Step s event next) : Inv next := by
  refine h.goes ?_ hstep
  cases event with
  | removeReturns t early => cases hpolls
  | _ => trivial

omit [DecidableEq τ] in
theorem writepdu_again (c : Conn τ) (h : 0 ≤ c.solong) : c.writepdu .again = some (true, c) := by
  unfold Conn.writepdu
  rw [if_neg (Int.not_lt.mpr h)]
  split <;> rfl

omit [DecidableEq τ] in
-- A callback that is not of the marked connection can return without touching it.
theorem Marked.returned {j : Nat} {d : Conn τ} {mgr : Mgr τ Nat} {readable writable : List Nat} (hm : Marked s k c)
    (hne : j ≠ k) (hcallback : mgr.callbacks c.fd = s.mgr.callbacks c.fd) :
    Marked (s.returned j d mgr readable writable) k c :=
  ⟨(Function.update_of_ne (Ne.symm hne) ..).trans hm.conn, hcallback.trans hm.callback⟩

theorem dead_fails {fd : Nat} {readable writable : List Nat} (h : Inv s)
    (hloop : s.mgr.loop = .calling true fd k readable writable) (hk : s.conns k = some c) (hdead : c.dead = true) :
    Fails s := by
  obtain ⟨d, hd, hkept, -⟩ := h.calling hloop
  rw [hk] at hd
  cases hd
  refine ⟨.again, none, ?_⟩
  simp only [step, writeCb, hloop, use_eq hk hkept, hdead, true_or, if_true]

-- A callback other than the one in question can return with the connection as it is, or fails its VERIFY.
theorem callback_turn {write : Bool} {fd j : Nat} {readable writable : List Nat} (h : Inv s) (hm : Marked s k c)
    (hloop : s.mgr.loop = .calling write fd j readable writable) :
    Met k c s ∨ ∃ event next, event.silent = true ∧ Step s event next ∧ Marked next k c ∧
      next.mgr.aio.interest c.fd = s.mgr.aio.interest c.fd ∧ next.mgr.loop = .scanning readable writable := by
  obtain ⟨d, hj, hkept, rfl⟩ := h.calling hloop
  cases write with
  | false =>
      right
      have hstep : step s (.readCb .quiet) = some (.goes (s.returned j d s.mgr readable writable)) := by
        simp only [step, readCb, hloop, use_eq hj hkept, ne_eq, not_true_eq_false, if_false]
        split <;> rfl
      refine ⟨.readCb .quiet, _, rfl, Step_of_step hstep, ⟨?_, hm.callback⟩, rfl, rfl⟩
      change Function.update s.conns j (some d) k = some c
      rw [← hj, Function.update_eq_self]
      exact hm.conn
  | true =>
      by_cases hdead : d.dead = true
      · exact .inl (.inl (dead_fails h hloop hj hdead))
      by_cases hne : j = k
      · subst hne
        rw [hm.conn] at hj
        cases hj
        exact .inl (.inr ⟨h, hm, readable, writable, hloop⟩)
      · right
        have hlive : d.dead = false := by simpa using hdead
        have hsane := (h.kept j d hj).sane hlive
        have hguard : ¬ (d.dead = true ∨ d.fd ≠ d.fd) := by simp [hlive]
        by_cases hsz : d.sz = 0
        · have hp : s.ports j = some d.port := congrArg (Option.map Conn.port) hj
          have hq : s.ports k = some c.port := congrArg (Option.map Conn.port) hm.conn
          obtain ⟨mgr, hdel, -, -⟩ := h.wired.unwatch hp hlive
          have hdel' : PollMgr.delCallback s.mgr d.fd .wronly = some mgr := hdel
          have hfd : c.fd ≠ d.fd :=
            h.wired.fd_ne hp hkept hq (h.wired.not_freed hq (.inl hm.callback)) (Ne.symm hne)
          have hstep : step s (.writeCb .again none) = some (.goes (s.returned j d mgr readable writable)) := by
            simp only [step, writeCb, hloop, use_eq hj hkept, if_neg hguard, if_pos hsz, hdel', Option.map_some]
            rfl
          obtain ⟨dropped, aio, hun, hmgr⟩ := PollMgr.delCallback_some hdel'
          obtain ⟨-, -, hinterest⟩ := PollMgr.unwatch_spec h.wired.inv.sound (h.fd_ne_pipe hj) hun
          refine ⟨.writeCb .again none, _, rfl, Step_of_step hstep, hm.returned hne ?_, ?_, rfl⟩
          · rw [hmgr]
            simp only
            split
            · exact Function.update_of_ne hfd ..
            · rfl
          · change mgr.aio.interest c.fd = _
            rw [hmgr]
            change aio.interest c.fd = _
            rw [hinterest, PollMgr.Interest.unwatch, Function.update_of_ne hfd]
        · by_cases hless : d.solong < d.sz
          · have hstep : step s (.writeCb .again none) =
                some (.goes (s.returned j d s.mgr readable writable)) := by
              simp only [step, writeCb, hloop, use_eq hj hkept, if_neg hguard, if_neg hsz, writepdu_again d hsane.1,
                if_neg (Int.not_lt.mpr hsane.1), if_pos hless]
            exact ⟨.writeCb .again none, _, rfl, Step_of_step hstep, hm.returned hne rfl, rfl, rfl⟩
          · obtain ⟨pick, w, hsignal⟩ := CondVar.exists_signal d.sendComplete
            have hstep : step s (.writeCb .again pick) =
                some (.goes (s.returned j { d with sendComplete := w } s.mgr readable writable)) := by
              simp only [step, writeCb, hloop, use_eq hj hkept, if_neg hguard, if_neg hsz, writepdu_again d hsane.1,
                if_neg (Int.not_lt.mpr hsane.1), if_neg hless, hsignal, Option.map_some]
            exact ⟨.writeCb .again pick, _, rfl, Step_of_step hstep, hm.returned hne rfl, rfl, rfl⟩

-- The poll thread visits one descriptor and then has these left.
theorem visit_comes {write : Bool} {fd : Nat} {readable writable : List Nat} (h : Inv s) (hm : Marked s k c)
    (hscan : PollMgr.scan s.mgr = some (s.mgr.visit write fd readable writable))
    (hrest : ∀ s', Inv s' → Marked s' k c → s'.mgr.aio.interest c.fd = s.mgr.aio.interest c.fd →
      s'.mgr.loop = .scanning readable writable → Visits k c s') : Visits k c s := by
  have hmgr : PollMgr.step s.mgr (Move.event (τ := τ) .scan) = some (s.mgr.visit write fd readable writable) := hscan
  have hstep := poll_step hmgr
  have hnext := h.polls rfl hstep
  have hmarked := hm.poll hmgr
  refine silently rfl hstep ?_
  cases hch : s.mgr.callbacks fd with
  | none =>
      refine hrest _ hnext hmarked rfl ?_
      simp only [PollMgr.Mgr.visit, hch, Option.elim_none]
  | some j =>
      have hloop : (s.mgr.visit write fd readable writable).loop = .calling write fd j readable writable := by
        simp only [PollMgr.Mgr.visit, hch, Option.elim_some]
      rcases callback_turn hnext hmarked hloop with hmet | ⟨event, next, hsilent, hturn, hmarked', hinterest, hscanning⟩
      · exact .now hmet
      · have hafter := hnext.polls (Event.polls_of_silent hsilent) hturn
        exact silently hsilent hturn (hrest next hafter hmarked' hinterest hscanning)

-- With these descriptors left it comes to the marked connection, or to the top of its loop.
theorem scanning_comes (n : Nat) : ∀ (s : State τ) (readable writable : List Nat),
    readable.length + writable.length = n → Inv s → Marked s k c → s.mgr.loop = .scanning readable writable →
      (∀ last, Inv last → Marked last k c → last.mgr.aio.interest c.fd = s.mgr.aio.interest c.fd →
        last.mgr.loop = .top → c.fd ∉ writable → Visits k c last) → Visits k c s := by
  induction n with
  | zero =>
      intro s readable writable hn h hm hloop htop
      obtain rfl := List.eq_nil_of_length_eq_zero (Nat.eq_zero_of_add_eq_zero_right hn)
      obtain rfl := List.eq_nil_of_length_eq_zero (Nat.eq_zero_of_add_eq_zero_left hn)
      have hmgr : PollMgr.step s.mgr (Move.event (τ := τ) .scan) = some { s.mgr with loop := .top } := by
        simp only [Move.event, PollMgr.step, PollMgr.scan, hloop]
      have hstep := poll_step hmgr
      exact silently rfl hstep (htop _ (h.polls rfl hstep) (hm.poll hmgr) rfl rfl List.not_mem_nil)
  | succ n ih =>
      intro s readable writable hn h hm hloop htop
      cases readable with
      | cons fd readable =>
          have hscan : PollMgr.scan s.mgr = some (s.mgr.visit false fd readable writable) := by
            simp only [PollMgr.scan, hloop]
          refine visit_comes h hm hscan fun s' h' hm' hinterest hloop' => ?_
          refine ih s' readable writable (by simp only [List.length_cons] at hn; omega) h' hm' hloop' ?_
          exact fun last hl hml hsame => htop last hl hml (hsame.trans hinterest)
      | nil =>
          cases writable with
          | nil => cases hn
          | cons fd writable =>
              have hscan : PollMgr.scan s.mgr = some (s.mgr.visit true fd [] writable) := by
                simp only [PollMgr.scan, hloop]
              by_cases heq : c.fd = fd
              · -- Here is the connection.
                subst heq
                have hmgr : PollMgr.step s.mgr (Move.event (τ := τ) .scan) =
                  some (s.mgr.visit true c.fd [] writable) := hscan
                have hcalling : (s.mgr.visit true c.fd [] writable).loop = .calling true c.fd k [] writable := by
                  simp only [PollMgr.Mgr.visit, hm.callback, Option.elim_some]
                have hstep := poll_step hmgr
                exact silently rfl hstep (.now (.inr ⟨h.polls rfl hstep, hm.poll hmgr, [], writable, hcalling⟩))
              · refine visit_comes h hm hscan fun s' h' hm' hinterest hloop' => ?_
                refine ih s' [] writable (by simpa using hn) h' hm' hloop' ?_
                intro last hl hml hsame htop' hnot
                exact htop last hl hml (hsame.trans hinterest) htop' (by simp [heq, hnot])

theorem selecting_comes {t : PollMgr.Snapshot} (h : Inv s) (hm : Marked s k c) (hloop : s.mgr.loop = .selecting t)
    (hset : t.wfds c.fd = true) (hle : c.fd ≤ t.high) : Visits k c s := by
  have hready : (s.mgr.aio.ready t (fun _ => false) fun fd => fd == c.fd).wfds c.fd = true := by
    simp [PollMgr.SelectAio.ready, PollMgr.Snapshot.select, hset]
  have hsome : (s.mgr.aio.ready t (fun _ => false) fun fd => fd == c.fd).some? = true :=
    List.any_eq_true.mpr ⟨c.fd, List.mem_range.mpr (Nat.lt_succ_of_le hle), by simp [hready]⟩
  have hmgr : PollMgr.step s.mgr (Move.event (τ := τ) (.select (fun _ => false) fun fd => fd == c.fd)) =
      some (s.mgr.collected (s.mgr.aio.ready t (fun _ => false) fun fd => fd == c.fd)) := by
    simp only [Move.event, PollMgr.step, PollMgr.select, hloop, if_pos hsome]
  have hstep := poll_step hmgr
  have hpipe := h.fd_ne_pipe hm.conn
  refine silently rfl hstep ?_
  refine scanning_comes _ _ _ _ rfl (h.polls rfl hstep) (hm.poll hmgr) rfl fun last _ _ _ _ hnot => absurd ?_ hnot
  refine List.mem_filter.mpr ⟨List.mem_range.mpr (Nat.lt_succ_of_le hle), ?_⟩
  simp [hready, hpipe]

theorem polling_comes (h : Inv s) (hm : Marked s k c) (hwatched : (s.mgr.aio.interest c.fd).2 = true)
    (hloop : s.mgr.loop = .polling) : Visits k c s := by
  have hmgr : PollMgr.step s.mgr (Move.event (τ := τ) .snapshot) =
      some { s.mgr with loop := .selecting s.mgr.aio.snapshot } := by
    simp only [Move.event, PollMgr.step, PollMgr.snapshot, hloop]
  have hstep := poll_step hmgr
  refine silently rfl hstep (selecting_comes (h.polls rfl hstep) (hm.poll hmgr) rfl hwatched ?_)
  refine h.wired.inv.sound.bound c.fd ?_
  rw [PollMgr.watched_eq, hwatched, Bool.or_true]

theorem top_comes (h : Inv s) (hm : Marked s k c) (hwatched : (s.mgr.aio.interest c.fd).2 = true)
    (hloop : s.mgr.loop = .top) : Visits k c s := by
  have hmgr : PollMgr.step s.mgr (Move.event (τ := τ) .top) =
      some (if s.mgr.pendingChange = true then
        { s.mgr with loop := .polling, pendingChange := false, changedoneC := s.mgr.changedoneC.broadcast }
      else { s.mgr with loop := .polling }) := by
    simp only [Move.event, PollMgr.step, PollMgr.top, hloop]
  have hstep := poll_step hmgr
  refine silently rfl hstep (polling_comes (h.polls rfl hstep) (hm.poll hmgr) ?_ ?_)
  · simp only
    split <;> exact hwatched
  · simp only
    split <;> rfl

theorem marked_comes (h : Inv s) (hm : Marked s k c)
    (hwrites : (s.mgr.aio.interest c.fd).2 = true ∨ Ahead c.fd s.mgr.loop) : Visits k c s := by
  -- Once at the top of the loop, the poll thread has the connection ahead only if it is still watched.
  have hdrain : ∀ s' readable writable, Inv s' → Marked s' k c →
      s'.mgr.aio.interest c.fd = s.mgr.aio.interest c.fd → s'.mgr.loop = .scanning readable writable →
      ((s.mgr.aio.interest c.fd).2 = true ∨ c.fd ∈ writable) → Visits k c s' := by
    intro s' readable writable h' hm' hsame hloop' hw
    refine scanning_comes _ s' readable writable rfl h' hm' hloop' fun last hl hml hinterest htop hnot => ?_
    refine top_comes hl hml ?_ htop
    rw [hinterest, hsame]
    exact hw.resolve_right hnot
  cases hloop : s.mgr.loop with
  | top =>
      rw [hloop] at hwrites
      exact top_comes h hm (hwrites.resolve_right id) hloop
  | polling =>
      rw [hloop] at hwrites
      exact polling_comes h hm (hwrites.resolve_right id) hloop
  | selecting t =>
      rw [hloop] at hwrites
      rcases hwrites with hwatched | ⟨hset, hle⟩
      · have hmgr : PollMgr.step s.mgr (Move.event (τ := τ) .interrupted) =
            some { s.mgr with loop := .scanning [] [] } := by
          simp only [Move.event, PollMgr.step, PollMgr.interrupted, hloop]
        have hstep := poll_step hmgr
        exact silently rfl hstep (hdrain _ [] [] (h.polls rfl hstep) (hm.poll hmgr) rfl rfl (.inl hwatched))
      · exact selecting_comes h hm hloop hset hle
  | scanning readable writable =>
      rw [hloop] at hwrites
      exact hdrain s readable writable h hm rfl hloop hwrites
  | calling write fd j readable writable =>
      rw [hloop] at hwrites
      rcases callback_turn h hm hloop with hmet | ⟨event, next, hsilent, hturn, hmarked, hinterest, hscanning⟩
      · exact .now hmet
      · have hafter := h.polls (Event.polls_of_silent hsilent) hturn
        exact silently hsilent hturn (hdrain next readable writable hafter hmarked hinterest hscanning hwrites)

end After

section Runs

variable [DecidableEq τ] {s : State τ} {pipefd : Nat}

-- The poll thread can come to fail the VERIFY of write_cb by itself exactly if some connection is doomed: a failed send
-- or closeconn has killed it while it was watched for writing and its callbacks are not removed yet.
theorem write_abort_iff (hr : Reachable (Guarded Patient Step) (initial pipefd) s) :
    Comes (Guarded Polls Step) Fails s ↔ ∃ k, Doomed s k := by
  have h := reachable_inv hr
  constructor
  · rintro ⟨last, hlast, io, pick, haborts⟩
    have hback : Inv last ∧ ∀ k, Doomed last k → Doomed s k := by
      refine hlast.invariant (fun last => Inv last ∧ ∀ k, Doomed last k → Doomed s k) ?_ ?_
      · rintro state rfl
        exact ⟨h, fun _ => id⟩
      · rintro state event next ⟨hinv, hdoomed⟩ ⟨hevent, hstep⟩
        exact ⟨hinv.polls hevent hstep, fun k hk => hdoomed k (doomed_before hinv hevent hstep hk)⟩
    have hpatient : Patient last (.writeCb io pick) := trivial
    rcases hback.1.step hpatient haborts with hmeets | ⟨-, fd, k, readable, writable, c, hloop, hk, hdead⟩
    · exact absurd hmeets id
    · obtain ⟨d, hd, -, rfl⟩ := hback.1.calling hloop
      rw [hk] at hd
      cases hd
      exact ⟨k, hback.2 k ⟨c, hk, hdead, .inl ⟨readable, writable, hloop⟩⟩⟩
  · rintro ⟨k, c, hk, hdead, ⟨readable, writable, hloop⟩ | ⟨hcallback, hwrites⟩⟩
    · exact .now (dead_fails h hloop hk hdead)
    · refine ((marked_comes h ⟨hk, hcallback⟩ hwrites).mono silent_polls).then fun last hlast => ?_
      rcases hlast with hfails | ⟨hinv, hmarked, readable, writable, hloop⟩
      · exact .now hfails
      · exact .now (dead_fails hinv hloop hmarked.conn hdead)

end Runs

-- The connection is closed by another thread while the rest of a message waits to be sent.
theorem write_abort_closing : ∃ s : State Nat, Doomed s 0 ∧ Comes (Guarded Polls Step) Fails s := by
  have hexec : (execute (fun s event => if Patient s event then advance s event else none)
      ({ mgr := { aio := .create 3 }, opened := fun fd => fd == 3 } : State Nat)
      [.create 0 0 7, .incref 0 1 0, .send 0 0 10 (.wrote 4), .closeconn 1 0]).map
      (fun s => (s.conns 0).map fun c => (c.dead, s.mgr.callbacks c.fd, (s.mgr.aio.interest c.fd).2)) =
      some (some (true, some 0, true)) := by decide
  obtain ⟨s, hs, hfields⟩ := Option.map_eq_some_iff.mp hexec
  obtain ⟨c, hk, hc⟩ := Option.map_eq_some_iff.mp hfields
  simp only [Prod.mk.injEq] at hc
  have hdoomed : Doomed s 0 := ⟨c, hk, hc.1, .inr ⟨hc.2.1, .inl hc.2.2⟩⟩
  have hstart : Reachable (Guarded Patient Step) (initial 3)
      ({ mgr := { aio := .create 3 }, opened := fun fd => fd == 3 } : State Nat) := .start ⟨_, rfl, rfl⟩
  exact ⟨s, hdoomed, (write_abort_iff (hstart.executed hs)).mpr ⟨0, hdoomed⟩⟩

end CseLabs.Connections
