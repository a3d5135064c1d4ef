import CseLabs.Connections.Writers

namespace CseLabs.Connections

open PollMgr (Mgr MAX_POLL_FDS)

variable {τ : Type*}

-- The descriptor of a connection and its references, which a send or a callback leaves alone.
def Conn.stake (c : Conn τ) : Nat × List τ := (c.fd, c.holders)

def State.stakes (s : State τ) : Nat → Option (Nat × List τ) := fun k => (s.conns k).map Conn.stake

def State.fds (s : State τ) : Nat → Option Nat := fun k => (s.conns k).map Conn.fd

-- What stays true of a connection for good.
structure Conn.Lasts (c later : Conn τ) : Prop where
  fd : later.fd = c.fd
  dead : c.dead = true → later.dead = true
  freed : c.freed = true → later.freed = true

structure Lasts (s next : State τ) : Prop where
  conns : ∀ k c, s.conns k = some c → ∃ later, next.conns k = some later ∧ c.Lasts later
  pipefd : next.mgr.aio.pipefd = s.mgr.aio.pipefd

-- No reference changes, and no thread but one moves.
structure Still (s next : State τ) (t : τ) : Prop where
  stakes : next.stakes = s.stakes
  pc : ∀ u, u ≠ t → next.pc u = s.pc u
  lasts : Lasts s next

-- Every pointer of a program to a connection has a reference of its own, and there are no other references.
structure Owned (refs : τ → Option Nat) (s : State τ) : Prop where
  inv : Inv s
  nodup : ∀ k c, s.conns k = some c → c.holders.Nodup
  holds : ∀ k c, s.conns k = some c → ∀ o, o ∈ c.holders ↔ refs o = some k
  known : ∀ o k, refs o = some k → ∃ c, s.conns k = some c

section Still

variable {s next : State τ} {t : τ} {k : Nat} {c c' : Conn τ}

theorem use_goes {f : Conn τ → Option (Outcome (State τ))} (h : s.use k f = some (.goes next)) :
    ∃ c, s.conns k = some c ∧ f c = some (.goes next) := by
  unfold State.use at h
  split at h
  · rename_i c hk
    split at h
    · cases h
    · exact ⟨c, hk, h⟩
  · cases h

theorem update_stakes (hconns : next.conns = Function.update s.conns k (some c')) (hk : s.conns k = some c)
    (hstake : c'.stake = c.stake) : next.stakes = s.stakes := by
  funext j
  unfold State.stakes
  rw [hconns]
  by_cases heq : j = k
  · subst heq
    rw [Function.update_self, hk, Option.map_some, Option.map_some, hstake]
  · rw [Function.update_of_ne heq]

theorem update_fds (hconns : next.conns = Function.update s.conns k (some c')) (hk : s.conns k = some c)
    (hfd : c'.fd = c.fd) : next.fds = s.fds := by
  funext j
  unfold State.fds
  rw [hconns]
  by_cases heq : j = k
  · subst heq
    rw [Function.update_self, hk, Option.map_some, Option.map_some, hfd]
  · rw [Function.update_of_ne heq]

theorem stakes_fds (hsame : next.stakes = s.stakes) : next.fds = s.fds := by
  funext j
  have hj := congrArg (Option.map Prod.fst) (congrFun hsame j)
  simp only [State.stakes, Option.map_map] at hj
  exact hj

theorem stakes_some (hsame : next.stakes = s.stakes) (hk : s.conns k = some c) :
    ∃ c', next.conns k = some c' ∧ c'.stake = c.stake := by
  have hnext := congrFun hsame k
  simp only [State.stakes, hk, Option.map_some] at hnext
  exact Option.map_eq_some_iff.mp hnext

theorem Conn.Lasts.refl (c : Conn τ) : c.Lasts c := ⟨rfl, id, id⟩

theorem Lasts.refl (s : State τ) : Lasts s s := ⟨fun _ c hk => ⟨c, hk, .refl c⟩, rfl⟩

theorem Lasts.trans {mid : State τ} (h : Lasts s mid) (h' : Lasts mid next) : Lasts s next := by
  refine ⟨fun k c hk => ?_, h'.pipefd.trans h.pipefd⟩
  obtain ⟨d, hd, hlasts⟩ := h.conns k c hk
  obtain ⟨e, he, hlasts'⟩ := h'.conns k d hd
  exact ⟨e, he, hlasts'.fd.trans hlasts.fd, fun hdead => hlasts'.dead (hlasts.dead hdead),
    fun hfreed => hlasts'.freed (hlasts.freed hfreed)⟩

theorem update_lasts (hconns : next.conns = Function.update s.conns k (some c')) (hk : s.conns k = some c)
    (hlasts : c.Lasts c') (hpipe : next.mgr.aio.pipefd = s.mgr.aio.pipefd) : Lasts s next := by
  refine ⟨fun j d hd => ?_, hpipe⟩
  rw [hconns]
  by_cases heq : j = k
  · subst heq
    obtain rfl : c = d := Option.some.inj (hk.symm.trans hd)
    exact ⟨c', Function.update_self .., hlasts⟩
  · exact ⟨d, by rw [Function.update_of_ne heq, hd], .refl d⟩

theorem unwatch_pipefd {a next : PollMgr.SelectAio} {fd : Nat} {flag : PollMgr.Flag} {dropped : Bool}
    (h : a.unwatchFd fd flag = some (dropped, next)) : next.pipefd = a.pipefd := by
  obtain ⟨hsize, hflag⟩ := PollMgr.unwatchFd_some h
  rw [PollMgr.unwatchFd_eq a hsize hflag] at h
  cases h
  exact (PollMgr.lower_sets ..).2.2

theorem del_pipefd {mgr after : Mgr τ Nat} {fd : Nat} {flag : PollMgr.Flag}
    (h : PollMgr.delCallback mgr fd flag = some after) : after.aio.pipefd = mgr.aio.pipefd := by
  obtain ⟨dropped, aio, hun, rfl⟩ := PollMgr.delCallback_some h
  exact unwatch_pipefd hun

theorem add_pipefd {mgr after : Mgr τ Nat} {fd : Nat} {flag : PollMgr.Flag}
    (h : PollMgr.addCallback mgr fd flag k = some after) : after.aio.pipefd = mgr.aio.pipefd := by
  obtain ⟨-, rfl⟩ := PollMgr.addCallback_some h
  rfl

variable [DecidableEq τ]

theorem enter_goes {f : Conn τ → Option (Outcome (State τ))} (h : s.enter t k f = some (.goes next)) :
    ∃ c, s.conns k = some c ∧ f c = some (.goes next) := by
  unfold State.enter at h
  split at h
  · split at h
    · exact use_goes h
    · cases h
  · cases h

theorem put_still {p : Pc} (hk : s.conns k = some c) (hstake : c'.stake = c.stake) (hlasts : c.Lasts c') :
    Still s (s.put t p k c') t :=
  ⟨update_stakes rfl hk hstake, fun _ hne => Function.update_of_ne hne .., update_lasts rfl hk hlasts rfl⟩

theorem move_still {mgr : Mgr τ Nat} {p : Pc} (hpipe : mgr.aio.pipefd = s.mgr.aio.pipefd) :
    Still s { s with mgr := mgr, pc := Function.update s.pc t p } t :=
  ⟨rfl, fun _ hne => Function.update_of_ne hne .., ⟨fun _ c hk => ⟨c, hk, .refl c⟩, hpipe⟩⟩

theorem proceed_still {sz : Nat} {io : Io} (h : proceed s t k sz io c' = .goes next) (hk : s.conns k = some c)
    (hstake : c'.stake = c.stake) (hlasts : c.Lasts c') : Still s next t := by
  unfold proceed at h
  split at h
  · cases h
    exact put_still hk hstake hlasts
  · split at h
    · cases h
    · rename_i c'' hwrite
      obtain ⟨size, done, rfl, -⟩ := writepdu_some hwrite
      cases h
      exact put_still hk hstake ⟨hlasts.fd, fun _ => rfl, hlasts.freed⟩
    · rename_i c'' hwrite
      obtain ⟨size, done, rfl, -⟩ := writepdu_some hwrite
      split at h
      · cases h
        exact put_still hk hstake ⟨hlasts.fd, hlasts.dead, hlasts.freed⟩
      · obtain ⟨mgr, hadd, rfl⟩ := Option.map_eq_some_iff.mp (verify_goes h)
        refine ⟨update_stakes rfl hk hstake, fun u hne => Function.update_of_ne hne .., ?_⟩
        exact update_lasts rfl hk ⟨hlasts.fd, hlasts.dead, hlasts.freed⟩ (add_pipefd hadd)

theorem send_still {sz : Nat} {io : Io} (h : send s t k sz io = some (.goes next)) : Still s next t := by
  obtain ⟨c, hk, hr⟩ := enter_goes h
  split at hr
  · cases hr
    exact put_still hk rfl ⟨rfl, id, id⟩
  · exact proceed_still (Option.some.inj hr) hk rfl (.refl c)

theorem sendAgain_still {io : Io} (h : sendAgain s t io = some (.goes next)) : s.pc t ≠ .out ∧ Still s next t := by
  unfold sendAgain at h
  split at h
  · rename_i k sz hpc
    refine ⟨by simp [hpc], ?_⟩
    obtain ⟨c, hk, hr⟩ := use_goes h
    obtain ⟨w, -, hgoes⟩ := Option.map_eq_some_iff.mp hr
    split at hgoes
    · cases hgoes
      exact put_still hk rfl ⟨rfl, id, id⟩
    · exact proceed_still hgoes hk rfl ⟨rfl, id, id⟩
  · cases h

theorem sendCompleted_still (h : sendCompleted s t = some (.goes next)) : s.pc t ≠ .out ∧ Still s next t := by
  unfold sendCompleted at h
  split at h
  · rename_i k hpc
    refine ⟨by simp [hpc], ?_⟩
    obtain ⟨c, hk, hr⟩ := use_goes h
    obtain ⟨w, -, hgoes⟩ := Option.map_eq_some_iff.mp hr
    split at hgoes <;> cases hgoes <;> exact put_still hk rfl ⟨rfl, id, id⟩
  · cases h

theorem closeconn_still (h : closeconn s t k = some (.goes next)) : Still s next t := by
  obtain ⟨c, hk, hr⟩ := enter_goes h
  have hgoes := Outcome.goes.inj (Option.some.inj hr)
  split at hgoes
  · exact hgoes ▸ ⟨rfl, fun _ _ => rfl, .refl s⟩
  · exact hgoes ▸ put_still hk rfl ⟨rfl, fun _ => rfl, id⟩

theorem remove_still (h : remove s t = some (.goes next)) : s.pc t ≠ .out ∧ Still s next t := by
  unfold remove at h
  split at h
  · rename_i sends k hpc
    refine ⟨by simp [hpc], ?_⟩
    obtain ⟨c, hk, hr⟩ := use_goes h
    obtain ⟨mgr, hmgr, rfl⟩ := Option.map_eq_some_iff.mp (verify_goes (Option.some.inj hr))
    obtain ⟨dropped, aio, hun, rfl⟩ := PollMgr.blockRemoveFd_some hmgr
    exact move_still (unwatch_pipefd hun)
  · cases h

theorem removeReturns_still {early : Bool} (h : removeReturns s t early = some (.goes next)) :
    s.pc t ≠ .out ∧ Still s next t := by
  unfold removeReturns at h
  split at h
  · rename_i sends k hpc
    refine ⟨by simp [hpc], ?_⟩
    obtain ⟨c, hk, hr⟩ := use_goes h
    obtain ⟨mgr, hmgr, hgoes⟩ := Option.map_eq_some_iff.mp hr
    cases hgoes
    refine move_still ?_
    split at hmgr
    · obtain ⟨w, -, rfl⟩ := Option.map_eq_some_iff.mp hmgr
      rfl
    · obtain ⟨w, -, rfl⟩ := Option.map_eq_some_iff.mp hmgr
      rfl
  · cases h

theorem sendRemoved_still (h : sendRemoved s t = some (.goes next)) : s.pc t ≠ .out ∧ Still s next t := by
  unfold sendRemoved at h
  split at h
  · rename_i k hpc
    refine ⟨by simp [hpc], ?_⟩
    obtain ⟨c, hk, hr⟩ := use_goes h
    cases hr
    exact put_still hk rfl ⟨rfl, id, id⟩
  · cases h

-- A callback leaves the references and the threads alone.
structure Returned (s next : State τ) : Prop where
  stakes : next.stakes = s.stakes
  pc : next.pc = s.pc
  lasts : Lasts s next

omit [DecidableEq τ] in
theorem returned_still {mgr : Mgr τ Nat} {readable writable : List Nat} (hk : s.conns k = some c)
    (hstake : c'.stake = c.stake) (hlasts : c.Lasts c') (hpipe : mgr.aio.pipefd = s.mgr.aio.pipefd) :
    Returned s (s.returned k c' mgr readable writable) :=
  ⟨update_stakes rfl hk hstake, rfl, update_lasts rfl hk hlasts hpipe⟩

theorem readCb_still {read : Read τ} (hread : ∀ heir, read ≠ .got heir) (h : readCb s read = some (.goes next)) :
    Returned s next := by
  unfold readCb at h
  split at h
  · obtain ⟨c, hk, hr⟩ := use_goes h
    split at hr
    · cases hr
    · split at hr
      · cases hr
        exact returned_still hk rfl (.refl c) rfl
      · cases read with
        | quiet =>
            cases hr
            exact returned_still hk rfl (.refl c) rfl
        | got heir => exact absurd rfl (hread heir)
        | failed pick =>
            obtain ⟨w, -, hgoes⟩ := Option.map_eq_some_iff.mp hr
            obtain ⟨mgr, hdel, rfl⟩ := Option.map_eq_some_iff.mp (verify_goes hgoes)
            exact returned_still hk rfl ⟨rfl, fun _ => rfl, id⟩ (del_pipefd hdel)
        | stopped => cases hr
  · cases h

theorem writeCb_still {io : Io} {pick : Option τ} (h : writeCb s io pick = some (.goes next)) : Returned s next := by
  unfold writeCb at h
  split at h
  · obtain ⟨c, hk, hr⟩ := use_goes h
    split at hr
    · cases hr
    · split at hr
      · obtain ⟨mgr, hdel, rfl⟩ := Option.map_eq_some_iff.mp (verify_goes (Option.some.inj hr))
        exact returned_still hk rfl (.refl c) (del_pipefd hdel)
      · split at hr
        · cases hr
        · rename_i c' hwrite
          obtain ⟨size, done, rfl, -⟩ := writepdu_some hwrite
          obtain ⟨w, -, hgoes⟩ := Option.map_eq_some_iff.mp hr
          obtain ⟨mgr, hdel, rfl⟩ := Option.map_eq_some_iff.mp (verify_goes hgoes)
          exact returned_still hk rfl ⟨rfl, fun _ => rfl, id⟩ (del_pipefd hdel)
        · rename_i c' hwrite
          obtain ⟨size, done, rfl, -⟩ := writepdu_some hwrite
          split at hr
          · cases hr
          · split at hr
            · cases hr
              exact returned_still hk rfl ⟨rfl, id, id⟩ rfl
            · obtain ⟨w, -, hgoes⟩ := Option.map_eq_some_iff.mp hr
              cases hgoes
              exact returned_still hk rfl ⟨rfl, id, id⟩ rfl
  · cases h

theorem poll_still {move : Move} (h : poll s move = some (.goes next)) : Returned s next := by
  obtain ⟨mgr, hmgr, hgoes⟩ := Option.map_eq_some_iff.mp h
  cases hgoes
  exact ⟨rfl, rfl, ⟨fun _ c hk => ⟨c, hk, .refl c⟩, (move_calls hmgr).1⟩⟩

theorem readCb_lasts {read : Read τ} (h : readCb s read = some (.goes next)) : Lasts s next := by
  cases read with
  | quiet => exact (readCb_still (by simp) h).lasts
  | failed pick => exact (readCb_still (by simp) h).lasts
  | stopped => exact (readCb_still (by simp) h).lasts
  | got heir =>
      unfold readCb at h
      split at h
      · obtain ⟨c, hk, hr⟩ := use_goes h
        split at hr
        · cases hr
        · split at hr <;> cases hr <;> exact update_lasts rfl hk ⟨rfl, id, id⟩ rfl
      · cases h

-- The last reference to a dead connection is given back.
theorem decref_deletes (hk : s.conns k = some c) (hrefno : c.refno = 1) (hdead : c.dead = true)
    (h : decref s t k = some (.goes next)) : ∃ later, next.conns k = some later ∧ later.freed = true := by
  obtain ⟨d, hd, hr⟩ := enter_goes h
  obtain rfl : c = d := Option.some.inj (hk.symm.trans hd)
  rw [if_neg (by simp [hrefno]), if_pos ⟨by simp [hrefno], hdead⟩] at hr
  split at hr
  · cases hr
  · cases hr
    exact ⟨_, Function.update_self .., rfl⟩

-- A deleted connection stays deleted, a dead one dead.
theorem step_lasts {event : Event τ} (h : Step s event next) : Lasts s next := by
  have hstep := step_of_Step h
  cases event with
  | create t k fd =>
      simp only [step, create] at hstep
      split at hstep
      · rename_i hguard
        have hnone : s.conns k = none := Option.isNone_iff_eq_none.mp hguard.2.1
        obtain ⟨mgr, hadd, rfl⟩ := Option.map_eq_some_iff.mp (verify_goes (Option.some.inj hstep))
        refine ⟨fun j d hd => ⟨d, ?_, .refl d⟩, add_pipefd hadd⟩
        have hne : j ≠ k := by
          rintro rfl
          rw [hnone] at hd
          cases hd
        exact (Function.update_of_ne hne ..).trans hd
      · cases hstep
  | incref t heir k =>
      obtain ⟨c, hk, hr⟩ := enter_goes hstep
      cases hr
      exact update_lasts rfl hk ⟨rfl, id, id⟩ rfl
  | pass t heir k =>
      obtain ⟨c, hk, hr⟩ := enter_goes hstep
      cases hr
      exact update_lasts rfl hk ⟨rfl, id, id⟩ rfl
  | decref t k =>
      obtain ⟨c, hk, hr⟩ := enter_goes hstep
      split at hr
      · cases hr
      · split at hr
        · split at hr
          · cases hr
          · cases hr
            exact update_lasts rfl hk ⟨rfl, id, fun _ => rfl⟩ rfl
        · cases hr
          exact update_lasts rfl hk ⟨rfl, id, id⟩ rfl
  | send t k sz io => exact (send_still hstep).lasts
  | sendAgain t io => exact (sendAgain_still hstep).2.lasts
  | sendCompleted t => exact (sendCompleted_still hstep).2.lasts
  | closeconn t k => exact (closeconn_still hstep).lasts
  | remove t => exact (remove_still hstep).2.lasts
  | removeReturns t early => exact (removeReturns_still hstep).2.lasts
  | sendRemoved t => exact (sendRemoved_still hstep).2.lasts
  | poll move => exact (poll_still hstep).lasts
  | readCb read => exact readCb_lasts hstep
  | writeCb io pick => exact (writeCb_still hstep).lasts

end Still

-- What goes on in the connections without any call from outside.
def Event.inner : Event τ → Bool
  | .sendAgain _ _ | .sendCompleted _ | .remove _ | .removeReturns _ _ | .sendRemoved _ | .poll _ | .readCb .quiet
  | .readCb (.failed _) | .readCb .stopped | .writeCb _ _ => true
  | .create _ _ _ | .incref _ _ _ | .pass _ _ _ | .decref _ _ | .send _ _ _ _ | .closeconn _ _
  | .readCb (.got _) => false

variable [DecidableEq τ]

theorem inner_still {s next : State τ} {event : Event τ} (hinner : event.inner = true) (h : Step s event next) :
    next.stakes = s.stakes ∧ ∀ u, s.pc u = .out → next.pc u = .out := by
  have hstep := step_of_Step h
  have hmoved : ∀ t, s.pc t ≠ .out ∧ Still s next t →
      next.stakes = s.stakes ∧ ∀ u, s.pc u = .out → next.pc u = .out := by
    rintro t ⟨hin, hstill⟩
    refine ⟨hstill.stakes, fun u hu => ?_⟩
    rw [hstill.pc u fun heq => hin (heq ▸ hu), hu]
  have hpolled : Returned s next → next.stakes = s.stakes ∧ ∀ u, s.pc u = .out → next.pc u = .out :=
    fun hstill => ⟨hstill.stakes, fun u hu => by rw [hstill.pc, hu]⟩
  cases event with
  | sendAgain t io => exact hmoved t (sendAgain_still hstep)
  | sendCompleted t => exact hmoved t (sendCompleted_still hstep)
  | remove t => exact hmoved t (remove_still hstep)
  | removeReturns t early => exact hmoved t (removeReturns_still hstep)
  | sendRemoved t => exact hmoved t (sendRemoved_still hstep)
  | poll move => exact hpolled (poll_still hstep)
  | readCb read =>
      refine hpolled (readCb_still (fun heir heq => ?_) hstep)
      rw [heq] at hinner
      cases hinner
  | writeCb io pick => exact hpolled (writeCb_still hstep)
  | _ => cases hinner

namespace Owned

variable {refs refs' : τ → Option Nat} {s next : State τ} {o heir : τ} {k : Nat} {c c' : Conn τ}

omit [DecidableEq τ] in
theorem found (h : Owned refs s) (ho : refs o = some k) :
    ∃ c, s.conns k = some c ∧ c.freed = false ∧ o ∈ c.holders := by
  obtain ⟨c, hk⟩ := h.known o k ho
  have hheld := (h.holds k c hk o).mpr ho
  refine ⟨c, hk, ?_, hheld⟩
  by_contra hfreed
  rw [(h.inv.kept k c hk).freed (by simpa using hfreed)] at hheld
  cases hheld

omit [DecidableEq τ] in
theorem of_stakes (h : Owned refs s) (hinv : Inv next) (hsame : next.stakes = s.stakes) : Owned refs next := by
  have hback : ∀ j c', next.conns j = some c' → ∃ c, s.conns j = some c ∧ c.holders = c'.holders := by
    intro j c' hj
    obtain ⟨c, hc, hstake⟩ := stakes_some hsame.symm hj
    exact ⟨c, hc, congrArg Prod.snd hstake⟩
  refine ⟨hinv, fun j c' hj => ?_, fun j c' hj o => ?_, fun o j ho => ?_⟩
  · obtain ⟨c, hc, heq⟩ := hback j c' hj
    exact heq ▸ h.nodup j c hc
  · obtain ⟨c, hc, heq⟩ := hback j c' hj
    exact heq ▸ h.holds j c hc o
  · obtain ⟨c, hc⟩ := h.known o j ho
    obtain ⟨c', hc', -⟩ := stakes_some hsame hc
    exact ⟨c', hc'⟩

omit [DecidableEq τ] in
-- The references to one connection change.
theorem of_update (h : Owned refs s) (hinv : Inv next) (hconns : next.conns = Function.update s.conns k (some c'))
    (hnodup : c'.holders.Nodup) (hholds : ∀ u, u ∈ c'.holders ↔ refs' u = some k)
    (hothers : ∀ u j, j ≠ k → (refs' u = some j ↔ refs u = some j)) : Owned refs' next := by
  refine ⟨hinv, fun j d hd => ?_, fun j d hd u => ?_, fun u j hu => ?_⟩
  · rw [hconns] at hd
    rcases update_some hd with ⟨-, rfl⟩ | ⟨-, hold⟩
    · exact hnodup
    · exact h.nodup j d hold
  · rw [hconns] at hd
    rcases update_some hd with ⟨rfl, rfl⟩ | ⟨hne, hold⟩
    · exact hholds u
    · exact (h.holds j d hold u).trans (hothers u j hne).symm
  · rw [hconns]
    by_cases heq : j = k
    · exact ⟨c', by rw [heq, Function.update_self]⟩
    · obtain ⟨d, hd⟩ := h.known u j ((hothers u j heq).mp hu)
      exact ⟨d, by rw [Function.update_of_ne heq, hd]⟩

theorem enter_eq {f : Conn τ → Option (Outcome (State τ))} (hk : s.conns k = some c) (hkept : c.freed = false)
    (hout : s.pc o = .out) (hheld : o ∈ c.holders) : s.enter o k f = f c := by
  simp [State.enter, State.use, hk, hkept, hout, hheld]

-- A pointer that was null is set.
theorem mem_given (h : Owned refs s) (hk : s.conns k = some c) (u : τ) :
    u ∈ heir :: c.holders ↔ Function.update refs heir (some k) u = some k := by
  rw [List.mem_cons, h.holds k c hk u]
  by_cases heq : u = heir
  · subst heq
    simp
  · simp [heq]

theorem given_elsewhere (hheir : refs heir = none) (u : τ) (j : Nat) (hne : j ≠ k) :
    Function.update refs heir (some k) u = some j ↔ refs u = some j := by
  by_cases heq : u = heir
  · subst heq
    simp [hheir, Ne.symm hne]
  · rw [Function.update_of_ne heq]

omit [DecidableEq τ] in
theorem nodup_given (h : Owned refs s) (hk : s.conns k = some c) (hheir : refs heir = none) :
    (heir :: c.holders).Nodup := by
  refine List.nodup_cons.mpr ⟨fun hmem => ?_, h.nodup k c hk⟩
  rw [h.holds k c hk, hheir] at hmem
  cases hmem

theorem incref (h : Owned refs s) (ho : refs o = some k) (hout : s.pc o = .out) (hheir : refs heir = none) :
    ∃ next, step s (.incref o heir k) = some (.goes next) ∧ Owned (Function.update refs heir (some k)) next ∧
      next.pc = s.pc ∧ next.fds = s.fds := by
  obtain ⟨c, hk, hkept, hheld⟩ := h.found ho
  have hstep : step s (.incref o heir k) = some (.goes (s.put o .out k
      { c with refno := c.refno + 1, holders := heir :: c.holders })) := enter_eq hk hkept hout hheld
  refine ⟨_, hstep, ?_, hout ▸ Function.update_eq_self o s.pc, update_fds rfl hk rfl⟩
  exact h.of_update (incref_meets h.inv hstep) rfl (h.nodup_given hk hheir) (h.mem_given hk) (given_elsewhere hheir)

-- A pointer is gone.
theorem mem_taken (h : Owned refs s) (hk : s.conns k = some c) (u : τ) :
    u ∈ c.holders.erase o ↔ Function.update refs o none u = some k := by
  rw [(h.nodup k c hk).mem_erase_iff, h.holds k c hk u]
  by_cases heq : u = o
  · subst heq
    simp
  · simp [heq]

theorem taken_elsewhere (ho : refs o = some k) (u : τ) (j : Nat) (hne : j ≠ k) :
    Function.update refs o none u = some j ↔ refs u = some j := by
  by_cases heq : u = o
  · subst heq
    simp [ho, Ne.symm hne]
  · rw [Function.update_of_ne heq]

theorem decref (h : Owned refs s) (ho : refs o = some k) (hout : s.pc o = .out) :
    ∃ next, step s (.decref o k) = some (.goes next) ∧ Owned (Function.update refs o none) next ∧
      next.pc = s.pc ∧ next.fds = s.fds := by
  obtain ⟨c, hk, hkept, hheld⟩ := h.found ho
  have hsome : ∃ r, step s (.decref o k) = some r := by
    simp only [step, Connections.decref, enter_eq hk hkept hout hheld]
    split
    · exact ⟨_, rfl⟩
    · split
      · split <;> exact ⟨_, rfl⟩
      · exact ⟨_, rfl⟩
  obtain ⟨r, hstep⟩ := hsome
  have hmeets := decref_meets h.inv hstep
  cases r with
  | aborts => exact absurd hmeets id
  | goes next =>
      have hnext : ∃ freed, next.conns = Function.update s.conns k (some { c.dropped o with freed := freed }) ∧
          next.pc = Function.update s.pc o .out := by
        have hr := hstep
        simp only [step, Connections.decref, enter_eq hk hkept hout hheld] at hr
        split at hr
        · cases hr
        · split at hr
          · split at hr
            · cases hr
            · cases hr
              exact ⟨true, rfl, rfl⟩
          · cases hr
            exact ⟨c.freed, rfl, rfl⟩
      obtain ⟨freed, hconns, hpc⟩ := hnext
      refine ⟨next, hstep, ?_, ?_, update_fds hconns hk rfl⟩
      · exact h.of_update hmeets hconns ((h.nodup k c hk).erase o) (h.mem_taken hk) (taken_elsewhere ho)
      · rw [hpc, ← hout, Function.update_eq_self]

theorem pass (h : Owned refs s) (ho : refs o = some k) (hout : s.pc o = .out) (hheir : refs heir = none) :
    ∃ next, step s (.pass o heir k) = some (.goes next) ∧
      Owned (Function.update (Function.update refs o none) heir (some k)) next ∧ next.pc = s.pc ∧ next.fds = s.fds := by
  obtain ⟨c, hk, hkept, hheld⟩ := h.found ho
  have hstep : step s (.pass o heir k) = some (.goes (s.put o .out k { c with holders := heir :: c.holders.erase o })) :=
    enter_eq hk hkept hout hheld
  refine ⟨_, hstep, ?_, hout ▸ Function.update_eq_self o s.pc, update_fds rfl hk rfl⟩
  have hne : heir ≠ o := by
    rintro rfl
    rw [ho] at hheir
    cases hheir
  refine h.of_update (pass_meets h.inv hstep) rfl ?_ (fun u => ?_) fun u j hj => ?_
  · refine List.nodup_cons.mpr ⟨fun hmem => ?_, (h.nodup k c hk).erase o⟩
    rw [h.mem_taken hk, Function.update_of_ne hne, hheir] at hmem
    cases hmem
  · rw [List.mem_cons, h.mem_taken hk]
    by_cases heq : u = heir
    · subst heq
      simp
    · simp [heq]
  · rw [given_elsewhere (by rw [Function.update_of_ne hne, hheir]) u j hj, taken_elsewhere ho u j hj]

-- A new connection, and the pointer to it.
theorem create {fd : Nat} {r : Outcome (State τ)} (h : Owned refs s) (ho : refs o = none)
    (hstep : step s (.create o k fd) = some r) :
    r = .aborts ∧ MAX_POLL_FDS ≤ fd ∨ ∃ next, r = .goes next ∧ Owned (Function.update refs o (some k)) next ∧
      next.pc = s.pc ∧ s.conns k = none ∧ next.fds = Function.update s.fds k (some fd) := by
  rcases create_meets h.inv hstep with hmeets | hrefused
  · right
    cases r with
    | aborts => exact absurd hmeets id
    | goes next =>
        have hr := hstep
        simp only [step, Connections.create] at hr
        split at hr
        · rename_i hguard
          have hnone : s.conns k = none := Option.isNone_iff_eq_none.mp hguard.2.1
          obtain ⟨mgr, -, rfl⟩ := Option.map_eq_some_iff.mp (verify_goes (Option.some.inj hr))
          refine ⟨_, rfl, ?_, rfl, hnone, ?_⟩
          · have hfree : ∀ u, refs u ≠ some k := by
              intro u hu
              obtain ⟨c, hc⟩ := h.known u k hu
              rw [hnone] at hc
              cases hc
            refine h.of_update hmeets rfl (List.nodup_singleton o) (fun u => ?_) (given_elsewhere ho)
            rw [List.mem_singleton]
            by_cases heq : u = o
            · subst heq
              simp
            · simp [heq, hfree u]
          · funext j
            unfold State.fds
            by_cases heq : j = k
            · subst heq
              simp
            · simp [heq]
        · cases hr
  · exact .inl hrefused

-- got_pdu takes a reference for a job.
theorem got {fd : Nat} {readable writable : List Nat} (h : Owned refs s) (hheir : refs heir = none)
    (hloop : s.mgr.loop = .calling false fd k readable writable) (hk : s.conns k = some c) (hlive : c.dead = false) :
    ∃ next, step s (.readCb (.got heir)) = some (.goes next) ∧ Owned (Function.update refs heir (some k)) next ∧
      next.pc = s.pc ∧ next.fds = s.fds := by
  obtain ⟨d, hd, hkept, hfd⟩ := h.inv.calling hloop
  obtain rfl : c = d := Option.some.inj (hk.symm.trans hd)
  have hstep : step s (.readCb (.got heir)) = some (.goes (s.returned k
      { c with refno := c.refno + 1, holders := heir :: c.holders } s.mgr readable writable)) := by
    simp [step, readCb, hloop, use_eq hk hkept, hfd, hlive]
  refine ⟨_, hstep, ?_, rfl, update_fds rfl hk rfl⟩
  have hpatient : Patient s (.readCb (.got heir)) := trivial
  exact h.of_update (h.inv.goes hpatient (Step_of_step hstep)) rfl (h.nodup_given hk hheir) (h.mem_given hk)
    (given_elsewhere hheir)

theorem inner {event : Event τ} (h : Owned refs s) (hinner : event.inner = true) (hpatient : Patient s event)
    (hstep : Step s event next) :
    Owned refs next ∧ (∀ u, s.pc u = .out → next.pc u = .out) ∧ next.fds = s.fds := by
  obtain ⟨hstakes, hpc⟩ := inner_still hinner hstep
  exact ⟨h.of_stakes (h.inv.goes hpatient hstep) hstakes, hpc, stakes_fds hstakes⟩

theorem send (h : Owned refs s) (ho : refs o = some k) (hout : s.pc o = .out) (sz : Nat) (io : Io) :
    ∃ next, step s (.send o k sz io) = some (.goes next) ∧ Owned refs next ∧ (∀ u, u ≠ o → next.pc u = s.pc u) ∧
      next.fds = s.fds := by
  obtain ⟨c, hk, hkept, hheld⟩ := h.found ho
  have hsome : ∃ r, step s (.send o k sz io) = some r := by
    simp only [step, Connections.send, enter_eq hk hkept hout hheld]
    split <;> exact ⟨_, rfl⟩
  obtain ⟨r, hstep⟩ := hsome
  have hmeets := send_meets h.inv hstep
  cases r with
  | aborts => exact absurd hmeets id
  | goes next =>
      have hstill := send_still hstep
      exact ⟨next, hstep, h.of_stakes hmeets hstill.stakes, hstill.pc, stakes_fds hstill.stakes⟩

omit [DecidableEq τ] in
-- refno_ is the number of the pointers.
theorem counted (h : Owned refs s) (hk : s.conns k = some c) : c.refno = Set.ncard {o | refs o = some k} := by
  classical
  have hset : {o | refs o = some k} = (c.holders.toFinset : Set τ) := by
    ext o
    simp [h.holds k c hk o]
  rw [hset, Set.ncard_coe_finset, List.toFinset_card_of_nodup (h.nodup k c hk)]
  exact (h.inv.kept k c hk).counted

omit [DecidableEq τ] in
-- The connections in use have descriptors of their own below MAX_POLL_FDS, which leaves out those of others.
theorem bounded (h : Owned refs s) (used spare : Finset Nat) (hused : ∀ k ∈ used, ∃ o, refs o = some k)
    (hspare : ∀ fd ∈ spare, fd < MAX_POLL_FDS ∧ (fd = s.mgr.aio.pipefd ∨ s.opened fd = false)) :
    used.card + spare.card ≤ MAX_POLL_FDS := by
  have hopen : ∀ k ∈ used, ∃ c, s.conns k = some c ∧ c.freed = false := by
    intro k hk
    obtain ⟨o, ho⟩ := hused k hk
    obtain ⟨c, hc, hkept, -⟩ := h.found ho
    exact ⟨c, hc, hkept⟩
  have hmaps : ∀ k ∈ used, (s.fds k).getD 0 ∈ Finset.range MAX_POLL_FDS \ spare := by
    intro k hk
    obtain ⟨c, hc, hkept⟩ := hopen k hk
    have hport : s.ports k = some c.port := congrArg (Option.map Conn.port) hc
    obtain ⟨hpipe, hmax⟩ := h.inv.wired.bounds k c.port hport
    simp only [State.fds, hc, Option.map_some, Option.getD_some, Finset.mem_sdiff, Finset.mem_range]
    refine ⟨hmax, fun hmem => ?_⟩
    rcases (hspare c.fd hmem).2 with heq | hclosed
    · exact hpipe heq
    · have hinuse : s.opened c.fd = true := h.inv.wired.inUse k c.port hport hkept
      rw [hclosed] at hinuse
      cases hinuse
  have hinj : Set.InjOn (fun k => (s.fds k).getD 0) used := by
    intro k hk j hj heq
    obtain ⟨c, hc, hkept⟩ := hopen k hk
    obtain ⟨d, hd, hkept'⟩ := hopen j hj
    simp only [State.fds, hc, hd, Option.map_some, Option.getD_some] at heq
    exact h.inv.wired.distinct k j c.port d.port (congrArg (Option.map Conn.port) hc)
      (congrArg (Option.map Conn.port) hd) hkept hkept' heq
  have hsub : spare ⊆ Finset.range MAX_POLL_FDS := fun fd hfd => Finset.mem_range.mpr (hspare fd hfd).1
  have hcard := Finset.card_le_card_of_injOn _ hmaps hinj
  have hall := Finset.card_sdiff_add_card_eq_card hsub
  rw [Finset.card_range] at hall
  omega

end Owned

end CseLabs.Connections
