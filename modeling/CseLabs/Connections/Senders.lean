import CseLabs.Connections.Writers

namespace CseLabs.Connections

open PollMgr (Mgr MAX_POLL_FDS)

variable {τ : Type*}

-- The threads that wait in send: those at send_wait_ wait for one that has filled wpdu_, and at send_complete_ there
-- is at most that one, for which the descriptor is watched for writing.
structure Attended (watched : Bool) (pc : τ → Pc) (k : Nat) (c : Conn τ) : Prop where
  counted : c.waiters = c.sendWait.threads.length
  waiting : c.sendWait.asleep ≠ [] → c.buf = true
  alone : c.sendComplete.threads.length ≤ 1
  mine : ∀ t ∈ c.sendComplete.threads, pc t = .completing k
  pending : c.sendComplete.threads ≠ [] → c.dead = false → 0 < c.sz ∧ watched = true
  unfinished : c.sendComplete.asleep ≠ [] → c.dead = false → c.solong < c.sz

def State.watched (s : State τ) (c : Conn τ) : Bool := (s.mgr.aio.interest c.fd).2

def AllAttended (s : State τ) : Prop := ∀ k c, s.conns k = some c → Attended (s.watched c) s.pc k c

section Parts

variable {watched : Bool} {pc pc' : τ → Pc} {k : Nat} {c : Conn τ} {t : τ}

-- Without anything to send no thread is at send_complete_.
theorem Attended.idle (h : Attended watched pc k c) (hkept : Kept pc k c) (hbuf : c.buf = false) :
    c.sendComplete.threads = [] := by
  refine List.eq_nil_iff_forall_not_mem.mpr fun t ht => ?_
  rw [hkept.owns t (by rw [h.mine t ht]; rfl)] at hbuf
  cases hbuf

-- Nor while the thread that sends is elsewhere.
theorem Attended.away (h : Attended watched pc k c) (hkept : Kept pc k c) (howns : (pc t).owns = some k)
    (hpc : pc t ≠ .completing k) : c.sendComplete.threads = [] := by
  refine List.eq_nil_iff_forall_not_mem.mpr fun u hu => ?_
  have hmine := h.mine u hu
  obtain rfl := hkept.single u t (by rw [hmine]; rfl) howns
  exact hpc hmine

theorem asleep_nil {v : CondVar τ} (h : v.threads = []) : v.asleep = [] := (List.append_eq_nil_iff.mp h).1

-- The waiting threads stay where they are.
theorem Attended.relay {watched' : Bool} {c' : Conn τ} (h : Attended watched pc k c)
    (hmine : ∀ u ∈ c.sendComplete.threads, pc' u = pc u)
    (hwait : c'.waiters = c.waiters ∧ c'.sendWait = c.sendWait ∧ c'.buf = c.buf)
    (hcomplete : c'.sendComplete = c.sendComplete ∧ c'.sz = c.sz ∧ c'.solong = c.solong)
    (hdead : c'.dead = false → c.dead = false) (hwatched : c'.dead = false → watched = true → watched' = true) :
    Attended watched' pc' k c' := by
  obtain ⟨hwaiters, hsendWait, hbuf⟩ := hwait
  obtain ⟨hsendComplete, hsz, hsolong⟩ := hcomplete
  refine ⟨?_, ?_, ?_, fun u hu => ?_, fun hne hlive => ?_, fun hne hlive => ?_⟩
  · rw [hwaiters, hsendWait]
    exact h.counted
  · rw [hsendWait, hbuf]
    exact h.waiting
  · rw [hsendComplete]
    exact h.alone
  · rw [hsendComplete] at hu
    exact (hmine u hu).trans (h.mine u hu)
  · rw [hsendComplete] at hne
    rw [hsz]
    exact (h.pending hne (hdead hlive)).imp_right (hwatched hlive)
  · rw [hsendComplete] at hne
    rw [hsz, hsolong]
    exact h.unfinished hne (hdead hlive)

-- No thread is left at send_complete_.
theorem attended_empty {c' : Conn τ} (hcounted : c'.waiters = c'.sendWait.threads.length)
    (hwaiting : c'.sendWait.asleep ≠ [] → c'.buf = true) (hnil : c'.sendComplete.threads = []) :
    Attended watched pc k c' := by
  refine ⟨hcounted, hwaiting, by simp [hnil], fun u hu => ?_, fun hne => absurd hnil hne, fun hne => ?_⟩
  · rw [hnil] at hu
    cases hu
  · exact absurd (asleep_nil hnil) hne

-- The end of send wakes those that wait for it.
theorem attended_finish {n : Nat} {w v : CondVar τ} (hcounted : n = w.threads.length)
    (hnil : v.threads = []) :
    Attended watched pc k { c with
      waiters := n, sz := 0, solong := 0, buf := false, sendComplete := v
      sendWait := if 0 < n then w.broadcast else w } := by
  by_cases hpos : 0 < n
  · refine attended_empty ?_ (fun hne => ?_) hnil
    · simp only [if_pos hpos]
      rw [(CondVar.broadcast_threads w).length_eq]
      exact hcounted
    · simp only [if_pos hpos] at hne
      exact absurd rfl hne
  · refine attended_empty ?_ (fun hne => ?_) hnil
    · simp only [if_neg hpos]
      exact hcounted
    · simp only [if_neg hpos] at hne
      have hzero : w.threads.length = 0 := by omega
      exact absurd (asleep_nil (List.eq_nil_of_length_eq_zero hzero)) hne

end Parts

section Steps

variable {s next : State τ} {t heir : τ} {k fd sz : Nat} {c c' : Conn τ} {io : Io}

-- A step that concerns one connection.
theorem AllAttended.of_update (h : AllAttended s) (hconns : next.conns = Function.update s.conns k (some c'))
    (hpc : ∀ u j, j ≠ k → s.pc u = .completing j → next.pc u = .completing j)
    (hwatch : ∀ j d, j ≠ k → s.conns j = some d → d.dead = false → s.watched d = true → next.watched d = true)
    (hk : Attended (next.watched c') next.pc k c') : AllAttended next := by
  intro j d hd
  rw [hconns] at hd
  rcases update_some hd with ⟨rfl, rfl⟩ | ⟨hne, hd⟩
  · exact hk
  · refine (h j d hd).relay (fun u hu => ?_) ⟨rfl, rfl, rfl⟩ ⟨rfl, rfl, rfl⟩ id (hwatch j d hne hd)
    have hmine := (h j d hd).mine u hu
    exact (hpc u j hne hmine).trans hmine.symm

theorem watch_writes {a : PollMgr.SelectAio} {other : Nat} {flag : PollMgr.Flag} (hflag : flag ≠ .none)
    (h : (a.interest other).2 = true) : ((a.watch fd flag).interest other).2 = true := by
  rw [PollMgr.watch_interest a fd hflag, PollMgr.Interest.watch]
  by_cases heq : other = fd
  · subst heq
    rw [Function.update_self, h, Bool.true_or]
  · rw [Function.update_of_ne heq, h]

-- Another live connection has another descriptor.
theorem Inv.other_fd (h : Inv s) {j : Nat} {d : Conn τ} (hk : s.conns k = some c) (hkept : c.freed = false)
    (hne : j ≠ k) (hd : s.conns j = some d) (hlive : d.dead = false) : d.fd ≠ c.fd := by
  have hp : s.ports k = some c.port := congrArg (Option.map Conn.port) hk
  have hq : s.ports j = some d.port := congrArg (Option.map Conn.port) hd
  exact h.wired.fd_ne hp hkept hq (h.wired.not_freed hq (.inl (h.wired.live j d.port hq hlive).1)) hne

theorem unwatch_elsewhere {a : PollMgr.Interest} {flag : PollMgr.Flag} {other : Nat} (hne : other ≠ fd) :
    a.unwatch fd flag other = a other := by
  rw [PollMgr.Interest.unwatch, Function.update_of_ne hne]

theorem create_attended (h : AllAttended s) (hstep : create s t k fd = some (.goes next)) :
    AllAttended next := by
  unfold create at hstep
  split at hstep
  · obtain ⟨mgr, hadd, rfl⟩ := Option.map_eq_some_iff.mp (verify_goes (Option.some.inj hstep))
    obtain ⟨-, rfl⟩ := PollMgr.addCallback_some hadd
    refine h.of_update rfl (fun _ _ _ => id) (fun j d _ _ _ => watch_writes (by simp)) ?_
    exact attended_empty rfl (fun hne => absurd rfl hne) rfl
  · cases hstep

variable [DecidableEq τ]

theorem pc_elsewhere {pc : τ → Pc} {p : Pc} (hold : (pc t).on = none ∨ (pc t).on = some k) (u : τ) (j : Nat)
    (hne : j ≠ k) (hu : pc u = .completing j) : Function.update pc t p u = .completing j := by
  have hut : u ≠ t := by
    rintro rfl
    rw [hu] at hold
    simp [Pc.on, hne] at hold
  rw [Function.update_of_ne hut]
  exact hu

-- A thread does something with one connection, without the poll manager.
theorem AllAttended.put {p : Pc} (h : AllAttended s) (hold : (s.pc t).on = none ∨ (s.pc t).on = some k)
    (hk : Attended (s.watched c') (Function.update s.pc t p) k c') : AllAttended (s.put t p k c') :=
  h.of_update rfl (pc_elsewhere hold) (fun _ _ _ _ _ => id) hk

-- A thread that is not at send_complete_ moves, and nothing changes for those that wait.
theorem AllAttended.turn {p : Pc} (h : AllAttended s) (hk : s.conns k = some c)
    (hold : (s.pc t).on = none ∨ (s.pc t).on = some k) (hpc : s.pc t ≠ .completing k) (hfd : c'.fd = c.fd)
    (hwait : c'.waiters = c.waiters ∧ c'.sendWait = c.sendWait ∧ c'.buf = c.buf)
    (hcomplete : c'.sendComplete = c.sendComplete ∧ c'.sz = c.sz ∧ c'.solong = c.solong)
    (hdead : c'.dead = false → c.dead = false) : AllAttended (s.put t p k c') := by
  refine h.put hold ((h k c hk).relay (fun u hu => ?_) hwait hcomplete hdead fun _ hset => ?_)
  · have hut : u ≠ t := by
      rintro rfl
      exact hpc ((h k c hk).mine u hu)
    rw [Function.update_of_ne hut]
  · rw [State.watched, hfd]
    exact hset

theorem incref_attended (hinv : Inv s) (h : AllAttended s) (hstep : incref s t heir k = some (.goes next)) :
    AllAttended next := by
  obtain ⟨c, hk, -, hout, -, hr⟩ := hinv.entered hstep
  cases hr
  exact h.turn hk (.inl (by rw [hout]; rfl)) (by simp [hout]) rfl ⟨rfl, rfl, rfl⟩ ⟨rfl, rfl, rfl⟩ id

theorem pass_attended (hinv : Inv s) (h : AllAttended s) (hstep : pass s t heir k = some (.goes next)) :
    AllAttended next := by
  obtain ⟨c, hk, -, hout, -, hr⟩ := hinv.entered hstep
  cases hr
  exact h.turn hk (.inl (by rw [hout]; rfl)) (by simp [hout]) rfl ⟨rfl, rfl, rfl⟩ ⟨rfl, rfl, rfl⟩ id

theorem decref_attended (hinv : Inv s) (h : AllAttended s) (hstep : decref s t k = some (.goes next)) :
    AllAttended next := by
  obtain ⟨c, hk, -, hout, -, hr⟩ := hinv.entered hstep
  have hturn : ∀ freed, AllAttended (s.put t .out k { c.dropped t with freed := freed }) := fun freed =>
    h.turn hk (.inl (by rw [hout]; rfl)) (by simp [hout]) rfl ⟨rfl, rfl, rfl⟩ ⟨rfl, rfl, rfl⟩ id
  split at hr
  · cases hr
  · split at hr
    · split at hr
      · cases hr
      · cases hr
        exact hturn true
    · cases hr
      exact hturn c.freed

theorem proceed_attended {n : Nat} {w : CondVar τ} (hinv : Inv s) (h : AllAttended s) (hk : s.conns k = some c)
    (hcounted : n = w.threads.length) (hwaiting : w.asleep ≠ [] → c.buf = true)
    (hidle : c.dead = false → c.buf = false) (hpc : s.pc t = .out ∨ ∃ size, s.pc t = .queued k size)
    (hstep : proceed s t k sz io { c with waiters := n, sendWait := w } = .goes next) : AllAttended next := by
  have hon : (s.pc t).on = none ∨ (s.pc t).on = some k := by
    rcases hpc with heq | ⟨size, heq⟩ <;> simp [heq, Pc.on]
  have hnot : s.pc t ≠ .completing k := by
    rcases hpc with heq | ⟨size, heq⟩ <;> simp [heq]
  have hold := h k c hk
  have hmine : ∀ p u, u ∈ c.sendComplete.threads → Function.update s.pc t p u = s.pc u := by
    intro p u hu
    have hut : u ≠ t := by
      rintro rfl
      exact hnot (hold.mine u hu)
    rw [Function.update_of_ne hut]
  unfold proceed at hstep
  split at hstep
  · cases hstep
    refine h.put hon ⟨hcounted, hwaiting, hold.alone, fun u hu => ?_, hold.pending, hold.unfinished⟩
    exact (hmine _ u hu).trans (hold.mine u hu)
  · rename_i hlive
    have hnil := hold.idle (hinv.kept k c hk) (hidle (by simpa using hlive))
    split at hstep
    · cases hstep
    · rename_i c'' hwrite
      obtain ⟨size, done, rfl, -⟩ := writepdu_some hwrite
      cases hstep
      exact h.put hon (attended_empty hcounted (fun _ => rfl) hnil)
    · rename_i c'' hwrite
      obtain ⟨size, done, rfl, hok⟩ := writepdu_some hwrite
      obtain ⟨hsize, hpos, hle⟩ := hok rfl (Int.natCast_nonneg sz)
      split at hstep
      · cases hstep
        exact h.put hon (attended_finish (c := { c with buf := true }) hcounted hnil)
      · rename_i hpart
        obtain ⟨mgr, hadd, rfl⟩ := Option.map_eq_some_iff.mp (verify_goes hstep)
        obtain ⟨-, rfl⟩ := PollMgr.addCallback_some hadd
        refine h.of_update rfl (pc_elsewhere hon) (fun j d _ _ _ => watch_writes (by simp)) ?_
        have hwait := CondVar.wait_threads c.sendComplete t
        have hlt : done < size := lt_of_le_of_ne (hle.trans_eq hsize.symm) hpart
        refine ⟨hcounted, fun _ => rfl, ?_, fun u hu => ?_, fun _ _ => ⟨?_, ?_⟩, fun _ _ => hlt⟩
        · rw [hwait.length_eq, hnil]
          exact le_rfl
        · have hmem := hwait.mem_iff.mp hu
          rw [hnil, List.mem_singleton] at hmem
          subst hmem
          exact Function.update_self ..
        · exact lt_of_le_of_lt hpos hlt
        · change ((s.mgr.aio.watch c.fd .wronly).interest c.fd).2 = true
          rw [PollMgr.watch_interest _ _ (by simp), PollMgr.Interest.watch, Function.update_self]
          exact Bool.or_true _

theorem send_attended (hinv : Inv s) (h : AllAttended s) (hstep : send s t k sz io = some (.goes next)) :
    AllAttended next := by
  obtain ⟨c, hk, -, hout, -, hr⟩ := hinv.entered hstep
  have hold := h k c hk
  split at hr
  · rename_i hbusy
    cases hr
    refine h.put (.inl (by rw [hout]; rfl)) ⟨?_, fun _ => hbusy.2, hold.alone, fun u hu => ?_, hold.pending,
      hold.unfinished⟩
    · rw [(CondVar.wait_threads c.sendWait t).length_eq, List.length_cons, hold.counted]
    · have hut : u ≠ t := by
        rintro rfl
        rw [hold.mine u hu] at hout
        cases hout
      rw [Function.update_of_ne hut]
      exact hold.mine u hu
  · rename_i hfree
    exact proceed_attended (c := c) hinv h hk hold.counted hold.waiting (fun hlive => by simpa [hlive] using hfree)
      (.inl hout) (Option.some.inj hr)

theorem sendAgain_attended (hinv : Inv s) (h : AllAttended s) (hstep : sendAgain s t io = some (.goes next)) :
    AllAttended next := by
  unfold sendAgain at hstep
  split at hstep
  · rename_i k sz hpc
    obtain ⟨c, hk, -, -, hr⟩ := hinv.used (by rw [hpc]; rfl) hstep
    have hold := h k c hk
    obtain ⟨w, hback, hgoes⟩ := Option.map_eq_some_iff.mp hr
    have hlength := (CondVar.back_threads hback).length_eq
    rw [List.length_cons, ← hold.counted] at hlength
    split at hgoes
    · rename_i hbusy
      cases hgoes
      refine h.put (.inr (by rw [hpc]; rfl)) ⟨?_, fun _ => hbusy.2, hold.alone, fun u hu => ?_, hold.pending,
        hold.unfinished⟩
      · rw [(CondVar.wait_threads w t).length_eq, List.length_cons]
        exact hlength
      · have hut : u ≠ t := by
          rintro rfl
          rw [hold.mine u hu] at hpc
          cases hpc
        rw [Function.update_of_ne hut]
        exact hold.mine u hu
    · rename_i hfree
      refine proceed_attended (c := c) hinv h hk (by omega) (fun hne => hold.waiting fun hnil => ?_)
        (fun hlive => by simpa [hlive] using hfree) (.inr ⟨sz, hpc⟩) hgoes
      have hsub := CondVar.back_asleep_subset hback
      rw [hnil] at hsub
      exact hne (List.subset_nil.mp hsub)
  · cases hstep

theorem sendCompleted_attended (hinv : Inv s) (h : AllAttended s) (hstep : sendCompleted s t = some (.goes next)) :
    AllAttended next := by
  unfold sendCompleted at hstep
  split at hstep
  · rename_i k hpc
    obtain ⟨c, hk, -, -, hr⟩ := hinv.used (by rw [hpc]; rfl) hstep
    have hold := h k c hk
    obtain ⟨w, hback, hgoes⟩ := Option.map_eq_some_iff.mp hr
    have hthreads := CondVar.back_threads hback
    have hnil : w.threads = [] := by
      have hlength := hthreads.length_eq
      have halone := hold.alone
      rw [List.length_cons] at hlength
      exact List.eq_nil_of_length_eq_zero (by omega)
    have hwas : c.sendComplete.threads ≠ [] := by
      intro hempty
      rw [hempty] at hthreads
      exact absurd hthreads.length_eq (by simp)
    split at hgoes
    · rename_i hmore
      cases hgoes
      have hwait := CondVar.wait_threads w t
      refine h.put (.inr (by rw [hpc]; rfl)) ⟨hold.counted, hold.waiting, ?_, fun u hu => ?_, fun _ hlive => ?_,
        fun _ _ => hmore.2.2⟩
      · rw [hwait.length_eq, hnil]
        exact le_rfl
      · have hmem := hwait.mem_iff.mp hu
        rw [hnil, List.mem_singleton] at hmem
        subst hmem
        exact Function.update_self ..
      · exact hold.pending hwas hlive
    · cases hgoes
      exact h.put (.inr (by rw [hpc]; rfl)) (attended_finish (c := c) hold.counted hnil)
  · cases hstep

theorem closeconn_attended (hinv : Inv s) (h : AllAttended s) (hstep : closeconn s t k = some (.goes next)) :
    AllAttended next := by
  obtain ⟨c, hk, -, hout, -, hr⟩ := hinv.entered hstep
  have hgoes := Outcome.goes.inj (Option.some.inj hr)
  split at hgoes
  · exact hgoes ▸ h
  · exact hgoes ▸ h.turn hk (.inl (by rw [hout]; rfl)) (by simp [hout]) rfl ⟨rfl, rfl, rfl⟩ ⟨rfl, rfl, rfl⟩ (by simp)

theorem remove_attended (hinv : Inv s) (h : AllAttended s) (hstep : remove s t = some (.goes next)) :
    AllAttended next := by
  unfold remove at hstep
  split at hstep
  · rename_i sends k hpc
    obtain ⟨c, hk, hkept, -, hr⟩ := hinv.used (by rw [hpc]; rfl) hstep
    have hold := h k c hk
    obtain ⟨mgr, hblock, rfl⟩ := Option.map_eq_some_iff.mp (verify_goes (Option.some.inj hr))
    obtain ⟨dropped, aio, hun, rfl⟩ := PollMgr.blockRemoveFd_some hblock
    obtain ⟨-, -, hinterest⟩ := PollMgr.unwatch_spec hinv.wired.inv.sound (hinv.fd_ne_pipe hk) hun
    have hsame : Function.update s.conns k (some c) = s.conns := by rw [← hk, Function.update_eq_self]
    have hon : (s.pc t).on = some k := by rw [hpc]; rfl
    refine h.of_update hsame.symm (pc_elsewhere (.inr hon)) (fun j d hne hd hlive hset => ?_) ?_
    · have hfd := hinv.other_fd hk hkept hne hd hlive
      change (aio.interest d.fd).2 = true
      rw [hinterest, unwatch_elsewhere hfd]
      exact hset
    · -- The connection is dead, so nobody relies on its being watched.
      have hkills : s.kills t = some k := by rw [State.kills, hpc]; rfl
      obtain ⟨p, hp, hdead, -⟩ := hinv.wired.killed t k hkills
      obtain ⟨d, hd, rfl⟩ := Option.map_eq_some_iff.mp hp
      rw [hk] at hd
      cases hd
      refine hold.relay (fun u hu => ?_) ⟨rfl, rfl, rfl⟩ ⟨rfl, rfl, rfl⟩ id fun hlive => ?_
      · have hut : u ≠ t := by
          rintro rfl
          rw [hold.mine u hu] at hpc
          cases hpc
        exact Function.update_of_ne hut ..
      · exact absurd (hlive.symm.trans hdead) Bool.false_ne_true
  · cases hstep

theorem removeReturns_attended {early : Bool} (hinv : Inv s) (h : AllAttended s)
    (hstep : removeReturns s t early = some (.goes next)) : AllAttended next := by
  unfold removeReturns at hstep
  split at hstep
  · rename_i sends k hpc
    obtain ⟨c, hk, hkept, -, hr⟩ := hinv.used (by rw [hpc]; rfl) hstep
    have hold := h k c hk
    obtain ⟨mgr, hmgr, hgoes⟩ := Option.map_eq_some_iff.mp hr
    cases hgoes
    have hsame : mgr.aio = s.mgr.aio := by
      split at hmgr
      · obtain ⟨d, -, rfl⟩ := PollMgr.removeEarly_some hmgr
        rfl
      · obtain ⟨d, -, rfl⟩ := PollMgr.removeDone_some hmgr
        rfl
    have hwatched : ∀ d : Conn τ, (mgr.aio.interest d.fd).2 = s.watched d := fun d => by rw [hsame]; rfl
    have hconns : Function.update s.conns k (some c) = s.conns := by rw [← hk, Function.update_eq_self]
    have hon : (s.pc t).on = some k := by rw [hpc]; rfl
    refine h.of_update hconns.symm (pc_elsewhere (.inr hon)) (fun j d _ _ _ hset => (hwatched d).trans hset) ?_
    refine hold.relay (fun u hu => ?_) ⟨rfl, rfl, rfl⟩ ⟨rfl, rfl, rfl⟩ id fun _ hset => (hwatched c).trans hset
    have hut : u ≠ t := by
      rintro rfl
      rw [hold.mine u hu] at hpc
      cases hpc
    exact Function.update_of_ne hut ..
  · cases hstep

theorem sendRemoved_attended (hinv : Inv s) (h : AllAttended s) (hstep : sendRemoved s t = some (.goes next)) :
    AllAttended next := by
  unfold sendRemoved at hstep
  split at hstep
  · rename_i k hpc
    obtain ⟨c, hk, -, -, hr⟩ := hinv.used (by rw [hpc]; rfl) hstep
    cases hr
    have hnil := (h k c hk).away (hinv.kept k c hk) (by rw [hpc]; rfl) (by simp [hpc])
    exact h.put (.inr (by rw [hpc]; rfl)) (attended_finish (c := c) (h k c hk).counted hnil)
  · cases hstep

theorem poll_attended {move : Move} (h : AllAttended s) (hstep : poll s move = some (.goes next)) :
    AllAttended next := by
  obtain ⟨mgr, hmgr, hgoes⟩ := Option.map_eq_some_iff.mp hstep
  cases hgoes
  intro k c hk
  have hsame : State.watched { s with mgr := mgr } c = s.watched c := by
    simp only [State.watched, (move_round hmgr).interest]
  rw [hsame]
  exact h k c hk

omit [DecidableEq τ] in
-- A callback ends that has changed nothing but its own connection.
theorem AllAttended.returned {mgr : Mgr τ Nat} {readable writable : List Nat} (h : AllAttended s)
    (hwatch : ∀ j d, j ≠ k → s.conns j = some d → d.dead = false → s.watched d = true →
      (mgr.aio.interest d.fd).2 = true)
    (hk : Attended (mgr.aio.interest c'.fd).2 s.pc k c') : AllAttended (s.returned k c' mgr readable writable) :=
  h.of_update rfl (fun _ _ _ => id) hwatch hk

-- It has found the connection lost and has woken the thread that sends.
theorem AllAttended.lost {w : CondVar τ} {pick : Option τ} {mgr : Mgr τ Nat} {readable writable : List Nat}
    {size done : Int} (hinv : Inv s) (h : AllAttended s) (hk : s.conns k = some c) (hkept : c.freed = false)
    (hsignal : c.sendComplete.signal pick = some w) (hdel : PollMgr.delCallback s.mgr c.fd .rdwr = some mgr) :
    AllAttended (s.returned k { c with dead := true, sendComplete := w, sz := size, solong := done } mgr readable
      writable) := by
  have hold := h k c hk
  obtain ⟨dropped, aio, hun, rfl⟩ := PollMgr.delCallback_some hdel
  obtain ⟨-, -, hinterest⟩ := PollMgr.unwatch_spec hinv.wired.inv.sound (hinv.fd_ne_pipe hk) hun
  have hthreads := CondVar.signal_threads hsignal
  refine h.returned (fun j d hne hd hlive hset => ?_) ⟨hold.counted, hold.waiting, ?_, fun u hu => ?_, by simp, by simp⟩
  · have hfd := hinv.other_fd hk hkept hne hd hlive
    change (aio.interest d.fd).2 = true
    rw [hinterest, unwatch_elsewhere hfd]
    exact hset
  · rw [hthreads.length_eq]
    exact hold.alone
  · exact hold.mine u (hthreads.mem_iff.mp hu)

theorem readCb_attended {read : Read τ} (hinv : Inv s) (h : AllAttended s)
    (hstep : readCb s read = some (.goes next)) : AllAttended next := by
  unfold readCb at hstep
  split at hstep
  · rename_i fd k readable writable hloop
    obtain ⟨c, hk, hkept, rfl, hr⟩ := hinv.called hloop hstep
    have hold := h k c hk
    have hsame : ∀ refno holders, AllAttended
        (s.returned k { c with refno := refno, holders := holders } s.mgr readable writable) := by
      intro refno holders
      refine h.returned (fun _ _ _ _ _ => id) (hold.relay (fun _ _ => rfl) ⟨rfl, rfl, rfl⟩ ⟨rfl, rfl, rfl⟩ id ?_)
      exact fun _ => id
    rw [if_neg (by simp)] at hr
    split at hr
    · cases hr
      exact hsame c.refno c.holders
    · cases read with
      | quiet =>
          cases hr
          exact hsame c.refno c.holders
      | got heir =>
          cases hr
          exact hsame (c.refno + 1) (heir :: c.holders)
      | failed pick =>
          obtain ⟨w, hsignal, hverify⟩ := Option.map_eq_some_iff.mp hr
          obtain ⟨mgr, hdel, rfl⟩ := Option.map_eq_some_iff.mp (verify_goes hverify)
          exact AllAttended.lost (c := c) hinv h hk hkept hsignal hdel
      | stopped => cases hr
  · cases hstep

theorem writeCb_attended {pick : Option τ} (hinv : Inv s) (h : AllAttended s)
    (hstep : writeCb s io pick = some (.goes next)) : AllAttended next := by
  unfold writeCb at hstep
  split at hstep
  · rename_i fd k readable writable hloop
    obtain ⟨c, hk, hkept, rfl, hr⟩ := hinv.called hloop hstep
    have hold := h k c hk
    split at hr
    · cases hr
    · rename_i hguard
      have hlive : c.dead = false := by simpa using fun hdead => hguard (.inl hdead)
      split at hr
      · rename_i hzero
        obtain ⟨mgr, hdel, rfl⟩ := Option.map_eq_some_iff.mp (verify_goes (Option.some.inj hr))
        obtain ⟨dropped, aio, hun, rfl⟩ := PollMgr.delCallback_some hdel
        obtain ⟨-, -, hinterest⟩ := PollMgr.unwatch_spec hinv.wired.inv.sound (hinv.fd_ne_pipe hk) hun
        have hnil : c.sendComplete.threads = [] := by
          by_contra hne
          have hpos := (hold.pending hne hlive).1
          omega
        refine h.returned (fun j d hne hd hlive' hset => ?_) (attended_empty hold.counted hold.waiting hnil)
        have hfd := hinv.other_fd hk hkept hne hd hlive'
        change (aio.interest d.fd).2 = true
        rw [hinterest, unwatch_elsewhere hfd]
        exact hset
      · split at hr
        · cases hr
        · rename_i c'' hwrite
          obtain ⟨size, done, rfl, -⟩ := writepdu_some hwrite
          obtain ⟨w, hsignal, hverify⟩ := Option.map_eq_some_iff.mp hr
          obtain ⟨mgr, hdel, rfl⟩ := Option.map_eq_some_iff.mp (verify_goes hverify)
          exact AllAttended.lost (c := c) hinv h hk hkept hsignal hdel
        · rename_i c'' hwrite
          obtain ⟨size, done, rfl, hok⟩ := writepdu_some hwrite
          obtain ⟨rfl, -, -⟩ := hok rfl ((hinv.kept k c hk).sane hlive).2
          split at hr
          · cases hr
          · split at hr
            · rename_i hless
              cases hr
              exact h.returned (fun _ _ _ _ _ => id) ⟨hold.counted, hold.waiting, hold.alone, hold.mine, hold.pending,
                fun _ _ => hless⟩
            · obtain ⟨w, hsignal, hgoes⟩ := Option.map_eq_some_iff.mp hr
              cases hgoes
              have hthreads := CondVar.signal_threads hsignal
              refine h.returned (fun _ _ _ _ _ => id) ⟨hold.counted, hold.waiting, ?_, fun u hu => ?_, fun hne => ?_,
                fun hne => ?_⟩
              · rw [hthreads.length_eq]
                exact hold.alone
              · exact hold.mine u (hthreads.mem_iff.mp hu)
              · refine hold.pending fun hnil => hne ?_
                exact List.eq_nil_of_length_eq_zero (hthreads.length_eq.trans (by rw [hnil]; rfl))
              · exact absurd (CondVar.signal_asleep hsignal hold.alone) hne
  · cases hstep

theorem AllAttended.step {event : Event τ} (hinv : Inv s) (h : AllAttended s) (hstep : Step s event next) :
    AllAttended next := by
  have hgoes := step_of_Step hstep
  cases event with
  | create t k fd => exact create_attended h hgoes
  | incref t heir k => exact incref_attended hinv h hgoes
  | pass t heir k => exact pass_attended hinv h hgoes
  | decref t k => exact decref_attended hinv h hgoes
  | send t k sz io => exact send_attended hinv h hgoes
  | sendAgain t io => exact sendAgain_attended hinv h hgoes
  | sendCompleted t => exact sendCompleted_attended hinv h hgoes
  | closeconn t k => exact closeconn_attended hinv h hgoes
  | remove t => exact remove_attended hinv h hgoes
  | removeReturns t early => exact removeReturns_attended hinv h hgoes
  | sendRemoved t => exact sendRemoved_attended hinv h hgoes
  | poll move => exact poll_attended h hgoes
  | readCb read => exact readCb_attended hinv h hgoes
  | writeCb io pick => exact writeCb_attended hinv h hgoes

end Steps

section Runs

variable [DecidableEq τ] {s next : State τ} {event : Event τ} {t : τ} {k pipefd : Nat} {c : Conn τ}

theorem reachable_attended (hr : Reachable (Guarded Patient Step) (initial pipefd) s) : Inv s ∧ AllAttended s := by
  refine hr.invariant (fun s => Inv s ∧ AllAttended s) (fun state h => ⟨initial_inv h, ?_⟩) ?_
  · obtain ⟨opened, -, rfl⟩ := h
    intro k c hk
    cases hk
  · rintro state event next ⟨hinv, h⟩ ⟨hpatient, hstep⟩
    exact ⟨hinv.goes hpatient hstep, h.step hinv hstep⟩

theorem proceed_conns {sz : Nat} {io : Io} (h : proceed s t k sz io c = .goes next) :
    ∃ d, next.conns = Function.update s.conns k (some d) ∧ (c.dead = true → d = c) := by
  unfold proceed at h
  split at h
  · cases h
    exact ⟨c, rfl, fun _ => rfl⟩
  · rename_i hlive
    split at h
    · cases h
    · cases h
      exact ⟨_, rfl, fun hdead => absurd hdead hlive⟩
    · split at h
      · cases h
        exact ⟨_, rfl, fun hdead => absurd hdead hlive⟩
      · obtain ⟨mgr, -, rfl⟩ := Option.map_eq_some_iff.mp (verify_goes h)
        exact ⟨_, rfl, fun hdead => absurd hdead hlive⟩

-- A dead connection stays dead, and only the thread that leaves send_complete_ changes who is there.
theorem dead_step (hinv : Inv s) (hk : s.conns k = some c) (hdead : c.dead = true) (hstep : Step s event next) :
    ∃ d, next.conns k = some d ∧ d.dead = true ∧
      (d.sendComplete = c.sendComplete ∨ ∃ u, event = .sendCompleted u ∧ s.pc u = .completing k) := by
  have hgoes := step_of_Step hstep
  have hone : ∀ j d d', s.conns j = some d → next.conns = Function.update s.conns j (some d') →
      (d.dead = true → d'.dead = true ∧ d'.sendComplete = d.sendComplete) →
      ∃ d, next.conns k = some d ∧ d.dead = true ∧
        (d.sendComplete = c.sendComplete ∨ ∃ u, event = .sendCompleted u ∧ s.pc u = .completing k) := by
    intro j d d' hj hconns hkeep
    rw [hconns]
    by_cases heq : k = j
    · subst heq
      rw [hk] at hj
      cases hj
      exact ⟨d', Function.update_self .., (hkeep hdead).1, .inl (hkeep hdead).2⟩
    · exact ⟨c, (Function.update_of_ne heq ..).trans hk, hdead, .inl rfl⟩
  have hnone : next.conns = s.conns → ∃ d, next.conns k = some d ∧ d.dead = true ∧
      (d.sendComplete = c.sendComplete ∨ ∃ u, event = .sendCompleted u ∧ s.pc u = .completing k) :=
    fun hsame => ⟨c, (congrFun hsame k).trans hk, hdead, .inl rfl⟩
  cases event with
  | create t j fd =>
      simp only [step, create] at hgoes
      split at hgoes
      · rename_i hguard
        obtain ⟨mgr, -, rfl⟩ := Option.map_eq_some_iff.mp (verify_goes (Option.some.inj hgoes))
        have hne : k ≠ j := by
          rintro rfl
          rw [hk] at hguard
          exact absurd hguard.2.1 (by simp)
        exact ⟨c, (Function.update_of_ne hne ..).trans hk, hdead, .inl rfl⟩
      · cases hgoes
  | incref t heir j =>
      obtain ⟨d, hj, -, -, -, hr⟩ := hinv.entered hgoes
      cases hr
      exact hone j d _ hj rfl fun h => ⟨h, rfl⟩
  | pass t heir j =>
      obtain ⟨d, hj, -, -, -, hr⟩ := hinv.entered hgoes
      cases hr
      exact hone j d _ hj rfl fun h => ⟨h, rfl⟩
  | decref t j =>
      obtain ⟨d, hj, -, -, -, hr⟩ := hinv.entered hgoes
      split at hr
      · cases hr
      · split at hr
        · split at hr
          · cases hr
          · cases hr
            exact hone j d _ hj rfl fun h => ⟨h, rfl⟩
        · cases hr
          exact hone j d _ hj rfl fun h => ⟨h, rfl⟩
  | send t j sz io =>
      obtain ⟨d, hj, -, -, -, hr⟩ := hinv.entered hgoes
      split at hr
      · cases hr
        exact hone j d _ hj rfl fun h => ⟨h, rfl⟩
      · obtain ⟨d', hconns, hsame⟩ := proceed_conns (Option.some.inj hr)
        exact hone j d d' hj hconns fun h => by rw [hsame h]; exact ⟨h, rfl⟩
  | sendAgain t io =>
      simp only [step, sendAgain] at hgoes
      split at hgoes
      · rename_i j sz hpc
        obtain ⟨d, hj, -, -, hr⟩ := hinv.used (by rw [hpc]; rfl) hgoes
        obtain ⟨w, -, hgo⟩ := Option.map_eq_some_iff.mp hr
        split at hgo
        · cases hgo
          exact hone j d _ hj rfl fun h => ⟨h, rfl⟩
        · obtain ⟨d', hconns, hsame⟩ := proceed_conns hgo
          exact hone j d d' hj hconns fun h => by rw [hsame h]; exact ⟨h, rfl⟩
      · cases hgoes
  | sendCompleted t =>
      simp only [step, sendCompleted] at hgoes
      split at hgoes
      · rename_i j hpc
        obtain ⟨d, hj, -, -, hr⟩ := hinv.used (by rw [hpc]; rfl) hgoes
        obtain ⟨w, -, hgo⟩ := Option.map_eq_some_iff.mp hr
        by_cases heq : k = j
        · subst heq
          rw [hk] at hj
          cases hj
          rw [if_neg (by simp [hdead])] at hgo
          cases hgo
          exact ⟨_, Function.update_self .., hdead, .inr ⟨t, rfl, hpc⟩⟩
        · split at hgo <;> cases hgo <;>
            exact ⟨c, (Function.update_of_ne heq ..).trans hk, hdead, .inl rfl⟩
      · cases hgoes
  | closeconn t j =>
      obtain ⟨d, hj, -, -, -, hr⟩ := hinv.entered hgoes
      have hgo := Outcome.goes.inj (Option.some.inj hr)
      split at hgo
      · exact hnone (by rw [← hgo])
      · subst hgo
        exact hone j d _ hj rfl fun _ => ⟨rfl, rfl⟩
  | remove t =>
      simp only [step, remove] at hgoes
      split at hgoes
      · rename_i sends j hpc
        obtain ⟨d, hj, -, -, hr⟩ := hinv.used (by rw [hpc]; rfl) hgoes
        obtain ⟨mgr, -, rfl⟩ := Option.map_eq_some_iff.mp (verify_goes (Option.some.inj hr))
        exact hnone rfl
      · cases hgoes
  | removeReturns t early =>
      simp only [step, removeReturns] at hgoes
      split at hgoes
      · rename_i sends j hpc
        obtain ⟨d, hj, -, -, hr⟩ := hinv.used (by rw [hpc]; rfl) hgoes
        obtain ⟨mgr, -, hgo⟩ := Option.map_eq_some_iff.mp hr
        cases hgo
        exact hnone rfl
      · cases hgoes
  | sendRemoved t =>
      simp only [step, sendRemoved] at hgoes
      split at hgoes
      · rename_i j hpc
        obtain ⟨d, hj, -, -, hr⟩ := hinv.used (by rw [hpc]; rfl) hgoes
        cases hr
        exact hone j d _ hj rfl fun h => ⟨h, rfl⟩
      · cases hgoes
  | poll move =>
      obtain ⟨mgr, -, hgo⟩ := Option.map_eq_some_iff.mp hgoes
      cases hgo
      exact hnone rfl
  | readCb read =>
      simp only [step, readCb] at hgoes
      split at hgoes
      · rename_i fd j readable writable hloop
        obtain ⟨d, hj, -, rfl, hr⟩ := hinv.called hloop hgoes
        rw [if_neg (by simp)] at hr
        split at hr
        · cases hr
          exact hone j d _ hj rfl fun h => ⟨h, rfl⟩
        · rename_i hlive
          cases read with
          | quiet =>
              cases hr
              exact hone j d _ hj rfl fun h => ⟨h, rfl⟩
          | got heir =>
              cases hr
              exact hone j d _ hj rfl fun h => ⟨h, rfl⟩
          | failed pick =>
              obtain ⟨w, -, hverify⟩ := Option.map_eq_some_iff.mp hr
              obtain ⟨mgr, -, rfl⟩ := Option.map_eq_some_iff.mp (verify_goes hverify)
              exact hone j d _ hj rfl fun h => absurd h hlive
          | stopped => cases hr
      · cases hgoes
  | writeCb io pick =>
      simp only [step, writeCb] at hgoes
      split at hgoes
      · rename_i fd j readable writable hloop
        obtain ⟨d, hj, -, rfl, hr⟩ := hinv.called hloop hgoes
        split at hr
        · cases hr
        · rename_i hguard
          have hlive : ¬ d.dead = true := fun h => hguard (.inl h)
          split at hr
          · obtain ⟨mgr, -, rfl⟩ := Option.map_eq_some_iff.mp (verify_goes (Option.some.inj hr))
            exact hone j d _ hj rfl fun h => absurd h hlive
          · split at hr
            · cases hr
            · obtain ⟨w, -, hverify⟩ := Option.map_eq_some_iff.mp hr
              obtain ⟨mgr, -, rfl⟩ := Option.map_eq_some_iff.mp (verify_goes hverify)
              exact hone j d _ hj rfl fun h => absurd h hlive
            · split at hr
              · cases hr
              · split at hr
                · cases hr
                  exact hone j d _ hj rfl fun h => absurd h hlive
                · obtain ⟨w, -, hgo⟩ := Option.map_eq_some_iff.mp hr
                  cases hgo
                  exact hone j d _ hj rfl fun h => absurd h hlive
      · cases hgoes

-- The rest of the message is written, and the sender is woken.
theorem write_rest {readable writable : List Nat} (hinv : Inv s) (hk : s.conns k = some c) (hlive : c.dead = false)
    (hpart : 0 ≤ c.solong ∧ c.solong < c.sz) (hasleep : t ∈ c.sendComplete.asleep)
    (hloop : s.mgr.loop = .calling true c.fd k readable writable) :
    ∃ event next d, event.silent = true ∧ Step s event next ∧ next.conns k = some d ∧ t ∈ d.sendComplete.woken := by
  obtain ⟨c', hk', hkept, -⟩ := hinv.calling hloop
  rw [hk] at hk'
  cases hk'
  have hsignal : c.sendComplete.signal (some t) = some _ := if_pos hasleep
  have hwrite : c.writepdu (.wrote (c.sz - c.solong).toNat) = some (true, { c with solong := c.sz }) := by
    have hsum : c.solong + min ((c.sz - c.solong).toNat : Int) (c.sz - c.solong) = c.sz := by omega
    simp only [Conn.writepdu, if_neg (Int.not_lt.mpr hpart.1), if_neg hpart.2.ne, hsum]
  have hstep : step s (.writeCb (.wrote (c.sz - c.solong).toNat) (some t)) =
      some (.goes (s.returned k { c with
        solong := c.sz
        sendComplete := { asleep := c.sendComplete.asleep.erase t, woken := c.sendComplete.woken ++ [t] } }
        s.mgr readable writable)) := by
    have hguard : ¬ (c.dead = true ∨ c.fd ≠ c.fd) := by simp [hlive]
    have hsz : ¬ c.sz = 0 := by omega
    have hpos : ¬ c.sz < 0 := by omega
    simp only [step, writeCb, hloop, use_eq hk hkept, if_neg hguard, if_neg hsz, hwrite, if_neg hpos,
      if_neg (lt_irrefl c.sz), hsignal, Option.map_some]
  exact ⟨_, _, _, rfl, Step_of_step hstep, Function.update_self .., by simp⟩

-- No wait for send_complete_ ends without a signal.
def Signalled (s : State τ) (event : Event τ) : Prop :=
  Patient s event ∧ ∀ t k c, event = .sendCompleted t → s.pc t = .completing k → s.conns k = some c →
    t ∈ c.sendComplete.woken

-- The sender of a message on a dead connection.
def Stuck (t : τ) (k : Nat) (s : State τ) : Prop :=
  ∃ c, s.conns k = some c ∧ c.dead = true ∧ t ∈ c.sendComplete.asleep

theorem Stuck.step (hinv : Inv s) (hatt : AllAttended s) (h : Stuck t k s)
    (hstep : Guarded Signalled Step s event next) : Stuck t k next := by
  obtain ⟨c, hk, hdead, hasleep⟩ := h
  obtain ⟨hsignalled, hstep⟩ := hstep
  obtain ⟨d, hd, hd', hsame | ⟨u, rfl, hpc⟩⟩ := dead_step hinv hk hdead hstep
  · exact ⟨d, hd, hd', hsame ▸ hasleep⟩
  · -- The thread there is the only one, and it has not been woken.
    have hwoken := hsignalled.2 u k c rfl hpc hk
    have halone := (hatt k c hk).alone
    have hone := List.length_pos_of_mem hasleep
    have htwo := List.length_pos_of_mem hwoken
    simp only [CondVar.threads, List.length_append] at halone
    omega

-- Threads sleep at send_wait_ only while one other thread has wpdu_, whose send wakes all of them when it ends. One
-- that waits for the rest of its message to be sent can be woken by the poll thread alone, which needs no room in the
-- pipe for that, unless write_cb of another connection fails first. If closeconn has killed the connection in the
-- meantime, it sleeps for ever, and its connection is never deleted.
theorem sender_woken_unless_dead (hr : Reachable (Guarded Patient Step) (initial pipefd) s) (hk : s.conns k = some c) :
    (t ∈ c.sendWait.asleep → ∃ u, (s.pc u).owns = some k ∧ ∀ v, (s.pc v).owns = some k → v = u) ∧
      (t ∈ c.sendComplete.asleep → c.dead = false →
        Comes (Guarded Silent Step)
          (fun last => Fails last ∨ ∃ d, last.conns k = some d ∧ t ∈ d.sendComplete.woken) s) ∧
      (t ∈ c.sendComplete.asleep → c.dead = true → ∀ events last,
        Run (Guarded Signalled Step) (fun start => start = s) events last →
          ∃ d, last.conns k = some d ∧ t ∈ d.sendComplete.asleep ∧ d.freed = false) := by
  obtain ⟨hinv, hatt⟩ := reachable_attended hr
  refine ⟨fun hasleep => ?_, fun hasleep hlive => ?_, fun hasleep hdead events last run => ?_⟩
  · obtain ⟨u, hu⟩ := (hinv.kept k c hk).owned ((hatt k c hk).waiting (List.ne_nil_of_mem hasleep))
    exact ⟨u, hu, fun v hv => (hinv.kept k c hk).single v u hv hu⟩
  · have hp : s.ports k = some c.port := congrArg (Option.map Conn.port) hk
    have hwatched := ((hatt k c hk).pending (List.ne_nil_of_mem (List.mem_append_left _ hasleep)) hlive).2
    have hmarked : Marked s k c := ⟨hk, (hinv.wired.live k c.port hp hlive).1⟩
    refine (marked_comes hinv hmarked (.inl hwatched)).then fun last hlast => ?_
    rcases hlast with hfails | ⟨hinv', hmarked', readable, writable, hloop⟩
    · exact .now (.inl hfails)
    · have hpart : 0 ≤ c.solong ∧ c.solong < c.sz :=
        ⟨((hinv.kept k c hk).sane hlive).1, (hatt k c hk).unfinished (List.ne_nil_of_mem hasleep) hlive⟩
      obtain ⟨event, next, d, hsilent, hstep, hd, hwoken⟩ :=
        write_rest hinv' hmarked'.conn hlive hpart hasleep hloop
      exact silently hsilent hstep (.now (.inr ⟨d, hd, hwoken⟩))
  · have hall : Inv last ∧ AllAttended last ∧ Stuck t k last := by
      induction run with
      | start h =>
          subst h
          exact ⟨hinv, hatt, c, hk, hdead, hasleep⟩
      | extend _ hstep ih =>
          obtain ⟨hinv', hatt', hstuck⟩ := ih
          exact ⟨hinv'.goes hstep.1.1 hstep.2, hatt'.step hinv' hstep.2, hstuck.step hinv' hatt' hstep⟩
    obtain ⟨hinv', hatt', d, hd, -, hasleep'⟩ := hall
    refine ⟨d, hd, hasleep', ?_⟩
    by_contra hfreed
    have hpc := (hatt' k d hd).mine t (List.mem_append_left _ hasleep')
    have hheld := (hinv'.kept k d hd).held t (by rw [hpc]; rfl)
    rw [(hinv'.kept k d hd).freed (by simpa using hfreed)] at hheld
    cases hheld

end Runs

-- The connection is closed while the rest of a message waits to be sent.
theorem sender_stuck_closing : ∃ s : State Nat, ∀ events last,
    Run (Guarded Signalled Step) (fun start => start = s) events last →
      ∃ d, last.conns 0 = some d ∧ 0 ∈ d.sendComplete.asleep ∧ d.freed = false := by
  have hexec : (execute (fun s event => if Patient s event then advance s event else none)
      ({ mgr := { aio := .create 3 }, opened := fun fd => fd == 3 } : State Nat)
      [.create 0 0 7, .incref 0 1 0, .send 0 0 10 (.wrote 4), .closeconn 1 0]).map
      (fun s => (s.conns 0).map fun c => (c.dead, c.sendComplete.asleep)) = some (some (true, [0])) := by decide
  obtain ⟨s, hs, hfields⟩ := Option.map_eq_some_iff.mp hexec
  obtain ⟨c, hk, hc⟩ := Option.map_eq_some_iff.mp hfields
  obtain ⟨hdead, hasleep⟩ := Prod.mk.inj hc
  have hstart : Reachable (Guarded Patient Step) (initial 3)
      ({ mgr := { aio := .create 3 }, opened := fun fd => fd == 3 } : State Nat) := .start ⟨_, rfl, rfl⟩
  refine ⟨s, (sender_woken_unless_dead (hstart.executed hs) hk).2.2 ?_ hdead⟩
  rw [hasleep]
  exact List.mem_singleton_self 0

end CseLabs.Connections
