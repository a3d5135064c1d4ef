import CseLabs.Connections

namespace CseLabs.Connections

open PollMgr (Mgr MAX_POLL_FDS)

-- The poll thread is in a callback of this object for this descriptor.
def Calls (fd k : Nat) : PollMgr.Loop Nat → Prop
  | .calling _ now ch _ _ => now = fd ∧ ch = k
  | _ => False

-- What matters of a connection for the poll manager.
structure Port where
  fd : Nat
  dead : Bool
  freed : Bool

def Conn.port {τ : Type*} (c : Conn τ) : Port := ⟨c.fd, c.dead, c.freed⟩

namespace Pc

-- The connection whose send or closeconn the thread is in.
def on : Pc → Option Nat
  | out => none
  | queued k _ | killing _ k | removing _ k | removed k | completing k => some k

-- The connection that the thread has killed and whose callbacks it has not removed yet.
def kills : Pc → Option Nat
  | killing _ k | removing _ k => some k
  | out | queued _ _ | removed _ | completing _ => none

-- The connection whose wpdu_ the thread has filled.
def owns : Pc → Option Nat
  | killing true k | removing true k | removed k | completing k => some k
  | out | queued _ _ | killing false _ | removing false _ => none

end Pc

variable {τ : Type*}

-- The table of callbacks, the loop and the threads in block_remove_fd agree with the connections: a dead
-- connection is known to the poll manager only as long as the thread that killed it has not returned.
structure Wired (mgr : Mgr τ Nat) (opened : Nat → Bool) (ports : Nat → Option Port)
    (kills removes : τ → Option Nat) : Prop where
  inv : PollMgr.Inv mgr
  pipe : opened mgr.aio.pipefd = true
  bounds : ∀ k p, ports k = some p → p.fd ≠ mgr.aio.pipefd ∧ p.fd < MAX_POLL_FDS
  inUse : ∀ k p, ports k = some p → p.freed = false → opened p.fd = true
  distinct : ∀ j k p q, ports j = some p → ports k = some q → p.freed = false → q.freed = false →
    p.fd = q.fd → j = k
  registered : ∀ fd k, mgr.callbacks fd = some k → ∃ p, ports k = some p ∧ p.fd = fd
  calling : ∀ fd k, Calls fd k mgr.loop → ∃ p, ports k = some p ∧ p.fd = fd
  live : ∀ k p, ports k = some p → p.dead = false →
    mgr.callbacks p.fd = some k ∧ (mgr.aio.interest p.fd).1 = true
  gone : ∀ k p, ports k = some p → p.dead = true → mgr.callbacks p.fd = some k ∨ Calls p.fd k mgr.loop →
    ∃ t, kills t = some k
  killed : ∀ t k, kills t = some k → ∃ p, ports k = some p ∧ p.dead = true ∧ p.freed = false
  removing : ∀ entry ∈ mgr.changedoneC.threads, ∃ k p, removes entry.1 = some k ∧ ports k = some p ∧ p.fd = entry.2
  once : (mgr.changedoneC.threads.map Prod.fst).Nodup
  removers : ∀ t k, removes t = some k → kills t = some k
  deadFirst : ∀ k p, ports k = some p → p.freed = true → p.dead = true

section Wiring

variable {mgr next : Mgr τ Nat} {opened : Nat → Bool} {ports : Nat → Option Port} {kills removes : τ → Option Nat}
variable {k fd : Nat} {p : Port}

-- A deleted connection is not known to the poll manager.
theorem Wired.not_freed (h : Wired mgr opened ports kills removes) (hk : ports k = some p)
    (hknown : mgr.callbacks p.fd = some k ∨ Calls p.fd k mgr.loop) : p.freed = false := by
  by_contra hfreed
  rw [Bool.not_eq_false] at hfreed
  obtain ⟨t, ht⟩ := h.gone k p hk (h.deadFirst k p hk hfreed) hknown
  obtain ⟨q, hq, -, hkept⟩ := h.killed t k ht
  rw [hk] at hq
  cases hq
  rw [hfreed] at hkept
  cases hkept

-- A descriptor that is not open has no callback, and no thread is removing it.
theorem Wired.free (h : Wired mgr opened ports kills removes) (hfd : opened fd = false) :
    fd ≠ mgr.aio.pipefd ∧ mgr.callbacks fd = none ∧ ∀ entry ∈ mgr.changedoneC.threads, entry.2 ≠ fd := by
  refine ⟨?_, ?_, ?_⟩
  · rintro rfl
    rw [h.pipe] at hfd
    cases hfd
  · by_contra hsome
    obtain ⟨k, hk⟩ := Option.ne_none_iff_exists'.mp hsome
    obtain ⟨p, hp, rfl⟩ := h.registered fd k hk
    rw [h.inUse k p hp (h.not_freed hp (.inl hk))] at hfd
    cases hfd
  · rintro entry hentry rfl
    obtain ⟨k, p, hremoves, hp, hpfd⟩ := h.removing entry hentry
    obtain ⟨q, hq, -, hkept⟩ := h.killed entry.1 k (h.removers _ _ hremoves)
    rw [hp] at hq
    cases hq
    rw [← hpfd, h.inUse k p hp hkept] at hfd
    cases hfd

-- Nobody removes the descriptor of a connection that is not dead.
theorem Wired.settled (h : Wired mgr opened ports kills removes) (hk : ports k = some p) (hlive : p.dead = false) :
    ∀ entry ∈ mgr.changedoneC.threads, entry.2 ≠ p.fd := by
  intro entry hentry heq
  obtain ⟨j, q, hremoves, hq, hqfd⟩ := h.removing entry hentry
  obtain ⟨q', hq', hdead, hkept⟩ := h.killed entry.1 j (h.removers _ _ hremoves)
  rw [hq] at hq'
  cases hq'
  have hfreed := h.not_freed hk (.inl (h.live k p hk hlive).1)
  obtain rfl := h.distinct j k q p hq hk hkept hfreed (hqfd.trans heq)
  rw [hk] at hq
  cases hq
  rw [hlive] at hdead
  cases hdead

theorem update_some {α : Type*} {table : Nat → Option α} {k j : Nat} {new x : α}
    (h : Function.update table k (some new) j = some x) : j = k ∧ x = new ∨ j ≠ k ∧ table j = some x := by
  by_cases heq : j = k
  · subst heq
    rw [Function.update_self] at h
    exact .inl ⟨rfl, (Option.some.inj h).symm⟩
  · rw [Function.update_of_ne heq] at h
    exact .inr ⟨heq, h⟩

-- A known connection stays in the table.
theorem update_known {q : Port} {j : Nat} (h : ∃ p, ports j = some p ∧ p.fd = fd)
    (hq : ∀ p, ports k = some p → q.fd = p.fd) : ∃ p, Function.update ports k (some q) j = some p ∧ p.fd = fd := by
  obtain ⟨p, hp, hfd⟩ := h
  by_cases heq : j = k
  · subst heq
    exact ⟨q, Function.update_self .., (hq p hp).trans hfd⟩
  · exact ⟨p, (Function.update_of_ne heq ..).trans hp, hfd⟩

theorem relabel_known {q : Port} (hk : ports k = some p) (hfd : q.fd = p.fd) (other j : Nat)
    (h : ∃ r, ports j = some r ∧ r.fd = other) : ∃ r, Function.update ports k (some q) j = some r ∧ r.fd = other := by
  refine update_known h fun r hr => ?_
  rw [hk] at hr
  cases hr
  exact hfd

-- dead_ may have changed.
theorem relabel_back {q r : Port} {j : Nat} (hr : Function.update ports k (some q) j = some r) (hk : ports k = some p)
    (hfd : q.fd = p.fd) (hfreed : q.freed = p.freed) :
    ∃ r', ports j = some r' ∧ r'.fd = r.fd ∧ r'.freed = r.freed := by
  rcases update_some hr with ⟨rfl, rfl⟩ | ⟨-, hold⟩
  · exact ⟨p, hk, hfd.symm, hfreed.symm⟩
  · exact ⟨r, hold, rfl, rfl⟩

theorem watch_reads {s : PollMgr.SelectAio} {fd other : Nat} {flag : PollMgr.Flag} (hflag : flag ≠ .none)
    (h : (s.interest other).1 = true) : ((s.watch fd flag).interest other).1 = true := by
  rw [PollMgr.watch_interest s fd hflag, PollMgr.Interest.watch]
  by_cases heq : other = fd
  · subst heq
    rw [Function.update_self, h, Bool.true_or]
  · rw [Function.update_of_ne heq, h]

-- connection()
theorem Wired.create (h : Wired mgr opened ports kills removes) (hk : ports k = none) (hfd : opened fd = false)
    (hadd : PollMgr.addCallback mgr fd .rdonly k = some next) :
    Wired next (Function.update opened fd true) (Function.update ports k (some ⟨fd, false, false⟩)) kills removes := by
  obtain ⟨hpipe, hnone, hsettled⟩ := h.free hfd
  have hinv := h.inv.addCallback hsettled hadd
  obtain ⟨hmax, rfl⟩ := PollMgr.addCallback_some hadd
  have hold : ∀ p, ports k = some p → fd = p.fd := by
    intro p hp
    rw [hk] at hp
    cases hp
  have hother : ∀ j p, ports j = some p → p.freed = false → p.fd ≠ fd := by
    rintro j p hp hfreed rfl
    rw [h.inUse j p hp hfreed] at hfd
    cases hfd
  refine ⟨hinv, ?_, ?_, ?_, ?_, ?_, ?_, ?_, ?_, ?_, ?_, h.once, h.removers, ?_⟩
  · exact (Function.update_of_ne (Ne.symm hpipe) ..).trans h.pipe
  · intro j p hp
    rcases update_some hp with ⟨-, rfl⟩ | ⟨-, hp⟩
    · exact ⟨hpipe, hmax⟩
    · exact h.bounds j p hp
  · intro j p hp hfreed
    rcases update_some hp with ⟨-, rfl⟩ | ⟨-, hp⟩
    · exact Function.update_self ..
    · rw [Function.update_of_ne (hother j p hp hfreed)]
      exact h.inUse j p hp hfreed
  · intro i j p q hp hq hpfree hqfree heq
    rcases update_some hp with ⟨hi, rfl⟩ | ⟨-, hp'⟩ <;> rcases update_some hq with ⟨hj, rfl⟩ | ⟨-, hq'⟩
    · exact hi.trans hj.symm
    · exact absurd heq.symm (hother j q hq' hqfree)
    · exact absurd heq (hother i p hp' hpfree)
    · exact h.distinct i j p q hp' hq' hpfree hqfree heq
  · intro other j hj
    rcases update_some hj with ⟨rfl, rfl⟩ | ⟨-, hj⟩
    · exact ⟨_, Function.update_self .., rfl⟩
    · exact update_known (h.registered other j hj) hold
  · intro other j hj
    exact update_known (h.calling other j hj) hold
  · intro j p hp hlive
    rcases update_some hp with ⟨rfl, rfl⟩ | ⟨-, hp⟩
    · refine ⟨Function.update_self .., ?_⟩
      rw [PollMgr.watch_interest _ _ (by simp), PollMgr.Interest.watch, Function.update_self]
      exact Bool.or_true _
    · obtain ⟨hcallback, hreads⟩ := h.live j p hp hlive
      have hne := hother j p hp (h.not_freed hp (.inl hcallback))
      exact ⟨(Function.update_of_ne hne ..).trans hcallback, watch_reads (by simp) hreads⟩
  · intro j p hp hdead hknown
    rcases update_some hp with ⟨rfl, rfl⟩ | ⟨hne, hp⟩
    · cases hdead
    · refine h.gone j p hp hdead (hknown.imp_left fun hcallback => ?_)
      rcases update_some hcallback with ⟨-, rfl⟩ | ⟨-, hcallback⟩
      · exact absurd rfl hne
      · exact hcallback
  · intro t j ht
    obtain ⟨p, hp, hdead, hfree⟩ := h.killed t j ht
    have hne : j ≠ k := by
      rintro rfl
      rw [hk] at hp
      cases hp
    exact ⟨p, (Function.update_of_ne hne ..).trans hp, hdead, hfree⟩
  · intro entry hentry
    obtain ⟨j, p, hremoves, hp, hpfd⟩ := h.removing entry hentry
    have hne : j ≠ k := by
      rintro rfl
      rw [hk] at hp
      cases hp
    exact ⟨j, p, hremoves, (Function.update_of_ne hne ..).trans hp, hpfd⟩
  · intro j p hp hfreed
    rcases update_some hp with ⟨-, rfl⟩ | ⟨-, hp⟩
    · cases hfreed
    · exact h.deadFirst j p hp hfreed

-- send has to wait for the socket.
theorem Wired.watch (h : Wired mgr opened ports kills removes) (hk : ports k = some p) (hlive : p.dead = false) :
    ∃ next, PollMgr.addCallback mgr p.fd .wronly k = some next ∧ Wired next opened ports kills removes := by
  have hcallback := (h.live k p hk hlive).1
  have hadd : PollMgr.addCallback mgr p.fd .wronly k = some _ :=
    PollMgr.addCallback_eq ⟨(h.bounds k p hk).2, .inr hcallback⟩
  have hinv := h.inv.addCallback (h.settled hk hlive) hadd
  have hsame : Function.update mgr.callbacks p.fd (some k) = mgr.callbacks := by
    rw [← hcallback, Function.update_eq_self]
  refine ⟨_, hadd, hinv, h.pipe, h.bounds, h.inUse, h.distinct, ?_, h.calling, ?_, ?_, h.killed, h.removing, h.once,
    h.removers, h.deadFirst⟩
  · rw [hsame]
    exact h.registered
  · intro j q hq hql
    obtain ⟨hqcallback, hreads⟩ := h.live j q hq hql
    exact ⟨(congrFun hsame q.fd).trans hqcallback, watch_reads (by simp) hreads⟩
  · rw [hsame]
    exact h.gone

variable [DecidableEq τ]

-- A thread sets dead_ and is now to remove the callbacks.
theorem Wired.kill {t : τ} (h : Wired mgr opened ports kills removes) (hk : ports k = some p) (hlive : p.dead = false)
    (ht : kills t = none) :
    Wired mgr opened (Function.update ports k (some { p with dead := true })) (Function.update kills t (some k))
      removes := by
  have hkept := h.not_freed hk (.inl (h.live k p hk hlive).1)
  have hkeep := relabel_known (q := { p with dead := true }) hk rfl
  have hkills : ∀ j, (∃ u, kills u = some j) → ∃ u, Function.update kills t (some k) u = some j := by
    rintro j ⟨u, hu⟩
    have hne : u ≠ t := by
      rintro rfl
      rw [ht] at hu
      cases hu
    exact ⟨u, (Function.update_of_ne hne ..).trans hu⟩
  refine ⟨h.inv, h.pipe, ?_, ?_, ?_, ?_, ?_, ?_, ?_, ?_, ?_, h.once, ?_, ?_⟩
  · intro j q hq
    obtain ⟨q', hq', hfd, -⟩ := relabel_back hq hk rfl rfl
    exact hfd ▸ h.bounds j q' hq'
  · intro j q hq hfree
    obtain ⟨q', hq', hfd, hfreed⟩ := relabel_back hq hk rfl rfl
    exact hfd ▸ h.inUse j q' hq' (hfreed.trans hfree)
  · intro i j q r hq hr hqfree hrfree heq
    obtain ⟨q', hq', hqfd, hqfreed⟩ := relabel_back hq hk rfl rfl
    obtain ⟨r', hr', hrfd, hrfreed⟩ := relabel_back hr hk rfl rfl
    exact h.distinct i j q' r' hq' hr' (hqfreed.trans hqfree) (hrfreed.trans hrfree) (by omega)
  · intro other j hj
    exact hkeep other j (h.registered other j hj)
  · intro other j hj
    exact hkeep other j (h.calling other j hj)
  · intro j q hq hqlive
    rcases update_some hq with ⟨-, rfl⟩ | ⟨-, hq⟩
    · cases hqlive
    · exact h.live j q hq hqlive
  · intro j q hq hdead hknown
    rcases update_some hq with ⟨rfl, -⟩ | ⟨-, hq⟩
    · exact ⟨t, Function.update_self ..⟩
    · exact hkills j (h.gone j q hq hdead hknown)
  · intro u j hu
    by_cases heq : u = t
    · subst heq
      rw [Function.update_self] at hu
      cases hu
      exact ⟨_, Function.update_self .., rfl, hkept⟩
    · rw [Function.update_of_ne heq] at hu
      obtain ⟨q, hq, hdead, hfree⟩ := h.killed u j hu
      have hne : j ≠ k := by
        rintro rfl
        rw [hk] at hq
        cases hq
        rw [hlive] at hdead
        cases hdead
      exact ⟨q, (Function.update_of_ne hne ..).trans hq, hdead, hfree⟩
  · intro entry hentry
    obtain ⟨j, q, hremoves, hq, hqfd⟩ := h.removing entry hentry
    obtain ⟨q', hq', hfd⟩ := hkeep entry.2 j ⟨q, hq, hqfd⟩
    exact ⟨j, q', hremoves, hq', hfd⟩
  · intro u j hu
    have hne : u ≠ t := by
      rintro rfl
      rw [h.removers u j hu] at ht
      cases ht
    rw [Function.update_of_ne hne]
    exact h.removers u j hu
  · intro j q hq hfreed
    rcases update_some hq with ⟨-, rfl⟩ | ⟨-, hq⟩
    · rfl
    · exact h.deadFirst j q hq hfreed

-- It calls block_remove_fd.
theorem Wired.remove {t : τ} (h : Wired mgr opened ports kills removes) (hk : ports k = some p)
    (hkills : kills t = some k) (hremoves : removes t = none) :
    ∃ next, PollMgr.blockRemoveFd mgr t p.fd = some next ∧
      Wired next opened ports kills (Function.update removes t (some k)) := by
  obtain ⟨hpipe, hmax⟩ := h.bounds k p hk
  obtain ⟨aio, hun, -⟩ := h.inv.sound.unwatchFd (PollMgr.below_setsize hmax) hpipe
    (show PollMgr.Flag.rdwr ≠ .none by simp)
  obtain ⟨hsound, hpipefd, hinterest⟩ := PollMgr.unwatch_spec h.inv.sound hpipe hun
  have hblock : PollMgr.blockRemoveFd mgr t p.fd = some _ := PollMgr.blockRemoveFd_eq hmax hun
  have hinv := h.inv.blockRemoveFd hpipe hblock
  have hthreads := CondVar.wait_threads mgr.changedoneC (t, p.fd)
  have hdead : p.dead = true := by
    obtain ⟨q, hq, hdead, -⟩ := h.killed t k hkills
    rw [hk] at hq
    cases hq
    exact hdead
  have hfree : p.freed = false := by
    obtain ⟨q, hq, -, hfree⟩ := h.killed t k hkills
    rw [hk] at hq
    cases hq
    exact hfree
  have hout : ∀ entry ∈ mgr.changedoneC.threads, entry.1 ≠ t := by
    rintro entry hentry rfl
    obtain ⟨j, q, hj, -⟩ := h.removing entry hentry
    rw [hremoves] at hj
    cases hj
  refine ⟨_, hblock, hinv, ?_, ?_, h.inUse, h.distinct, h.registered, h.calling, ?_, h.gone, h.killed, ?_, ?_, ?_,
    h.deadFirst⟩
  · exact (congrArg opened hpipefd).trans h.pipe
  · exact fun j q hq => ⟨fun heq => (h.bounds j q hq).1 (heq.trans hpipefd), (h.bounds j q hq).2⟩
  · intro j q hq hlive
    obtain ⟨hcallback, hreads⟩ := h.live j q hq hlive
    refine ⟨hcallback, ?_⟩
    have hne : q.fd ≠ p.fd := by
      intro heq
      obtain rfl := h.distinct j k q p hq hk (h.not_freed hq (.inl hcallback)) hfree heq
      rw [hk] at hq
      cases hq
      rw [hlive] at hdead
      cases hdead
    change (aio.interest q.fd).1 = true
    rw [hinterest, PollMgr.Interest.unwatch, Function.update_of_ne hne]
    exact hreads
  · intro entry hentry
    rcases List.mem_cons.mp (hthreads.mem_iff.mp hentry) with rfl | hold
    · exact ⟨k, p, Function.update_self .., hk, rfl⟩
    · rw [Function.update_of_ne (hout entry hold)]
      exact h.removing entry hold
  · refine (hthreads.map Prod.fst).nodup_iff.mpr ?_
    rw [List.map_cons, List.nodup_cons]
    refine ⟨fun hmem => ?_, h.once⟩
    obtain ⟨entry, hentry, heq⟩ := List.mem_map.mp hmem
    exact hout entry hentry heq
  · intro u j hu
    by_cases heq : u = t
    · subst heq
      rw [Function.update_self] at hu
      cases hu
      exact hkills
    · rw [Function.update_of_ne heq] at hu
      exact h.removers u j hu

omit [DecidableEq τ] in
-- Another connection that the poll manager knows has another descriptor.
theorem Wired.fd_ne (h : Wired mgr opened ports kills removes) {j : Nat} {q : Port} (hk : ports k = some p)
    (hkept : p.freed = false) (hq : ports j = some q) (hfree : q.freed = false) (hne : j ≠ k) : q.fd ≠ p.fd :=
  fun heq => hne (h.distinct j k q p hq hk hfree hkept heq)

omit [DecidableEq τ] in
theorem calls_involves {loop : PollMgr.Loop Nat} (h : Calls fd k loop) : loop.Involves fd := by
  cases loop with
  | calling write now ch readable writable => exact .inl h.1.symm
  | _ => exact absurd h id

-- block_remove_fd returns.
theorem Wired.returns {t : τ} {c : CondVar (τ × Nat)} (h : Wired mgr opened ports kills removes)
    (hk : ports k = some p) (hremoves : removes t = some k)
    (hthreads : mgr.changedoneC.threads.Perm ((t, p.fd) :: c.threads)) (hinv : PollMgr.Inv (mgr.forget p.fd c))
    (hnot : ¬ mgr.loop.Involves p.fd) :
    Wired (mgr.forget p.fd c) opened ports (Function.update kills t none) (Function.update removes t none) := by
  have hkills := h.removers t k hremoves
  obtain ⟨hdead, hkept⟩ : p.dead = true ∧ p.freed = false := by
    obtain ⟨q, hq, hboth⟩ := h.killed t k hkills
    rw [hk] at hq
    cases hq
    exact hboth
  have honce := (hthreads.map Prod.fst).nodup_iff.mp h.once
  rw [List.map_cons, List.nodup_cons] at honce
  have hold : ∀ other j, (mgr.forget p.fd c).callbacks other = some j →
      other ≠ p.fd ∧ mgr.callbacks other = some j := by
    intro other j hj
    by_cases heq : other = p.fd
    · subst heq
      simp [Mgr.forget, PollMgr.Mgr.forget] at hj
    · exact ⟨heq, (Function.update_of_ne heq ..).symm.trans hj⟩
  refine ⟨hinv, h.pipe, h.bounds, h.inUse, h.distinct, ?_, h.calling, ?_, ?_, ?_, ?_, honce.2, ?_, h.deadFirst⟩
  · exact fun other j hj => h.registered other j (hold other j hj).2
  · intro j q hq hlive
    obtain ⟨hcallback, hreads⟩ := h.live j q hq hlive
    have hne : j ≠ k := by
      rintro rfl
      rw [hk] at hq
      cases hq
      rw [hlive] at hdead
      cases hdead
    have hfd := h.fd_ne hk hkept hq (h.not_freed hq (.inl hcallback)) hne
    exact ⟨(Function.update_of_ne hfd ..).trans hcallback, hreads⟩
  · intro j q hq hqdead hknown
    obtain ⟨u, hu⟩ := h.gone j q hq hqdead (hknown.imp_left fun hj => (hold q.fd j hj).2)
    have hne : u ≠ t := by
      rintro rfl
      rw [hkills] at hu
      cases hu
      rw [hk] at hq
      cases hq
      rcases hknown with hcallback | hcalls
      · exact (hold p.fd k hcallback).1 rfl
      · exact hnot (calls_involves hcalls)
    exact ⟨u, (Function.update_of_ne hne ..).trans hu⟩
  · intro u j hu
    by_cases heq : u = t
    · subst heq
      rw [Function.update_self] at hu
      cases hu
    · rw [Function.update_of_ne heq] at hu
      exact h.killed u j hu
  · intro entry hentry
    have hne : entry.1 ≠ t := by
      intro heq
      exact honce.1 (List.mem_map.mpr ⟨entry, hentry, heq⟩)
    rw [Function.update_of_ne hne]
    exact h.removing entry (hthreads.mem_iff.mpr (List.mem_cons_of_mem _ hentry))
  · intro u j hu
    by_cases heq : u = t
    · subst heq
      rw [Function.update_self] at hu
      cases hu
    · rw [Function.update_of_ne heq] at hu ⊢
      exact h.removers u j hu

omit [DecidableEq τ] in
-- ~connection
theorem Wired.delete (h : Wired mgr opened ports kills removes) (hk : ports k = some p) (hdead : p.dead = true)
    (hkept : p.freed = false) (hnone : ∀ t, kills t ≠ some k) :
    Wired mgr (Function.update opened p.fd false) (Function.update ports k (some { p with freed := true })) kills
      removes := by
  have hkeep := relabel_known (q := { p with freed := true }) hk rfl
  have hback : ∀ j q, Function.update ports k (some { p with freed := true }) j = some q → q.freed = false →
      j ≠ k ∧ ports j = some q := by
    intro j q hq hfree
    rcases update_some hq with ⟨-, rfl⟩ | hold
    · cases hfree
    · exact hold
  refine ⟨h.inv, ?_, ?_, ?_, ?_, ?_, ?_, ?_, ?_, ?_, ?_, h.once, h.removers, ?_⟩
  · exact (Function.update_of_ne (Ne.symm (h.bounds k p hk).1) ..).trans h.pipe
  · intro j q hq
    rcases update_some hq with ⟨-, rfl⟩ | ⟨-, hq⟩
    · exact h.bounds k p hk
    · exact h.bounds j q hq
  · intro j q hq hfree
    obtain ⟨hne, hq⟩ := hback j q hq hfree
    exact (Function.update_of_ne (h.fd_ne hk hkept hq hfree hne) ..).trans (h.inUse j q hq hfree)
  · intro i j q r hq hr hqfree hrfree heq
    exact h.distinct i j q r (hback i q hq hqfree).2 (hback j r hr hrfree).2 hqfree hrfree heq
  · exact fun other j hj => hkeep other j (h.registered other j hj)
  · exact fun other j hj => hkeep other j (h.calling other j hj)
  · intro j q hq hlive
    rcases update_some hq with ⟨-, rfl⟩ | ⟨-, hq⟩
    · rw [hdead] at hlive
      cases hlive
    · exact h.live j q hq hlive
  · intro j q hq hqdead hknown
    rcases update_some hq with ⟨rfl, rfl⟩ | ⟨-, hq⟩
    · exact h.gone j p hk hdead hknown
    · exact h.gone j q hq hqdead hknown
  · intro t j ht
    obtain ⟨q, hq, hboth⟩ := h.killed t j ht
    have hne : j ≠ k := by
      rintro rfl
      exact hnone t ht
    exact ⟨q, (Function.update_of_ne hne ..).trans hq, hboth⟩
  · intro entry hentry
    obtain ⟨j, q, hremoves, hq, hqfd⟩ := h.removing entry hentry
    obtain ⟨q', hq', hfd⟩ := hkeep entry.2 j ⟨q, hq, hqfd⟩
    exact ⟨j, q', hremoves, hq', hfd⟩
  · intro j q hq hfreed
    rcases update_some hq with ⟨-, rfl⟩ | ⟨-, hq⟩
    · exact hdead
    · exact h.deadFirst j q hq hfreed

-- Outside of callbacks the poll thread only begins to call what is in the table.
theorem move_calls {move : Move} (hstep : PollMgr.step mgr move.event = some next) :
    next.aio.pipefd = mgr.aio.pipefd ∧ ∀ fd k, Calls fd k next.loop → mgr.callbacks fd = some k := by
  cases move with
  | top =>
      simp only [Move.event, PollMgr.step, PollMgr.top] at hstep
      split at hstep
      · cases hstep
        split <;> exact ⟨rfl, fun _ _ => False.elim⟩
      · cases hstep
  | snapshot =>
      simp only [Move.event, PollMgr.step, PollMgr.snapshot] at hstep
      split at hstep
      · cases hstep
        exact ⟨rfl, fun _ _ => False.elim⟩
      · cases hstep
  | select canRead canWrite =>
      obtain ⟨t, bytes, readable, writable, -, rfl, -⟩ := PollMgr.select_some hstep
      exact ⟨rfl, fun _ _ => False.elim⟩
  | interrupted =>
      simp only [Move.event, PollMgr.step, PollMgr.interrupted] at hstep
      split at hstep
      · cases hstep
        exact ⟨rfl, fun _ _ => False.elim⟩
      · cases hstep
  | scan =>
      have hvisit : ∀ write now readable writable fd k,
          Calls fd k (mgr.visit write now readable writable).loop → mgr.callbacks fd = some k := by
        intro write now readable writable fd k hcalls
        unfold PollMgr.Mgr.visit at hcalls
        cases hch : mgr.callbacks now with
        | none =>
            simp only [hch, Option.elim_none] at hcalls
            exact absurd hcalls id
        | some ch =>
            simp only [hch, Option.elim_some] at hcalls
            obtain ⟨rfl, rfl⟩ := hcalls
            exact hch
      simp only [Move.event, PollMgr.step, PollMgr.scan] at hstep
      split at hstep
      · cases hstep
        exact ⟨rfl, hvisit _ _ _ _⟩
      · cases hstep
        exact ⟨rfl, hvisit _ _ _ _⟩
      · cases hstep
        exact ⟨rfl, fun _ _ => False.elim⟩
      · cases hstep

theorem move_round {move : Move} (hstep : PollMgr.step mgr move.event = some next) : PollMgr.Round mgr next := by
  refine PollMgr.poll_round ?_ hstep
  cases move <;> rfl

theorem Wired.move {move : Move} (h : Wired mgr opened ports kills removes)
    (hstep : PollMgr.step mgr move.event = some next) : Wired next opened ports kills removes := by
  have hround := move_round hstep
  obtain ⟨hpipe, hcalls⟩ := move_calls hstep
  refine ⟨h.inv.round hround, ?_, ?_, h.inUse, h.distinct, ?_, ?_, ?_, ?_, h.killed, ?_, ?_, h.removers, h.deadFirst⟩
  · rw [hpipe]
    exact h.pipe
  · rw [hpipe]
    exact h.bounds
  · rw [hround.callbacks]
    exact h.registered
  · exact fun other j hj => h.registered other j (hcalls other j hj)
  · rw [hround.callbacks, hround.interest]
    exact h.live
  · rw [hround.callbacks]
    exact fun j q hq hdead hknown => h.gone j q hq hdead (.inl (hknown.elim id (hcalls q.fd j)))
  · exact fun entry hentry => h.removing entry (hround.threads.mem_iff.mp hentry)
  · exact (hround.threads.map Prod.fst).nodup_iff.mpr h.once

omit [DecidableEq τ]

-- A callback returns.
theorem Wired.back {write : Bool} {readable writable : List Nat} (h : Wired mgr opened ports kills removes)
    (hloop : mgr.loop = .calling write fd k readable writable) :
    Wired { mgr with loop := .scanning readable writable } opened ports kills removes := by
  have hreturns : PollMgr.callReturns mgr = some { mgr with loop := .scanning readable writable } := by
    simp only [PollMgr.callReturns, hloop]
  exact ⟨h.inv.round (PollMgr.callReturns_round hreturns), h.pipe, h.bounds, h.inUse, h.distinct, h.registered,
    fun _ _ hj => absurd hj id, h.live, fun j q hq hdead hknown => h.gone j q hq hdead (.inl (hknown.resolve_right id)),
    h.killed, h.removing, h.once, h.removers, h.deadFirst⟩

-- The socket need not be watched for writing any more.
theorem Wired.unwatch (h : Wired mgr opened ports kills removes) (hk : ports k = some p) (hlive : p.dead = false) :
    ∃ next, PollMgr.delCallback mgr p.fd .wronly = some next ∧ next.loop = mgr.loop ∧
      Wired next opened ports kills removes := by
  obtain ⟨hpipe, hmax⟩ := h.bounds k p hk
  obtain ⟨aio, hun, -⟩ := h.inv.sound.unwatchFd (PollMgr.below_setsize hmax) hpipe
    (show PollMgr.Flag.wronly ≠ .none by simp)
  obtain ⟨-, hpipefd, hinterest⟩ := PollMgr.unwatch_spec h.inv.sound hpipe hun
  have hreads : ∀ fd, (aio.interest fd).1 = (mgr.aio.interest fd).1 := by
    intro fd
    rw [hinterest, PollMgr.Interest.unwatch]
    by_cases heq : fd = p.fd
    · subst heq
      simp [PollMgr.Flag.reads]
    · rw [Function.update_of_ne heq]
  have hkept : (aio.interest p.fd == (false, false)) = false := by
    refine beq_false_of_ne fun hnone => ?_
    have hread := hreads p.fd
    rw [(h.live k p hk hlive).2, hnone] at hread
    cases hread
  have hdel : PollMgr.delCallback mgr p.fd .wronly = some { mgr with aio := aio } := by
    rw [PollMgr.delCallback_eq hmax hun, hkept]
    rfl
  have hinv := h.inv.delCallback hpipe hdel
  refine ⟨_, hdel, rfl, hinv, ?_, ?_, h.inUse, h.distinct, h.registered, h.calling, ?_, h.gone, h.killed, h.removing,
    h.once, h.removers, h.deadFirst⟩
  · exact (congrArg opened hpipefd).trans h.pipe
  · exact fun j q hq => ⟨fun heq => (h.bounds j q hq).1 (heq.trans hpipefd), (h.bounds j q hq).2⟩
  · exact fun j q hq hqlive => ⟨(h.live j q hq hqlive).1, (hreads q.fd).trans (h.live j q hq hqlive).2⟩

-- A callback finds that the connection is lost.
theorem Wired.die {write : Bool} {readable writable : List Nat} (h : Wired mgr opened ports kills removes)
    (hk : ports k = some p) (hlive : p.dead = false) (hloop : mgr.loop = .calling write p.fd k readable writable) :
    ∃ next, PollMgr.delCallback mgr p.fd .rdwr = some next ∧
      Wired { next with loop := .scanning readable writable } opened
        (Function.update ports k (some { p with dead := true })) kills removes := by
  obtain ⟨hpipe, hmax⟩ := h.bounds k p hk
  have hkept := h.not_freed hk (.inl (h.live k p hk hlive).1)
  obtain ⟨aio, hun, -⟩ := h.inv.sound.unwatchFd (PollMgr.below_setsize hmax) hpipe
    (show PollMgr.Flag.rdwr ≠ .none by simp)
  obtain ⟨-, hpipefd, hinterest⟩ := PollMgr.unwatch_spec h.inv.sound hpipe hun
  have hdropped : (aio.interest p.fd == (false, false)) = true := by
    rw [hinterest, PollMgr.unwatch_rdwr]
    rfl
  have hdel : PollMgr.delCallback mgr p.fd .rdwr =
      some { mgr with aio := aio, callbacks := Function.update mgr.callbacks p.fd none } := by
    rw [PollMgr.delCallback_eq hmax hun, hdropped]
    rfl
  have hinv := h.inv.delCallback hpipe hdel
  have hreturns : PollMgr.callReturns { mgr with aio := aio, callbacks := Function.update mgr.callbacks p.fd none } =
      some { mgr with aio := aio, callbacks := Function.update mgr.callbacks p.fd none,
                      loop := .scanning readable writable } := by
    simp only [PollMgr.callReturns, hloop]
  have hkeep := relabel_known (q := { p with dead := true }) hk rfl
  have hold : ∀ other j, Function.update mgr.callbacks p.fd none other = some j →
      other ≠ p.fd ∧ mgr.callbacks other = some j := by
    intro other j hj
    by_cases heq : other = p.fd
    · subst heq
      simp at hj
    · exact ⟨heq, (Function.update_of_ne heq ..).symm.trans hj⟩
  refine ⟨_, hdel, hinv.round (PollMgr.callReturns_round hreturns), ?_, ?_, ?_, ?_, ?_, fun _ _ hj => absurd hj id, ?_,
    ?_, ?_, ?_, h.once, h.removers, ?_⟩
  · exact (congrArg opened hpipefd).trans h.pipe
  · intro j q hq
    obtain ⟨q', hq', hfd, -⟩ := relabel_back hq hk rfl rfl
    obtain ⟨hne, hmax⟩ := h.bounds j q' hq'
    exact ⟨fun heq => hne (hfd.trans (heq.trans hpipefd)), hfd ▸ hmax⟩
  · intro j q hq hfree
    obtain ⟨q', hq', hfd, hfreed⟩ := relabel_back hq hk rfl rfl
    exact hfd ▸ h.inUse j q' hq' (hfreed.trans hfree)
  · intro i j q r hq hr hqfree hrfree heq
    obtain ⟨q', hq', hqfd, hqfreed⟩ := relabel_back hq hk rfl rfl
    obtain ⟨r', hr', hrfd, hrfreed⟩ := relabel_back hr hk rfl rfl
    exact h.distinct i j q' r' hq' hr' (hqfreed.trans hqfree) (hrfreed.trans hrfree) (by omega)
  · exact fun other j hj => hkeep other j (h.registered other j (hold other j hj).2)
  · intro j q hq hqlive
    rcases update_some hq with ⟨-, rfl⟩ | ⟨hne, hq⟩
    · cases hqlive
    · obtain ⟨hcallback, hreads⟩ := h.live j q hq hqlive
      have hfd := h.fd_ne hk hkept hq (h.not_freed hq (.inl hcallback)) hne
      refine ⟨(Function.update_of_ne hfd ..).trans hcallback, ?_⟩
      change (aio.interest q.fd).1 = true
      rw [hinterest, PollMgr.Interest.unwatch, Function.update_of_ne hfd]
      exact hreads
  · intro j q hq hdead hknown
    obtain ⟨hfd, hcallback⟩ := hold q.fd j (hknown.resolve_right id)
    rcases update_some hq with ⟨-, rfl⟩ | ⟨-, hq⟩
    · exact absurd rfl hfd
    · exact h.gone j q hq hdead (.inl hcallback)
  · intro t j ht
    obtain ⟨q, hq, hdead, hfree⟩ := h.killed t j ht
    have hne : j ≠ k := by
      rintro rfl
      rw [hk] at hq
      cases hq
      rw [hlive] at hdead
      cases hdead
    exact ⟨q, (Function.update_of_ne hne ..).trans hq, hdead, hfree⟩
  · intro entry hentry
    obtain ⟨j, q, hremoves, hq, hqfd⟩ := h.removing entry hentry
    obtain ⟨q', hq', hfd⟩ := hkeep entry.2 j ⟨q, hq, hqfd⟩
    exact ⟨j, q', hremoves, hq', hfd⟩
  · intro j q hq hfreed
    rcases update_some hq with ⟨-, rfl⟩ | ⟨-, hq⟩
    · rfl
    · exact h.deadFirst j q hq hfreed

end Wiring

end CseLabs.Connections
