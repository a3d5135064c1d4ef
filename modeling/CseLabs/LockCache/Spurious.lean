import CseLabs.LockCache.Theorems

namespace CseLabs.LockCache

-- What the threads of one client do at a lock. A wait may return without a signal.
inductive Move
  | acquire (tid : Tid)
  | waitReturns (node : Node)
  | release (node : Node)
  deriving DecidableEq

-- pthread_cond_wait returns, and the thread goes on as if it had been signalled.
def waitReturns (sys : Sys) (node : Node) : Option Sys :=
  wake (sys.setPc node (sys.pc node).signal) node

def move (cid : Cid) (sys : Sys) : Move → Option Sys
  | .acquire tid => some (acquire sys cid tid)
  | .waitReturns node => if (sys.session node).cid = cid then waitReturns sys node else none
  | .release node => if (sys.session node).cid = cid then release sys node else none

def Moves (cid : Cid) (sys : Sys) (event : Move) (next : Sys) : Prop := move cid sys event = some next

def Signalled (sys : Sys) : Move → Prop
  | .waitReturns node => (sys.pc node).signalled = true
  | .acquire _ | .release _ => True

instance (sys : Sys) : (event : Move) → Decidable (Signalled sys event)
  | .waitReturns node => inferInstanceAs (Decidable ((sys.pc node).signalled = true))
  | .acquire _ | .release _ => inferInstanceAs (Decidable True)

-- The client owns the lock and has not been asked for it. The lock is free, or the first thread of
-- the list has it or has been told to take it.
structure Owned (cid : Cid) (sys : Sys) : Prop where
  threads : Threads sys
  kept : (sys.info cid).msg ≠ .revoke
  front : (sys.info cid).stat = .free ∧ sys.headPc cid = none ∨
    (sys.info cid).stat = .locked ∧ (sys.headPc cid = some .holding ∨ sys.headPc cid = some (.waitTurn true))

-- At most one thread is between acquire and release, no acquire fails, and a thread that waits does
-- so for one that has the lock or has been told to take it.
structure Exclusive (cid : Cid) (sys : Sys) : Prop where
  one : ∀ node other, (sys.session node).cid = cid → (sys.session other).cid = cid →
    (sys.pc node).returned = true → (sys.pc other).returned = true → node = other
  ok : ∀ node, (sys.session node).cid = cid → sys.pc node ≠ .ioerr
  served : ∀ node, (sys.session node).cid = cid → (sys.pc node).blocked = true →
    ∃ other, (sys.session other).cid = cid ∧ (sys.pc other = .holding ∨ (sys.pc other).signalled = true)

section Owning

variable {cid : Cid} {sys next : Sys} {node : Node}

theorem client_of_stat (h : (sys.info cid).stat ≠ .none) : sys.client cid = some (sys.info cid) := by
  cases hclient : sys.client cid with
  | none =>
      rw [Sys.info, hclient] at h
      exact absurd rfl h
  | some info => rw [info_eq hclient]

theorem Config.of_kept {role : Role} {handler : Option ReleaseRpc} {stat : Client.State} {msg : Client.Message}
    {head : Option Pc} (h : Config role handler stat msg head) (hstat : stat = .free ∨ stat = .locked)
    (hmsg : msg ≠ .revoke) :
    stat = .free ∧ head = none ∨ stat = .locked ∧ (head = some .holding ∨ head = some (.waitTurn true)) := by
  cases h <;> simp_all

-- The states in which a client of the whole system has the lock are such states.
theorem owned_of_reachable (hr : Reachable Step initial sys)
    (hstat : (sys.info cid).stat = .free ∨ (sys.info cid).stat = .locked)
    (hmsg : (sys.info cid).msg ≠ .revoke) : Owned cid sys := by
  obtain ⟨tokens, h⟩ := reachable_inv hr
  have hne : (sys.info cid).stat ≠ .none := by rcases hstat with hs | hs <;> simp [hs]
  have hnamed : cid ≠ "" := h.threads.named cid (by simp [client_of_stat hne])
  exact ⟨h.threads, hmsg, (h.config cid hnamed).of_kept hstat hmsg⟩

theorem Owned.stat_ne (h : Owned cid sys) : (sys.info cid).stat ≠ .none := by
  rcases h.front with ⟨hstat, -⟩ | ⟨hstat, -⟩ <;> simp [hstat]

theorem Owned.client (h : Owned cid sys) : sys.client cid = some (sys.info cid) := client_of_stat h.stat_ne

theorem Owned.named (h : Owned cid sys) : cid ≠ "" := h.threads.named cid (by simp [h.client])

-- The threads that are not finished: the first one, and behind it only sleeping ones.
theorem Owned.cases (h : Owned cid sys) (hcid : (sys.session node).cid = cid) (hdone : sys.pc node ≠ .done) :
    (sys.info cid).stat = .locked ∧ ∃ front rest, (sys.info cid).threads = front :: rest ∧
      (sys.session front).cid = cid ∧ (sys.pc front = .holding ∨ sys.pc front = .waitTurn true) ∧
      (node = front ∨ node ≠ front ∧ sys.pc node = .waitTurn false) := by
  have hmem := (h.threads.queued cid node).mpr ⟨hcid, hdone⟩
  have hbehind := h.threads.behind cid node
  have hnodup := h.threads.nodup cid
  cases hlist : (sys.info cid).threads with
  | nil => simp [hlist] at hmem
  | cons front rest =>
      rw [hlist] at hmem hbehind hnodup
      have hhead : sys.headPc cid = some (sys.pc front) := headPc_of_threads hlist
      have hclient : (sys.session front).cid = cid := h.threads.client_of_head (by rw [hlist]; rfl)
      rcases h.front with ⟨-, hnone⟩ | ⟨hstat, hfront⟩
      · rw [hnone] at hhead
        cases hhead
      · simp only [hhead, Option.some.injEq] at hfront
        refine ⟨hstat, front, rest, rfl, hclient, hfront, ?_⟩
        rcases List.mem_cons.mp hmem with rfl | hrest
        · exact .inl rfl
        · refine .inr ⟨?_, hbehind hrest⟩
          rintro rfl
          exact (List.nodup_cons.mp hnodup).1 hrest

theorem Owned.exclusive (h : Owned cid sys) : Exclusive cid sys := by
  -- whoever has come back from acquire is the first thread
  have hfirst : ∀ node, (sys.session node).cid = cid → (sys.pc node).returned = true →
      sys.pc node = .holding ∧ ∃ rest, (sys.info cid).threads = node :: rest := by
    intro node hcid hreturned
    have hdone : sys.pc node ≠ .done := by
      intro hpc
      simp [hpc, Pc.returned] at hreturned
    obtain ⟨-, front, rest, hlist, -, hfront, rfl | ⟨-, hpc⟩⟩ := h.cases hcid hdone
    · rcases hfront with hpc | hpc
      · exact ⟨hpc, rest, hlist⟩
      · simp [hpc, Pc.returned] at hreturned
    · simp [hpc, Pc.returned] at hreturned
  refine ⟨?_, ?_, ?_⟩
  · intro node other hcid hcid' hnode hother
    obtain ⟨-, rest, hlist⟩ := hfirst node hcid hnode
    obtain ⟨-, rest', hlist'⟩ := hfirst other hcid' hother
    rw [hlist] at hlist'
    exact (List.cons.inj hlist').1
  · intro node hcid hpc
    have hholding := (hfirst node hcid (by rw [hpc]; rfl)).1
    rw [hpc] at hholding
    cases hholding
  · intro node hcid hblocked
    have hdone : sys.pc node ≠ .done := by
      intro hpc
      simp [hpc, Pc.blocked] at hblocked
    obtain ⟨-, front, -, -, hclient, hfront, -⟩ := h.cases hcid hdone
    exact ⟨front, hclient, hfront.imp_right fun hpc => by rw [hpc]; rfl⟩

theorem Owned.acquire (h : Owned cid sys) (tid : Tid) : Owned cid (acquire sys cid tid) := by
  rw [acquire_eq_push]
  rcases h.front with ⟨hstat, hhead⟩ | ⟨hstat, hhead⟩
  · have hlist : (sys.info cid).threads = [] := by simpa [Sys.headPc] using hhead
    rw [if_pos hlist, hstat]
    refine ⟨h.threads.push h.named tid _ (by simp) (absurd hlist), by simpa using h.kept, .inr ⟨by simp, .inl ?_⟩⟩
    rw [h.threads.headPc_push, if_pos ⟨rfl, hlist⟩]
  · have hlist : (sys.info cid).threads ≠ [] := by
      intro hnil
      simp [Sys.headPc, hnil] at hhead
    rw [if_neg hlist]
    refine ⟨h.threads.push h.named tid _ (by simp) (fun _ => rfl), by simpa using h.kept,
      .inr ⟨by simpa using hstat, ?_⟩⟩
    rwa [h.threads.headPc_push, if_neg (fun hnil => hlist hnil.2)]

theorem setPc_setPc (sys : Sys) (node : Node) (first second : Pc) :
    (sys.setPc node first).setPc node second = sys.setPc node second := by
  simp [Sys.setPc]

-- With stat LOCKED the switch after the wait takes the lock, whether it is this thread's turn or not.
theorem Owned.waitReturns (h : Owned cid sys) (hcid : (sys.session node).cid = cid)
    (hstep : waitReturns sys node = some next) :
    (∃ signalled, sys.pc node = .waitTurn signalled) ∧ next = sys.setPc node .holding := by
  have hdone : sys.pc node ≠ .done := by
    intro hpc
    simp [LockCache.waitReturns, LockCache.wake, hpc, Pc.signal] at hstep
  obtain ⟨hstat, front, rest, -, -, hfront, hnode⟩ := h.cases hcid hdone
  have hclient := h.client
  have hpc : sys.pc node = .holding ∨ ∃ signalled, sys.pc node = .waitTurn signalled := by
    rcases hnode with rfl | ⟨-, hpc⟩
    · exact hfront.imp_right fun hpc => ⟨true, hpc⟩
    · exact .inr ⟨false, hpc⟩
  rcases hpc with hpc | ⟨signalled, hpc⟩
  · simp [LockCache.waitReturns, LockCache.wake, hpc, Pc.signal] at hstep
  · refine ⟨⟨signalled, hpc⟩, ?_⟩
    simp [LockCache.waitReturns, LockCache.wake, hpc, Pc.signal, hcid, hclient, hstat, setPc_setPc] at hstep
    exact hstep.symm

theorem Owned.hold (h : Owned cid sys) (hcid : (sys.session node).cid = cid) (hpc : sys.pc node = .waitTurn true) :
    Owned cid (sys.setPc node .holding) := by
  have hdone : sys.pc node ≠ .done := by simp [hpc]
  have hwait : sys.pc node ≠ .waitTurn false := by simp [hpc]
  refine ⟨h.threads.setPc hdone hwait (by simp), h.kept, .inr ⟨(h.cases hcid hdone).1, .inl ?_⟩⟩
  rw [headPc_setPc h.threads hdone hwait, if_pos hcid.symm]

theorem Owned.release (h : Owned cid sys) (hcid : (sys.session node).cid = cid)
    (hstep : release sys node = some next) : Owned cid next := by
  subst hcid
  simp only [LockCache.release, Option.bind_eq_bind, h.client, Option.bind_some] at hstep
  split at hstep
  · next hpc =>
      have hpc : sys.pc node = .holding := hpc
      have hdone : sys.pc node ≠ .done := by simp [hpc]
      obtain ⟨rest, hlist⟩ := h.threads.front hdone (by simp [hpc])
      rw [if_neg h.kept] at hstep
      simp only [hlist, Option.some.injEq] at hstep
      subst hstep
      rw [setInfo_setPc]
      generalize hinfo : ({ sys.info (sys.session node).cid with
        stat := if rest = [] then .free else .locked, threads := rest } : Client.LockInfo) = info
      have hrest : info.threads = rest := by rw [← hinfo]
      have hpop := h.threads.pop h.client hlist info hrest
      have hhead := h.threads.headPc_pop h.client hlist info hrest (sys.session node).cid
      have hqueue : (((sys.setPc node .done).setInfo (sys.session node).cid info).info
          (sys.session node).cid).threads = rest := by simpa using hrest
      refine ⟨hpop.signalFront hqueue, by simpa [← hinfo] using h.kept, ?_⟩
      rw [hpop.headPc_signalFront hqueue, if_pos rfl, hhead]
      cases rest with
      | nil => simp [← hinfo]
      | cons front rest => simp [← hinfo, Pc.signal]
  · cases hstep

-- What a run without spurious returns keeps.
theorem Owned.move (h : Owned cid sys) {event : Move} (hsignalled : Signalled sys event)
    (hstep : Moves cid sys event next) : Owned cid next := by
  cases event with
  | acquire tid =>
      cases hstep
      exact h.acquire tid
  | waitReturns node =>
      obtain ⟨hcid, hstep⟩ := Option.ite_none_right_eq_some.mp hstep
      obtain ⟨⟨signalled, hpc⟩, rfl⟩ := h.waitReturns hcid hstep
      have hsignalled : (sys.pc node).signalled = true := hsignalled
      rw [hpc] at hsignalled
      obtain rfl : signalled = true := hsignalled
      exact h.hold hcid hpc
  | release node =>
      obtain ⟨hcid, hstep⟩ := Option.ite_none_right_eq_some.mp hstep
      exact h.release hcid hstep

theorem Owned.reachable {start : Sys} (h : Owned cid start)
    (hr : Reachable (Guarded Signalled (Moves cid)) (· = start) sys) : Owned cid sys := by
  refine hr.invariant (Owned cid) ?_ ?_
  · rintro sys rfl
    exact h
  · rintro sys event next howned ⟨hsignalled, hstep⟩
    exact howned.move hsignalled hstep

-- After a spurious return two threads have the lock, or will have it when the first one wakes up.
theorem Owned.spurious (h : Owned cid sys) (hcid : (sys.session node).cid = cid)
    (hpc : sys.pc node = .waitTurn false) :
    ∃ later, Reachable (Guarded Signalled (Moves cid)) (· = sys.setPc node .holding) later ∧
      ¬ Exclusive cid later := by
  obtain ⟨hstat, front, rest, -, hclient, hfront, rfl | ⟨hne, -⟩⟩ := h.cases hcid (by simp [hpc])
  · simp [hpc] at hfront
  have htwo : ∀ later : Sys, later.pc front = .holding → later.pc node = .holding →
      (later.session front).cid = cid → (later.session node).cid = cid → ¬ Exclusive cid later := by
    intro later hfirst hsecond hcid hcid' hexclusive
    exact hne (hexclusive.one node front hcid' hcid (by rw [hsecond]; rfl) (by rw [hfirst]; rfl))
  rcases hfront with hfront | hfront
  · exact ⟨_, .start rfl, htwo _ (by simp [hne.symm, hfront]) (by simp) (by simpa using hclient)
      (by simpa using hcid)⟩
  · have hwake : Guarded Signalled (Moves cid) (sys.setPc node .holding) (.waitReturns front)
        ((sys.setPc node .holding).setPc front .holding) := by
      refine ⟨?_, ?_⟩
      · simp [Signalled, hne.symm, hfront, Pc.signalled]
      · simp [Moves, LockCache.move, LockCache.waitReturns, LockCache.wake, hne.symm, hfront, hclient, h.client,
          hstat, Pc.signal, setPc_setPc]
    exact ⟨_, Reachable.extend (.start rfl) hwake, htwo _ (by simp) (by simp [hne]) (by simpa using hclient)
      (by simpa using hcid)⟩

end Owning

-- Without spurious returns the threads of a client share the lock as they should. One spurious
-- return is enough to give the lock to two of them.
theorem exclusive_iff_signalled (cid : Cid) (start : Sys) (howned : Owned cid start) (moves : List Move) (sys : Sys)
    (run : Run (Guarded Signalled (Moves cid)) (· = start) moves sys) :
    Exclusive cid sys ∧
    ∀ event next, Moves cid sys event next →
      ((∀ later, Reachable (Guarded Signalled (Moves cid)) (· = next) later → Exclusive cid later) ↔
        Signalled sys event) := by
  have h := howned.reachable ⟨moves, run⟩
  refine ⟨h.exclusive, fun event next hstep => ⟨fun hlater => ?_, fun hsignalled later hr => ?_⟩⟩
  · cases event with
    | acquire tid => trivial
    | release node => trivial
    | waitReturns node =>
        obtain ⟨hcid, hreturns⟩ := Option.ite_none_right_eq_some.mp hstep
        obtain ⟨⟨signalled, hpc⟩, rfl⟩ := h.waitReturns hcid hreturns
        cases signalled with
        | true =>
            show (sys.pc node).signalled = true
            rw [hpc]
            rfl
        | false =>
            obtain ⟨later, hr, hbroken⟩ := h.spurious hcid hpc
            exact absurd (hlater later hr) hbroken
  · exact ((h.move hsignalled hstep).reachable hr).exclusive

theorem heldSys_owned : Owned "a" heldSys := by
  refine owned_of_reachable (heldSys_reachable.component 1) (.inr rfl) ?_
  decide

-- A second thread queues up and is handed the lock.
theorem exclusive_iff_signalled_queued : ∃ sys,
    Run (Guarded Signalled (Moves "a")) (· = heldSys) [.acquire 1, .release 0, .waitReturns 1] sys ∧
      sys.pc 0 = .done ∧ sys.pc 1 = .holding ∧ Exclusive "a" sys := by
  have hrun : (execute (fun sys event => if Signalled sys event then move "a" sys event else none) heldSys
      [.acquire 1, .release 0, .waitReturns 1]).map (fun sys => (sys.pc 0, sys.pc 1)) = some (.done, .holding) := by
    decide +kernel
  obtain ⟨sys, hsys, hfields⟩ := Option.map_eq_some_iff.mp hrun
  obtain ⟨hfirst, hsecond⟩ := Prod.mk.inj hfields
  have hguarded : Run (Guarded Signalled (Moves "a")) (· = heldSys)
      ([] ++ [.acquire 1, .release 0, .waitReturns 1]) sys := Run.executed (.start rfl) hsys
  exact ⟨sys, hguarded, hfirst, hsecond, (exclusive_iff_signalled "a" heldSys heldSys_owned _ sys hguarded).1⟩

-- The second thread's wait returns on its own while the first thread has the lock.
theorem spurious_return_takes_lock : Owned "a" heldSys ∧ ∃ sys,
    Run (Moves "a") (· = heldSys) [.acquire 1, .waitReturns 1] sys ∧
      sys.pc 0 = .holding ∧ sys.pc 1 = .holding ∧ ¬ Exclusive "a" sys := by
  have hrun : (execute (move "a") heldSys [.acquire 1, .waitReturns 1]).map
      (fun sys => ((sys.session 0).cid, (sys.session 1).cid, sys.pc 0, sys.pc 1)) =
        some ("a", "a", .holding, .holding) := by
    decide +kernel
  obtain ⟨sys, hsys, hfields⟩ := Option.map_eq_some_iff.mp hrun
  simp only [Prod.mk.injEq] at hfields
  obtain ⟨hcid, hcid', hfirst, hsecond⟩ := hfields
  have hplain : Run (Moves "a") (· = heldSys) ([] ++ [.acquire 1, .waitReturns 1]) sys :=
    Run.computed (.start rfl) hsys
  refine ⟨heldSys_owned, sys, hplain, hfirst, hsecond, fun hexclusive => ?_⟩
  have heq := hexclusive.one 0 1 hcid hcid' (by rw [hfirst]; rfl) (by rw [hsecond]; rfl)
  cases heq

end CseLabs.LockCache
