import CseLabs.PollMgr.Select

namespace CseLabs.PollMgr

variable {τ κ : Type*}

-- The poll thread is in a callback of the descriptor, or may still call one before its next round.
def Loop.Involves (fd : Nat) : Loop κ → Prop
  | .top | .polling => False
  | .selecting t => t.rfds fd = true ∨ t.wfds fd = true
  | .scanning readable writable => fd ∈ readable ∨ fd ∈ writable
  | .calling _ now _ readable writable => fd = now ∨ fd ∈ readable ∨ fd ∈ writable

-- The descriptors that are being removed or have been removed are not watched, and the poll thread is
-- done with those whose removal it has acknowledged.
structure Inv (m : Mgr τ κ) : Prop where
  sound : m.aio.Sound
  unwatched : ∀ entry ∈ m.changedoneC.threads, m.aio.interest entry.2 = (false, false)
  acknowledged : ∀ entry ∈ m.changedoneC.woken, ¬ m.loop.Involves entry.2
  gone : ∀ fd, m.removed fd = true → m.aio.interest fd = (false, false) ∧ m.callbacks fd = none

theorem initial_inv {pipefd : Nat} {m : Mgr τ κ} (h : initial pipefd m) : Inv m := by
  subst h
  refine ⟨create_sound pipefd, ?_, ?_, fun fd hfd => nomatch hfd⟩
  · intro entry hentry
    exact absurd hentry List.not_mem_nil
  · intro entry hentry
    exact absurd hentry List.not_mem_nil

section Steps

variable {m next : Mgr τ κ} {fd other : Nat} {flag : Flag} {dropped : Bool} {aio : SelectAio}

-- unwatch_fd for the manager: no other descriptor changes, and none becomes watched.
theorem unwatch_spec (h : m.aio.Sound) (hfd : fd ≠ m.aio.pipefd)
    (hun : m.aio.unwatchFd fd flag = some (dropped, aio)) :
    aio.Sound ∧ aio.pipefd = m.aio.pipefd ∧ aio.interest = m.aio.interest.unwatch fd flag := by
  obtain ⟨hsize, hflag⟩ := unwatchFd_some hun
  obtain ⟨next, hnext, hsound, hpipe, hinterest⟩ := h.unwatchFd hsize hfd hflag
  rw [hun] at hnext
  cases hnext
  exact ⟨hsound, hpipe, hinterest⟩

theorem unwatch_free {a : Interest} (h : a other = (false, false)) : a.unwatch fd flag other = (false, false) := by
  rw [Interest.unwatch]
  by_cases heq : other = fd
  · subst heq
    simp [h]
  · rw [Function.update_of_ne heq, h]

theorem unwatch_rdwr (a : Interest) (fd : Nat) : a.unwatch fd .rdwr fd = (false, false) := by
  simp [Interest.unwatch, Flag.reads, Flag.writes]

theorem below_setsize (h : fd < MAX_POLL_FDS) : fd < FD_SETSIZE := h.trans (by decide)

theorem delCallback_some (h : delCallback m fd flag = some next) :
    ∃ dropped aio, m.aio.unwatchFd fd flag = some (dropped, aio) ∧
      next = { m with aio := aio
                      callbacks := if dropped = true then Function.update m.callbacks fd none else m.callbacks } := by
  unfold delCallback at h
  split at h
  · obtain ⟨⟨dropped, aio⟩, hun, rfl⟩ := Option.map_eq_some_iff.mp h
    exact ⟨dropped, aio, hun, rfl⟩
  · cases h

theorem delCallback_eq (hfd : fd < MAX_POLL_FDS) (hun : m.aio.unwatchFd fd flag = some (dropped, aio)) :
    delCallback m fd flag =
      some { m with aio := aio
                    callbacks := if dropped = true then Function.update m.callbacks fd none else m.callbacks } := by
  rw [delCallback, if_pos hfd, hun]
  rfl

theorem blockRemoveFd_eq {thread : τ} (hfd : fd < MAX_POLL_FDS)
    (hun : m.aio.unwatchFd fd .rdwr = some (dropped, aio)) :
    blockRemoveFd m thread fd =
      some { m with aio := aio, pendingChange := true, changedoneC := m.changedoneC.wait (thread, fd) } := by
  rw [blockRemoveFd, if_pos hfd, hun]
  rfl

theorem blockRemoveFd_some {thread : τ} (h : blockRemoveFd m thread fd = some next) :
    ∃ dropped aio, m.aio.unwatchFd fd .rdwr = some (dropped, aio) ∧
      next = { m with aio := aio, pendingChange := true, changedoneC := m.changedoneC.wait (thread, fd) } := by
  unfold blockRemoveFd at h
  split at h
  · obtain ⟨⟨dropped, aio⟩, hun, rfl⟩ := Option.map_eq_some_iff.mp h
    exact ⟨dropped, aio, hun, rfl⟩
  · cases h

-- add_callback where its two VERIFYs hold
theorem addCallback_eq [DecidableEq κ] {ch : κ}
    (h : fd < MAX_POLL_FDS ∧ (m.callbacks fd = none ∨ m.callbacks fd = some ch)) :
    addCallback m fd flag ch = some { m with aio := m.aio.watch fd flag
                                             callbacks := Function.update m.callbacks fd (some ch)
                                             removed := Function.update m.removed fd false } := by
  rw [addCallback, if_pos h, SelectAio.watchFd, if_pos (below_setsize h.1)]
  rfl

theorem addCallback_some [DecidableEq κ] {ch : κ} (h : addCallback m fd flag ch = some next) :
    fd < MAX_POLL_FDS ∧ next = { m with aio := m.aio.watch fd flag
                                        callbacks := Function.update m.callbacks fd (some ch)
                                        removed := Function.update m.removed fd false } := by
  by_cases hguard : fd < MAX_POLL_FDS ∧ (m.callbacks fd = none ∨ m.callbacks fd = some ch)
  · rw [addCallback_eq hguard] at h
    cases h
    exact ⟨hguard.1, rfl⟩
  · rw [addCallback, if_neg hguard] at h
    cases h

theorem Inv.delCallback (h : Inv m) (hfd : fd ≠ m.aio.pipefd) (hstep : delCallback m fd flag = some next) :
    Inv next := by
  obtain ⟨dropped, aio, hun, rfl⟩ := delCallback_some hstep
  obtain ⟨hsound, -, hinterest⟩ := unwatch_spec h.sound hfd hun
  refine ⟨hsound, fun entry hentry => ?_, h.acknowledged, fun other hother => ⟨?_, ?_⟩⟩
  · rw [hinterest]
    exact unwatch_free (h.unwatched entry hentry)
  · rw [hinterest]
    exact unwatch_free (h.gone other hother).1
  · have hnone := (h.gone other hother).2
    simp only
    split
    · by_cases heq : other = fd
      · rw [heq, Function.update_self]
      · rw [Function.update_of_ne heq, hnone]
    · exact hnone

theorem Inv.blockRemoveFd {thread : τ} (h : Inv m) (hfd : fd ≠ m.aio.pipefd)
    (hstep : blockRemoveFd m thread fd = some next) : Inv next := by
  obtain ⟨dropped, aio, hun, rfl⟩ := blockRemoveFd_some hstep
  obtain ⟨hsound, -, hinterest⟩ := unwatch_spec h.sound hfd hun
  refine ⟨hsound, fun entry hentry => ?_, h.acknowledged, fun other hother => ⟨?_, (h.gone other hother).2⟩⟩
  · rw [hinterest]
    rcases List.mem_cons.mp ((CondVar.wait_threads _ _).mem_iff.mp hentry) with rfl | hold
    · exact unwatch_rdwr _ _
    · exact unwatch_free (h.unwatched entry hold)
  · rw [hinterest]
    exact unwatch_free (h.gone other hother).1

theorem Inv.addCallback [DecidableEq κ] {ch : κ} (h : Inv m)
    (hsettled : ∀ entry ∈ m.changedoneC.threads, entry.2 ≠ fd) (hstep : addCallback m fd flag ch = some next) :
    Inv next := by
  obtain ⟨-, rfl⟩ := addCallback_some hstep
  have hother : ∀ other, other ≠ fd → (m.aio.watch fd flag).interest other = m.aio.interest other := by
    intro other hne
    simp only [SelectAio.interest, SelectAio.watch]
    split <;> split <;> simp [Function.update_of_ne hne]
  refine ⟨h.sound.watch fd flag, fun entry hentry => ?_, h.acknowledged, fun other hremoved => ?_⟩
  · exact (hother entry.2 (hsettled entry hentry)).trans (h.unwatched entry hentry)
  · have hne : other ≠ fd := by
      rintro rfl
      simp at hremoved
    simp only [Function.update_of_ne hne] at hremoved ⊢
    exact ⟨(hother other hne).trans (h.gone other hremoved).1, (h.gone other hremoved).2⟩

-- The thread that leaves block_remove_fd had made the descriptor unwatched.
theorem Inv.forget {c : CondVar (τ × Nat)} {thread : τ} (h : Inv m)
    (hthreads : m.changedoneC.threads.Perm ((thread, fd) :: c.threads)) (hwoken : c.woken ⊆ m.changedoneC.woken) :
    Inv (m.forget fd c) := by
  refine ⟨h.sound, fun entry hentry => ?_, fun entry hentry => h.acknowledged entry (hwoken hentry),
    fun other hremoved => ?_⟩
  · exact h.unwatched entry (hthreads.mem_iff.mpr (List.mem_cons_of_mem _ hentry))
  · by_cases heq : other = fd
    · subst heq
      exact ⟨h.unwatched (thread, other) (hthreads.mem_iff.mpr List.mem_cons_self), Function.update_self ..⟩
    · simp only [Mgr.forget, Function.update_of_ne heq] at hremoved ⊢
      exact h.gone other hremoved

theorem removeDone_some [DecidableEq τ] {thread : τ} (h : removeDone m thread fd = some next) :
    ∃ c, m.changedoneC.resume (thread, fd) = some c ∧ next = m.forget fd c := by
  obtain ⟨c, hresume, rfl⟩ := Option.map_eq_some_iff.mp h
  exact ⟨c, hresume, rfl⟩

theorem removeEarly_some [DecidableEq τ] {thread : τ} (h : removeEarly m thread fd = some next) :
    ∃ c, m.changedoneC.leave (thread, fd) = some c ∧ next = m.forget fd c := by
  obtain ⟨c, hleave, rfl⟩ := Option.map_eq_some_iff.mp h
  exact ⟨c, hleave, rfl⟩

theorem Inv.removeDone [DecidableEq τ] {thread : τ} (h : Inv m) (hstep : removeDone m thread fd = some next) :
    Inv next := by
  obtain ⟨c, hresume, rfl⟩ := removeDone_some hstep
  exact h.forget (CondVar.resume_threads hresume) (CondVar.resume_woken_subset hresume)

theorem Inv.removeEarly [DecidableEq τ] {thread : τ} (h : Inv m) (hstep : removeEarly m thread fd = some next) :
    Inv next := by
  obtain ⟨c, hleave, rfl⟩ := removeEarly_some hstep
  refine h.forget (CondVar.leave_threads hleave) ?_
  rw [(CondVar.leave_asleep_subset hleave).2]
  exact List.Subset.refl _

-- A step of the poll thread: it gets to do with descriptors that are watched only.
structure Round (m next : Mgr τ κ) : Prop where
  callbacks : next.callbacks = m.callbacks
  removed : next.removed = m.removed
  sound : m.aio.Sound → next.aio.Sound
  interest : next.aio.interest = m.aio.interest
  threads : next.changedoneC.threads.Perm m.changedoneC.threads
  woken : (∀ fd, ¬ next.loop.Involves fd) ∨ next.changedoneC.woken = m.changedoneC.woken
  loop : ∀ fd, next.loop.Involves fd → m.loop.Involves fd ∨ m.aio.interest fd ≠ (false, false)

theorem Round.of_loop {loop : Loop κ}
    (h : ∀ fd, loop.Involves fd → m.loop.Involves fd ∨ m.aio.interest fd ≠ (false, false)) :
    Round m { m with loop := loop } :=
  ⟨rfl, rfl, id, rfl, .refl _, .inr rfl, h⟩

theorem top_round (hstep : top m = some next) : Round m next := by
  unfold top at hstep
  split at hstep
  · cases hstep
    split
    · exact ⟨rfl, rfl, id, rfl, CondVar.broadcast_threads _, .inl fun fd => id, fun fd => False.elim⟩
    · exact ⟨rfl, rfl, id, rfl, .refl _, .inl fun fd => id, fun fd => False.elim⟩
  · cases hstep

theorem snapshot_round (hstep : snapshot m = some next) : Round m next := by
  unfold snapshot at hstep
  split at hstep
  · cases hstep
    refine Round.of_loop fun fd hfd => .inr fun hfree => ?_
    obtain ⟨hr, hw⟩ := Prod.mk.inj hfree
    rcases hfd with hset | hset
    · exact absurd (hset.symm.trans hr) (by decide)
    · exact absurd (hset.symm.trans hw) (by decide)
  · cases hstep

theorem interrupted_round (hstep : interrupted m = some next) : Round m next := by
  unfold interrupted at hstep
  split at hstep
  · cases hstep
    refine Round.of_loop fun fd hfd => ?_
    rcases hfd with hmem | hmem <;> exact absurd hmem List.not_mem_nil
  · cases hstep

theorem collect_aio (s : SelectAio) (t : Snapshot) :
    ∃ bytes, (s.collect t).2.2 = { s with pipe := bytes } := by
  simp only [SelectAio.collect]
  split
  · exact ⟨_, rfl⟩
  · exact ⟨s.pipe, rfl⟩

theorem select_some {canRead canWrite : FdSet} (hstep : select m canRead canWrite = some next) :
    ∃ t bytes readable writable, m.loop = .selecting t ∧
      next = { m with aio := { m.aio with pipe := bytes }, loop := .scanning readable writable } ∧
      (∀ fd ∈ readable, fd ≤ t.high ∧ t.rfds fd = true) ∧ (∀ fd ∈ writable, fd ≤ t.high ∧ t.wfds fd = true) ∧
      readable.length ≤ t.high + 1 ∧ writable.length ≤ t.high + 1 := by
  unfold select at hstep
  split at hstep
  · rename_i t hloop
    split at hstep
    · cases hstep
      obtain ⟨bytes, hbytes⟩ := collect_aio m.aio (m.aio.ready t canRead canWrite)
      refine ⟨t, bytes, _, _, hloop, by rw [Mgr.collected, hbytes], fun fd hfd => ?_, fun fd hfd => ?_, ?_, ?_⟩
      · simp only [SelectAio.collect, Snapshot.readable, SelectAio.ready, Snapshot.select, List.mem_filter,
          List.mem_range, Bool.and_eq_true] at hfd
        exact ⟨Nat.lt_succ_iff.mp hfd.1, hfd.2.1.1⟩
      · simp only [SelectAio.collect, Snapshot.writable, SelectAio.ready, Snapshot.select, List.mem_filter,
          List.mem_range, Bool.and_eq_true] at hfd
        exact ⟨Nat.lt_succ_iff.mp hfd.1, hfd.2.1.1⟩
      · exact (List.length_filter_le _ _).trans_eq List.length_range
      · exact (List.length_filter_le _ _).trans_eq List.length_range
    · cases hstep
  · cases hstep

theorem select_round {canRead canWrite : FdSet} (hstep : select m canRead canWrite = some next) : Round m next := by
  obtain ⟨t, bytes, readable, writable, hloop, rfl, hreadable, hwritable, -, -⟩ := select_some hstep
  refine ⟨rfl, rfl, fun h => ⟨h.piped, h.bound, h.tight⟩, rfl, .refl _, .inr rfl, fun fd hfd => .inl ?_⟩
  rw [hloop]
  exact hfd.imp (fun hmem => (hreadable fd hmem).2) fun hmem => (hwritable fd hmem).2

theorem visit_involves {write : Bool} {readable writable : List Nat}
    (h : (m.visit write fd readable writable).loop.Involves other) :
    other = fd ∨ other ∈ readable ∨ other ∈ writable := by
  unfold Mgr.visit at h
  cases hch : m.callbacks fd with
  | none =>
      simp only [hch, Option.elim_none] at h
      exact .inr h
  | some ch =>
      simp only [hch, Option.elim_some] at h
      exact h

theorem scan_round (hstep : scan m = some next) : Round m next := by
  unfold scan at hstep
  split at hstep
  · rename_i fd readable writable hloop
    cases hstep
    refine Round.of_loop fun other hother => .inl ?_
    rw [hloop]
    rcases visit_involves hother with rfl | hmem | hmem
    · exact .inl List.mem_cons_self
    · exact .inl (List.mem_cons_of_mem _ hmem)
    · exact .inr hmem
  · rename_i fd writable hloop
    cases hstep
    refine Round.of_loop fun other hother => .inl ?_
    rw [hloop]
    rcases visit_involves hother with rfl | hmem | hmem
    · exact .inr List.mem_cons_self
    · exact absurd hmem List.not_mem_nil
    · exact .inr (List.mem_cons_of_mem _ hmem)
  · cases hstep
    exact Round.of_loop fun other => False.elim
  · cases hstep

theorem callReturns_round (hstep : callReturns m = some next) : Round m next := by
  unfold callReturns at hstep
  split at hstep
  · rename_i hloop
    cases hstep
    refine Round.of_loop fun other hother => .inl ?_
    rw [hloop]
    exact .inr hother
  · cases hstep

theorem Inv.round (h : Inv m) (hround : Round m next) : Inv next := by
  refine ⟨hround.sound h.sound, fun entry hentry => ?_, fun entry hentry hinvolves => ?_, fun fd hremoved => ?_⟩
  · rw [hround.interest]
    exact h.unwatched entry (hround.threads.mem_iff.mp hentry)
  · rcases hround.woken with hnone | hsame
    · exact hnone entry.2 hinvolves
    · rw [hsame] at hentry
      rcases hround.loop entry.2 hinvolves with hold | hwatched
      · exact h.acknowledged entry hentry hold
      · exact hwatched (h.unwatched entry (List.mem_append_right _ hentry))
  · rw [hround.removed] at hremoved
    rw [hround.interest, hround.callbacks]
    exact h.gone fd hremoved

end Steps

section Runs

variable [DecidableEq τ] [DecidableEq κ] {m next : Mgr τ κ} {pipefd : Nat}

-- The steps of the poll thread.
def Event.polls : Event τ κ → Bool
  | .top | .snapshot | .select _ _ | .interrupted | .scan | .callReturns => true
  | .addCallback _ _ _ | .delCallback _ _ | .blockRemoveFd _ _ | .removeDone _ _ | .removeEarly _ _ => false

theorem poll_round {event : Event τ κ} (hpolls : event.polls = true) (hstep : Step m event next) : Round m next := by
  cases event with
  | addCallback fd flag ch => cases hpolls
  | delCallback fd flag => cases hpolls
  | blockRemoveFd thread fd => cases hpolls
  | removeDone thread fd => cases hpolls
  | removeEarly thread fd => cases hpolls
  | top => exact top_round hstep
  | snapshot => exact snapshot_round hstep
  | select canRead canWrite => exact select_round hstep
  | interrupted => exact interrupted_round hstep
  | scan => exact scan_round hstep
  | callReturns => exact callReturns_round hstep

-- The pipe belongs to the manager, and a descriptor is not given a callback while it is removed.
def Proper (m : Mgr τ κ) : Event τ κ → Prop
  | .addCallback fd _ _ => fd ≠ m.aio.pipefd ∧ ∀ entry ∈ m.changedoneC.threads, entry.2 ≠ fd
  | .delCallback fd _ | .blockRemoveFd _ fd => fd ≠ m.aio.pipefd
  | _ => True

theorem Inv.step {event : Event τ κ} (h : Inv m) (hproper : Proper m event) (hstep : Step m event next) :
    Inv next := by
  cases hpolls : event.polls with
  | true => exact h.round (poll_round hpolls hstep)
  | false =>
      cases event with
      | addCallback fd flag ch => exact h.addCallback hproper.2 hstep
      | delCallback fd flag => exact h.delCallback hproper hstep
      | blockRemoveFd thread fd => exact h.blockRemoveFd hproper hstep
      | removeDone thread fd => exact h.removeDone hstep
      | removeEarly thread fd => exact h.removeEarly hstep
      | _ => cases hpolls

theorem reachable_inv (hr : Reachable (Guarded Proper Step) (initial pipefd) m) : Inv m :=
  hr.invariant Inv (fun _ => initial_inv) fun _ _ _ h hstep => h.step hstep.1 hstep.2

-- What block_remove_fd promises: a descriptor it has removed is not watched, has no callback, and the
-- poll thread neither is in a callback of it nor has one left to call.
def Removed (m : Mgr τ κ) : Prop :=
  ∀ fd, m.removed fd = true →
    m.aio.interest fd = (false, false) ∧ m.callbacks fd = none ∧ ¬ m.loop.Involves fd

-- A wait may end without a broadcast only while the poll thread has nothing to do with the descriptor.
def Patient (m : Mgr τ κ) : Event τ κ → Prop
  | .removeEarly _ fd => ¬ m.loop.Involves fd
  | _ => True

omit [DecidableEq τ] [DecidableEq κ] in
-- A step that marks no descriptor as removed and leaves the poll thread where it is.
theorem removed_still (hm : Removed m) (h : Inv next) (hloop : next.loop = m.loop)
    (hremoved : ∀ fd, next.removed fd = true → m.removed fd = true) : Removed next := by
  intro fd hfd
  obtain ⟨hinterest, hnone⟩ := h.gone fd hfd
  refine ⟨hinterest, hnone, ?_⟩
  rw [hloop]
  exact (hm fd (hremoved fd hfd)).2.2

omit [DecidableEq τ] [DecidableEq κ] in
theorem removed_round (hm : Removed m) (hround : Round m next) : Removed next := by
  intro fd hfd
  rw [hround.removed] at hfd
  obtain ⟨hinterest, hnone, hnot⟩ := hm fd hfd
  refine ⟨hround.interest ▸ hinterest, hround.callbacks ▸ hnone, fun hinvolves => ?_⟩
  rcases hround.loop fd hinvolves with hold | hwatched
  · exact hnot hold
  · exact hwatched hinterest

omit [DecidableEq τ] [DecidableEq κ] in
theorem removed_forget {fd : Nat} {c : CondVar (τ × Nat)} (hm : Removed m) (h : Inv (m.forget fd c)) :
    Removed (m.forget fd c) ↔ ¬ m.loop.Involves fd := by
  constructor
  · intro hnext
    exact (hnext fd (Function.update_self ..)).2.2
  · intro hnot other hother
    obtain ⟨hinterest, hnone⟩ := h.gone other hother
    refine ⟨hinterest, hnone, ?_⟩
    by_cases heq : other = fd
    · exact heq ▸ hnot
    · simp only [Mgr.forget, Function.update_of_ne heq] at hother
      exact (hm other hother).2.2

theorem removed_step {event : Event τ κ} (h : Inv m) (hm : Removed m) (hproper : Proper m event)
    (hstep : Step m event next) : Removed next ↔ Patient m event := by
  have hnext := h.step hproper hstep
  cases hpolls : event.polls with
  | true =>
      have hround := removed_round hm (poll_round hpolls hstep)
      have hpatient : Patient m event := by
        cases event with
        | removeEarly _ _ => cases hpolls
        | _ => trivial
      exact ⟨fun _ => hpatient, fun _ => hround⟩
  | false =>
      cases event with
      | addCallback fd flag ch =>
          obtain ⟨-, rfl⟩ := addCallback_some hstep
          refine ⟨fun _ => trivial, fun _ => removed_still hm hnext rfl fun other hother => ?_⟩
          by_cases heq : other = fd
          · subst heq
            simp at hother
          · simpa only [Function.update_of_ne heq] using hother
      | delCallback fd flag =>
          obtain ⟨dropped, aio, -, rfl⟩ := delCallback_some hstep
          exact ⟨fun _ => trivial, fun _ => removed_still hm hnext rfl fun _ => id⟩
      | blockRemoveFd thread fd =>
          obtain ⟨dropped, aio, -, rfl⟩ := blockRemoveFd_some hstep
          exact ⟨fun _ => trivial, fun _ => removed_still hm hnext rfl fun _ => id⟩
      | removeDone thread fd =>
          obtain ⟨c, hresume, rfl⟩ := removeDone_some hstep
          have hwoken := (CondVar.resume_some hresume).1
          have hnot := h.acknowledged (thread, fd) hwoken
          exact ⟨fun _ => trivial, fun _ => (removed_forget hm hnext).mpr hnot⟩
      | removeEarly thread fd =>
          obtain ⟨c, -, rfl⟩ := removeEarly_some hstep
          exact removed_forget hm hnext
      | _ => cases hpolls

-- The return of block_remove_fd is final, as its comment says, exactly where no wait ends early while
-- the poll thread is still busy with the descriptor: the wait is not in a loop.
theorem remove_final_iff {events : List (Event τ κ)}
    (run : Run (Guarded Proper Step) (initial pipefd) events m) :
    (∀ before after mid, events = before ++ after → Run (Guarded Proper Step) (initial pipefd) before mid →
        Removed mid) ↔
      Run (Guarded Patient (Guarded Proper Step)) (initial pipefd) events m := by
  refine run.guarded_iff (fun first second hfirst hsecond => hfirst.trans hsecond.symm) ?_ ?_ ?_
  · intro state event first second hfirst hsecond
    exact Option.some.inj (hfirst.2.symm.trans hsecond.2)
  · rintro state rfl fd hfd
    cases hfd
  · intro state event next hr hremoved hstep
    exact removed_step (reachable_inv hr) hremoved hstep.1 hstep.2

instance (fd : Nat) : (loop : Loop κ) → Decidable (loop.Involves fd)
  | .top | .polling => inferInstanceAs (Decidable False)
  | .selecting t => inferInstanceAs (Decidable (t.rfds fd = true ∨ t.wfds fd = true))
  | .scanning readable writable => inferInstanceAs (Decidable (fd ∈ readable ∨ fd ∈ writable))
  | .calling _ now _ readable writable => inferInstanceAs (Decidable (fd = now ∨ fd ∈ readable ∨ fd ∈ writable))

instance (m : Mgr τ κ) : (event : Event τ κ) → Decidable (Proper m event)
  | .addCallback fd _ _ =>
      inferInstanceAs (Decidable (fd ≠ m.aio.pipefd ∧ ∀ entry ∈ m.changedoneC.threads, entry.2 ≠ fd))
  | .delCallback fd _ | .blockRemoveFd _ fd => inferInstanceAs (Decidable (fd ≠ m.aio.pipefd))
  | .removeDone _ _ | .removeEarly _ _ | .top | .snapshot | .select _ _ | .interrupted | .scan | .callReturns =>
      inferInstanceAs (Decidable True)

-- A run up to the callback of a descriptor whose removal then begins.
def removing : List (Event Nat Nat) :=
  [.addCallback 7 .rdonly 5, .top, .snapshot, .select (fun fd => fd == 7) (fun _ => false), .scan, .blockRemoveFd 0 7]

theorem removing_run : ∃ m : Mgr Nat Nat, Run (Guarded Proper Step) (initial 3) removing m ∧
    m.loop.Involves 7 ∧ m.changedoneC.asleep = [(0, 7)] := by
  have hexec : (execute (fun m event => if Proper m event then step m event else none)
      ({ aio := .create 3 } : Mgr Nat Nat) removing).map
      (fun m => (decide (m.loop.Involves 7), m.changedoneC.asleep)) = some (true, [(0, 7)]) := by decide
  obtain ⟨m, hm, hfields⟩ := Option.map_eq_some_iff.mp hexec
  have hstart : Run (Guarded Proper Step) (initial 3) [] ({ aio := .create 3 } : Mgr Nat Nat) := .start rfl
  obtain ⟨hinvolves, hasleep⟩ := Prod.mk.inj hfields
  exact ⟨m, hstart.executed hm, of_decide_eq_true hinvolves, hasleep⟩

-- If the wait ends early here, the descriptor is removed with its callback still running.
theorem remove_final_removing : ∃ m : Mgr Nat Nat,
    Run (Guarded Proper Step) (initial 3) (removing ++ [.removeEarly 0 7]) m ∧
      ¬ ∀ before after mid, removing ++ [.removeEarly 0 7] = before ++ after →
        Run (Guarded Proper Step) (initial 3) before mid → Removed mid := by
  obtain ⟨m, run, hinvolves, hasleep⟩ := removing_run
  have hleave : (removeEarly m 0 7).isSome = true := by
    rw [removeEarly, CondVar.leave, if_pos (hasleep ▸ List.mem_singleton_self _)]
    rfl
  obtain ⟨next, hnext⟩ := Option.isSome_iff_exists.mp hleave
  have run' : Run (Guarded Proper Step) (initial 3) (removing ++ [.removeEarly 0 7]) next :=
    run.extend ⟨trivial, hnext⟩
  refine ⟨next, run', fun hall => ?_⟩
  obtain ⟨state, before, hpatient, -⟩ := ((remove_final_iff run').mp hall).of_snoc
  have hsame : m = state := run.unique (fun _ _ hfirst hsecond => hfirst.trans hsecond.symm)
    (fun _ _ _ _ hfirst hsecond => Option.some.inj (hfirst.2.symm.trans hsecond.2))
    (before.mono fun _ _ _ hstep => hstep.2)
  exact hpatient (hsame ▸ hinvolves)

end Runs

end CseLabs.PollMgr
