import CseLabs.PollMgr.Remove

namespace CseLabs.PollMgr

variable {τ κ : Type*}

section Progress

-- In wait_ready.
def Loop.Waits : Loop κ → Prop
  | .polling | .selecting _ => True
  | .top | .scanning _ _ | .calling _ _ _ _ _ => False

-- How many steps the poll thread takes at most up to the next broadcast.
def Loop.rounds : Loop κ → Nat
  | .top => 1
  | .scanning readable writable => 2 + 2 * (readable.length + writable.length)
  | .calling _ _ _ readable writable => 3 + 2 * (readable.length + writable.length)
  | .selecting _ => 3 + 4 * MAX_POLL_FDS
  | .polling => 4 + 4 * MAX_POLL_FDS

-- A thread that sleeps in block_remove_fd has asked for a broadcast, and there is a byte in the pipe if
-- the poll thread might otherwise stay in select.
structure Awake (m : Mgr τ κ) : Prop where
  high : m.aio.highfds < MAX_POLL_FDS
  asked : m.changedoneC.asleep ≠ [] → m.pendingChange = true
  piped : m.changedoneC.asleep ≠ [] → m.loop.Waits → 0 < m.aio.pipe
  copied : ∀ t, m.loop = .selecting t → t.high < MAX_POLL_FDS ∧ t.rfds m.aio.pipefd = true ∧ m.aio.pipefd ≤ t.high
  short : m.loop.rounds ≤ 4 + 4 * MAX_POLL_FDS

variable {m next : Mgr τ κ} {fd : Nat} {flag : Flag} {dropped : Bool} {aio : SelectAio}

-- A step of another thread.
theorem Awake.other (h : Awake m) (hloop : next.loop = m.loop) (hpipefd : next.aio.pipefd = m.aio.pipefd)
    (hhigh : next.aio.highfds < MAX_POLL_FDS) (hpipe : m.aio.pipe ≤ next.aio.pipe)
    (hasked : next.pendingChange = true ∧ 0 < next.aio.pipe ∨
      next.pendingChange = m.pendingChange ∧ next.changedoneC.asleep ⊆ m.changedoneC.asleep) : Awake next := by
  have hslept : next.changedoneC.asleep ⊆ m.changedoneC.asleep → next.changedoneC.asleep ≠ [] →
      m.changedoneC.asleep ≠ [] := by
    intro hsub hne hnil
    rw [hnil] at hsub
    exact hne (List.subset_nil.mp hsub)
  refine ⟨hhigh, fun hne => ?_, fun hne hwaits => ?_, fun t ht => ?_, ?_⟩
  · rcases hasked with ⟨htrue, -⟩ | ⟨hsame, hsub⟩
    · exact htrue
    · exact hsame.trans (h.asked (hslept hsub hne))
  · rcases hasked with ⟨-, hpos⟩ | ⟨-, hsub⟩
    · exact hpos
    · exact (h.piped (hslept hsub hne) (hloop ▸ hwaits)).trans_le hpipe
  · rw [hpipefd]
    exact h.copied t (hloop ▸ ht)
  · rw [hloop]
    exact h.short

theorem unwatchFd_pipe (hun : m.aio.unwatchFd fd flag = some (dropped, aio)) :
    aio.pipe = m.aio.pipe + if flag = .rdwr then 1 else 0 := by
  obtain ⟨hsize, hflag⟩ := unwatchFd_some hun
  have hlower : ∀ s : SelectAio, (s.lower fd).pipe = s.pipe := by
    intro s
    unfold SelectAio.lower
    split <;> rfl
  rw [unwatchFd_eq m.aio hsize hflag] at hun
  cases hun
  simp only [hlower]
  rfl

theorem unwatchFd_high (h : m.aio.Sound) (hfd : fd ≠ m.aio.pipefd)
    (hun : m.aio.unwatchFd fd flag = some (dropped, aio)) : aio.highfds ≤ m.aio.highfds := by
  obtain ⟨hsound, -, hinterest⟩ := unwatch_spec h hfd hun
  exact h.high hsound hinterest

theorem Awake.top (h : Awake m) (hstep : top m = some next) : Awake next ∧ next.changedoneC.asleep = [] := by
  unfold PollMgr.top at hstep
  split at hstep
  · cases hstep
    split
    · exact ⟨⟨h.high, fun hne => absurd rfl hne, fun hne => absurd rfl hne, nofun, le_rfl⟩, rfl⟩
    · have hnil : m.changedoneC.asleep = [] := by
        by_contra hne
        exact absurd (h.asked hne) ‹_›
      exact ⟨⟨h.high, fun hne => absurd hnil hne, fun hne => absurd hnil hne, nofun, le_rfl⟩, hnil⟩
  · cases hstep

-- The loop goes on without a broadcast.
theorem Awake.onward {loop : Loop κ} {bytes : Nat} (h : Awake m) (hwaits : ¬ loop.Waits)
    (hrounds : loop.rounds < m.loop.rounds) :
    Awake { m with aio := { m.aio with pipe := bytes }, loop := loop } := by
  refine ⟨h.high, h.asked, fun _ hnow => absurd hnow hwaits, ?_, hrounds.le.trans h.short⟩
  rintro t rfl
  exact absurd trivial hwaits

theorem Awake.snapshot (h : Awake m) (hsound : m.aio.Sound) (hstep : snapshot m = some next) :
    Awake next ∧ next.loop.rounds < m.loop.rounds := by
  unfold PollMgr.snapshot at hstep
  split at hstep
  · rename_i hloop
    cases hstep
    have hless : (Loop.selecting m.aio.snapshot : Loop κ).rounds < m.loop.rounds := by
      rw [hloop]
      exact Nat.add_lt_add_right (Nat.lt_succ_self 3) _
    refine ⟨⟨h.high, h.asked, fun hne _ => h.piped hne (hloop ▸ trivial), ?_, hless.le.trans h.short⟩, hless⟩
    rintro t ⟨⟩
    refine ⟨h.high, hsound.piped, hsound.bound m.aio.pipefd ?_⟩
    rw [SelectAio.watched, hsound.piped, Bool.true_or]
  · cases hstep

theorem Awake.select {canRead canWrite : FdSet} (h : Awake m) (hstep : select m canRead canWrite = some next) :
    Awake next ∧ next.loop.rounds < m.loop.rounds := by
  obtain ⟨t, bytes, readable, writable, hloop, rfl, -, -, hr, hw⟩ := select_some hstep
  have hhigh := (h.copied t hloop).1
  have hless : (Loop.scanning readable writable : Loop κ).rounds < m.loop.rounds := by
    rw [hloop]
    simp only [Loop.rounds]
    omega
  exact ⟨h.onward id hless, hless⟩

theorem Awake.interrupted (h : Awake m) (hstep : interrupted m = some next) :
    Awake next ∧ next.loop.rounds < m.loop.rounds := by
  unfold PollMgr.interrupted at hstep
  split at hstep
  · rename_i hloop
    cases hstep
    have hless : (Loop.scanning [] [] : Loop κ).rounds < m.loop.rounds := by
      rw [hloop]
      simp only [Loop.rounds, List.length_nil]
      omega
    exact ⟨h.onward id hless, hless⟩
  · cases hstep

theorem Awake.visit {write : Bool} {readable writable : List Nat} (h : Awake m)
    (hrounds : 3 + 2 * (readable.length + writable.length) < m.loop.rounds) :
    Awake (m.visit write fd readable writable) ∧
      (m.visit write fd readable writable).loop.rounds < m.loop.rounds := by
  unfold Mgr.visit
  cases m.callbacks fd with
  | none =>
      have hless : (Loop.scanning readable writable : Loop κ).rounds < m.loop.rounds :=
        (Nat.add_lt_add_right (Nat.lt_succ_self 2) _).trans hrounds
      exact ⟨h.onward id hless, hless⟩
  | some ch => exact ⟨h.onward id hrounds, hrounds⟩

theorem Awake.scan (h : Awake m) (hstep : scan m = some next) : Awake next ∧ next.loop.rounds < m.loop.rounds := by
  unfold PollMgr.scan at hstep
  split at hstep
  · rename_i hloop
    cases hstep
    refine h.visit ?_
    rw [hloop]
    simp only [Loop.rounds, List.length_cons]
    omega
  · rename_i hloop
    cases hstep
    refine h.visit ?_
    rw [hloop]
    simp only [Loop.rounds, List.length_cons, List.length_nil]
    omega
  · rename_i hloop
    cases hstep
    have hless : (Loop.top : Loop κ).rounds < m.loop.rounds := by
      rw [hloop]
      exact Nat.lt_succ_self 1
    exact ⟨h.onward id hless, hless⟩
  · cases hstep

theorem Awake.callReturns (h : Awake m) (hstep : callReturns m = some next) :
    Awake next ∧ next.loop.rounds < m.loop.rounds := by
  unfold PollMgr.callReturns at hstep
  split at hstep
  · rename_i readable writable hloop
    cases hstep
    have hless : (Loop.scanning readable writable : Loop κ).rounds < m.loop.rounds := by
      rw [hloop]
      exact Nat.add_lt_add_right (Nat.lt_succ_self 2) _
    exact ⟨h.onward id hless, hless⟩
  · cases hstep

variable [DecidableEq τ] [DecidableEq κ] {event : Event τ κ} {pipefd : Nat}

theorem Awake.poll (h : Awake m) (hsound : m.aio.Sound) (hpolls : event.polls = true) (hstep : Step m event next) :
    Awake next ∧ (next.changedoneC.asleep = [] ∨ next.loop.rounds < m.loop.rounds) := by
  cases event with
  | top => exact (h.top hstep).imp_right .inl
  | snapshot => exact (h.snapshot hsound hstep).imp_right .inr
  | select canRead canWrite => exact (h.select hstep).imp_right .inr
  | interrupted => exact (h.interrupted hstep).imp_right .inr
  | scan => exact (h.scan hstep).imp_right .inr
  | callReturns => exact (h.callReturns hstep).imp_right .inr
  | _ => cases hpolls

theorem Awake.act (h : Awake m) (hsound : m.aio.Sound) (hproper : Proper m event) (hpolls : event.polls = false)
    (hstep : Step m event next) : Awake next ∧ next.loop = m.loop := by
  cases event with
  | addCallback fd flag ch =>
      obtain ⟨hfd, rfl⟩ := addCallback_some hstep
      refine ⟨h.other rfl rfl ?_ (Nat.le_succ _) (.inr ⟨rfl, List.Subset.refl _⟩), rfl⟩
      rw [watch_highfds]
      exact max_lt h.high hfd
  | delCallback fd flag =>
      obtain ⟨dropped, aio, hun, rfl⟩ := delCallback_some hstep
      have hpipe := unwatchFd_pipe hun
      refine ⟨h.other rfl (unwatch_spec hsound hproper hun).2.1 ?_ ?_ (.inr ⟨rfl, List.Subset.refl _⟩), rfl⟩
      · exact (unwatchFd_high hsound hproper hun).trans_lt h.high
      · exact (Nat.le_add_right _ _).trans_eq hpipe.symm
  | blockRemoveFd thread fd =>
      obtain ⟨dropped, aio, hun, rfl⟩ := blockRemoveFd_some hstep
      have hpipe : aio.pipe = m.aio.pipe + 1 := unwatchFd_pipe hun
      refine ⟨h.other rfl (unwatch_spec hsound hproper hun).2.1 ?_ ?_ (.inl ⟨rfl, ?_⟩), rfl⟩
      · exact (unwatchFd_high hsound hproper hun).trans_lt h.high
      · exact (Nat.le_succ _).trans_eq hpipe.symm
      · exact (Nat.succ_pos _).trans_eq hpipe.symm
  | removeDone thread fd =>
      obtain ⟨c, hresume, rfl⟩ := removeDone_some hstep
      obtain ⟨-, rfl⟩ := CondVar.resume_some hresume
      exact ⟨h.other rfl rfl h.high le_rfl (.inr ⟨rfl, List.Subset.refl _⟩), rfl⟩
  | removeEarly thread fd =>
      obtain ⟨c, hleave, rfl⟩ := removeEarly_some hstep
      have hsub := (CondVar.leave_asleep_subset hleave).1
      exact ⟨h.other rfl rfl h.high le_rfl (.inr ⟨rfl, hsub⟩), rfl⟩
  | _ => cases hpolls

theorem Awake.step (h : Awake m) (hsound : m.aio.Sound) (hproper : Proper m event) (hstep : Step m event next) :
    Awake next := by
  cases hpolls : event.polls with
  | true => exact (h.poll hsound hpolls hstep).1
  | false => exact (h.act hsound hproper hpolls hstep).1

-- While a thread waits for it, a byte in the pipe ends the select.
theorem Awake.reads {t : Snapshot} (h : Awake m) (hne : m.changedoneC.asleep ≠ []) (hloop : m.loop = .selecting t) :
    ∃ after, Step m (.select (fun _ => false) fun _ => false) after ∧ after.aio.pipe < m.aio.pipe ∧
      after.changedoneC = m.changedoneC := by
  obtain ⟨-, hr, hle⟩ := h.copied t hloop
  have hpos := h.piped hne (hloop ▸ trivial)
  have hset : (m.aio.ready t (fun _ => false) fun _ => false).rfds m.aio.pipefd = true := by
    simp [SelectAio.ready, Snapshot.select, hr, hpos]
  have hsome : (m.aio.ready t (fun _ => false) fun _ => false).some? = true :=
    List.any_eq_true.mpr ⟨m.aio.pipefd, List.mem_range.mpr (Nat.lt_succ_of_le hle), by simp [hset]⟩
  have hread : m.aio.pipefd ≤ (m.aio.ready t (fun _ => false) fun _ => false).high ∧
      (m.aio.ready t (fun _ => false) fun _ => false).rfds m.aio.pipefd = true := ⟨hle, hset⟩
  refine ⟨m.collected (m.aio.ready t (fun _ => false) fun _ => false), ?_, ?_, rfl⟩
  · simp only [Step, PollMgr.step, PollMgr.select, hloop, if_pos hsome]
  · simp only [Mgr.collected, SelectAio.collect, if_pos hread]
    exact Nat.sub_lt hpos Nat.one_pos

-- The poll thread can go on.
theorem Awake.enabled (h : Awake m) (hne : m.changedoneC.asleep ≠ []) :
    ∃ (event : Event τ κ) (next : Mgr τ κ), event.polls = true ∧ event ≠ .interrupted ∧ Step m event next := by
  have hgo : ∀ event : Event τ κ, event.polls = true → event ≠ .interrupted → (PollMgr.step m event).isSome = true →
      ∃ (event : Event τ κ) (next : Mgr τ κ), event.polls = true ∧ event ≠ .interrupted ∧ Step m event next := by
    intro event hpolls hevent hsome
    obtain ⟨next, hnext⟩ := Option.isSome_iff_exists.mp hsome
    exact ⟨event, next, hpolls, hevent, hnext⟩
  cases hloop : m.loop with
  | top => exact hgo .top rfl (by simp) (by simp only [PollMgr.step, PollMgr.top, hloop, Option.isSome_some])
  | polling =>
      exact hgo .snapshot rfl (by simp) (by simp only [PollMgr.step, PollMgr.snapshot, hloop, Option.isSome_some])
  | selecting t =>
      obtain ⟨after, hstep, -⟩ := h.reads hne hloop
      exact ⟨_, after, rfl, by simp, hstep⟩
  | scanning readable writable =>
      refine hgo .scan rfl (by simp) ?_
      cases readable with
      | cons fd rest => simp only [PollMgr.step, PollMgr.scan, hloop, Option.isSome_some]
      | nil => cases writable <;> simp only [PollMgr.step, PollMgr.scan, hloop, Option.isSome_some]
  | calling write fd ch readable writable =>
      exact hgo .callReturns rfl (by simp) (by simp only [PollMgr.step, PollMgr.callReturns, hloop, Option.isSome_some])

end Progress

-- The call of a thread writes a byte to the pipe.
def Event.writes : Event τ κ → Bool
  | .addCallback _ _ _ | .blockRemoveFd _ _ => true
  | .delCallback _ flag => flag == .rdwr
  | .removeDone _ _ | .removeEarly _ _ | .top | .snapshot | .select _ _ | .interrupted | .scan | .callReturns => false

-- The step takes m_ of the manager or that of SelectAIO.
def Event.locks : Event τ κ → Bool
  | .addCallback _ _ _ | .delCallback _ _ | .blockRemoveFd _ _ | .removeDone _ _ | .removeEarly _ _ | .top
  | .snapshot => true
  | .select _ _ | .interrupted | .scan | .callReturns => false

def Loop.calls : Loop κ → Bool
  | .calling _ _ _ _ _ => true
  | .top | .polling | .selecting _ | .scanning _ _ => false

def Loop.selects : Loop κ → Bool
  | .selecting _ => true
  | .top | .polling | .scanning _ _ | .calling _ _ _ _ _ => false

-- The manager with a pipe that can be full. A call that finds it full stays in write, with both mutexes: the call, and
-- whether it is one of the poll thread, in a callback.
structure Piped (τ κ : Type*) where
  mgr : Mgr τ κ
  writer : Option (Bool × Event τ κ) := none

inductive Act (τ κ : Type*)
  | run (event : Event τ κ)
  | block (polls : Bool) (event : Event τ κ)
  | unblock

namespace Piped

def initial (pipefd : Nat) (p : Piped τ κ) : Prop := p = { mgr := { aio := .create pipefd } }

-- Nobody holds the mutexes that the step takes, the poll thread is not in write itself, and the byte finds room.
def free (capacity : Nat) (p : Piped τ κ) (event : Event τ κ) : Bool :=
  match p.writer with
  | none => !event.writes || decide (p.mgr.aio.pipe < capacity)
  | some (polls, _) => !event.locks && !polls

variable [DecidableEq τ] [DecidableEq κ]

def step (capacity : Nat) (p : Piped τ κ) : Act τ κ → Option (Piped τ κ)
  | .run event =>
      if p.free capacity event = true then (PollMgr.step p.mgr event).map fun mgr => { p with mgr := mgr } else none
  | .block polls event =>
      if p.writer.isNone = true ∧ event.writes = true ∧ capacity ≤ p.mgr.aio.pipe ∧
          (polls = true → p.mgr.loop.calls = true) then
        some { p with writer := some (polls, event) }
      else none
  | .unblock =>
      if p.mgr.aio.pipe < capacity then
        p.writer.bind fun call => (PollMgr.step p.mgr call.2).map fun mgr => { mgr := mgr }
      else none

def Step (capacity : Nat) (p : Piped τ κ) (act : Act τ κ) (next : Piped τ κ) : Prop := p.step capacity act = some next

-- The call that has to wait is one that the manager accepts.
def Proper (p : Piped τ κ) : Act τ κ → Prop
  | .run event => PollMgr.Proper p.mgr event
  | .block _ event => PollMgr.Proper p.mgr event ∧ (PollMgr.step p.mgr event).isSome = true
  | .unblock => True

instance (p : Piped τ κ) : (act : Act τ κ) → Decidable (p.Proper act)
  | .run event => inferInstanceAs (Decidable (PollMgr.Proper p.mgr event))
  | .block _ event =>
      inferInstanceAs (Decidable (PollMgr.Proper p.mgr event ∧ (PollMgr.step p.mgr event).isSome = true))
  | .unblock => inferInstanceAs (Decidable True)

-- The poll thread waits for a mutex, or will, and nobody else empties the pipe.
def Jammed (capacity : Nat) (p : Piped τ κ) : Prop :=
  p.writer.isSome = true ∧ capacity ≤ p.mgr.aio.pipe ∧ p.mgr.loop.selects = false

end Piped

def Act.polls : Act τ κ → Bool
  | .run event => event.polls
  | .block _ _ | .unblock => false

-- The steps of the poll thread, without interruptions, and the end of a call that has waited.
def Act.own : Act τ κ → Prop
  | .run event => event.polls = true ∧ event ≠ .interrupted
  | .block _ _ => False
  | .unblock => True

def Own (_ : Piped τ κ) (act : Act τ κ) : Prop := act.own

section Full

variable [DecidableEq τ] [DecidableEq κ] {capacity pipefd : Nat} {p next : Piped τ κ} {act : Act τ κ}
variable {m after : Mgr τ κ} {event call : Event τ κ} {polls : Bool} {entry : τ × Nat}

theorem piped_cases (h : p.Step capacity act next) :
    (∃ event mgr, act = .run event ∧ p.free capacity event = true ∧ Step p.mgr event mgr ∧
        next = { p with mgr := mgr }) ∨
      (∃ polls event, act = .block polls event ∧ p.writer = none ∧ event.writes = true ∧ capacity ≤ p.mgr.aio.pipe ∧
        (polls = true → p.mgr.loop.calls = true) ∧ next = { p with writer := some (polls, event) }) ∨
      ∃ polls event mgr, act = .unblock ∧ p.writer = some (polls, event) ∧ p.mgr.aio.pipe < capacity ∧
        Step p.mgr event mgr ∧ next = { mgr := mgr } := by
  cases act with
  | run event =>
      simp only [Piped.Step, Piped.step] at h
      split at h
      · rename_i hfree
        obtain ⟨mgr, hmgr, rfl⟩ := Option.map_eq_some_iff.mp h
        exact .inl ⟨event, mgr, rfl, hfree, hmgr, rfl⟩
      · cases h
  | block polls event =>
      simp only [Piped.Step, Piped.step] at h
      split at h
      · rename_i hguard
        cases h
        obtain ⟨hnone, hwrites, hfull, hcalls⟩ := hguard
        exact .inr (.inl ⟨polls, event, rfl, Option.isNone_iff_eq_none.mp hnone, hwrites, hfull, hcalls, rfl⟩)
      · cases h
  | unblock =>
      simp only [Piped.Step, Piped.step] at h
      split at h
      · rename_i hroom
        obtain ⟨⟨polls, event⟩, hwriter, hgo⟩ := Option.bind_eq_some_iff.mp h
        obtain ⟨mgr, hmgr, rfl⟩ := Option.map_eq_some_iff.mp hgo
        exact .inr (.inr ⟨polls, event, mgr, rfl, hwriter, hroom, hmgr, rfl⟩)
      · cases h

omit [DecidableEq τ] [DecidableEq κ] in
theorem free_room (hwriter : p.writer = none) (hfree : p.free capacity event = true) (hwrites : event.writes = true) :
    p.mgr.aio.pipe < capacity := by
  simpa [Piped.free, hwriter, hwrites] using hfree

omit [DecidableEq τ] [DecidableEq κ] in
theorem free_unlocked (hwriter : p.writer = some (polls, call)) (hfree : p.free capacity event = true) :
    event.locks = false ∧ polls = false := by
  simpa [Piped.free, hwriter] using hfree

omit [DecidableEq τ] [DecidableEq κ] in
theorem polls_of_writes (h : event.writes = true) : event.polls = false := by
  cases event with
  | addCallback fd flag ch => rfl
  | delCallback fd flag => rfl
  | blockRemoveFd thread fd => rfl
  | _ => cases h

omit [DecidableEq τ] [DecidableEq κ] in
theorem writes_of_polls (h : event.polls = true) : event.writes = false := by
  cases hwrites : event.writes with
  | false => rfl
  | true =>
      rw [polls_of_writes hwrites] at h
      cases h

-- What a step does to the pipe.
theorem step_pipe (h : Step m event after) : after.aio.pipe ≤ m.aio.pipe + if event.writes = true then 1 else 0 := by
  cases event with
  | addCallback fd flag ch =>
      obtain ⟨-, rfl⟩ := addCallback_some h
      exact le_rfl
  | delCallback fd flag =>
      obtain ⟨dropped, aio, hun, rfl⟩ := delCallback_some h
      simpa [Event.writes] using (unwatchFd_pipe hun).le
  | blockRemoveFd thread fd =>
      obtain ⟨dropped, aio, hun, rfl⟩ := blockRemoveFd_some h
      exact (unwatchFd_pipe hun).le
  | removeDone thread fd =>
      obtain ⟨c, -, rfl⟩ := removeDone_some h
      exact le_rfl
  | removeEarly thread fd =>
      obtain ⟨c, -, rfl⟩ := removeEarly_some h
      exact le_rfl
  | top =>
      simp only [Step, step, top] at h
      split at h
      · cases h
        split <;> exact le_rfl
      · cases h
  | snapshot =>
      simp only [Step, step, snapshot] at h
      split at h
      · cases h
        exact le_rfl
      · cases h
  | select canRead canWrite =>
      simp only [Step, step, select] at h
      split at h
      · split at h
        · cases h
          simp only [Mgr.collected, SelectAio.collect]
          split
          · exact Nat.sub_le _ _
          · exact le_rfl
        · cases h
      · cases h
  | interrupted =>
      simp only [Step, step, interrupted] at h
      split at h
      · cases h
        exact le_rfl
      · cases h
  | scan =>
      simp only [Step, step, scan] at h
      split at h <;> cases h <;> exact le_rfl
  | callReturns =>
      simp only [Step, step, callReturns] at h
      split at h
      · cases h
        exact le_rfl
      · cases h

-- A step without a mutex changes the loop and the pipe only, and the pipe only in select.
theorem unlocked_eq (hlocks : event.locks = false) (h : Step m event after) :
    ∃ bytes loop, after = { m with aio := { m.aio with pipe := bytes }, loop := loop } ∧
      (m.loop.selects = false → bytes = m.aio.pipe ∧ loop.selects = false) := by
  cases event with
  | select canRead canWrite =>
      obtain ⟨t, bytes, readable, writable, hloop, rfl, -⟩ := select_some h
      exact ⟨bytes, _, rfl, fun hnot => by rw [hloop] at hnot; cases hnot⟩
  | interrupted =>
      simp only [Step, step, interrupted] at h
      split at h
      · rename_i t hloop
        cases h
        exact ⟨m.aio.pipe, _, rfl, fun hnot => by rw [hloop] at hnot; cases hnot⟩
      · cases h
  | scan =>
      have hvisit : ∀ write fd readable writable, (m.visit write fd readable writable).loop.selects = false := by
        intro write fd readable writable
        unfold Mgr.visit
        cases m.callbacks fd <;> rfl
      simp only [Step, step, scan] at h
      split at h
      · cases h
        exact ⟨m.aio.pipe, _, rfl, fun _ => ⟨rfl, hvisit ..⟩⟩
      · cases h
        exact ⟨m.aio.pipe, _, rfl, fun _ => ⟨rfl, hvisit ..⟩⟩
      · cases h
        exact ⟨m.aio.pipe, _, rfl, fun _ => ⟨rfl, rfl⟩⟩
      · cases h
  | callReturns =>
      simp only [Step, step, callReturns] at h
      split at h
      · cases h
        exact ⟨m.aio.pipe, _, rfl, fun _ => ⟨rfl, rfl⟩⟩
      · cases h
  | _ => cases hlocks

-- Whether a call is accepted does not depend on the loop or on what is in the pipe.
theorem writes_isSome {bytes : Nat} {loop : Loop κ} (hwrites : call.writes = true) :
    (step { m with aio := { m.aio with pipe := bytes }, loop := loop } call).isSome = (step m call).isSome := by
  cases call with
  | addCallback fd flag ch =>
      simp only [step, addCallback, SelectAio.watchFd]
      split
      · split <;> rfl
      · rfl
  | delCallback fd flag =>
      simp only [step, delCallback, SelectAio.unwatchFd]
      split
      · split
        · cases flag <;> rfl
        · rfl
      · rfl
  | blockRemoveFd thread fd =>
      simp only [step, blockRemoveFd, SelectAio.unwatchFd]
      split
      · split <;> rfl
      · rfl
  | _ => cases hwrites

omit [DecidableEq τ] [DecidableEq κ] in
theorem proper_elsewhere {bytes : Nat} {loop : Loop κ} (h : Proper m call) :
    Proper { m with aio := { m.aio with pipe := bytes }, loop := loop } call := by
  cases call <;> exact h

-- A call that waits for the pipe goes on as soon as there is room.
structure Flow (capacity : Nat) (p : Piped τ κ) : Prop where
  inv : Inv p.mgr
  awake : Awake p.mgr
  full : p.mgr.aio.pipe ≤ capacity
  held : ∀ polls call, p.writer = some (polls, call) → call.writes = true ∧ Proper p.mgr call ∧
    (step p.mgr call).isSome = true ∧ (polls = true → p.mgr.loop.calls = true)

-- The manager takes a step, and nobody waits for the pipe afterwards.
theorem Flow.go (h : Flow capacity p) (hproper : Proper p.mgr event) (hstep : Step p.mgr event after)
    (hroom : event.writes = true → p.mgr.aio.pipe < capacity) : Flow capacity { mgr := after } := by
  refine ⟨h.inv.step hproper hstep, h.awake.step h.inv.sound hproper hstep, ?_, fun _ _ hwriter => by cases hwriter⟩
  have hbytes := step_pipe hstep
  have hfull := h.full
  cases hwrites : event.writes with
  | false =>
      rw [hwrites, if_neg Bool.false_ne_true] at hbytes
      exact hbytes.trans hfull
  | true =>
      rw [hwrites, if_pos rfl] at hbytes
      exact hbytes.trans (hroom hwrites)

theorem Flow.step (h : Flow capacity p) (hproper : p.Proper act) (hstep : p.Step capacity act next) :
    Flow capacity next := by
  rcases piped_cases hstep with ⟨event, mgr, rfl, hfree, hmgr, rfl⟩ | ⟨polls, event, rfl, -, hwrites, -, hcalls, rfl⟩ |
    ⟨polls, event, mgr, rfl, hwriter, hroom, hmgr, rfl⟩
  · cases hwriter : p.writer with
    | none =>
        exact h.go hproper hmgr (free_room hwriter hfree)
    | some held =>
        obtain ⟨polls, call⟩ := held
        obtain ⟨hlocks, rfl⟩ := free_unlocked hwriter hfree
        have hpolls : event.polls = true := by
          cases event <;> first | rfl | cases hlocks
        have hnext := h.go hproper hmgr fun hwrites => absurd hpolls (by simp [polls_of_writes hwrites])
        obtain ⟨bytes, loop, rfl, -⟩ := unlocked_eq hlocks hmgr
        refine ⟨hnext.inv, hnext.awake, hnext.full, fun polls' call' hheld => ?_⟩
        obtain ⟨hwrites, hcall, hsome, -⟩ := h.held false call hwriter
        cases hheld
        exact ⟨hwrites, proper_elsewhere hcall, (writes_isSome hwrites).trans hsome, fun hfalse => by cases hfalse⟩
  · refine ⟨h.inv, h.awake, h.full, fun polls' call hheld => ?_⟩
    cases hheld
    exact ⟨hwrites, hproper.1, hproper.2, hcalls⟩
  · obtain ⟨-, hcall, -⟩ := h.held polls event hwriter
    exact h.go hcall hmgr fun _ => hroom

-- Once jammed the manager stays so, and nobody in block_remove_fd is woken.
theorem Piped.Jammed.step (h : p.Jammed capacity) (hstep : p.Step capacity act next) :
    next.Jammed capacity ∧ next.mgr.changedoneC = p.mgr.changedoneC := by
  obtain ⟨hsome, hfull, hnot⟩ := h
  obtain ⟨⟨held, call⟩, hwriter⟩ := Option.isSome_iff_exists.mp hsome
  rcases piped_cases hstep with ⟨event, mgr, rfl, hfree, hmgr, rfl⟩ | ⟨polls, event, rfl, hnone, -⟩ |
    ⟨polls, event, mgr, rfl, -, hroom, -⟩
  · obtain ⟨bytes, loop, rfl, hsame⟩ := unlocked_eq (free_unlocked hwriter hfree).1 hmgr
    obtain ⟨rfl, hloop⟩ := hsame hnot
    exact ⟨⟨hsome, hfull, hloop⟩, rfl⟩
  · rw [hnone] at hwriter
    cases hwriter
  · exact absurd hroom (Nat.not_lt.mpr hfull)

omit [DecidableEq τ] [DecidableEq κ] in
theorem Round.woken_mem (h : Round m after) (hmem : entry ∈ m.changedoneC.threads)
    (hnil : after.changedoneC.asleep = []) :
    entry ∈ after.changedoneC.woken := by
  have hthreads := h.threads.mem_iff.mpr hmem
  rwa [CondVar.threads, hnil, List.nil_append] at hthreads

-- With no call in the way, the poll thread comes to its broadcast.
theorem Flow.wakes (n : Nat) : ∀ p : Piped τ κ, Flow capacity p → p.writer = none → p.mgr.loop.rounds = n →
    entry ∈ p.mgr.changedoneC.asleep →
      Comes (Guarded Own (Piped.Step capacity)) (fun woken => entry ∈ woken.mgr.changedoneC.woken) p := by
  induction n using Nat.strong_induction_on with
  | _ n ih =>
      intro p h hwriter hrounds hasleep
      obtain ⟨event, after, hpolls, hevent, hstep⟩ := h.awake.enabled (List.ne_nil_of_mem hasleep)
      have hfree : p.free capacity event = true := by simp [Piped.free, hwriter, writes_of_polls hpolls]
      have hgo : Guarded Own (Piped.Step capacity) p (.run event) { p with mgr := after } := by
        refine ⟨⟨hpolls, hevent⟩, ?_⟩
        have hsome : PollMgr.step p.mgr event = some after := hstep
        simp only [Piped.Step, Piped.step, if_pos hfree, hsome, Option.map_some]
      have hround := poll_round hpolls hstep
      have hthreads : entry ∈ p.mgr.changedoneC.threads := List.mem_append_left _ hasleep
      refine .later hgo ?_
      rcases (h.awake.poll h.inv.sound hpolls hstep).2 with hnil | hless
      · exact .now (hround.woken_mem hthreads hnil)
      · rcases List.mem_append.mp (hround.threads.mem_iff.mpr hthreads) with hstill | hwoken
        · have hproper : p.Proper (.run event) := by
            cases event <;> trivial
          have hnext : Flow capacity { p with mgr := after } := h.step hproper hgo.2
          exact ih _ (hrounds ▸ hless) _ hnext hwriter rfl hstill
        · exact .now hwoken

-- A call that is accepted wakes nobody.
theorem writes_asleep (hwrites : event.writes = true) (h : Step m event after) :
    m.changedoneC.asleep ⊆ after.changedoneC.asleep := by
  cases event with
  | addCallback fd flag ch =>
      obtain ⟨-, rfl⟩ := addCallback_some h
      exact List.Subset.refl _
  | delCallback fd flag =>
      obtain ⟨dropped, aio, -, rfl⟩ := delCallback_some h
      exact List.Subset.refl _
  | blockRemoveFd thread fd =>
      obtain ⟨dropped, aio, -, rfl⟩ := blockRemoveFd_some h
      exact List.subset_append_left _ _
  | _ => cases hwrites

-- With room in the pipe, the call that has waited is over.
theorem Flow.unblock (h : Flow capacity p) (hwriter : p.writer = some (polls, call))
    (hroom : p.mgr.aio.pipe < capacity) (hasleep : entry ∈ p.mgr.changedoneC.asleep) :
    Comes (Guarded Own (Piped.Step capacity)) (fun woken => entry ∈ woken.mgr.changedoneC.woken) p := by
  obtain ⟨hwrites, -, hsome, -⟩ := h.held polls call hwriter
  obtain ⟨after, hstep⟩ := Option.isSome_iff_exists.mp hsome
  have hgo : Guarded Own (Piped.Step capacity) p .unblock { mgr := after } := by
    refine ⟨trivial, ?_⟩
    simp only [Piped.Step, Piped.step, if_pos hroom, hwriter, Option.bind_some, hstep, Option.map_some]
  have hproper : p.Proper .unblock := trivial
  exact .later hgo ((h.step hproper hgo.2).wakes _ _ rfl rfl (writes_asleep hwrites hstep hasleep))

end Full

end CseLabs.PollMgr
