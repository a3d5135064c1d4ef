import CseLabs.ThrPool.Jobs

namespace CseLabs.ThrPool

open scoped BigOperators

variable {ψ : Type*}

-- What the threads inside the queue can still do.
def backlog (f : Fifo Thread (Option ψ)) : Nat :=
  3 * f.q.length + f.nonEmptyC.woken.length + f.hasSpaceC.woken.length

def Worker.effort : Worker ψ → Nat
  | .ready => 1
  | .running _ => 2
  | .waiting | .exited => 0

def Owner.effort (sz : Nat) : Owner → Nat
  | .live => 0
  | .adding index => 5 * (sz - index) + sz + 1
  | .waiting index => 5 * (sz - index) + sz
  | .joining index => sz - index

-- A bound for the steps that are left when nobody adds jobs and no wait ends without a signal.
def Pool.effort (p : Pool ψ) : Nat :=
  p.owner.effort p.nthreads + backlog p.jobq + ∑ index ∈ Finset.range p.nthreads, (p.worker index).effort

-- The steps of the workers and of ~ThrPool.
def Event.internal : Event ψ → Bool
  | .takeJob _ _ | .takeAgain _ _ | .finish _ | .pill _ | .pillAgain _ | .join => true
  | .addJob _ _ _ | .addAgain _ _ _ | .destroy | .enqReturns _ _ | .deqReturns _ => false

def Internal (_ : Pool ψ) (event : Event ψ) : Prop := event.internal = true

instance (p : Pool ψ) (event : Event ψ) : Decidable (Internal p event) :=
  inferInstanceAs (Decidable (event.internal = true))

def Pool.Destroyed (p : Pool ψ) : Prop := p.owner = .joining p.nthreads

section Effort

variable {p next : Pool ψ} {index : Nat}

theorem sum_effort (worker : Nat → Worker ψ) {sz : Nat} (hi : index < sz) (value : Worker ψ) :
    ∑ j ∈ Finset.range sz, (Function.update worker index value j).effort + (worker index).effort =
      ∑ j ∈ Finset.range sz, (worker j).effort + value.effort :=
  sum_update_add _ worker Worker.effort (Finset.mem_range.mpr hi) value

theorem after_effort {sz pills : Nat} : (Owner.after sz pills).effort sz ≤ 5 * (sz - pills) + sz + 1 := by
  unfold Owner.after
  split
  · exact Nat.le_refl _
  · simp only [Owner.effort]
    omega

theorem enq_backlog {queue jobq : Fifo Thread (Option ψ)} {pick : Option Thread} {answer : Option Bool}
    (h : queue.enq .owner none true pick = some (answer, jobq)) :
    answer = none ∧ backlog jobq = backlog queue ∨ answer = some true ∧ backlog jobq ≤ backlog queue + 4 := by
  rcases Fifo.enq_cases h with ⟨-, rfl, c, hsignal, rfl⟩ | ⟨-, -, -, rfl, rfl⟩ | ⟨-, -, hblocking, -⟩
  · have hwoken := CondVar.signal_woken_le hsignal
    refine .inr ⟨rfl, ?_⟩
    simp only [backlog, List.length_append, List.length_singleton]
    omega
  · exact .inl ⟨rfl, rfl⟩
  · cases hblocking

theorem given_effort_le (answer : Option (Option ψ)) : (Worker.given answer).effort ≤ 2 := by
  match answer with
  | none => exact Nat.zero_le _
  | some none => exact Nat.zero_le _
  | some (some job) => exact Nat.le_refl _

theorem pushed_effort {queue jobq : Fifo Thread (Option ψ)} {pick : Option Thread} {answer : Option Bool}
    (hi : index < p.nthreads) (henq : queue.enq .owner none true pick = some (answer, jobq))
    (hcount : 5 * (p.nthreads - index) + p.nthreads + 1 + backlog queue ≤
      p.owner.effort p.nthreads + backlog p.jobq) :
    (p.pushed index answer jobq).effort < p.effort := by
  have hafter : (Owner.after p.nthreads (index + 1)).effort p.nthreads ≤
      5 * (p.nthreads - (index + 1)) + p.nthreads + 1 := after_effort
  simp only [Pool.effort, Pool.pushed]
  rcases enq_backlog henq with ⟨rfl, hbacklog⟩ | ⟨rfl, hbacklog⟩
  · have hwaiting : (Owner.pushed p.nthreads index none).effort p.nthreads =
        5 * (p.nthreads - index) + p.nthreads := rfl
    omega
  · simp only [Owner.pushed]
    omega

variable [DecidableEq ψ]

theorem deq_backlog {queue jobq : Fifo Thread (Option ψ)} {pick : Option (Thread × Option ψ)}
    {answer : Option (Option ψ)} (h : queue.deq (.worker index) pick = some (answer, jobq)) :
    answer = none ∧ backlog jobq = backlog queue ∨ answer ≠ none ∧ backlog jobq + 2 ≤ backlog queue := by
  rcases Fifo.deq_cases h with ⟨-, rfl, rfl⟩ | ⟨item, rest, hq, rfl, ⟨-, -, c, hsignal, rfl⟩ | ⟨-, rfl⟩⟩
  · exact .inl ⟨rfl, rfl⟩
  · have hwoken := CondVar.signal_woken_le hsignal
    refine .inr ⟨nofun, ?_⟩
    simp only [backlog, hq, List.length_cons]
    omega
  · refine .inr ⟨nofun, ?_⟩
    simp only [backlog, hq, List.length_cons]
    omega

-- A worker that was counted with at least one is at the queue.
theorem took_effort {queue jobq : Fifo Thread (Option ψ)} {pick : Option (Thread × Option ψ)}
    {answer : Option (Option ψ)} (hi : index < p.nthreads)
    (hdeq : queue.deq (.worker index) pick = some (answer, jobq))
    (hcount : backlog queue + 1 ≤ backlog p.jobq + (p.worker index).effort) :
    (p.took index answer jobq).effort < p.effort := by
  have hsum := sum_effort p.worker hi (.given answer)
  have hgiven := given_effort_le answer
  simp only [Pool.effort, Pool.took]
  rcases deq_backlog hdeq with ⟨rfl, hbacklog⟩ | ⟨-, hbacklog⟩
  · have hzero : (Worker.given (none : Option (Option ψ))).effort = 0 := rfl
    omega
  · omega

theorem Inv.effort_lt {event : Event ψ} (h : Inv p) (hinternal : event.internal = true) (hstep : Step p event next) :
    next.effort < p.effort := by
  cases event with
  | addJob caller job pick => cases hinternal
  | addAgain caller job pick => cases hinternal
  | destroy => cases hinternal
  | enqReturns thread item => cases hinternal
  | deqReturns thread => cases hinternal
  | takeJob index pick =>
      obtain ⟨hi, hready, answer, jobq, hdeq, rfl⟩ := takeJob_some hstep
      exact took_effort hi hdeq (by simp [hready, Worker.effort])
  | takeAgain index pick =>
      obtain ⟨c, answer, jobq, hresume, -, hdeq, rfl⟩ := takeAgain_some hstep
      obtain ⟨hi, hwaiting, -⟩ := Staffed.resumed h.staffed hresume
      have hwoken := CondVar.resume_woken hresume
      rw [resumed_took]
      refine took_effort hi hdeq ?_
      simp only [backlog, Pool.resumed]
      omega
  | finish index =>
      simp only [Step, ThrPool.step, ThrPool.finish] at hstep
      split at hstep
      · rename_i job hrunning
        split at hstep
        · rename_i hi
          cases hstep
          have hsum := sum_effort p.worker hi .ready
          have hready : (Worker.ready : Worker ψ).effort = 1 := rfl
          have hbusy : (Worker.running job).effort = 2 := rfl
          rw [hrunning, hready, hbusy] at hsum
          simp only [Pool.effort]
          omega
        · cases hstep
      · cases hstep
  | pill pick =>
      simp only [Step, ThrPool.step, ThrPool.pill] at hstep
      split at hstep
      · rename_i index howner
        obtain ⟨⟨answer, jobq⟩, henq, rfl⟩ := Option.map_eq_some_iff.mp hstep
        have hi := h.owning.within
        rw [howner] at hi
        exact pushed_effort hi henq (by simp [howner, Owner.effort])
      · cases hstep
  | pillAgain pick =>
      simp only [Step, ThrPool.step, ThrPool.pillAgain] at hstep
      split at hstep
      · rename_i index howner
        obtain ⟨⟨answer, jobq⟩, hagain, rfl⟩ := Option.map_eq_some_iff.mp hstep
        obtain ⟨c, hresume, henq⟩ := Fifo.enqAgain_some hagain
        have hwoken := CondVar.resume_woken hresume
        have hi := h.owning.within
        rw [howner] at hi
        refine pushed_effort hi henq ?_
        simp only [howner, Owner.effort, backlog]
        omega
      · cases hstep
  | join =>
      simp only [Step, ThrPool.step, ThrPool.join] at hstep
      split at hstep
      · rename_i index howner
        split at hstep
        · cases hstep
          simp only [Pool.effort, howner, Owner.effort]
          omega
        · cases hstep
      · cases hstep

end Effort

section Progress

variable {p : Pool ψ}

theorem Inv.exited_of_count (h : Inv p) (hcount : p.nthreads ≤ p.out.countP Option.isNone) :
    ∀ index, index < p.nthreads → p.worker index = .exited := by
  intro index hi
  by_contra hne
  have hzero : (p.worker index).exits = 0 := by
    cases hworker : p.worker index with
    | exited => exact absurd hworker hne
    | ready => rfl
    | waiting => rfl
    | running job => rfl
  have hle : ∀ j ∈ (Finset.range p.nthreads).erase index, (p.worker j).exits ≤ 1 := by
    intro j _
    cases p.worker j <;> simp [Worker.exits]
  have hsum := Finset.sum_le_card_nsmul _ _ 1 hle
  have hsplit := Finset.add_sum_erase (Finset.range p.nthreads) (fun j => (p.worker j).exits)
    (Finset.mem_range.mpr hi)
  have hcard := Finset.card_erase_of_mem (Finset.mem_range.mpr hi)
  rw [Finset.card_range] at hcard
  have hexits := h.staffed.exits
  simp only [hzero, zero_add] at hsplit
  simp only [smul_eq_mul, mul_one] at hsum
  omega

-- Each pill that was added has been taken or is in the queue.
theorem Inv.pills_add (h : Inv p) :
    p.out.countP Option.isNone + p.jobq.q.countP Option.isNone = p.owner.pills p.nthreads := by
  obtain ⟨jobs, hjobs⟩ := h.owning.pills
  rw [← List.countP_append]
  change (p.jobq.taken.map Prod.snd ++ p.jobq.q).countP Option.isNone = _
  rw [h.fifo.order, hjobs, List.countP_append, List.countP_replicate]
  simp [List.countP_map, Function.comp_def]

theorem Inv.exited_of_empty (h : Inv p) (hjoin : p.owner.pills p.nthreads = p.nthreads)
    (hnone : p.jobq.q.countP Option.isNone = 0) : ∀ index, index < p.nthreads → p.worker index = .exited := by
  have hpills := h.pills_add
  exact h.exited_of_count (by omega)

-- Nobody has been woken for a job, so either no worker waits or there are no jobs.
theorem Inv.quiet (h : Inv p) {index : Nat} (hi : index < p.nthreads) (hwaiting : p.worker index = .waiting)
    (hwoken : p.jobq.nonEmptyC.woken = []) : p.jobq.q = [] := by
  have hmem := (h.staffed.waiting (.worker index)).mpr ⟨index, hi, rfl, hwaiting⟩
  have hasleep : p.jobq.nonEmptyC.asleep ≠ [] := by
    rw [CondVar.threads, hwoken, List.append_nil] at hmem
    exact List.ne_nil_of_mem hmem
  have hle := h.fifo.takers hasleep
  rw [hwoken] at hle
  exact List.length_eq_zero_iff.mp (Nat.le_zero.mp hle)

-- A pill is missing as long as ~ThrPool adds them.
theorem Inv.exists_waiting (h : Inv p) (hidle : ∀ index, index < p.nthreads → p.worker index = .waiting ∨
    p.worker index = .exited) (hpills : p.owner.pills p.nthreads < p.nthreads) :
    ∃ index, index < p.nthreads ∧ p.worker index = .waiting := by
  by_contra hnone
  have hall : ∀ index ∈ Finset.range p.nthreads, (p.worker index).exits = 1 := by
    intro index hindex
    have hi := Finset.mem_range.mp hindex
    rcases hidle index hi with hwaiting | hexited
    · exact absurd ⟨index, hi, hwaiting⟩ hnone
    · rw [hexited]
      rfl
  have hexits := h.staffed.exits
  have hadd := h.pills_add
  rw [Finset.sum_congr rfl hall, Finset.sum_const, Finset.card_range, smul_eq_mul, mul_one] at hexits
  omega

-- ~ThrPool sleeps only while the queue is full.
theorem Inv.full (h : Inv p) {index : Nat} (howner : p.owner = .waiting index)
    (hasleep : (Thread.owner, none) ∉ p.jobq.hasSpaceC.woken) : 100 * p.nthreads ≤ p.jobq.q.length := by
  have hperm := h.owning.waits (by simp [howner])
  rw [howner] at hperm
  have hmem : (Thread.owner, none) ∈ p.jobq.hasSpaceC.threads := hperm.mem_iff.mpr (List.mem_singleton_self _)
  have hnil : p.jobq.hasSpaceC.woken = [] := by
    refine List.eq_nil_iff_forall_not_mem.mpr fun entry hentry => ?_
    have hsame := hperm.mem_iff.mp (List.mem_append_right p.jobq.hasSpaceC.asleep hentry)
    rw [List.mem_singleton.mp hsame] at hentry
    exact hasleep hentry
  rw [CondVar.threads, hnil, List.append_nil] at hmem
  have hle := h.fifo.putters (List.ne_nil_of_mem hmem)
  rw [hnil, h.max] at hle
  simp only [List.length_nil, Nat.le_zero] at hle
  omega

variable [DecidableEq ψ]

-- A worker that is not waiting and not gone can go on, and so can one that has been woken.
theorem Inv.worker_step (h : Inv p) (hstuck : ¬ ∃ event next, event.internal = true ∧ Step p event next) :
    (∀ index, index < p.nthreads → p.worker index = .waiting ∨ p.worker index = .exited) ∧
      p.jobq.nonEmptyC.woken = [] := by
  constructor
  · intro index hi
    cases hworker : p.worker index with
    | waiting => exact .inl rfl
    | exited => exact .inr rfl
    | ready =>
        obtain ⟨pick, answer, jobq, hdeq⟩ := p.jobq.exists_deq (.worker index)
        refine absurd ⟨.takeJob index pick, p.took index answer jobq, rfl, ?_⟩ hstuck
        simp only [Step, ThrPool.step, ThrPool.takeJob, if_pos (And.intro hi hworker), hdeq, Option.map_some]
    | running job =>
        have hfinish : ThrPool.finish p index = some { p with
            worker := Function.update p.worker index .ready, finished := p.finished ++ [job] } := by
          simp only [ThrPool.finish, hworker, if_pos hi]
        exact absurd ⟨.finish index, _, rfl, hfinish⟩ hstuck
  · refine List.eq_nil_iff_forall_not_mem.mpr fun thread hthread => ?_
    obtain ⟨index, hi, rfl, -⟩ := (h.staffed.waiting thread).mp (List.mem_append_right _ hthread)
    obtain ⟨c, hresume⟩ := CondVar.exists_resume hthread
    obtain ⟨pick, answer, jobq, hdeq⟩ := Fifo.exists_deq { p.jobq with nonEmptyC := c } (.worker index)
    refine absurd ⟨.takeAgain index pick, p.took index answer jobq, rfl, ?_⟩ hstuck
    simp only [Step, ThrPool.step, ThrPool.takeAgain, Fifo.deqAgain, hresume, Option.bind_some, hdeq, Option.map_some]

-- Some thread of the pool can take a step until ~ThrPool has joined the last worker.
theorem Inv.progress (h : Inv p) (hbegun : p.owner ≠ .live) (hleft : ¬ p.Destroyed) :
    ∃ event next, event.internal = true ∧ Step p event next := by
  by_contra hstuck
  obtain ⟨hidle, hwoken⟩ := h.worker_step hstuck
  have hwithin := h.owning.within
  cases howner : p.owner with
  | live => exact hbegun howner
  | adding index =>
      obtain ⟨pick, answer, jobq, henq⟩ := p.jobq.exists_enq .owner none true
      refine hstuck ⟨.pill pick, p.pushed index answer jobq, rfl, ?_⟩
      simp only [Step, ThrPool.step, ThrPool.pill, howner, henq, Option.map_some]
  | waiting index =>
      rw [howner] at hwithin
      by_cases hmem : (Thread.owner, none) ∈ p.jobq.hasSpaceC.woken
      · obtain ⟨c, hresume⟩ := CondVar.exists_resume hmem
        obtain ⟨pick, answer, jobq, henq⟩ := Fifo.exists_enq { p.jobq with hasSpaceC := c } .owner none true
        refine hstuck ⟨.pillAgain pick, p.pushed index answer jobq, rfl, ?_⟩
        simp only [Step, ThrPool.step, ThrPool.pillAgain, Fifo.enqAgain, howner, hresume, Option.bind_some, henq,
          Option.map_some]
      · have hfull := h.full howner hmem
        have hpills : p.owner.pills p.nthreads < p.nthreads := by
          rw [howner]
          exact hwithin
        obtain ⟨other, hother, hwaiting⟩ := h.exists_waiting hidle hpills
        rw [h.quiet hother hwaiting hwoken, List.length_nil] at hfull
        omega
  | joining index =>
      rw [howner] at hwithin
      have hi : index < p.nthreads := by
        refine Nat.lt_of_le_of_ne hwithin ?_
        rintro rfl
        exact hleft howner
      have hexited : p.worker index = .exited := by
        rcases hidle index hi with hwaiting | hexited
        · have hpills : p.owner.pills p.nthreads = p.nthreads := by rw [howner]; rfl
          exact h.exited_of_empty hpills (by rw [h.quiet hi hwaiting hwoken]; rfl) index hi
        · exact hexited
      have hjoin : ThrPool.join p = some { p with owner := .joining (index + 1) } := by
        simp only [ThrPool.join, howner, if_pos (And.intro hi hexited)]
      exact hstuck ⟨.join, _, rfl, hjoin⟩

end Progress

section Results

variable {sz : Nat} {blocking : Bool} {p : Pool ψ}

theorem after_begun (sz pills : Nat) : Owner.after sz pills ≠ .live := by
  unfold Owner.after
  split <;> simp

theorem pushed_begun (sz index : Nat) (answer : Option Bool) : Owner.pushed sz index answer ≠ .live := by
  cases answer with
  | none => simp [Owner.pushed]
  | some _ => exact after_begun sz (index + 1)

-- The last thing in the queue is a pill.
theorem Inv.drained (h : Inv p) (hpos : 0 < p.nthreads) (hdone : p.Destroyed)
    (hexited : ∀ index, index < p.nthreads → p.worker index = .exited) : p.jobq.q = [] := by
  by_contra hne
  obtain ⟨jobs, hjobs⟩ := h.owning.pills
  have hadd := h.pills_add
  have hexits := h.staffed.exits
  have hall : ∀ index ∈ Finset.range p.nthreads, (p.worker index).exits = 1 := fun index hindex => by
    rw [hexited index (Finset.mem_range.mp hindex)]
    rfl
  rw [Finset.sum_congr rfl hall, Finset.sum_const, Finset.card_range, smul_eq_mul, mul_one] at hexits
  rw [hdone, Owner.pills] at hadd hjobs
  have hlast : p.jobq.q.getLast? = some none := by
    have hboth := congrArg List.getLast? (h.fifo.order.trans hjobs)
    rwa [List.getLast?_append_of_ne_nil _ hne, List.getLast?_append_of_ne_nil _ (by simp; omega),
      List.getLast?_replicate, if_neg (by omega)] at hboth
  have hcount : 0 < p.jobq.q.countP Option.isNone :=
    List.countP_pos_iff.mpr ⟨none, List.mem_of_getLast? hlast, rfl⟩
  omega

variable [DecidableEq ψ]

-- No step changes the number of threads or undoes the beginning of ~ThrPool.
theorem step_frame {event : Event ψ} {next : Pool ψ} (hstep : Step p event next) :
    next.nthreads = p.nthreads ∧ (p.owner ≠ .live → next.owner ≠ .live) := by
  cases event with
  | addJob caller job pick =>
      obtain ⟨⟨answer, _⟩, hadd, rfl⟩ := Option.map_eq_some_iff.mp hstep
      unfold ThrPool.addJob at hadd
      split at hadd
      · obtain ⟨_, -, hnext⟩ := Option.map_eq_some_iff.mp hadd
        cases hnext
        exact ⟨rfl, id⟩
      · cases hadd
  | addAgain caller job pick =>
      obtain ⟨⟨answer, _⟩, hadd, rfl⟩ := Option.map_eq_some_iff.mp hstep
      obtain ⟨_, -, hnext⟩ := Option.map_eq_some_iff.mp hadd
      cases hnext
      exact ⟨rfl, id⟩
  | takeJob index pick =>
      obtain ⟨-, -, answer, jobq, -, rfl⟩ := takeJob_some hstep
      exact ⟨rfl, id⟩
  | takeAgain index pick =>
      obtain ⟨c, answer, jobq, -, -, -, rfl⟩ := takeAgain_some hstep
      exact ⟨rfl, id⟩
  | finish index =>
      simp only [Step, ThrPool.step, ThrPool.finish] at hstep
      split at hstep
      · split at hstep
        · cases hstep
          exact ⟨rfl, id⟩
        · cases hstep
      · cases hstep
  | destroy =>
      simp only [Step, ThrPool.step, ThrPool.destroy] at hstep
      split at hstep
      · cases hstep
        exact ⟨rfl, fun _ => after_begun _ _⟩
      · cases hstep
  | pill pick =>
      simp only [Step, ThrPool.step, ThrPool.pill] at hstep
      split at hstep
      · obtain ⟨_, -, rfl⟩ := Option.map_eq_some_iff.mp hstep
        exact ⟨rfl, fun _ => pushed_begun _ _ _⟩
      · cases hstep
  | pillAgain pick =>
      simp only [Step, ThrPool.step, ThrPool.pillAgain] at hstep
      split at hstep
      · obtain ⟨_, -, rfl⟩ := Option.map_eq_some_iff.mp hstep
        exact ⟨rfl, fun _ => pushed_begun _ _ _⟩
      · cases hstep
  | join =>
      simp only [Step, ThrPool.step, ThrPool.join] at hstep
      split at hstep
      · split at hstep
        · cases hstep
          exact ⟨rfl, by simp⟩
        · cases hstep
      · cases hstep
  | enqReturns thread item =>
      obtain ⟨jobq, -, rfl⟩ := Option.map_eq_some_iff.mp hstep
      exact ⟨rfl, id⟩
  | deqReturns thread =>
      obtain ⟨jobq, -, rfl⟩ := Option.map_eq_some_iff.mp hstep
      exact ⟨rfl, id⟩

theorem reachable_nthreads (hr : Reachable Step (initial sz blocking) p) : p.nthreads = sz := by
  refine hr.invariant (fun p => p.nthreads = sz) ?_ fun _ _ _ h hstep => (step_frame hstep).1.trans h
  rintro _ rfl
  rfl

theorem effort_run {events : List (Event ψ)} {last : Pool ψ} (h : Inv p) (hbegun : p.owner ≠ .live)
    (run : Run (Guarded Internal Step) (fun start => start = p) events last) :
    Inv last ∧ last.owner ≠ .live ∧ last.effort + events.length ≤ p.effort := by
  induction run with
  | start hstart =>
      subst hstart
      exact ⟨h, hbegun, Nat.le_refl _⟩
  | extend run hstep ih =>
      obtain ⟨hinv, howner, hle⟩ := ih
      have hlt := hinv.effort_lt hstep.1 hstep.2
      refine ⟨hinv.step hstep.2, (step_frame hstep.2).2 howner, ?_⟩
      rw [List.length_append, List.length_singleton]
      omega

-- Once it has begun, ~ThrPool ends whatever the schedule.
theorem destroy_ends (hr : Reachable Step (initial sz blocking) p) (hbegun : p.owner ≠ .live)
    {events : List (Event ψ)} {last : Pool ψ} (run : Run (Guarded Internal Step) (fun start => start = p) events last) :
    events.length ≤ p.effort ∧ (last.Destroyed ∨ ∃ event next, event.internal = true ∧ Step last event next) := by
  obtain ⟨hinv, howner, hle⟩ := effort_run (reachable_inv hr) hbegun run
  refine ⟨by omega, ?_⟩
  by_cases hdone : last.Destroyed
  · exact .inl hdone
  · exact .inr (hinv.progress howner hdone)

-- A pool of one thread whose destruction begins while a job is in the queue.
def doomed : Pool Nat :=
  { nthreads := 1, blockadd := false, jobq := { q := [some 7], max := 100, entered := [some 7] }, owner := .adding 0 }

theorem doomed_reachable : Reachable Step (initial 1 false) doomed := by
  have hstart : Reachable Step (initial 1 false)
      ({ nthreads := 1, blockadd := false, jobq := { max := 100 } } : Pool Nat) := .start rfl
  have hexec : execute step ({ nthreads := 1, blockadd := false, jobq := { max := 100 } } : Pool Nat)
      [.addJob 0 7 none, .destroy] = some doomed := rfl
  exact hstart.computed hexec

theorem doomed_run : ∃ last : Pool Nat, last.Destroyed ∧ last.finished = [7] ∧
    Run (Guarded Internal Step) (fun start => start = doomed)
      [.takeJob 0 none, .finish 0, .pill none, .takeJob 0 none, .join] last := by
  have hstart : Run (Guarded Internal Step) (fun start => start = doomed) [] doomed := .start rfl
  have hexec : (execute (fun p event => if Internal p event then step p event else none) doomed
      [.takeJob 0 none, .finish 0, .pill none, .takeJob 0 none, .join]).map
      (fun p => (p.owner, p.nthreads, p.finished)) = some (.joining 1, 1, [7]) := by decide
  obtain ⟨last, hlast, hfields⟩ := Option.map_eq_some_iff.mp hexec
  simp only [Prod.mk.injEq] at hfields
  exact ⟨last, by rw [Pool.Destroyed, hfields.1, hfields.2.1], hfields.2.2, hstart.executed hlast⟩

theorem destroy_ends_doomed : ∃ last : Pool Nat, last.Destroyed ∧ last.finished = [7] ∧ 5 ≤ doomed.effort := by
  obtain ⟨last, hdone, hfinished, run⟩ := doomed_run
  exact ⟨last, hdone, hfinished, (destroy_ends doomed_reachable (by simp [doomed]) run).1⟩

-- When it has ended, every worker is gone, nothing is left in the queue, and every job has been run.
theorem destroyed_drained (hpos : 0 < sz) (hr : Reachable Step (initial sz blocking) p) (hdone : p.Destroyed) :
    (∀ index, index < sz → p.worker index = .exited) ∧ p.jobq.q = [] ∧ p.jobq.nonEmptyC.threads = [] ∧
      p.jobq.hasSpaceC.threads = [] ∧ p.finished.Perm p.accepted := by
  obtain rfl := reachable_nthreads hr
  have h := reachable_inv hr
  have hexited : ∀ index, index < p.nthreads → p.worker index = .exited := h.owning.joined _ hdone
  have hnil := h.drained hpos hdone hexited
  have hspace := h.owning.waits (by rw [hdone]; simp)
  rw [hdone] at hspace
  refine ⟨hexited, hnil, ?_, hspace.eq_nil, ?_⟩
  · refine List.eq_nil_iff_forall_not_mem.mpr fun thread hthread => ?_
    obtain ⟨index, hi, -, hwaiting⟩ := (h.staffed.waiting thread).mp hthread
    rw [hexited index hi] at hwaiting
    cases hwaiting
  · have hjobs := h.staffed.jobs
    have hidle : ∑ index ∈ Finset.range p.nthreads, (p.worker index).job = 0 := by
      refine Finset.sum_eq_zero fun index hindex => ?_
      rw [hexited index (Finset.mem_range.mp hindex)]
      rfl
    rw [hidle, add_zero, Multiset.coe_eq_coe] at hjobs
    rwa [Pool.accepted, ← h.fifo.order, hnil, List.append_nil]

theorem destroyed_drained_doomed : ∃ last : Pool Nat, last.Destroyed ∧ last.jobq.q = [] ∧ last.accepted = [7] := by
  obtain ⟨last, hdone, hfinished, run⟩ := doomed_run
  have hr := doomed_reachable.follow (run.mono fun _ _ _ hstep => hstep.2)
  obtain ⟨-, hnil, -, -, hperm⟩ := destroyed_drained Nat.one_pos hr hdone
  rw [hfinished] at hperm
  exact ⟨last, hdone, hnil, List.perm_singleton.mp hperm.symm⟩

end Results

end CseLabs.ThrPool
