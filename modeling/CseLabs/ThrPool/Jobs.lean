import CseLabs.ThrPool

namespace CseLabs.ThrPool

open scoped BigOperators

variable {ψ : Type*}

def Worker.exits : Worker ψ → Nat
  | .exited => 1
  | .ready | .waiting | .running _ => 0

def Worker.job : Worker ψ → Multiset ψ
  | .running job => {job}
  | .ready | .waiting | .exited => 0

-- What came out of the queue so far.
def Pool.out (p : Pool ψ) : List (Option ψ) := p.jobq.taken.map Prod.snd

def Pool.running (p : Pool ψ) : Multiset ψ := ∑ index ∈ Finset.range p.nthreads, (p.worker index).job

-- The jobs that addJob accepted, those that a worker took, and those that wait.
def Pool.accepted (p : Pool ψ) : List ψ := p.jobq.entered.reduceOption

def Pool.started (p : Pool ψ) : List ψ := p.out.reduceOption

def Pool.queued (p : Pool ψ) : List ψ := p.jobq.q.reduceOption

-- The workers agree with the queue: those in takeJob are the threads that wait for a job, each pill
-- that was taken has ended one, and each job that was taken has returned or is being run.
structure Workers (sz : Nat) (worker : Nat → Worker ψ) (finished : List ψ) (waiters : List Thread)
    (out : List (Option ψ)) : Prop where
  nodup : waiters.Nodup
  waiting : ∀ thread, thread ∈ waiters ↔ ∃ index, index < sz ∧ thread = .worker index ∧ worker index = .waiting
  exits : ∑ index ∈ Finset.range sz, (worker index).exits = out.countP Option.isNone
  jobs : (finished : Multiset ψ) + ∑ index ∈ Finset.range sz, (worker index).job = out.reduceOption

section Workers

variable {sz index : Nat} {worker : Nat → Worker ψ} {finished : List ψ} {waiters : List Thread}
  {out : List (Option ψ)}

theorem Workers.perm {others : List Thread} (h : Workers sz worker finished waiters out) (hperm : others.Perm waiters) :
    Workers sz worker finished others out := by
  refine ⟨hperm.nodup_iff.mpr h.nodup, fun thread => ?_, h.exits, h.jobs⟩
  rw [hperm.mem_iff]
  exact h.waiting thread

theorem sum_exits (worker : Nat → Worker ψ) (hi : index < sz) (value : Worker ψ) :
    ∑ j ∈ Finset.range sz, (Function.update worker index value j).exits + (worker index).exits =
      ∑ j ∈ Finset.range sz, (worker j).exits + value.exits :=
  sum_update_add _ worker Worker.exits (Finset.mem_range.mpr hi) value

theorem sum_job (worker : Nat → Worker ψ) (hi : index < sz) (value : Worker ψ) :
    ∑ j ∈ Finset.range sz, (Function.update worker index value j).job + (worker index).job =
      ∑ j ∈ Finset.range sz, (worker j).job + value.job :=
  sum_update_add _ worker Worker.job (Finset.mem_range.mpr hi) value

-- A worker that is not in takeJob goes on to something else than waiting.
theorem Workers.change {value : Worker ψ} {done : List ψ} {got : List (Option ψ)}
    (h : Workers sz worker finished waiters out) (hi : index < sz) (hold : worker index ≠ .waiting)
    (hvalue : value ≠ .waiting)
    (hexits : out.countP Option.isNone + value.exits = got.countP Option.isNone + (worker index).exits)
    (hjobs : (done : Multiset ψ) + out.reduceOption + value.job =
      (finished : Multiset ψ) + got.reduceOption + (worker index).job) :
    Workers sz (Function.update worker index value) done waiters got := by
  refine ⟨h.nodup, fun thread => ?_, ?_, ?_⟩
  · rw [h.waiting]
    refine exists_congr fun other => and_congr_right fun hlt => and_congr_right fun _ => ?_
    by_cases heq : other = index
    · subst heq
      rw [Function.update_self]
      exact ⟨fun hwaiting => absurd hwaiting hold, fun hwaiting => absurd hwaiting hvalue⟩
    · rw [Function.update_of_ne heq]
  · have hsum := sum_exits worker hi value
    have hcount := h.exits
    omega
  · have hsum := sum_job worker hi value
    have hcount := h.jobs
    have htotal : (finished : Multiset ψ) + (worker index).job +
        ((done : Multiset ψ) + ∑ j ∈ Finset.range sz, (Function.update worker index value j).job) =
        (finished : Multiset ψ) + (worker index).job + got.reduceOption := by
      calc (finished : Multiset ψ) + (worker index).job +
            ((done : Multiset ψ) + ∑ j ∈ Finset.range sz, (Function.update worker index value j).job)
          = (finished : Multiset ψ) + done +
              (∑ j ∈ Finset.range sz, (Function.update worker index value j).job + (worker index).job) := by abel
        _ = (done : Multiset ψ) + ((finished : Multiset ψ) + ∑ j ∈ Finset.range sz, (worker j).job) + value.job := by
            rw [hsum]
            abel
        _ = (finished : Multiset ψ) + got.reduceOption + (worker index).job := by rw [hcount, hjobs]
        _ = (finished : Multiset ψ) + (worker index).job + got.reduceOption := by abel
    exact add_left_cancel htotal

theorem Workers.wait (h : Workers sz worker finished waiters out) (hi : index < sz)
    (hready : worker index = .ready) :
    Workers sz (Function.update worker index .waiting) finished (.worker index :: waiters) out := by
  have hne : ∀ other, worker other = .waiting → other ≠ index := by
    rintro other hwaiting rfl
    rw [hready] at hwaiting
    cases hwaiting
  refine ⟨List.nodup_cons.mpr ⟨fun hmem => ?_, h.nodup⟩, fun thread => ?_, ?_, ?_⟩
  · obtain ⟨other, -, hother, hwaiting⟩ := (h.waiting _).mp hmem
    cases hother
    exact hne index hwaiting rfl
  · rw [List.mem_cons, h.waiting]
    constructor
    · rintro (rfl | ⟨other, hlt, rfl, hwaiting⟩)
      · exact ⟨index, hi, rfl, Function.update_self ..⟩
      · exact ⟨other, hlt, rfl, (Function.update_of_ne (hne other hwaiting) ..).trans hwaiting⟩
    · rintro ⟨other, hlt, rfl, hwaiting⟩
      by_cases heq : other = index
      · exact .inl (congrArg Thread.worker heq)
      · exact .inr ⟨other, hlt, rfl, (Function.update_of_ne heq ..).symm.trans hwaiting⟩
  · have hsum := sum_exits worker hi .waiting
    rw [hready] at hsum
    exact hsum.trans h.exits
  · have hsum := sum_job worker hi .waiting
    rw [hready] at hsum
    simp only [Worker.job, add_zero] at hsum
    exact (congrArg _ hsum).trans h.jobs

-- A woken worker goes on like one that has just called takeJob.
theorem Workers.resume (h : Workers sz worker finished (.worker index :: waiters) out) :
    index < sz ∧ worker index = .waiting ∧ Workers sz (Function.update worker index .ready) finished waiters out := by
  obtain ⟨other, hi, hother, hwaiting⟩ := (h.waiting _).mp List.mem_cons_self
  cases hother
  obtain ⟨hnot, hnodup⟩ := List.nodup_cons.mp h.nodup
  refine ⟨hi, hwaiting, hnodup, fun thread => ?_, ?_, ?_⟩
  · have hold := h.waiting thread
    rw [List.mem_cons] at hold
    constructor
    · intro hthread
      obtain ⟨other, hlt, rfl, hother⟩ := hold.mp (.inr hthread)
      have hne : other ≠ index := fun heq => hnot (heq ▸ hthread)
      exact ⟨other, hlt, rfl, (Function.update_of_ne hne ..).trans hother⟩
    · rintro ⟨other, hlt, rfl, hother⟩
      by_cases heq : other = index
      · subst heq
        rw [Function.update_self] at hother
        cases hother
      · rw [Function.update_of_ne heq] at hother
        rcases hold.mpr ⟨other, hlt, rfl, hother⟩ with hsame | hthread
        · cases hsame
          exact absurd rfl heq
        · exact hthread
  · have hsum := sum_exits worker hi .ready
    rw [hwaiting] at hsum
    exact hsum.trans h.exits
  · have hsum := sum_job worker hi .ready
    rw [hwaiting] at hsum
    simp only [Worker.job, add_zero] at hsum
    exact (congrArg _ hsum).trans h.jobs

end Workers

def Pool.Staffed (p : Pool ψ) : Prop :=
  Workers p.nthreads p.worker p.finished p.jobq.nonEmptyC.threads p.out

-- The pool with a woken worker back before its call.
def Pool.resumed (p : Pool ψ) (index : Nat) (c : CondVar Thread) : Pool ψ :=
  { p with jobq := { p.jobq with nonEmptyC := c }, worker := Function.update p.worker index .ready }

theorem Staffed.resumed {p : Pool ψ} {index : Nat} {c : CondVar Thread} (h : p.Staffed)
    (hresume : p.jobq.nonEmptyC.resume (.worker index) = some c) :
    index < p.nthreads ∧ p.worker index = .waiting ∧ (p.resumed index c).Staffed :=
  (h.perm (CondVar.resume_threads hresume).symm).resume

theorem resumed_took {answer : Option (Option ψ)} {jobq : Fifo Thread (Option ψ)} (p : Pool ψ) (index : Nat)
    (c : CondVar Thread) :
    (p.resumed index c).took index answer jobq = p.took index answer jobq := by
  simp [Pool.took, Pool.resumed]

section Taking

variable [DecidableEq ψ] {p : Pool ψ} {index : Nat} {answer : Option (Option ψ)} {jobq : Fifo Thread (Option ψ)}
  {pick : Option (Thread × Option ψ)}

theorem Staffed.took (h : p.Staffed) (hi : index < p.nthreads) (hready : p.worker index = .ready)
    (hdeq : p.jobq.deq (.worker index) pick = some (answer, jobq)) : (p.took index answer jobq).Staffed := by
  rcases Fifo.deq_cases hdeq with ⟨-, rfl, rfl⟩ | ⟨item, rest, -, rfl, hcase⟩
  · exact (h.wait hi hready).perm (CondVar.wait_threads _ _)
  · have hkept : jobq.nonEmptyC = p.jobq.nonEmptyC ∧ jobq.taken.map Prod.snd = p.out ++ [item] := by
      rcases hcase with ⟨-, -, c, -, rfl⟩ | ⟨-, rfl⟩
      · exact ⟨rfl, List.map_append⟩
      · exact ⟨rfl, List.map_append⟩
    have hold : p.worker index ≠ .waiting := by simp [hready]
    unfold Pool.Staffed Pool.out Pool.took
    rw [hkept.1, hkept.2]
    cases item with
    | none =>
        simp only [Worker.given]
        refine h.change hi hold (by simp) (by simp [hready, Worker.exits]) ?_
        simp [hready, Worker.job, List.reduceOption_append]
    | some job =>
        simp only [Worker.given]
        refine h.change hi hold (by simp) (by simp [hready, Worker.exits]) ?_
        simp only [hready, Worker.job, List.reduceOption_append, add_zero, add_assoc]
        rfl

theorem takeJob_some {next : Pool ψ} (h : takeJob p index pick = some next) :
    index < p.nthreads ∧ p.worker index = .ready ∧ ∃ answer jobq,
      p.jobq.deq (.worker index) pick = some (answer, jobq) ∧ next = p.took index answer jobq := by
  unfold takeJob at h
  split at h
  · rename_i hguard
    obtain ⟨⟨answer, jobq⟩, hdeq, rfl⟩ := Option.map_eq_some_iff.mp h
    exact ⟨hguard.1, hguard.2, answer, jobq, hdeq, rfl⟩
  · cases h

theorem takeAgain_some {next : Pool ψ} (h : takeAgain p index pick = some next) :
    ∃ c answer jobq, p.jobq.nonEmptyC.resume (.worker index) = some c ∧
      p.jobq.deqAgain (.worker index) pick = some (answer, jobq) ∧
      (p.resumed index c).jobq.deq (.worker index) pick = some (answer, jobq) ∧
      next = (p.resumed index c).took index answer jobq := by
  obtain ⟨⟨answer, jobq⟩, hagain, rfl⟩ := Option.map_eq_some_iff.mp h
  obtain ⟨c, hresume, hdeq⟩ := Fifo.deqAgain_some hagain
  exact ⟨c, answer, jobq, hresume, hagain, hdeq, (resumed_took p index c).symm⟩

end Taking

def Owner.pills (sz : Nat) : Owner → Nat
  | .live => 0
  | .adding index | .waiting index => index
  | .joining _ => sz

def Owner.waits : Owner → List (Thread × Option ψ)
  | .waiting _ => [(.owner, none)]
  | .live | .adding _ | .joining _ => []

def Owner.Within (sz : Nat) : Owner → Prop
  | .live => True
  | .adding index | .waiting index => index < sz
  | .joining index => index ≤ sz

-- The pills come after all jobs, and only ~ThrPool is at the queue once it has begun.
structure Owning (sz : Nat) (owner : Owner) (worker : Nat → Worker ψ) (space : List (Thread × Option ψ))
    (entered : List (Option ψ)) : Prop where
  pills : ∃ jobs : List ψ, entered = jobs.map some ++ List.replicate (owner.pills sz) none
  waits : owner ≠ .live → space.Perm owner.waits
  within : owner.Within sz
  joined : ∀ index, owner = .joining index → ∀ before, before < index → worker before = .exited

section Owning

variable {sz index : Nat} {owner : Owner} {worker : Nat → Worker ψ} {space others : List (Thread × Option ψ)}
  {entered : List (Option ψ)}

theorem after_pills {pills : Nat} (h : pills ≤ sz) : (Owner.after sz pills).pills sz = pills := by
  unfold Owner.after
  split
  · rfl
  · exact Nat.le_antisymm (not_lt.mp ‹_›) h

theorem after_waits (sz pills : Nat) : ((Owner.after sz pills).waits : List (Thread × Option ψ)) = [] := by
  unfold Owner.after
  split <;> rfl

theorem after_within (sz pills : Nat) : (Owner.after sz pills).Within sz := by
  unfold Owner.after
  split
  · assumption
  · exact Nat.zero_le _

theorem after_joining {pills : Nat} (h : Owner.after sz pills = .joining index) : index = 0 := by
  unfold Owner.after at h
  split at h
  · cases h
  · cases h
    rfl

theorem Owning.perm (h : Owning sz owner worker space entered) (hperm : others.Perm space) :
    Owning sz owner worker others entered :=
  ⟨h.pills, fun hlive => hperm.trans (h.waits hlive), h.within, h.joined⟩

-- Only a worker that has not exited changes.
theorem Owning.update {value : Worker ψ} (h : Owning sz owner worker space entered) (hold : worker index ≠ .exited) :
    Owning sz owner (Function.update worker index value) space entered := by
  refine ⟨h.pills, h.waits, h.within, fun last hlast before hlt => ?_⟩
  have hexited := h.joined last hlast before hlt
  have hne : before ≠ index := by
    rintro rfl
    exact hold hexited
  rw [Function.update_of_ne hne]
  exact hexited

theorem Owning.add {job : ψ} (h : Owning sz .live worker space entered) :
    Owning sz .live worker space (entered ++ [some job]) := by
  refine ⟨?_, h.waits, h.within, h.joined⟩
  obtain ⟨jobs, rfl⟩ := h.pills
  exact ⟨jobs ++ [job], by simp [Owner.pills]⟩

theorem Owning.block (h : Owning sz .live worker space entered) : Owning sz .live worker others entered :=
  ⟨h.pills, fun hlive => absurd rfl hlive, h.within, h.joined⟩

-- From so many pills to one more.
theorem Owning.pill (h : Owning sz owner worker space entered)
    (howner : owner = .adding index ∨ owner = .waiting index) (hspace : others.Perm []) :
    Owning sz (.after sz (index + 1)) worker others (entered ++ [none]) := by
  have hpills : owner.pills sz = index := by rcases howner with rfl | rfl <;> rfl
  have hlt : index < sz := by rcases howner with rfl | rfl <;> exact h.within
  refine ⟨?_, fun _ => ?_, after_within _ _, fun last hlast before hbefore => ?_⟩
  · obtain ⟨jobs, rfl⟩ := h.pills
    refine ⟨jobs, ?_⟩
    rw [after_pills hlt, hpills, List.replicate_succ', List.append_assoc]
  · rw [after_waits]
    exact hspace
  · obtain rfl := after_joining hlast
    exact absurd hbefore (Nat.not_lt_zero _)

theorem Owning.waitPill (h : Owning sz owner worker space entered)
    (howner : owner = .adding index ∨ owner = .waiting index) (hspace : others.Perm [(.owner, none)]) :
    Owning sz (.waiting index) worker others entered := by
  have hpills : owner.pills sz = index := by rcases howner with rfl | rfl <;> rfl
  have hlt : index < sz := by rcases howner with rfl | rfl <;> exact h.within
  refine ⟨?_, fun _ => hspace, hlt, fun last hlast => nomatch hlast⟩
  obtain ⟨jobs, rfl⟩ := h.pills
  exact ⟨jobs, by rw [hpills]; rfl⟩

theorem Owning.destroy (h : Owning sz .live worker space entered) (hspace : space = []) :
    Owning sz (.after sz 0) worker space entered := by
  refine ⟨?_, fun _ => ?_, after_within _ _, fun last hlast before hbefore => ?_⟩
  · obtain ⟨jobs, rfl⟩ := h.pills
    exact ⟨jobs, by rw [after_pills (Nat.zero_le _)]; rfl⟩
  · rw [after_waits, hspace]
  · obtain rfl := after_joining hlast
    exact absurd hbefore (Nat.not_lt_zero _)

theorem Owning.join (h : Owning sz (.joining index) worker space entered) (hi : index < sz)
    (hexited : worker index = .exited) : Owning sz (.joining (index + 1)) worker space entered := by
  refine ⟨h.pills, fun _ => h.waits (by simp), hi, fun last hlast before hbefore => ?_⟩
  cases hlast
  rcases Nat.lt_succ_iff_lt_or_eq.mp hbefore with hlt | rfl
  · exact h.joined index rfl before hlt
  · exact hexited

end Owning

structure Inv (p : Pool ψ) : Prop where
  fifo : p.jobq.Inv
  max : p.jobq.max = 100 * p.nthreads
  staffed : p.Staffed
  owning : Owning p.nthreads p.owner p.worker p.jobq.hasSpaceC.threads p.jobq.entered

theorem initial_inv {sz : Nat} {blocking : Bool} {p : Pool ψ} (h : initial sz blocking p) : Inv p := by
  subst h
  refine ⟨Fifo.initial_inv rfl, rfl, ⟨List.nodup_nil, fun thread => ?_, ?_, ?_⟩, ⟨[], rfl⟩,
    fun hlive => absurd rfl hlive, trivial, fun _ hlast => nomatch hlast⟩
  · simp [CondVar.threads]
  · simp [Worker.exits, Pool.out]
  · simp [Worker.job, Pool.out]

theorem Inv.destroy {p next : Pool ψ} (h : Inv p) (hstep : destroy p = some next) : Inv next := by
  unfold ThrPool.destroy at hstep
  split at hstep
  · rename_i hguard
    cases hstep
    have howning := h.owning
    rw [hguard.1] at howning
    exact ⟨h.fifo, h.max, h.staffed, howning.destroy hguard.2⟩
  · cases hstep

-- An addJob that runs, or a pill: the workers do not notice.
theorem workers_enq {sz : Nat} {worker : Nat → Worker ψ} {finished : List ψ} {queue jobq : Fifo Thread (Option ψ)}
    {thread : Thread} {item : Option ψ} {blocking : Bool} {pick : Option Thread} {answer : Option Bool}
    (henq : queue.enq thread item blocking pick = some (answer, jobq))
    (h : Workers sz worker finished queue.nonEmptyC.threads (queue.taken.map Prod.snd)) :
    Workers sz worker finished jobq.nonEmptyC.threads (jobq.taken.map Prod.snd) := by
  obtain ⟨hperm, htaken⟩ := Fifo.enq_takers henq
  rw [htaken]
  exact h.perm hperm

-- A pill that enq takes or makes wait, seen from the queue with the thread outside.
theorem owning_enq {sz index : Nat} {owner : Owner} {worker : Nat → Worker ψ} {queue jobq : Fifo Thread (Option ψ)}
    {space : List (Thread × Option ψ)} {pick : Option Thread} {answer : Option Bool}
    (henq : queue.enq .owner none true pick = some (answer, jobq)) (hspace : queue.hasSpaceC.threads.Perm [])
    (howner : owner = .adding index ∨ owner = .waiting index) (h : Owning sz owner worker space queue.entered) :
    Owning sz (.pushed sz index answer) worker jobq.hasSpaceC.threads jobq.entered := by
  rcases Fifo.enq_cases henq with ⟨-, rfl, c, -, rfl⟩ | ⟨-, -, -, rfl, rfl⟩ | ⟨-, -, hblocking, -⟩
  · exact h.pill howner hspace
  · exact h.waitPill howner ((CondVar.wait_threads _ _).trans (hspace.cons _))
  · cases hblocking

section Steps

variable {p next : Pool ψ} {index : Nat}

theorem Inv.finish (h : Inv p) (hstep : finish p index = some next) : Inv next := by
  unfold ThrPool.finish at hstep
  split at hstep
  · rename_i job hrunning
    split at hstep
    · rename_i hi
      cases hstep
      have hchange : Workers p.nthreads (Function.update p.worker index .ready) (p.finished ++ [job])
          p.jobq.nonEmptyC.threads p.out := by
        refine h.staffed.change hi (by simp [hrunning]) (by simp) (by simp [hrunning, Worker.exits]) ?_
        simp only [hrunning, Worker.job, add_zero, ← Multiset.coe_add, ← Multiset.coe_singleton]
        abel
      exact ⟨h.fifo, h.max, hchange, h.owning.update (by simp [hrunning])⟩
    · cases hstep
  · cases hstep

theorem Inv.addJob {caller : Nat} {job : ψ} {pick : Option Thread} {answer : Option Bool} (h : Inv p)
    (hstep : addJob p caller job pick = some (answer, next)) : Inv next := by
  unfold ThrPool.addJob at hstep
  split at hstep
  · rename_i hlive
    obtain ⟨⟨_, jobq⟩, henq, hnext⟩ := Option.map_eq_some_iff.mp hstep
    cases hnext
    have howning := h.owning
    rw [hlive] at howning
    refine ⟨h.fifo.enq henq, (Fifo.enq_max henq).trans h.max, workers_enq henq h.staffed, ?_⟩
    change Owning p.nthreads p.owner p.worker jobq.hasSpaceC.threads jobq.entered
    rw [hlive]
    rcases Fifo.enq_cases henq with ⟨-, -, c, -, rfl⟩ | ⟨-, -, -, -, rfl⟩ | ⟨-, -, -, -, rfl⟩
    · exact howning.add
    · exact howning.block
    · exact howning
  · cases hstep

theorem Inv.pill {pick : Option Thread} (h : Inv p) (hstep : pill p pick = some next) : Inv next := by
  unfold ThrPool.pill at hstep
  split at hstep
  · rename_i index howner
    obtain ⟨⟨answer, jobq⟩, henq, rfl⟩ := Option.map_eq_some_iff.mp hstep
    have hspace : p.jobq.hasSpaceC.threads.Perm [] := by
      have hwaits := h.owning.waits (by simp [howner])
      rwa [howner] at hwaits
    exact ⟨h.fifo.enq henq, (Fifo.enq_max henq).trans h.max, workers_enq henq h.staffed,
      owning_enq henq hspace (.inl howner) h.owning⟩
  · cases hstep

variable [DecidableEq ψ]

theorem Inv.takeJob {pick : Option (Thread × Option ψ)} (h : Inv p) (hstep : takeJob p index pick = some next) :
    Inv next := by
  obtain ⟨hi, hready, answer, jobq, hdeq, rfl⟩ := takeJob_some hstep
  obtain ⟨hspace, hentered⟩ := Fifo.deq_putters hdeq
  refine ⟨h.fifo.deq hdeq, (Fifo.deq_max hdeq).trans h.max, Staffed.took h.staffed hi hready hdeq, ?_⟩
  change Owning p.nthreads p.owner _ jobq.hasSpaceC.threads jobq.entered
  rw [hentered]
  exact (h.owning.perm hspace).update (by simp [hready])

theorem Inv.takeAgain {pick : Option (Thread × Option ψ)} (h : Inv p) (hstep : takeAgain p index pick = some next) :
    Inv next := by
  obtain ⟨c, answer, jobq, hresume, hagain, hdeq, rfl⟩ := takeAgain_some hstep
  obtain ⟨hi, hwaiting, hstaffed⟩ := Staffed.resumed h.staffed hresume
  obtain ⟨hspace, hentered⟩ := Fifo.deq_putters hdeq
  have hmax := Fifo.deq_max hdeq
  have htook := Staffed.took hstaffed hi (Function.update_self ..) hdeq
  refine ⟨h.fifo.deqAgain hagain, hmax.trans h.max, htook, ?_⟩
  rw [resumed_took]
  change Owning p.nthreads p.owner _ jobq.hasSpaceC.threads jobq.entered
  rw [hentered]
  exact (h.owning.perm hspace).update (by simp [hwaiting])

theorem Inv.join (h : Inv p) (hstep : join p = some next) : Inv next := by
  unfold ThrPool.join at hstep
  split at hstep
  · rename_i index howner
    split at hstep
    · rename_i hguard
      cases hstep
      have howning := h.owning
      rw [howner] at howning
      exact ⟨h.fifo, h.max, h.staffed, howning.join hguard.1 hguard.2⟩
    · cases hstep
  · cases hstep

-- A caller only waits in addJob while the pool is in use.
theorem Inv.addAgain {caller : Nat} {job : ψ} {pick : Option Thread} {answer : Option Bool} (h : Inv p)
    (hstep : addAgain p caller job pick = some (answer, next)) : Inv next := by
  obtain ⟨⟨_, jobq⟩, hagain, hnext⟩ := Option.map_eq_some_iff.mp hstep
  cases hnext
  obtain ⟨c, hresume, henq⟩ := Fifo.enqAgain_some hagain
  have hlive : p.owner = .live := by
    by_contra hlive
    have hmem := ((CondVar.resume_threads hresume).symm.trans (h.owning.waits hlive)).mem_iff.mp List.mem_cons_self
    cases howner : p.owner <;> simp [howner, Owner.waits] at hmem
  have howning := h.owning
  rw [hlive] at howning
  have hmax := Fifo.enq_max henq
  refine ⟨h.fifo.enqAgain hagain, hmax.trans h.max, workers_enq henq h.staffed, ?_⟩
  change Owning p.nthreads p.owner p.worker jobq.hasSpaceC.threads jobq.entered
  rw [hlive]
  rcases Fifo.enq_cases henq with ⟨-, -, c, -, rfl⟩ | ⟨-, -, -, -, rfl⟩ | ⟨-, -, -, -, rfl⟩
  · exact howning.add.block
  · exact howning.block
  · exact howning.block

theorem Inv.pillAgain {pick : Option Thread} (h : Inv p) (hstep : pillAgain p pick = some next) : Inv next := by
  unfold ThrPool.pillAgain at hstep
  split at hstep
  · rename_i index howner
    obtain ⟨⟨answer, jobq⟩, hagain, rfl⟩ := Option.map_eq_some_iff.mp hstep
    obtain ⟨c, hresume, henq⟩ := Fifo.enqAgain_some hagain
    have hspace : c.threads.Perm [] := by
      have hwaits := h.owning.waits (by simp [howner])
      rw [howner] at hwaits
      exact ((CondVar.resume_threads hresume).symm.trans hwaits).cons_inv
    have hmax := Fifo.enq_max henq
    exact ⟨h.fifo.enqAgain hagain, hmax.trans h.max, workers_enq henq h.staffed,
      owning_enq henq hspace (.inr howner) h.owning⟩
  · cases hstep

theorem Inv.step {event : Event ψ} (h : Inv p) (hstep : Step p event next) : Inv next := by
  cases event with
  | addJob caller job pick =>
      obtain ⟨⟨answer, _⟩, hadd, rfl⟩ := Option.map_eq_some_iff.mp hstep
      exact h.addJob hadd
  | addAgain caller job pick =>
      obtain ⟨⟨answer, _⟩, hadd, rfl⟩ := Option.map_eq_some_iff.mp hstep
      exact h.addAgain hadd
  | takeJob index pick => exact h.takeJob hstep
  | takeAgain index pick => exact h.takeAgain hstep
  | finish index => exact h.finish hstep
  | destroy => exact h.destroy hstep
  | pill pick => exact h.pill hstep
  | pillAgain pick => exact h.pillAgain hstep
  | join => exact h.join hstep
  | enqReturns thread item =>
      obtain ⟨jobq, hreturns, rfl⟩ := Option.map_eq_some_iff.mp hstep
      obtain ⟨c, hwake, rfl⟩ := Option.map_eq_some_iff.mp hreturns
      exact ⟨h.fifo.step hreturns, h.max, h.staffed, h.owning.perm (CondVar.wake_threads hwake)⟩
  | deqReturns thread =>
      obtain ⟨jobq, hreturns, rfl⟩ := Option.map_eq_some_iff.mp hstep
      obtain ⟨c, hwake, rfl⟩ := Option.map_eq_some_iff.mp hreturns
      exact ⟨h.fifo.step hreturns, h.max, h.staffed.perm (CondVar.wake_threads hwake), h.owning⟩

end Steps

section Reached

variable [DecidableEq ψ] {sz : Nat} {blocking : Bool} {p : Pool ψ}

theorem reachable_inv (hr : Reachable Step (initial sz blocking) p) : Inv p :=
  hr.invariant Inv (fun _ => initial_inv) fun _ _ _ h hstep => h.step hstep

-- Jobs start in the order in which they were accepted, and each of them is run once.
theorem jobs_run_once (hr : Reachable Step (initial sz blocking) p) :
    p.accepted = p.started ++ p.queued ∧ (p.finished : Multiset ψ) + p.running = p.started := by
  have h := reachable_inv hr
  refine ⟨?_, h.staffed.jobs⟩
  rw [Pool.accepted, ← h.fifo.order, List.reduceOption_append]
  rfl

-- A worker runs the first of two jobs.
theorem jobs_run_once_busy : ∃ p : Pool Nat, p.accepted = [7, 8] ∧ p.queued = [8] ∧ p.started = [7] ∧
    p.finished + p.running = p.started := by
  have hstart : Reachable Step (initial 1 true)
      ({ nthreads := 1, blockadd := true, jobq := { max := 100 } } : Pool Nat) := .start rfl
  have hexec : (execute step ({ nthreads := 1, blockadd := true, jobq := { max := 100 } } : Pool Nat)
      [.takeJob 0 none, .addJob 0 7 (some (.worker 0)), .addJob 1 8 none, .takeAgain 0 none]).map
      (fun p => (p.accepted, p.queued, p.started)) = some ([7, 8], [8], [7]) := by decide
  obtain ⟨p, hp, hfields⟩ := Option.map_eq_some_iff.mp hexec
  simp only [Prod.mk.injEq] at hfields
  exact ⟨p, hfields.1, hfields.2.1, hfields.2.2, (jobs_run_once (hstart.computed hp)).2⟩

end Reached

end CseLabs.ThrPool
