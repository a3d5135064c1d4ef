import Mathlib.Algebra.BigOperators.Group.Finset.Basic
import Mathlib.Logic.Function.Basic
import Mathlib.Tactic.Abel

namespace CseLabs

section Runs

variable {σ ε : Type*}

-- A finite run from an initial state, together with the events it took.
inductive Run (step : σ → ε → σ → Prop) (init : σ → Prop) : List ε → σ → Prop
  | start {state : σ} (hinit : init state) : Run step init [] state
  | extend {events : List ε} {state next : σ} {event : ε}
      (run : Run step init events state) (hstep : step state event next) :
      Run step init (events ++ [event]) next

def Reachable (step : σ → ε → σ → Prop) (init : σ → Prop) (state : σ) : Prop :=
  ∃ events, Run step init events state

-- The runs of a system all of whose steps meet a condition on the state before
-- the step and the event.
def Guarded (allowed : σ → ε → Prop) (step : σ → ε → σ → Prop) : σ → ε → σ → Prop :=
  fun state event next => allowed state event ∧ step state event next

variable {step : σ → ε → σ → Prop} {init : σ → Prop}

theorem Run.mono {step' : σ → ε → σ → Prop} {events : List ε} {state : σ} (run : Run step init events state)
    (hstep : ∀ state event next, step state event next → step' state event next) :
    Run step' init events state := by
  induction run with
  | start hinit => exact .start hinit
  | extend _ h ih => exact .extend ih (hstep _ _ _ h)

theorem Reachable.start {state : σ} (hinit : init state) : Reachable step init state :=
  ⟨[], .start hinit⟩

theorem Reachable.extend {state next : σ} {event : ε} (hr : Reachable step init state)
    (hstep : step state event next) : Reachable step init next := by
  obtain ⟨events, run⟩ := hr
  exact ⟨events ++ [event], .extend run hstep⟩

theorem Reachable.invariant (inv : σ → Prop) (hinit : ∀ state, init state → inv state)
    (hstep : ∀ state event next, inv state → step state event next → inv next)
    {state : σ} (hr : Reachable step init state) : inv state := by
  obtain ⟨events, run⟩ := hr
  induction run with
  | start h => exact hinit _ h
  | extend _ h ih => exact hstep _ _ _ ih h

-- A run may go on from where another one ended.
theorem Reachable.follow {events : List ε} {state next : σ} (hr : Reachable step init state)
    (run : Run step (fun start => start = state) events next) : Reachable step init next := by
  induction run with
  | start h =>
      subst h
      exact hr
  | extend _ h ih => exact ih.extend h

-- Some run of these steps ends where the goal is met.
def Comes (step : σ → ε → σ → Prop) (goal : σ → Prop) (state : σ) : Prop :=
  ∃ last, Reachable step (fun start => start = state) last ∧ goal last

section Comes

variable {goal goal' : σ → Prop} {event : ε} {state next : σ}

theorem Comes.now (h : goal state) : Comes step goal state := ⟨state, .start rfl, h⟩

theorem Comes.then (h : Comes step goal state) (hgoal : ∀ last, goal last → Comes step goal' last) :
    Comes step goal' state := by
  obtain ⟨mid, hmid, hmet⟩ := h
  obtain ⟨last, ⟨events, run⟩, hlast⟩ := hgoal mid hmet
  exact ⟨last, hmid.follow run, hlast⟩

theorem Comes.later (hstep : step state event next) (h : Comes step goal next) : Comes step goal state := by
  have hstart : Reachable step (fun start => start = state) state := .start rfl
  have hnext : Comes step (fun last => last = next) state := ⟨next, hstart.extend hstep, rfl⟩
  exact hnext.then fun last hlast => hlast ▸ h

theorem Comes.mono {step' : σ → ε → σ → Prop} (h : Comes step goal state)
    (hstep : ∀ state event next, step state event next → step' state event next) : Comes step' goal state := by
  obtain ⟨last, ⟨events, run⟩, hlast⟩ := h
  exact ⟨last, ⟨events, run.mono hstep⟩, hlast⟩

end Comes

section Snoc

variable {events : List ε} {event : ε} {state other next : σ}

theorem Run.init_of_nil (run : Run step init [] state) : init state := by
  generalize hnil : ([] : List ε) = events at run
  cases run with
  | start hinit => exact hinit
  | extend _ _ => simp at hnil

theorem Run.of_snoc (run : Run step init (events ++ [event]) next) :
    ∃ state, Run step init events state ∧ step state event next := by
  generalize hsnoc : events ++ [event] = all at run
  cases run with
  | start _ => simp at hsnoc
  | extend before hstep =>
      obtain ⟨rfl, hevent⟩ := List.append_inj' hsnoc rfl
      cases hevent
      exact ⟨_, before, hstep⟩

-- A deterministic system is in one state after given events.
theorem Run.unique (hinit : ∀ first second, init first → init second → first = second)
    (hstep : ∀ state event first second, step state event first → step state event second → first = second)
    (run : Run step init events state) (run' : Run step init events other) : state = other := by
  induction run generalizing other with
  | start h => exact hinit _ _ h run'.init_of_nil
  | extend _ h ih =>
      obtain ⟨before, hbefore, h'⟩ := run'.of_snoc
      obtain rfl := ih hbefore
      exact hstep _ _ _ _ h h'

-- Where a step keeps the property exactly when it is allowed, the property holds all along a run
-- exactly when all its steps are allowed.
theorem Run.guarded_iff {allowed : σ → ε → Prop} {inv : σ → Prop}
    (hunique : ∀ first second, init first → init second → first = second)
    (hdet : ∀ state event first second, step state event first → step state event second → first = second)
    (hinit : ∀ state, init state → inv state)
    (hstep : ∀ state event next, Reachable step init state → inv state → step state event next →
      (inv next ↔ allowed state event))
    (run : Run step init events state) :
    (∀ before after mid, events = before ++ after → Run step init before mid → inv mid) ↔
      Run (Guarded allowed step) init events state := by
  induction run with
  | start h =>
      refine ⟨fun _ => .start h, fun _ before after mid hnil hmid => ?_⟩
      obtain ⟨rfl, -⟩ := List.append_eq_nil_iff.mp hnil.symm
      exact hinit mid hmid.init_of_nil
  | @extend events state next event run h ih =>
      constructor
      · intro hall
        have hguarded := ih.mp fun before after mid heq hmid =>
          hall before (after ++ [event]) mid (by simp [heq]) hmid
        have hstate := hall events [event] state rfl run
        have hnext := hall (events ++ [event]) [] next (by simp) (.extend run h)
        exact .extend hguarded ⟨(hstep state event next ⟨events, run⟩ hstate h).mp hnext, h⟩
      · intro hguarded before after mid heq hmid
        obtain ⟨state', hbefore, hallowed, h'⟩ := hguarded.of_snoc
        obtain rfl : state = state' := run.unique hunique hdet (hbefore.mono fun _ _ _ hmove => hmove.2)
        have hall := ih.mpr hbefore
        rcases List.eq_nil_or_concat after with rfl | ⟨rest, last, rfl⟩
        · rw [List.append_nil] at heq
          obtain rfl : next = mid := (Run.extend run h).unique hunique hdet (heq ▸ hmid)
          have hstate := hall events [] state (by simp) run
          exact (hstep state event next ⟨events, run⟩ hstate h).mpr hallowed
        · rw [List.concat_eq_append, ← List.append_assoc] at heq
          exact hall before rest mid (List.append_inj' heq rfl).1 hmid

end Snoc

-- Runs of a system whose steps can be computed.
def execute (step : σ → ε → Option σ) (state : σ) (events : List ε) : Option σ :=
  events.foldlM step state

section Computed

variable {compute : σ → ε → Option σ} {allowed : σ → ε → Prop} {events : List ε} {state next : σ}

theorem Run.computed {before : List ε}
    (run : Run (fun state event next => compute state event = some next) init before state)
    (h : execute compute state events = some next) :
    Run (fun state event next => compute state event = some next) init (before ++ events) next := by
  induction events generalizing before state with
  | nil =>
      cases h
      rwa [List.append_nil]
  | cons event rest ih =>
      simp only [execute, List.foldlM_cons, Option.bind_eq_bind, Option.bind_eq_some_iff] at h
      obtain ⟨mid, hmid, hrest⟩ := h
      rw [List.append_cons]
      exact ih (.extend run hmid) hrest

theorem Reachable.computed (hr : Reachable (fun state event next => compute state event = some next) init state)
    (h : execute compute state events = some next) :
    Reachable (fun state event next => compute state event = some next) init next := by
  obtain ⟨before, run⟩ := hr
  exact ⟨before ++ events, run.computed h⟩

theorem guarded_eq (compute : σ → ε → Option σ) (allowed : σ → ε → Prop)
    [∀ state event, Decidable (allowed state event)] :
    (Guarded allowed fun state event next => compute state event = some next) =
      fun state event next => (if allowed state event then compute state event else none) = some next := by
  funext state event next
  by_cases h : allowed state event <;> simp [Guarded, h]

theorem Run.executed {before : List ε} [∀ state event, Decidable (allowed state event)]
    (run : Run (Guarded allowed fun state event next => compute state event = some next) init before state)
    (h : execute (fun state event => if allowed state event then compute state event else none)
      state events = some next) :
    Run (Guarded allowed fun state event next => compute state event = some next) init (before ++ events) next := by
  rw [guarded_eq] at run ⊢
  exact run.computed h

theorem Reachable.executed [∀ state event, Decidable (allowed state event)]
    (hr : Reachable (Guarded allowed fun state event next => compute state event = some next) init state)
    (h : execute (fun state event => if allowed state event then compute state event else none)
      state events = some next) :
    Reachable (Guarded allowed fun state event next => compute state event = some next) init next := by
  obtain ⟨before, run⟩ := hr
  exact ⟨before ++ events, run.executed h⟩

theorem Reachable.guarded
    (hr : Reachable (Guarded allowed fun state event next => compute state event = some next) init state)
    (event : ε) (hallowed : allowed state event) (h : compute state event = some next) :
    Reachable (Guarded allowed fun state event next => compute state event = some next) init next := by
  have hstep : Guarded allowed (fun state event next => compute state event = some next)
    state event next := ⟨hallowed, h⟩
  exact hr.extend hstep

end Computed

end Runs

section Interleaving

variable {ι σ ε : Type*} [DecidableEq ι]

-- Components that step one at a time. The guard may look at all of them.
def Interleaved (guard : (ι → σ) → ι → ε → Prop) (step : σ → ε → σ → Prop) :
    (ι → σ) → ι × ε → (ι → σ) → Prop :=
  fun state event next =>
    guard state event.1 event.2 ∧
      ∃ after, step (state event.1) event.2 after ∧ next = Function.update state event.1 after

theorem Reachable.component {guard : (ι → σ) → ι → ε → Prop} {step : σ → ε → σ → Prop}
    {init : σ → Prop} {state : ι → σ}
    (hr : Reachable (Interleaved guard step) (fun state => ∀ index, init (state index)) state)
    (index : ι) : Reachable step init (state index) := by
  refine hr.invariant (fun state => ∀ index, Reachable step init (state index)) ?_ ?_ index
  · intro start hinit other
    exact .start (hinit other)
  · rintro before ⟨moved, event⟩ next ih ⟨-, after, hstep, rfl⟩ other
    by_cases he : other = moved
    · subst other
      simpa using (ih moved).extend hstep
    · simpa [he] using ih other

-- One component of a family has changed: the total of a weight over the family changes by it.
theorem sum_update_add {M : Type*} [AddCommMonoid M] (s : Finset ι) (state : ι → σ) (weight : σ → M) {index : ι}
    (hi : index ∈ s) (value : σ) :
    ∑ j ∈ s, weight (Function.update state index value j) + weight (state index) =
      ∑ j ∈ s, weight (state j) + weight value := by
  have hrest : ∑ j ∈ s.erase index, weight (Function.update state index value j) =
      ∑ j ∈ s.erase index, weight (state j) := by
    refine Finset.sum_congr rfl fun j hj => ?_
    rw [Function.update_of_ne (Finset.ne_of_mem_erase hj)]
  rw [← Finset.add_sum_erase s (fun j => weight (Function.update state index value j)) hi,
    ← Finset.add_sum_erase s (fun j => weight (state j)) hi, hrest, Function.update_self]
  abel

end Interleaving

end CseLabs
