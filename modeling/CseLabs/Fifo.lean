import CseLabs.CondVar
import CseLabs.Run

namespace CseLabs

-- fifo<T> with the threads that are inside enq or deq. A thread that waits in enq keeps its element.
structure Fifo (τ α : Type*) where
  q : List α := []
  max : Nat
  nonEmptyC : CondVar τ := {}
  hasSpaceC : CondVar (τ × α) := {}
  -- what went in, and what came out with the thread that got it
  entered : List α := []
  taken : List (τ × α) := []
  deriving DecidableEq

namespace Fifo

section Model

variable {τ α : Type*} [DecidableEq τ]

-- One turn of the loop of enq with the mutex held: true or false is returned, or the thread waits.
def enq (f : Fifo τ α) (thread : τ) (e : α) (blocking : Bool) (pick : Option τ) :
    Option (Option Bool × Fifo τ α) :=
  if f.max = 0 ∨ f.q.length < f.max then
    (f.nonEmptyC.signal pick).map fun c =>
      (some true, { f with q := f.q ++ [e], nonEmptyC := c, entered := f.entered ++ [e] })
  else if blocking = true then
    some (none, { f with hasSpaceC := f.hasSpaceC.wait (thread, e) })
  else
    some (some false, f)

variable [DecidableEq α]

-- One turn of the loop of deq: an element is returned, or the thread waits.
def deq (f : Fifo τ α) (thread : τ) (pick : Option (τ × α)) : Option (Option α × Fifo τ α) :=
  match f.q with
  | [] => some (none, { f with nonEmptyC := f.nonEmptyC.wait thread })
  | e :: rest =>
      if f.max ≠ 0 ∧ rest.length < f.max then
        (f.hasSpaceC.signal pick).map fun c =>
          (some e, { f with q := rest, hasSpaceC := c, taken := f.taken ++ [(thread, e)] })
      else
        some (some e, { f with q := rest, taken := f.taken ++ [(thread, e)] })

-- pthread_cond_wait returns in enq, and its loop goes on.
def enqAgain (f : Fifo τ α) (thread : τ) (e : α) (pick : Option τ) : Option (Option Bool × Fifo τ α) :=
  (f.hasSpaceC.resume (thread, e)).bind fun c => enq { f with hasSpaceC := c } thread e true pick

-- pthread_cond_wait returns in deq.
def deqAgain (f : Fifo τ α) (thread : τ) (pick : Option (τ × α)) : Option (Option α × Fifo τ α) :=
  (f.nonEmptyC.resume thread).bind fun c => deq { f with nonEmptyC := c } thread pick

inductive Event (τ α : Type*)
  | enq (thread : τ) (e : α) (blocking : Bool) (pick : Option τ)
  | enqAgain (thread : τ) (e : α) (pick : Option τ)
  | deq (thread : τ) (pick : Option (τ × α))
  | deqAgain (thread : τ) (pick : Option (τ × α))
  -- a wait is over without a signal
  | enqReturns (thread : τ) (e : α)
  | deqReturns (thread : τ)
  deriving DecidableEq

def step (f : Fifo τ α) : Event τ α → Option (Fifo τ α)
  | .enq thread e blocking pick => (f.enq thread e blocking pick).map Prod.snd
  | .enqAgain thread e pick => (f.enqAgain thread e pick).map Prod.snd
  | .deq thread pick => (f.deq thread pick).map Prod.snd
  | .deqAgain thread pick => (f.deqAgain thread pick).map Prod.snd
  | .enqReturns thread e => (f.hasSpaceC.wake (thread, e)).map fun c => { f with hasSpaceC := c }
  | .deqReturns thread => (f.nonEmptyC.wake thread).map fun c => { f with nonEmptyC := c }

def Step (f : Fifo τ α) (event : Event τ α) (next : Fifo τ α) : Prop := f.step event = some next

-- fifo(limit)
def initial (limit : Nat) (f : Fifo τ α) : Prop := f = { max := limit }

end Model

variable {τ α : Type*}

-- The queue with the woken threads that are there for the elements and for the free places.
structure Holds (f : Fifo τ α) (takers putters : Nat) : Prop where
  order : f.taken.map Prod.snd ++ f.q = f.entered
  bound : f.max ≠ 0 → f.q.length ≤ f.max
  unbounded : f.max = 0 → f.hasSpaceC.asleep = []
  takers : f.nonEmptyC.Covers takers
  putters : f.hasSpaceC.Covers putters

def Inv (f : Fifo τ α) : Prop := f.Holds f.q.length (f.max - f.q.length)

theorem initial_inv {limit : Nat} {f : Fifo τ α} (h : initial limit f) : f.Inv := by
  subst h
  exact ⟨rfl, fun _ => Nat.zero_le _, fun _ => rfl, fun hne => absurd rfl hne, fun hne => absurd rfl hne⟩

variable [DecidableEq τ]

section Enq

variable {f next : Fifo τ α} {thread : τ} {e : α} {blocking : Bool} {pick : Option τ} {answer : Option Bool}

theorem enq_cases (h : f.enq thread e blocking pick = some (answer, next)) :
    ((f.max = 0 ∨ f.q.length < f.max) ∧ answer = some true ∧ ∃ c, f.nonEmptyC.signal pick = some c ∧
        next = { f with q := f.q ++ [e], nonEmptyC := c, entered := f.entered ++ [e] }) ∨
      (f.max ≠ 0 ∧ f.max ≤ f.q.length ∧ blocking = true ∧ answer = none ∧
        next = { f with hasSpaceC := f.hasSpaceC.wait (thread, e) }) ∨
      (f.max ≠ 0 ∧ f.max ≤ f.q.length ∧ blocking = false ∧ answer = some false ∧ next = f) := by
  unfold enq at h
  split at h
  · obtain ⟨c, hsignal, hnext⟩ := Option.map_eq_some_iff.mp h
    cases hnext
    exact .inl ⟨‹_›, rfl, c, hsignal, rfl⟩
  · rename_i hfull
    rw [not_or, not_lt] at hfull
    split at h
    · cases h
      exact .inr (.inl ⟨hfull.1, hfull.2, ‹_›, rfl, rfl⟩)
    · cases h
      exact .inr (.inr ⟨hfull.1, hfull.2, Bool.eq_false_of_not_eq_true ‹_›, rfl, rfl⟩)

theorem enq_max (h : f.enq thread e blocking pick = some (answer, next)) : next.max = f.max := by
  rcases enq_cases h with ⟨-, -, c, -, rfl⟩ | ⟨-, -, -, -, rfl⟩ | ⟨-, -, -, -, rfl⟩ <;> rfl

-- What enq leaves alone.
theorem enq_takers (h : f.enq thread e blocking pick = some (answer, next)) :
    next.nonEmptyC.threads.Perm f.nonEmptyC.threads ∧ next.taken = f.taken := by
  rcases enq_cases h with ⟨-, -, c, hsignal, rfl⟩ | ⟨-, -, -, -, rfl⟩ | ⟨-, -, -, -, rfl⟩
  · exact ⟨CondVar.signal_threads hsignal, rfl⟩
  · exact ⟨.refl _, rfl⟩
  · exact ⟨.refl _, rfl⟩

-- A call can always take its turn.
theorem exists_enq (f : Fifo τ α) (thread : τ) (e : α) (blocking : Bool) :
    ∃ pick answer next, f.enq thread e blocking pick = some (answer, next) := by
  obtain ⟨pick, c, hsignal⟩ := f.nonEmptyC.exists_signal
  refine ⟨pick, ?_⟩
  unfold enq
  split
  · exact ⟨_, _, by rw [hsignal]; rfl⟩
  · split
    · exact ⟨_, _, rfl⟩
    · exact ⟨_, _, rfl⟩

-- The thread itself may have been one of the woken ones, and puts in one element.
theorem Holds.enq (h : f.Holds f.q.length (f.max - (f.q.length + 1)))
    (hstep : f.enq thread e blocking pick = some (answer, next)) : next.Inv := by
  rcases enq_cases hstep with ⟨hroom, -, c, hsignal, rfl⟩ | ⟨hmax, hfull, -, -, rfl⟩ | ⟨hmax, hfull, -, -, rfl⟩
  · refine ⟨by simp [← h.order], fun hmax => ?_, h.unbounded, ?_, ?_⟩
    · simp only [List.length_append, List.length_singleton]
      change f.max ≠ 0 at hmax
      omega
    · simpa using h.takers.signal hsignal
    · simpa using h.putters
  · have hnone : f.max - f.q.length = 0 := by omega
    refine ⟨h.order, h.bound, fun hzero => absurd hzero hmax, h.takers, ?_⟩
    change (f.hasSpaceC.wait (thread, e)).Covers (f.max - f.q.length)
    rw [hnone]
    exact CondVar.covers_zero _
  · refine ⟨h.order, h.bound, h.unbounded, h.takers, h.putters.mono ?_⟩
    omega

theorem Inv.enq (h : f.Inv)
    (hstep : f.enq thread e blocking pick = some (answer, next)) : next.Inv := by
  have hless : f.max - (f.q.length + 1) ≤ f.max - f.q.length := by omega
  exact Holds.enq ⟨h.order, h.bound, h.unbounded, h.takers, h.putters.mono hless⟩ hstep

end Enq

variable [DecidableEq α]

section Cases

variable {f next : Fifo τ α} {thread : τ} {e : α} {blocking : Bool} {pick : Option τ}

theorem deq_cases {answer : Option α} {pick : Option (τ × α)} (h : f.deq thread pick = some (answer, next)) :
    (f.q = [] ∧ answer = none ∧ next = { f with nonEmptyC := f.nonEmptyC.wait thread }) ∨
      ∃ e rest, f.q = e :: rest ∧ answer = some e ∧
        ((f.max ≠ 0 ∧ rest.length < f.max ∧ ∃ c, f.hasSpaceC.signal pick = some c ∧
            next = { f with q := rest, hasSpaceC := c, taken := f.taken ++ [(thread, e)] }) ∨
          ((f.max = 0 ∨ f.max ≤ rest.length) ∧
            next = { f with q := rest, taken := f.taken ++ [(thread, e)] })) := by
  unfold deq at h
  split at h
  · rename_i hnil
    cases h
    exact .inl ⟨hnil, rfl, rfl⟩
  · rename_i e rest hq
    refine .inr ⟨e, rest, hq, ?_⟩
    split at h
    · rename_i hroom
      obtain ⟨c, hsignal, hnext⟩ := Option.map_eq_some_iff.mp h
      cases hnext
      exact ⟨rfl, .inl ⟨hroom.1, hroom.2, c, hsignal, rfl⟩⟩
    · rename_i hroom
      cases h
      exact ⟨rfl, .inr ⟨by omega, rfl⟩⟩

theorem deq_max {answer : Option α} {pick : Option (τ × α)} (h : f.deq thread pick = some (answer, next)) :
    next.max = f.max := by
  rcases deq_cases h with ⟨-, -, rfl⟩ | ⟨_, _, -, -, ⟨-, -, c, -, rfl⟩ | ⟨-, rfl⟩⟩ <;> rfl

-- What deq leaves alone.
theorem deq_putters {answer : Option α} {pick : Option (τ × α)} (h : f.deq thread pick = some (answer, next)) :
    next.hasSpaceC.threads.Perm f.hasSpaceC.threads ∧ next.entered = f.entered := by
  rcases deq_cases h with ⟨-, -, rfl⟩ | ⟨_, _, -, -, ⟨-, -, c, hsignal, rfl⟩ | ⟨-, rfl⟩⟩
  · exact ⟨.refl _, rfl⟩
  · exact ⟨CondVar.signal_threads hsignal, rfl⟩
  · exact ⟨.refl _, rfl⟩

theorem enqAgain_some {answer : Option Bool} (h : f.enqAgain thread e pick = some (answer, next)) :
    ∃ c, f.hasSpaceC.resume (thread, e) = some c ∧
      enq { f with hasSpaceC := c } thread e true pick = some (answer, next) :=
  Option.bind_eq_some_iff.mp h

theorem deqAgain_some {answer : Option α} {pick : Option (τ × α)} (h : f.deqAgain thread pick = some (answer, next)) :
    ∃ c, f.nonEmptyC.resume thread = some c ∧
      deq { f with nonEmptyC := c } thread pick = some (answer, next) :=
  Option.bind_eq_some_iff.mp h

theorem exists_deq (f : Fifo τ α) (thread : τ) :
    ∃ pick answer next, f.deq thread pick = some (answer, next) := by
  obtain ⟨pick, c, hsignal⟩ := f.hasSpaceC.exists_signal
  refine ⟨pick, ?_⟩
  unfold deq
  split
  · exact ⟨_, _, rfl⟩
  · split
    · exact ⟨_, _, by rw [hsignal]; rfl⟩
    · exact ⟨_, _, rfl⟩

end Cases

section Steps

variable {f next : Fifo τ α} {thread : τ} {e : α}

theorem Holds.deq {pick : Option (τ × α)} {answer : Option α} (h : f.Holds (f.q.length - 1) (f.max - f.q.length))
    (hstep : f.deq thread pick = some (answer, next)) : next.Inv := by
  rcases deq_cases hstep with ⟨hnil, -, rfl⟩ | ⟨e, rest, hq, -, ⟨hmax, hroom, c, hsignal, rfl⟩ | ⟨hmax, rfl⟩⟩
  · have hzero : f.q.length = 0 := by rw [hnil]; rfl
    refine ⟨h.order, h.bound, h.unbounded, ?_, h.putters⟩
    change (f.nonEmptyC.wait thread).Covers f.q.length
    rw [hzero]
    exact CondVar.covers_zero _
  · have hlength : f.q.length = rest.length + 1 := by rw [hq]; rfl
    have hbound := h.bound hmax
    refine ⟨?_, fun _ => hroom.le, fun hzero => absurd hzero hmax, h.takers.mono ?_, (h.putters.signal hsignal).mono ?_⟩
    · rw [← h.order, hq]
      simp
    · simp only [hlength]
      omega
    · simp only
      omega
  · have hlength : f.q.length = rest.length + 1 := by rw [hq]; rfl
    have hbound := h.bound
    refine ⟨?_, fun hne => ?_, h.unbounded, h.takers.mono ?_, h.putters.mono ?_⟩
    · rw [← h.order, hq]
      simp
    · have := hbound hne
      simp only
      omega
    · simp only [hlength]
      omega
    · simp only
      by_cases hne : f.max = 0
      · omega
      · have := hbound hne
        omega

theorem Inv.deq {pick : Option (τ × α)} {answer : Option α} (h : f.Inv)
    (hstep : f.deq thread pick = some (answer, next)) : next.Inv :=
  Holds.deq ⟨h.order, h.bound, h.unbounded, h.takers.mono (Nat.sub_le _ _), h.putters⟩ hstep

theorem Inv.enqAgain {pick : Option τ} {answer : Option Bool} (h : f.Inv)
    (hstep : f.enqAgain thread e pick = some (answer, next)) : next.Inv := by
  obtain ⟨c, hresume, henq⟩ := enqAgain_some hstep
  have hquiet : f.max = 0 → c.asleep = [] := by
    rw [(CondVar.resume_some hresume).2]
    exact h.unbounded
  have hheld : Holds { f with hasSpaceC := c } f.q.length (f.max - (f.q.length + 1)) :=
    ⟨h.order, h.bound, hquiet, h.takers, h.putters.resume hresume⟩
  exact hheld.enq henq

theorem Inv.deqAgain {pick : Option (τ × α)} {answer : Option α} (h : f.Inv)
    (hstep : f.deqAgain thread pick = some (answer, next)) : next.Inv := by
  obtain ⟨c, hresume, hdeq⟩ := deqAgain_some hstep
  have hheld : Holds { f with nonEmptyC := c } (f.q.length - 1) (f.max - f.q.length) :=
    ⟨h.order, h.bound, h.unbounded, h.takers.resume hresume, h.putters⟩
  exact hheld.deq hdeq

theorem Inv.step {event : Event τ α} (h : f.Inv) (hstep : Step f event next) : next.Inv := by
  cases event with
  | enq thread e blocking pick =>
      obtain ⟨⟨answer, _⟩, henq, rfl⟩ := Option.map_eq_some_iff.mp hstep
      exact h.enq henq
  | enqAgain thread e pick =>
      obtain ⟨⟨answer, _⟩, henq, rfl⟩ := Option.map_eq_some_iff.mp hstep
      exact h.enqAgain henq
  | deq thread pick =>
      obtain ⟨⟨answer, _⟩, hdeq, rfl⟩ := Option.map_eq_some_iff.mp hstep
      exact h.deq hdeq
  | deqAgain thread pick =>
      obtain ⟨⟨answer, _⟩, hdeq, rfl⟩ := Option.map_eq_some_iff.mp hstep
      exact h.deqAgain hdeq
  | enqReturns thread e =>
      obtain ⟨c, hwake, rfl⟩ := Option.map_eq_some_iff.mp hstep
      refine ⟨h.order, h.bound, fun hmax => ?_, h.takers, (h.putters.wake hwake).mono (Nat.le_succ _)⟩
      have hmem := (CondVar.wake_some hwake).1
      rw [h.unbounded hmax] at hmem
      exact absurd hmem List.not_mem_nil
  | deqReturns thread =>
      obtain ⟨c, hwake, rfl⟩ := Option.map_eq_some_iff.mp hstep
      exact ⟨h.order, h.bound, h.unbounded, (h.takers.wake hwake).mono (Nat.le_succ _), h.putters⟩

end Steps

theorem reachable_inv {limit : Nat} {f : Fifo τ α} (hr : Reachable Step (initial limit) f) : f.Inv :=
  hr.invariant Inv (fun _ => initial_inv) fun _ _ _ h hstep => h.step hstep

theorem step_max {f next : Fifo τ α} {event : Event τ α} (h : Step f event next) : next.max = f.max := by
  cases event with
  | enq thread e blocking pick =>
      obtain ⟨⟨answer, _⟩, henq, rfl⟩ := Option.map_eq_some_iff.mp h
      exact enq_max henq
  | enqAgain thread e pick =>
      obtain ⟨⟨answer, _⟩, hagain, rfl⟩ := Option.map_eq_some_iff.mp h
      obtain ⟨c, -, henq⟩ := enqAgain_some hagain
      have hmax := enq_max henq
      exact hmax
  | deq thread pick =>
      obtain ⟨⟨answer, _⟩, hdeq, rfl⟩ := Option.map_eq_some_iff.mp h
      exact deq_max hdeq
  | deqAgain thread pick =>
      obtain ⟨⟨answer, _⟩, hagain, rfl⟩ := Option.map_eq_some_iff.mp h
      obtain ⟨c, -, hdeq⟩ := deqAgain_some hagain
      have hmax := deq_max hdeq
      exact hmax
  | enqReturns thread e =>
      obtain ⟨c, -, rfl⟩ := Option.map_eq_some_iff.mp h
      rfl
  | deqReturns thread =>
      obtain ⟨c, -, rfl⟩ := Option.map_eq_some_iff.mp h
      rfl

theorem reachable_max {limit : Nat} {f : Fifo τ α} (hr : Reachable Step (initial limit) f) : f.max = limit := by
  refine hr.invariant (fun f => f.max = limit) ?_ fun _ _ _ h hstep => (step_max hstep).trans h
  rintro _ rfl
  rfl

-- Elements leave in the order in which they entered, none is lost or given out twice, the limit is
-- kept, and no thread sleeps over an element or a free place for which no other one is awake.
theorem fifo_faithful {limit : Nat} {f : Fifo τ α} (hr : Reachable Step (initial limit) f) :
    f.taken.map Prod.snd ++ f.q = f.entered ∧ (limit ≠ 0 → f.q.length ≤ limit) ∧
      (f.nonEmptyC.asleep ≠ [] → f.q.length ≤ f.nonEmptyC.woken.length) ∧
      (f.hasSpaceC.asleep ≠ [] → limit ≠ 0 ∧ limit - f.q.length ≤ f.hasSpaceC.woken.length) := by
  have h := reachable_inv hr
  obtain rfl := reachable_max hr
  refine ⟨h.order, h.bound, h.takers, fun hasleep => ⟨fun hmax => ?_, h.putters hasleep⟩⟩
  exact hasleep (h.unbounded hmax)

-- Thread 1 finds the queue full, and is woken when thread 2 takes the only element.
theorem fifo_faithful_full : ∃ f : Fifo Nat Nat, Reachable Step (initial 1) f ∧ f.hasSpaceC.woken = [(1, 8)] ∧
    f.taken.map Prod.snd ++ f.q = f.entered ∧ f.entered = [7] := by
  have hexec : execute step ({ max := 1 } : Fifo Nat Nat)
      [.enq 0 7 true none, .enq 1 8 true none, .deq 2 (some (1, 8))] =
      some { max := 1, hasSpaceC := { woken := [(1, 8)] }, entered := [7], taken := [(2, 7)] } := by decide
  have hstart : Reachable Step (initial 1) ({ max := 1 } : Fifo Nat Nat) := .start rfl
  have hr := hstart.computed hexec
  exact ⟨_, hr, rfl, (fifo_faithful hr).1, rfl⟩

end Fifo

end CseLabs
