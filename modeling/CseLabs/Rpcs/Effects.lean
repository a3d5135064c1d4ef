import CseLabs.Rpcs.References

namespace CseLabs.Rpcs

open Connections (Outcome Conn Io)

-- Steps of the connections by themselves.
def Moves (net after : Net) : Prop :=
  Reachable (Guarded Connections.Patient Connections.Step) (fun start => start = net) after

-- What a step of the server can do. It makes calls on connections. A new pointer is a copy of one that is not an
-- entry of conns_, or points to a connection that is new or not dead. A job that has left stays.
structure Effect (s next : State) : Prop where
  moves : Moves s.net next.net
  pointers : ∀ o k, next.refs o = some k → s.refs o = some k ∨ (∃ o', s.refs o' = some k ∧ ∀ fd, o' ≠ .entry fd) ∨
    ∀ c, s.net.conns k = some c → c.dead = false
  left : ∀ id job, s.jobs id = some job → job.phase = .left →
    next.jobs id = some job ∧ next.refs (.job id) = s.refs (.job id)

-- A step of another thread than the one in process_accept.
structure Serves (s next : State) : Prop extends Effect s next where
  accepting : next.refs .accepting = s.refs .accepting
  entry : ∀ fd, next.refs (.entry fd) = s.refs (.entry fd)
  cursor : next.cursor = s.cursor

section Moves

variable {net mid after : Net} {event : Connections.Event Owner}

theorem Moves.refl (net : Net) : Moves net net := .start rfl

theorem Moves.trans (h : Moves net mid) (h' : Moves mid after) : Moves net after := by
  obtain ⟨events, run⟩ := h'
  exact h.follow run

theorem Moves.one (h : Connections.step net event = some (.goes after)) (hpatient : Connections.Patient net event) :
    Moves net after := by
  exact (Moves.refl net).extend ⟨hpatient, Connections.Step_of_step h⟩

theorem Moves.lasts (h : Moves net after) : Connections.Lasts net after := by
  refine h.invariant (fun later => Connections.Lasts net later) ?_ ?_
  · rintro start rfl
    exact .refl start
  · intro later event next hlasts hstep
    exact hlasts.trans (Connections.step_lasts hstep.2)

end Moves

section Goes

variable {nonce : Nat} {s next : State} {id k : Nat} {job : Job}

theorem perform_goes {net : Net} {event : Connections.Event Owner} {f : Net → Outcome State}
    (h : perform net event f = .goes next) :
    ∃ after, Connections.step net event = some (.goes after) ∧ f after = .goes next := by
  unfold perform at h
  split at h
  · rename_i after hafter
    exact ⟨after, hafter, h⟩
  · cases h
  · cases h

theorem look_goes {f : Conn Owner → Outcome State} (h : s.look k f = .goes next) :
    ∃ c, s.net.conns k = some c ∧ f c = .goes next := by
  unfold State.look at h
  split at h
  · rename_i c hk
    split at h
    · cases h
    · exact ⟨c, hk, h⟩
  · cases h

theorem update_from {refs : Owner → Option Nat} {o o' : Owner} {v : Option Nat}
    (h : Function.update refs o v o' = some k) : v = some k ∨ refs o' = some k := by
  by_cases heq : o' = o
  · rw [heq, Function.update_self] at h
    exact .inl h
  · rw [Function.update_of_ne heq] at h
    exact .inr h

theorem keeps_turn {job' : Option Job} (hjob : ∀ old, s.jobs id = some old → old.phase ≠ .left) (i : Nat) (other : Job)
    (hi : s.jobs i = some other) (hleft : other.phase = .left) :
    Function.update s.jobs id job' i = some other ∧ Owner.job i ≠ .job id := by
  have hne : i ≠ id := by
    rintro rfl
    exact hjob other hi hleft
  exact ⟨by rw [Function.update_of_ne hne, hi], by simpa using hne⟩

-- No pointer changes.
theorem Effect.same (hmoves : Moves s.net next.net) (hrefs : next.refs = s.refs)
    (hjobs : ∀ i other, s.jobs i = some other → other.phase = .left → next.jobs i = some other) : Effect s next :=
  ⟨hmoves, fun _ _ h => .inl (hrefs ▸ h), fun i other hi hleft => ⟨hjobs i other hi hleft, congrFun hrefs _⟩⟩

-- One pointer is set.
theorem Effect.point {o : Owner} {v : Option Nat} (hmoves : Moves s.net next.net)
    (hrefs : next.refs = Function.update s.refs o v)
    (hjobs : ∀ i other, s.jobs i = some other → other.phase = .left → next.jobs i = some other ∧ .job i ≠ o)
    (hv : ∀ k, v = some k → (∃ o', s.refs o' = some k ∧ ∀ fd, o' ≠ .entry fd) ∨
      ∀ c, s.net.conns k = some c → c.dead = false) : Effect s next := by
  refine ⟨hmoves, fun o' j hj => ?_, fun i other hi hleft => ?_⟩
  · rw [hrefs] at hj
    exact (update_from hj).elim (fun hnew => .inr (hv j hnew)) .inl
  · obtain ⟨hsame, hne⟩ := hjobs i other hi hleft
    exact ⟨hsame, by rw [hrefs, Function.update_of_ne hne]⟩

theorem Serves.same (hmoves : Moves s.net next.net) (hrefs : next.refs = s.refs) (hcursor : next.cursor = s.cursor)
    (hjobs : ∀ i other, s.jobs i = some other → other.phase = .left → next.jobs i = some other) : Serves s next :=
  ⟨.same hmoves hrefs hjobs, congrFun hrefs _, fun _ => congrFun hrefs _, hcursor⟩

theorem Serves.point {o : Owner} {v : Option Nat} (hmoves : Moves s.net next.net)
    (hrefs : next.refs = Function.update s.refs o v) (hcursor : next.cursor = s.cursor)
    (ho : .accepting ≠ o ∧ ∀ fd, .entry fd ≠ o)
    (hjobs : ∀ i other, s.jobs i = some other → other.phase = .left → next.jobs i = some other ∧ .job i ≠ o)
    (hv : ∀ k, v = some k → (∃ o', s.refs o' = some k ∧ ∀ fd, o' ≠ .entry fd) ∨
      ∀ c, s.net.conns k = some c → c.dead = false) : Serves s next := by
  refine ⟨.point hmoves hrefs hjobs hv, ?_, fun fd => ?_, hcursor⟩
  · rw [hrefs, Function.update_of_ne ho.1]
  · rw [hrefs, Function.update_of_ne (ho.2 fd)]

theorem accept_effect {fd : Nat} {now : Timeval} (h : accept s k fd now = some (.goes next)) : Effect s next := by
  unfold accept at h
  split at h
  · rename_i hguard
    obtain ⟨net, hnet, hgoes⟩ := perform_goes (Option.some.inj h)
    cases hgoes
    refine .point (.one hnet trivial) rfl (fun i other hi _ => ⟨hi, by simp⟩) fun j hj => .inr fun c hc => ?_
    rw [← Option.some.inj hj, Option.isNone_iff_eq_none.mp hguard.2.1] at hc
    cases hc
  · cases h

theorem collect_effect (h : collect s = some (.goes next)) : Effect s next := by
  unfold collect at h
  split at h
  · split at h
    · cases h
      exact .same (.refl _) rfl fun _ _ hi _ => hi
    · obtain ⟨c, -, hc⟩ := look_goes (Option.some.inj h)
      split at hc
      · obtain ⟨net, hnet, hgoes⟩ := perform_goes hc
        cases hgoes
        exact .point (.one hnet trivial) rfl (fun i other hi _ => ⟨hi, by simp⟩) (by simp)
      · cases hc
        exact .same (.refl _) rfl fun _ _ hi _ => hi
  · cases h

theorem enter_effect (h : enter s = some (.goes next)) : Effect s next := by
  unfold enter at h
  split at h
  · obtain ⟨k, hk, hgo⟩ := Option.map_eq_some_iff.mp h
    obtain ⟨c, -, hc⟩ := look_goes hgo
    obtain ⟨net, hnet, hgoes⟩ := perform_goes hc
    cases hgoes
    refine ⟨.one hnet trivial, fun o j hj => ?_, fun i other hi _ => ⟨hi, ?_⟩⟩
    · rcases update_from hj with hnew | hold
      · cases hnew
        exact .inr (.inl ⟨.accepting, hk, by simp⟩)
      · rcases update_from hold with hnew | hold
        · cases hnew
        · exact .inl hold
    · simp [State.point]
  · cases h

theorem gotPdu_serves {ok room : Bool} {header : Header} (h : gotPdu s id ok header room = some (.goes next)) :
    Serves s next := by
  unfold gotPdu at h
  split at h
  · rename_i fd k readable writable hloop
    split at h
    · rename_i hnew
      obtain ⟨c, hk, hc⟩ := look_goes (Option.some.inj h)
      split at hc
      · obtain ⟨net, hnet, hgoes⟩ := perform_goes hc
        cases hgoes
        exact .same (.one hnet trivial) rfl rfl fun _ _ hi _ => hi
      · rename_i hgot
        obtain ⟨net, hnet, hgoes⟩ := perform_goes hc
        cases hgoes
        refine .point (.one hnet trivial) rfl rfl (by simp) (keeps_turn ?_) fun j hj => .inr fun d hd => ?_
        · simp [Option.isNone_iff_eq_none.mp hnew]
        · rw [← Option.some.inj hj, hk] at hd
          cases hd
          simpa using (not_or.mp hgot).1
    · cases h
  · cases h

section Jobs

variable (hjob : s.jobs id = some job) (hk : s.refs (.job id) = some k)

include hjob

theorem unleft (hphase : job.phase ≠ .left) (old : Job) (hold : s.jobs id = some old) : old.phase ≠ .left := by
  rw [hjob] at hold
  cases hold
  exact hphase

-- The job takes a step.
theorem turn_serves {net : Net} {phase : Phase} (hphase : job.phase ≠ .left) (hmoves : Moves s.net net) :
    Serves s ({ s with net := net }.turn id job phase) :=
  .same hmoves rfl rfl fun i other hi hleft => (keeps_turn (unleft hjob hphase) i other hi hleft).1

theorem drop_serves (hphase : job.phase ≠ .left) (h : drop s id k = .goes next) : Serves s next := by
  obtain ⟨net, hnet, hgoes⟩ := perform_goes h
  cases hgoes
  exact .point (.one hnet trivial) rfl rfl (by simp) (keeps_turn (unleft hjob hphase)) (by simp)

theorem begin_serves (hphase : job.phase = .queued) (h : begin nonce s id job k = .goes next) : Serves s next := by
  have hleft : job.phase ≠ .left := by simp [hphase]
  unfold begin at h
  split at h
  · exact drop_serves hjob hleft h
  · split at h
    · cases h
      exact turn_serves hjob hleft (.refl _)
    · split at h
      · cases h
      · split at h <;> cases h <;> exact turn_serves hjob hleft (.refl _)

include hk in
theorem save_serves {net : Net} (hphase : job.phase = .remembering) (hmoves : Moves s.net net)
    (h : save s id job k net = .goes next) : Serves s next := by
  obtain ⟨after, hafter, hgoes⟩ := perform_goes h
  cases hgoes
  refine .point (hmoves.trans (.one hafter trivial)) rfl rfl (by simp) (fun i other hi hleft => ?_) fun j hj => .inl ?_
  · exact ⟨(keeps_turn (unleft hjob (by simp [hphase])) i other hi hleft).1, by simp⟩
  · exact ⟨.job id, hj ▸ hk, by simp⟩

include hk in
theorem remember_serves (hphase : job.phase = .remembering) (h : remember s id job k = .goes next) :
    Serves s next := by
  unfold remember at h
  split at h
  · exact save_serves hjob hk hphase (.refl _) h
  · obtain ⟨c, -, hc⟩ := look_goes h
    split at hc
    · obtain ⟨net, hnet, hgoes⟩ := perform_goes hc
      exact save_serves hjob hk hphase (.one hnet trivial) hgoes
    · cases hc
      exact turn_serves hjob (by simp [hphase]) (.refl _)

theorem choose_serves (hphase : job.phase = .choosing) (h : choose s id job k = .goes next) : Serves s next := by
  have hunleft : job.phase ≠ .left := by simp [hphase]
  obtain ⟨c, -, hc⟩ := look_goes h
  split at hc
  · obtain ⟨net, hnet, hswitch⟩ := perform_goes hc
    unfold switch at hswitch
    split at hswitch
    · cases hswitch
    · rename_i heir hheir
      obtain ⟨after, hafter, hgoes⟩ := perform_goes hswitch
      cases hgoes
      refine .point ((Moves.one hnet trivial).trans (.one hafter trivial)) rfl rfl (by simp) (keeps_turn (unleft hjob hunleft))
        fun j hj => .inl ?_
      exact ⟨_, hj ▸ hheir, by simp⟩
  · cases hc
    exact turn_serves hjob hunleft (.refl _)

theorem leave_serves {old : Bool} (hphase : job.phase = .leaving old) (h : leave s id job k old = some (.goes next)) :
    Serves s next := by
  have hunleft : job.phase ≠ .left := by simp [hphase]
  unfold leave at h
  split at h
  · have hgoes := Option.some.inj h
    split at hgoes
    · cases hgoes
      exact turn_serves hjob hunleft (.refl _)
    · exact drop_serves hjob hunleft hgoes
  · cases h

end Jobs

theorem dispatch_serves {act : Act} (h : dispatch nonce s id act = some (.goes next)) : Serves s next := by
  obtain ⟨⟨job, k⟩, htask, hr⟩ := Option.bind_eq_some_iff.mp h
  obtain ⟨hjob, hk⟩ := task_some htask
  simp only at hr
  split at hr
  · rename_i hphase
    exact begin_serves hjob hphase (Option.some.inj hr)
  · rename_i hphase
    exact remember_serves hjob hk hphase (Option.some.inj hr)
  · rename_i stat hphase
    cases hr
    exact turn_serves hjob (by simp [hphase]) (.refl _)
  · rename_i ret hphase
    have hgoes := Option.some.inj hr
    unfold ran at hgoes
    split at hgoes
    · cases hgoes
    · cases hgoes
      exact turn_serves hjob (by simp [hphase]) (.refl _)
  · rename_i hphase
    exact choose_serves hjob hphase (Option.some.inj hr)
  · rename_i old sz io hphase
    obtain ⟨net, hnet, hgoes⟩ := perform_goes (Option.some.inj hr)
    cases hgoes
    exact turn_serves hjob (by simp [hphase]) (.one hnet trivial)
  · rename_i old hphase
    exact leave_serves hjob hphase hr
  · cases hr

-- The events of the thread in process_accept.
def Event.listens : Event → Bool
  | .accept _ _ _ | .collect | .enter => true
  | .reg1 _ | .gotPdu _ _ _ _ | .dispatch _ _ | .inner _ => false

theorem step_serves {event : Event} (hpatient : Patient s event) (hother : event.listens = false)
    (h : Step nonce s event next) : Serves s next := by
  have hstep := step_of_Step h
  cases event with
  | reg1 proc =>
      have hgoes := Option.some.inj hstep
      unfold reg1 at hgoes
      split at hgoes
      · cases hgoes
      · cases hgoes
        exact .same (.refl _) rfl rfl fun _ _ hi _ => hi
  | gotPdu id ok header room => exact gotPdu_serves hstep
  | dispatch id act => exact dispatch_serves hstep
  | inner event =>
      simp only [step] at hstep
      split at hstep
      · split at hstep
        · rename_i net hnet
          cases hstep
          exact .same (.one hnet hpatient) rfl rfl fun _ _ hi _ => hi
        · cases hstep
        · cases hstep
      · cases hstep
  | _ => cases hother

theorem step_effect {event : Event} (hpatient : Patient s event) (h : Step nonce s event next) : Effect s next := by
  cases hother : event.listens with
  | false => exact (step_serves hpatient hother h).toEffect
  | true =>
      have hstep := step_of_Step h
      cases event with
      | accept k fd now => exact accept_effect hstep
      | collect => exact collect_effect hstep
      | enter => exact enter_effect hstep
      | _ => cases hother

end Goes

end CseLabs.Rpcs
