import CseLabs.Occ.Serializable

namespace CseLabs.Occ

open Ydb

variable {ec : Slot → Str} {events : List Event} {s next : State} {id other : Tid} {event : Event}
  {slot : Slot} {value : Str}

-- Only the loop over a write_log changes the store.
theorem step_ec (hs : Step s event next) : next.ec = s.ec ∨
    ∃ id ino value rest, event = .put id ∧ s.pc id = .writing ((ino, value) :: rest) ∧
      next.ec = Function.update s.ec ino value := by
  unfold Step Occ.step at hs
  cases event with
  | begin =>
      obtain rfl := begin_cases hs
      exact .inl rfl
  | call id call =>
      left
      obtain ⟨-, ⟨-, rfl⟩ | ⟨info, -, ⟨key, rfl, rfl⟩ | ⟨ino, value, -, rfl⟩ | ⟨-, rfl⟩ | ⟨-, rfl⟩⟩⟩ := receive_cases hs
      · rfl
      · obtain ⟨value, -, hget⟩ | ⟨old, -, -, hget⟩ | ⟨-, -, hget⟩ := get_cases s id info key <;> rw [hget] <;> rfl
      · rfl
      · rfl
      · rfl
  | commitStart id =>
      obtain ⟨info, -, -, -, rfl⟩ := commitStart_cases hs
      exact .inl rfl
  | validate id =>
      obtain ⟨ino, value, rest, -, ⟨-, rfl⟩ | ⟨-, rfl⟩⟩ | ⟨info, -, -, rfl⟩ := validate_cases hs
      · exact .inl rfl
      · exact .inl rfl
      · exact .inl rfl
  | put id =>
      obtain ⟨ino, value, rest, hpc, rfl⟩ | ⟨-, rfl⟩ := put_cases hs
      · exact .inr ⟨id, ino, value, rest, rfl, hpc, rfl⟩
      · exact .inl rfl

-- The transaction has the value of the slot in its read_log and is not past validation.
def Relies (s : State) (id : Tid) (slot : Slot) (value : Str) : Prop :=
  (∃ info, s.transactionInfos id = some info ∧ info.readLog slot = some value) ∧
    (s.pc id).isWriting = false

-- A get of the slot reads this value from the store and makes the entry of read_log.
def FirstGet (s : State) (id : Tid) (slot : Slot) (value : Str) : Prop :=
  ∃ info, s.pc id = .idle ∧ s.transactionInfos id = some info ∧ info.readLog slot = none ∧
    info.writeLog slot = none ∧ s.ec slot = value

theorem not_writing_of_idle (hidle : s.pc id = .idle) : (s.pc id).isWriting = false := by
  rw [hidle]
  rfl

-- What a transaction relies on after a step, it has relied on before or got just now.
theorem relies_of_step (hs : Step s event next) (h : Relies next id slot value) :
    Relies s id slot value ∨
      ∃ key, event = .call id (.get key) ∧ hashOcc key = slot ∧ FirstGet s id slot value := by
  obtain ⟨⟨info', hinfo', hread⟩, hwriting⟩ := h
  by_cases hne : id = actor s event
  swap
  · obtain ⟨hpc, hinfos⟩ := step_frame hs hne
    exact .inl ⟨⟨info', hinfos ▸ hinfo', hread⟩, hpc ▸ hwriting⟩
  unfold Step Occ.step at hs
  cases event with
  | begin =>
      obtain rfl := begin_cases hs
      obtain rfl : id = s.transId := hne
      simp only [setInfo_infos_self, Option.some.injEq] at hinfo'
      subst hinfo'
      cases hread
  | call id' call =>
      obtain rfl : id = id' := hne
      obtain ⟨hidle, ⟨hnone, rfl⟩ | ⟨info, hinfo, hcall⟩⟩ := receive_cases hs
      · rw [reply_infos, hnone] at hinfo'
        cases hinfo'
      have hold : info'.readLog = info.readLog → Relies s id slot value := by
        intro hsame
        exact ⟨⟨info, hinfo, hsame ▸ hread⟩, not_writing_of_idle hidle⟩
      obtain ⟨key, rfl, rfl⟩ | ⟨ino, value, -, rfl⟩ | ⟨-, rfl⟩ | ⟨-, rfl⟩ := hcall
      · obtain ⟨out, -, hget⟩ | ⟨old, -, -, hget⟩ | ⟨hwrite, hnone, hget⟩ := get_cases s id info key
        · rw [hget, reply_infos, hinfo] at hinfo'
          cases hinfo'
          exact .inl (hold rfl)
        · rw [hget, reply_infos, setInfo_infos_self] at hinfo'
          cases hinfo'
        · rw [hget, reply_infos, setInfo_infos_self] at hinfo'
          cases hinfo'
          by_cases he : slot = hashOcc key
          · subst he
            simp only [Function.update_self, Option.some.injEq] at hread
            exact .inr ⟨key, rfl, rfl, info, hidle, hinfo, hnone, hwrite, hread⟩
          · simp only [Function.update_of_ne he] at hread
            exact .inl ⟨⟨info, hinfo, hread⟩, not_writing_of_idle hidle⟩
      · rw [reply_infos, setInfo_infos_self] at hinfo'
        cases hinfo'
        exact .inl (hold rfl)
      · cases hinfo.symm.trans hinfo'
        exact .inl (hold rfl)
      · rw [reply_infos, setInfo_infos_self] at hinfo'
        cases hinfo'
  | commitStart id' =>
      obtain rfl : id = id' := hne
      obtain ⟨info, hpc, hinfo, -, rfl⟩ := commitStart_cases hs
      exact .inl ⟨⟨info', hinfo', hread⟩, by rw [hpc]; rfl⟩
  | validate id' =>
      obtain rfl : id = id' := hne
      obtain ⟨ino, value, rest, hpc, ⟨-, rfl⟩ | ⟨-, rfl⟩⟩ | ⟨info, -, -, rfl⟩ := validate_cases hs
      · exact .inl ⟨⟨info', hinfo', hread⟩, by rw [hpc]; rfl⟩
      · rw [reply_infos, setInfo_infos_self] at hinfo'
        cases hinfo'
      · rw [setPc_pc_self] at hwriting
        cases hwriting
  | put id' =>
      obtain rfl : id = id' := hne
      obtain ⟨ino, value, rest, -, rfl⟩ | ⟨-, rfl⟩ := put_cases hs
      · rw [setPc_pc_self] at hwriting
        cases hwriting
      · rw [reply_infos, setInfo_infos_self] at hinfo'
        cases hinfo'

-- Validation compares entries of read_log only.
def Checks (s : State) : Prop :=
  ∀ id rest slot value, s.pc id = .validating rest → (slot, value) ∈ rest → Relies s id slot value

theorem Checks.step (h : Checks s) (hinv : Inv ec s) (hs : Step s event next) : Checks next := by
  intro id rest slot value hpc hmem
  by_cases hne : id = actor s event
  swap
  · obtain ⟨hframe, hinfos⟩ := step_frame hs hne
    rw [hframe] at hpc
    obtain ⟨hlog, hwriting⟩ := h id rest slot value hpc hmem
    exact ⟨hinfos ▸ hlog, hframe ▸ hwriting⟩
  have hvalidating : (next.pc id).isWriting = false := by
    rw [hpc]
    rfl
  refine ⟨?_, hvalidating⟩
  unfold Step Occ.step at hs
  cases event with
  | begin =>
      obtain rfl := begin_cases hs
      obtain rfl : id = s.transId := hne
      have hpc : s.pc s.transId = .validating rest := hpc
      have hlive := (hinv.own s.transId).busy (by simp [hpc])
      exact absurd ((hinv.own s.transId).born hlive) (lt_irrefl _)
  | call id' call =>
      obtain rfl : id = id' := hne
      obtain ⟨-, ⟨-, rfl⟩ | ⟨info, -, ⟨key, rfl, rfl⟩ | ⟨ino, value, -, rfl⟩ | ⟨-, rfl⟩ | ⟨-, rfl⟩⟩⟩ := receive_cases hs
      · rw [reply_pc_self] at hpc
        cases hpc
      · obtain ⟨out, -, hget⟩ | ⟨old, -, -, hget⟩ | ⟨-, -, hget⟩ := get_cases s id info key <;>
          rw [hget, reply_pc_self] at hpc <;> cases hpc
      · rw [reply_pc_self] at hpc
        cases hpc
      · rw [setPc_pc_self] at hpc
        cases hpc
      · rw [reply_pc_self] at hpc
        cases hpc
  | commitStart id' =>
      obtain rfl : id = id' := hne
      obtain ⟨info, -, hinfo, -, rfl⟩ := commitStart_cases hs
      rw [setPc_pc_self, Pc.validating.injEq] at hpc
      rw [← hpc] at hmem
      exact ⟨info, hinfo, mem_entries.mp hmem⟩
  | validate id' =>
      obtain rfl : id = id' := hne
      obtain ⟨ino, old, rest', hold, ⟨-, rfl⟩ | ⟨-, rfl⟩⟩ | ⟨info, -, -, rfl⟩ := validate_cases hs
      · rw [setPc_pc_self] at hpc
        cases hpc
        exact (h id _ slot value hold (List.mem_cons_of_mem _ hmem)).1
      · rw [reply_pc_self] at hpc
        cases hpc
      · rw [setPc_pc_self] at hpc
        cases hpc
  | put id' =>
      obtain rfl : id = id' := hne
      obtain ⟨ino, old, rest', -, rfl⟩ | ⟨-, rfl⟩ := put_cases hs
      · rw [setPc_pc_self] at hpc
        cases hpc
      · rw [reply_pc_self] at hpc
        cases hpc

-- A call is refused only when an entry of read_log is no longer what the store has.
theorem abort_of_step (h : Checks s) (hs : Step s event next) {reply : Reply} (hreply : reply ∈ next.replies)
    (habort : reply.status = .ABORT) :
    reply ∈ s.replies ∨ next.replies = s.replies ++ [reply] ∧
      ∃ slot value, Relies s reply.id slot value ∧ s.ec slot ≠ value := by
  have hanswer : ∀ {id call status value}, reply ∈ s.replies ++ [⟨id, call, status, value⟩] →
      status ≠ .ABORT → reply ∈ s.replies := by
    intro id call status value hmem hstatus
    rcases List.mem_append.mp hmem with hmem | hmem
    · exact hmem
    · rw [List.mem_singleton.mp hmem] at habort
      exact absurd habort hstatus
  unfold Step Occ.step at hs
  cases event with
  | begin =>
      obtain rfl := begin_cases hs
      exact .inl hreply
  | call id call =>
      obtain ⟨hidle, ⟨-, rfl⟩ | ⟨info, hinfo, ⟨key, rfl, rfl⟩ | ⟨ino, value, -, rfl⟩ | ⟨-, rfl⟩ | ⟨-, rfl⟩⟩⟩ := receive_cases hs
      · exact .inl (hanswer hreply (by simp))
      · obtain ⟨out, -, hget⟩ | ⟨old, hread, hold, hget⟩ | ⟨-, -, hget⟩ := get_cases s id info key
        · rw [hget] at hreply
          exact .inl (hanswer hreply (by simp))
        · rw [hget] at hreply ⊢
          rcases List.mem_append.mp hreply with hmem | hmem
          · exact .inl hmem
          · obtain rfl := List.mem_singleton.mp hmem
            exact .inr ⟨rfl, hashOcc key, old, ⟨⟨info, hinfo, hread⟩, not_writing_of_idle hidle⟩, hold⟩
        · rw [hget] at hreply
          exact .inl (hanswer hreply (by simp))
      · exact .inl (hanswer hreply (by simp))
      · exact .inl hreply
      · exact .inl (hanswer hreply (by simp))
  | commitStart id =>
      obtain ⟨info, -, -, -, rfl⟩ := commitStart_cases hs
      exact .inl hreply
  | validate id =>
      obtain ⟨ino, value, rest, hpc, ⟨-, rfl⟩ | ⟨hold, rfl⟩⟩ | ⟨info, -, -, rfl⟩ := validate_cases hs
      · exact .inl hreply
      · rcases List.mem_append.mp hreply with hmem | hmem
        · exact .inl hmem
        · obtain rfl := List.mem_singleton.mp hmem
          exact .inr ⟨rfl, ino, value, h id _ ino value hpc List.mem_cons_self, hold⟩
      · exact .inl hreply
  | put id =>
      obtain ⟨ino, value, rest, -, rfl⟩ | ⟨-, rfl⟩ := put_cases hs
      · exact .inl hreply
      · exact .inl (hanswer hreply (by simp))

section Histories

-- The steps of the server, or those of them that meet a condition.
variable (moves : State → Event → State → Prop)

-- The run has the get that made the entry of read_log.
def HasRead (ec : Slot → Str) (events : List Event) (id : Tid) (slot : Slot) (value : Str) : Prop :=
  ∃ before key after s, events = before ++ .call id (.get key) :: after ∧ hashOcc key = slot ∧
    Run moves (· = start ec) before s ∧ FirstGet s id slot value

-- After that get the commit of another transaction has put another value, while the entry
-- was in read_log.
def Overwritten (ec : Slot → Str) (events : List Event) (id : Tid) (slot : Slot) (value : Str) : Prop :=
  ∃ before other after s written rest, events = before ++ .put other :: after ∧
    HasRead moves ec before id slot value ∧ Run moves (· = start ec) before s ∧ Relies s id slot value ∧
      s.pc other = .writing ((slot, written) :: rest) ∧ other ≠ id ∧ written ≠ value

-- The step that gives the answer, and an entry of read_log that was overwritten before it.
def ConflictIn (ec : Slot → Str) (events : List Event) (reply : Reply) : Prop :=
  ∃ before event after s next slot value, events = before ++ event :: after ∧
    Run moves (· = start ec) before s ∧ moves s event next ∧ next.replies = s.replies ++ [reply] ∧
      Relies s reply.id slot value ∧ Overwritten moves ec before reply.id slot value

-- Where the store no longer has what a transaction relies on, the run says who changed it.
def Accounted (ec : Slot → Str) (events : List Event) (s : State) : Prop :=
  ∀ id slot value, Relies s id slot value → HasRead moves ec events id slot value ∧
    (s.ec slot ≠ value → Overwritten moves ec events id slot value)

variable {moves}

theorem HasRead.snoc (h : HasRead moves ec events id slot value) (event : Event) :
    HasRead moves ec (events ++ [event]) id slot value := by
  obtain ⟨before, key, after, s, rfl, hrest⟩ := h
  exact ⟨before, key, after ++ [event], s, by simp, hrest⟩

theorem Overwritten.snoc (h : Overwritten moves ec events id slot value) (event : Event) :
    Overwritten moves ec (events ++ [event]) id slot value := by
  obtain ⟨before, other, after, s, written, rest, rfl, hrest⟩ := h
  exact ⟨before, other, after ++ [event], s, written, rest, by simp, hrest⟩

theorem ConflictIn.snoc {reply : Reply} (h : ConflictIn moves ec events reply) (event : Event) :
    ConflictIn moves ec (events ++ [event]) reply := by
  obtain ⟨before, event', after, s, next, slot, value, rfl, hrest⟩ := h
  exact ⟨before, event', after ++ [event], s, next, slot, value, by simp, hrest⟩

theorem Accounted.step (h : Accounted moves ec events s) (hrun : Run moves (· = start ec) events s)
    (hs : Step s event next) : Accounted moves ec (events ++ [event]) next := by
  intro id slot value hrelies
  rcases relies_of_step hs hrelies with hold | ⟨key, rfl, hkey, hget⟩
  · obtain ⟨hread, hover⟩ := h id slot value hold
    refine ⟨hread.snoc event, fun hdiffers => ?_⟩
    rcases step_ec hs with hsame | ⟨other, ino, written, rest, rfl, hpc, hec⟩
    · exact (hover (hsame ▸ hdiffers)).snoc event
    · rw [hec] at hdiffers
      by_cases he : slot = ino
      · subst he
        rw [Function.update_self] at hdiffers
        refine ⟨events, other, [], s, written, rest, rfl, hread, hrun, hold, hpc, ?_, hdiffers⟩
        -- the transaction that relies on the value is not writing itself
        rintro rfl
        have hwriting := hold.2
        rw [hpc] at hwriting
        cases hwriting
      · rw [Function.update_of_ne he] at hdiffers
        exact (hover hdiffers).snoc _
  · refine ⟨⟨events, key, [], s, rfl, hkey, hrun, hget⟩, fun hdiffers => ?_⟩
    obtain ⟨-, -, -, -, -, hvalue⟩ := hget
    rcases step_ec hs with hsame | ⟨_, _, _, _, hput, -, -⟩
    · exact absurd (hsame ▸ hvalue) hdiffers
    · cases hput

theorem conflict_of_run (hmoves : ∀ s event next, moves s event next → Step s event next)
    (hrun : Run moves (· = start ec) events s) :
    Inv ec s ∧ Checks s ∧ Accounted moves ec events s ∧
      ∀ reply ∈ s.replies, reply.status = .ABORT → ConflictIn moves ec events reply := by
  induction hrun with
  | start hinit =>
      obtain rfl := hinit
      refine ⟨.start ec, ?_, ?_, fun _ hreply => absurd hreply List.not_mem_nil⟩
      · intro id rest slot value hpc
        cases hpc
      · rintro id slot value ⟨⟨info, hinfo, -⟩, -⟩
        cases hinfo
  | @extend events s next event run hmove ih =>
      obtain ⟨hinv, hchecks, haccounted, hreplies⟩ := ih
      have hs := hmoves s event next hmove
      refine ⟨hinv.step hs, hchecks.step hinv hs, haccounted.step run hs, fun reply hreply habort => ?_⟩
      rcases abort_of_step hchecks hs hreply habort with hold | ⟨hnew, slot, value, hrelies, hdiffers⟩
      · exact (hreplies reply hold habort).snoc event
      · have hover := (haccounted _ _ _ hrelies).2 hdiffers
        exact ⟨events, event, [], s, next, slot, value, rfl, run, hmove, hnew, hrelies, hover⟩

end Histories

-- A transaction begins only when none is live.
def Alone (s : State) (event : Event) : Prop :=
  event = .begin → ∀ id < s.transId, (s.transactionInfos id).isNone

instance (s : State) (event : Event) : Decidable (Alone s event) :=
  inferInstanceAs (Decidable (_ → _))

-- No step but begin makes a transaction live.
theorem live_of_step (hs : Step s event next) (hlive : next.Live id) :
    s.Live id ∨ event = .begin ∧ id = s.transId := by
  by_cases hne : id = actor s event
  swap
  · exact .inl fun hnone => hlive ((step_frame hs hne).2.trans hnone)
  unfold Step Occ.step at hs
  cases event with
  | begin => exact .inr ⟨rfl, hne⟩
  | call id' call =>
      obtain rfl : id = id' := hne
      obtain ⟨-, ⟨-, rfl⟩ | ⟨info, hinfo, -⟩⟩ := receive_cases hs
      · exact .inl hlive
      · exact .inl (by simp [State.Live, hinfo])
  | commitStart id' =>
      obtain rfl : id = id' := hne
      obtain ⟨info, -, hinfo, -, -⟩ := commitStart_cases hs
      exact .inl (by simp [State.Live, hinfo])
  | validate id' =>
      obtain rfl : id = id' := hne
      obtain ⟨ino, value, rest, -, ⟨-, rfl⟩ | ⟨-, rfl⟩⟩ | ⟨info, -, hinfo, -⟩ := validate_cases hs
      · exact .inl hlive
      · exact absurd (setInfo_infos_self _ _ _) hlive
      · exact .inl (by simp [State.Live, hinfo])
  | put id' =>
      obtain rfl : id = id' := hne
      obtain ⟨ino, value, rest, -, rfl⟩ | ⟨-, rfl⟩ := put_cases hs
      · exact .inl hlive
      · exact absurd (setInfo_infos_self _ _ _) hlive

theorem alone_unique (hrun : Run (Guarded Alone Step) (· = start ec) events s) :
    ∀ id other, s.Live id → s.Live other → id = other := by
  induction hrun with
  | start hinit =>
      obtain rfl := hinit
      intro id other hlive
      exact absurd rfl hlive
  | @extend events s next event run hmove ih =>
      obtain ⟨halone, hs⟩ := hmove
      have hinv := (conflict_of_run (fun _ _ _ hmove => hmove.2) run).1
      -- at a begin nothing was live
      have hempty : event = .begin → ∀ id, ¬ s.Live id := by
        intro hbegin id hlive
        have hnone := halone hbegin id ((hinv.own id).born hlive)
        exact hlive (Option.isNone_iff_eq_none.mp hnone)
      intro id other hid hother
      rcases live_of_step hs hid with hid | ⟨hbegin, rfl⟩
      · rcases live_of_step hs hother with hother | ⟨hbegin, -⟩
        · exact ih id other hid hother
        · exact absurd hid (hempty hbegin id)
      · rcases live_of_step hs hother with hother | ⟨-, rfl⟩
        · exact absurd hother (hempty hbegin other)
        · rfl

-- Every ABORT has a conflict behind it, and transactions that do not overlap have no ABORT.
theorem abort_only_on_conflict (ec : Slot → Str) (events : List Event) (s : State)
    (hrun : Run Step (· = start ec) events s) :
    (∀ reply ∈ s.replies, reply.status = .ABORT → ConflictIn Step ec events reply) ∧
      (Run (Guarded Alone Step) (· = start ec) events s → ∀ reply ∈ s.replies, reply.status ≠ .ABORT) := by
  refine ⟨(conflict_of_run (fun _ _ _ hmove => hmove) hrun).2.2.2, fun halone reply hreply habort => ?_⟩
  have hconflict := (conflict_of_run (fun _ _ _ hmove => hmove.2) halone).2.2.2 reply hreply habort
  obtain ⟨_, _, _, _, _, slot, value, -, -, -, -, -, hover⟩ := hconflict
  obtain ⟨before, other, _, s', written, rest, -, -, hbefore, ⟨⟨info, hinfo, -⟩, -⟩, hpc, hne, -⟩ := hover
  -- the reader and the writer are both live when the value is put
  have hinv := (conflict_of_run (fun _ _ _ hmove => hmove.2) hbefore).1
  have hwriter : s'.Live other := (hinv.own other).busy (by simp [hpc])
  have hreader : s'.Live reply.id := by simp [State.Live, hinfo]
  exact hne (alone_unique hbefore other reply.id hwriter hreader)

-- The transactions of `conflicting` one after the other.
def oneByOne : List Event :=
  [.begin, .call 0 (.get []), .call 0 (.set [] [7]), .call 0 .commit, .commitStart 0, .validate 0, .validate 0,
    .put 0, .put 0, .begin, .call 1 (.get []), .call 1 (.set [] [8]), .call 1 .commit, .commitStart 1,
    .validate 1, .validate 1, .put 1, .put 1]

theorem abort_only_on_conflict_both : ConflictIn Step (fun _ => []) conflicting ⟨1, .commit, .ABORT, []⟩ ∧
    ∃ s : State, s.ec (Ydb.hash []) = [8] ∧ ∀ reply ∈ s.replies, reply.status ≠ .ABORT := by
  constructor
  · have hlast : (execute step (start fun _ => []) conflicting).map (fun s => s.replies.getLast?) =
        some (some ⟨1, .commit, .ABORT, []⟩) := by
      decide +kernel
    obtain ⟨s, hs, hreply⟩ := Option.map_eq_some_iff.mp hlast
    have hrun : Run Step (· = start fun _ => []) ([] ++ conflicting) s := Run.computed (.start rfl) hs
    exact (abort_only_on_conflict _ conflicting s hrun).1 _ (List.mem_of_getLast? hreply) rfl
  · have hlast : (execute (fun s event => if Alone s event then step s event else none)
        (start fun _ => []) oneByOne).map (fun s => s.ec (Ydb.hash [])) = some [8] := by
      decide +kernel
    obtain ⟨s, hs, hec⟩ := Option.map_eq_some_iff.mp hlast
    have halone : Run (Guarded Alone Step) (· = start fun _ => []) ([] ++ oneByOne) s :=
      Run.executed (.start rfl) hs
    have hrun : Run Step (· = start fun _ => []) oneByOne s := halone.mono fun _ _ _ hmove => hmove.2
    exact ⟨s, hec, (abort_only_on_conflict _ oneByOne s hrun).2 halone⟩

end CseLabs.Occ
